import StaticCompanion.Proofs.Layout

namespace StaticCompanion

namespace Format
variable {α β : Type}

/-- Whatever is read off the front of some bytes is written as that front. -/
def WritesBack (format : Format α) : Prop :=
  ∀ ⦃bytes value rest⦄, format.read bytes = .ok (value, rest) →
    ∃ front, format.write value = .ok front ∧ bytes = front ++ rest

theorem take_eq_ok {count : Nat} {bytes front rest : Bytes} :
    Reader.take count bytes = .ok (front, rest) ↔ bytes = front ++ rest ∧ front.length = count := by
  constructor
  · intro h
    unfold Reader.take at h
    split at h
    · rename_i hsplit
      obtain rfl := Except.ok.inj h
      exact splitExact_eq_some_iff.mp hsplit
    · cases h
  · rintro ⟨rfl, hlen⟩
    exact take_append front rest hlen

theorem number_eq_ok {width n : Nat} {bytes rest : Bytes} :
    Reader.number width bytes = .ok (n, rest) ↔
      n < span width ∧ bytes = bigEndian width n ++ rest := by
  constructor
  · intro h
    obtain ⟨front, htake, rfl⟩ := stateT_map_eq_ok.mp h
    obtain ⟨rfl, rfl⟩ := take_eq_ok.mp htake
    exact ⟨ofBigEndian_lt front, by rw [bigEndian_ofBigEndian]⟩
  · rintro ⟨hn, rfl⟩
    exact number_append rest hn

theorem writesBack_u8 : u8.WritesBack := by
  intro bytes value rest h
  cases bytes with
  | nil => cases h
  | cons byte bytes =>
    obtain ⟨rfl, rfl⟩ := Prod.mk.inj (Except.ok.inj h)
    exact ⟨[byte], rfl, rfl⟩

theorem writesBack_u16 : u16.WritesBack := by
  intro bytes value rest h
  obtain ⟨n, hnumber, rfl⟩ := stateT_map_eq_ok.mp h
  obtain ⟨hn, rfl⟩ := number_eq_ok.mp hnumber
  exact ⟨_, rfl, by rw [UInt16.toNat_ofNat_of_lt' hn]⟩

theorem writesBack_u32 : u32.WritesBack := by
  intro bytes value rest h
  obtain ⟨n, hnumber, rfl⟩ := stateT_map_eq_ok.mp h
  obtain ⟨hn, rfl⟩ := number_eq_ok.mp hnumber
  exact ⟨_, rfl, by rw [UInt32.toNat_ofNat_of_lt' hn]⟩

theorem writesBack_u64 : u64.WritesBack := by
  intro bytes value rest h
  obtain ⟨n, hnumber, rfl⟩ := stateT_map_eq_ok.mp h
  obtain ⟨hn, rfl⟩ := number_eq_ok.mp hnumber
  exact ⟨_, rfl, by rw [UInt64.toNat_ofNat_of_lt' hn]⟩

theorem blob_read_eq_ok {width : Nat} {bytes payload rest : Bytes} :
    (blob width).read bytes = .ok (payload, rest) ↔ payload.length < span width ∧
      bytes = bigEndian width payload.length ++ (payload ++ rest) := by
  constructor
  · intro h
    obtain ⟨count, middle, hnumber, htake⟩ := stateT_bind_eq_ok.mp h
    obtain ⟨hcount, rfl⟩ := number_eq_ok.mp hnumber
    obtain ⟨rfl, rfl⟩ := take_eq_ok.mp htake
    exact ⟨hcount, rfl⟩
  · rintro ⟨hlen, rfl⟩
    exact stateT_bind_eq_ok.mpr ⟨_, _, number_append _ hlen, take_append payload rest rfl⟩

theorem blob_write_eq_ok {width : Nat} {bytes payload : Bytes} :
    (blob width).write payload = .ok bytes ↔ payload.length < span width ∧
      bytes = bigEndian width payload.length ++ payload := by
  simp only [blob, except_bind_eq_ok, except_pure_eq_ok, writeCount_eq_ok]
  constructor
  · rintro ⟨_, ⟨hlen, rfl⟩, rfl⟩
    exact ⟨hlen, rfl⟩
  · rintro ⟨hlen, rfl⟩
    exact ⟨_, ⟨hlen, rfl⟩, rfl⟩

theorem writesBack_blob (width : Nat) : (blob width).WritesBack := by
  intro bytes payload rest h
  obtain ⟨hlen, rfl⟩ := blob_read_eq_ok.mp h
  exact ⟨_, blob_write_eq_ok.mpr ⟨hlen, rfl⟩, by rw [List.append_assoc]⟩

theorem seq_write_eq_ok {first : Format α} {second : Format β} {pair : α × β} {bytes : Bytes} :
    (first.seq second).write pair = .ok bytes ↔ ∃ front back, first.write pair.1 = .ok front ∧
      second.write pair.2 = .ok back ∧ bytes = front ++ back := by
  simp only [Format.seq, except_bind_eq_ok, except_pure_eq_ok]
  constructor
  · rintro ⟨front, hfront, back, hback, rfl⟩
    exact ⟨front, back, hfront, hback, rfl⟩
  · rintro ⟨front, back, hfront, hback, rfl⟩
    exact ⟨front, hfront, back, hback, rfl⟩

theorem WritesBack.seq {first : Format α} {second : Format β} (hfirst : first.WritesBack)
    (hsecond : second.WritesBack) : (first.seq second).WritesBack := by
  rintro bytes ⟨a, b⟩ rest h
  obtain ⟨middle, ha, hb⟩ := seq_read_eq_ok.mp h
  obtain ⟨front, hfront, rfl⟩ := hfirst ha
  obtain ⟨back, hback, rfl⟩ := hsecond hb
  exact ⟨front ++ back, seq_write_eq_ok.mpr ⟨front, back, hfront, hback, rfl⟩,
    by rw [List.append_assoc]⟩

theorem WritesBack.front {first : Format α} {second : Format β} (h : first.WritesBack)
    {bytes rest : Bytes} {a : α} {b : β}
    (hread : (first.seq second).read bytes = .ok ((a, b), rest)) :
    ∃ front middle, first.write a = .ok front ∧ second.read middle = .ok (b, rest) ∧
      bytes = front ++ middle ∧ ∀ out, (first.seq second).write (a, b) = .ok out ↔
        ∃ back, second.write b = .ok back ∧ out = front ++ back := by
  obtain ⟨middle, ha, hb⟩ := seq_read_eq_ok.mp hread
  obtain ⟨front, hfront, rfl⟩ := h ha
  refine ⟨front, middle, hfront, hb, rfl, fun out => ?_⟩
  rw [seq_write_eq_ok, hfront]
  constructor
  · rintro ⟨_, back, hsame, hback, rfl⟩
    obtain rfl := Except.ok.inj hsame
    exact ⟨back, hback, rfl⟩
  · rintro ⟨back, hback, rfl⟩
    exact ⟨front, back, rfl, hback, rfl⟩

theorem WritesBack.back {first : Format α} {second : Format β} (h : second.WritesBack)
    {bytes rest : Bytes} {a : α} {b : β}
    (hread : (first.seq second).read bytes = .ok ((a, b), rest)) :
    ∃ back, first.read bytes = .ok (a, back ++ rest) ∧
      ∀ out, (first.seq second).write (a, b) = .ok out ↔
        ∃ front, first.write a = .ok front ∧ out = front ++ back := by
  obtain ⟨_, ha, hb⟩ := seq_read_eq_ok.mp hread
  obtain ⟨back, hback, rfl⟩ := h hb
  refine ⟨back, ha, fun out => ?_⟩
  rw [seq_write_eq_ok, hback]
  constructor
  · rintro ⟨front, _, hfront, hsame, rfl⟩
    obtain rfl := Except.ok.inj hsame
    exact ⟨front, hfront, rfl⟩
  · rintro ⟨front, hfront, rfl⟩
    exact ⟨front, back, hfront, rfl, rfl⟩

theorem WritesBack.map {format : Format α} {into : α → β} {back : β → α} (h : format.WritesBack)
    (hback : ∀ a, back (into a) = a) : (format.map into back).WritesBack := by
  intro bytes b rest hread
  obtain ⟨a, ha, rfl⟩ := stateT_map_eq_ok.mp hread
  obtain ⟨front, hfront, rfl⟩ := h ha
  refine ⟨front, ?_, rfl⟩
  change format.write (back (into a)) = .ok front
  rw [hback, hfront]

private theorem parts_of_many_go {item : Format α} (h : item.WritesBack) {count : Nat}
    {taken values : List α} {bytes rest : Bytes}
    (hread : Reader.many.go item.read count taken bytes = .ok (values, rest)) :
    ∃ read parts, values = taken.reverse ++ read ∧ read.length = count ∧
      List.Forall₂ (fun v b => item.write v = .ok b) read parts ∧
      bytes = parts.flatten ++ rest := by
  induction count generalizing taken bytes with
  | zero =>
    obtain ⟨rfl, rfl⟩ := Prod.mk.inj (Except.ok.inj hread)
    exact ⟨[], [], by simp⟩
  | succ count ih =>
    rw [Reader.many.go] at hread
    split at hread
    · rename_i value middle hitem
      obtain ⟨part, hpart, rfl⟩ := h hitem
      obtain ⟨read, parts, rfl, rfl, hparts, rfl⟩ := ih hread
      exact ⟨value :: read, part :: parts, by simp, rfl, .cons hpart hparts, by simp⟩
    · cases hread

theorem WritesBack.list {item : Format α} (width : Nat) (h : item.WritesBack) :
    (Format.list width item).WritesBack := by
  intro bytes values rest hread
  obtain ⟨count, middle, hnumber, hmany⟩ := stateT_bind_eq_ok.mp hread
  obtain ⟨hcount, rfl⟩ := number_eq_ok.mp hnumber
  obtain ⟨_, parts, rfl, rfl, hparts, rfl⟩ := parts_of_many_go h hmany
  have hwrite := list_write_eq_ok.mpr ⟨hcount, parts, hparts, rfl⟩
  exact ⟨_, hwrite, by rw [List.append_assoc]⟩

theorem WritesBack.decode {format : Format α} {value : α} {info : Bytes} (h : format.WritesBack)
    (hdecode : format.decode info = .ok value) : format.write value = .ok info := by
  unfold Format.decode at hdecode
  obtain ⟨front, hfront, rfl⟩ := h (readAll_eq_ok.mp hdecode)
  rwa [List.append_nil]

end Format

theorem Attribute.writesBack : Attribute.format.WritesBack :=
  (Format.writesBack_u16.seq (Format.writesBack_blob 4)).map fun _ => rfl

theorem Attribute.writesBack_list : Attribute.listFormat.WritesBack := Attribute.writesBack.list 2

theorem Handler.writesBack : Handler.format.WritesBack :=
  (Format.writesBack_u16.seq (Format.writesBack_u16.seq
    (Format.writesBack_u16.seq Format.writesBack_u16))).map fun _ => rfl

theorem Code.writesBack : Code.format.WritesBack :=
  (Format.writesBack_u16.seq (Format.writesBack_u16.seq ((Format.writesBack_blob 4).seq
    ((Handler.writesBack.list 2).seq Attribute.writesBack_list)))).map fun _ => rfl

theorem AccessFlags.writesBack : AccessFlags.format.WritesBack :=
  Format.writesBack_u16.map fun _ => rfl

theorem Member.writesBack : Member.format.WritesBack :=
  (AccessFlags.writesBack.seq (Format.writesBack_u16.seq
    (Format.writesBack_u16.seq Attribute.writesBack_list))).map fun _ => rfl

theorem ClassFile.writesBack_magic : magicFormat.WritesBack := by
  intro bytes _ rest h
  obtain ⟨front, middle, htake, hmagic⟩ := stateT_bind_eq_ok.mp h
  obtain ⟨rfl, -⟩ := Format.take_eq_ok.mp htake
  split at hmagic
  · rename_i hfront
    obtain ⟨-, rfl⟩ := stateT_pure_eq_ok.mp hmagic
    exact ⟨front, by rw [hfront]; rfl, rfl⟩
  · cases hmagic

end StaticCompanion
