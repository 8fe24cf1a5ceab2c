import StaticCompanion.ClassFile.Basic
import StaticCompanion.Proofs.Pool

namespace StaticCompanion

namespace Format
variable {α β : Type}

/-- Reading the bytes of this value gives the value and leaves the bytes behind them. -/
def ReadsBackAt (format : Format α) (value : α) : Prop :=
  ∀ ⦃bytes⦄, format.write value = .ok bytes →
    ∀ rest, format.read (bytes ++ rest) = .ok (value, rest)

/-- Reading the bytes of any value gives the value and leaves the bytes behind them. -/
def ReadsBack (format : Format α) : Prop := ∀ value, format.ReadsBackAt value

theorem seq_read_eq_ok {first : Format α} {second : Format β} {bytes rest : Bytes} {a : α}
    {b : β} : (first.seq second).read bytes = .ok ((a, b), rest) ↔
      ∃ middle, first.read bytes = .ok (a, middle) ∧ second.read middle = .ok (b, rest) := by
  constructor
  · intro h
    obtain ⟨_, middle, hfirst, h⟩ := stateT_bind_eq_ok.mp h
    obtain ⟨_, _, hsecond, h⟩ := stateT_bind_eq_ok.mp h
    obtain ⟨hpair, rfl⟩ := stateT_pure_eq_ok.mp h
    obtain ⟨rfl, rfl⟩ := Prod.mk.inj hpair
    exact ⟨middle, hfirst, hsecond⟩
  · rintro ⟨middle, hfirst, hsecond⟩
    exact stateT_bind_eq_ok.mpr ⟨a, middle, hfirst,
      stateT_bind_eq_ok.mpr ⟨b, rest, hsecond, stateT_pure_eq_ok.mpr ⟨rfl, rfl⟩⟩⟩

theorem take_append {count : Nat} (front rest : Bytes) (hlen : front.length = count) :
    Reader.take count (front ++ rest) = .ok (front, rest) := by
  unfold Reader.take
  rw [splitExact_eq_some_iff.mpr ⟨rfl, hlen⟩]

theorem number_append {width n : Nat} (rest : Bytes) (hn : n < span width) :
    Reader.number width (bigEndian width n ++ rest) = .ok (n, rest) := by
  have hread : ofBigEndian (bigEndian width n) = n := by
    rw [ofBigEndian_bigEndian, Nat.mod_eq_of_lt hn]
  exact stateT_map_eq_ok.mpr ⟨_, take_append _ rest (length_bigEndian width n), hread⟩

theorem writeCount_eq_ok {width count : Nat} {bytes : Bytes} :
    writeCount width count = .ok bytes ↔ count < span width ∧ bytes = bigEndian width count := by
  unfold writeCount
  by_cases hlt : count < span width <;> simp [hlt, eq_comm]

theorem readsBack_u8 : u8.ReadsBack := by
  intro value bytes hwrite rest
  obtain rfl : [value] = bytes := by simpa [u8] using hwrite
  rfl

theorem readsBack_u16 : u16.ReadsBack := by
  intro value bytes hwrite rest
  obtain rfl : bigEndian 2 value.toNat = bytes := by simpa [u16] using hwrite
  exact stateT_map_eq_ok.mpr ⟨_, number_append rest value.toNat_lt, by simp⟩

theorem readsBack_u32 : u32.ReadsBack := by
  intro value bytes hwrite rest
  obtain rfl : bigEndian 4 value.toNat = bytes := by simpa [u32] using hwrite
  exact stateT_map_eq_ok.mpr ⟨_, number_append rest value.toNat_lt, by simp⟩

theorem readsBack_u64 : u64.ReadsBack := by
  intro value bytes hwrite rest
  obtain rfl : bigEndian 8 value.toNat = bytes := by simpa [u64] using hwrite
  exact stateT_map_eq_ok.mpr ⟨_, number_append rest value.toNat_lt, by simp⟩

theorem readsBack_blob (width : Nat) : (blob width).ReadsBack := by
  intro value bytes hwrite rest
  simp only [blob, except_bind_eq_ok, except_pure_eq_ok, writeCount_eq_ok] at hwrite
  obtain ⟨count, ⟨hlt, rfl⟩, rfl⟩ := hwrite
  rw [List.append_assoc]
  exact stateT_bind_eq_ok.mpr ⟨_, _, number_append _ hlt, take_append value rest rfl⟩

theorem ReadsBackAt.seq {first : Format α} {second : Format β} {a : α} {b : β}
    (hfirst : first.ReadsBackAt a) (hsecond : second.ReadsBackAt b) :
    (first.seq second).ReadsBackAt (a, b) := by
  intro bytes hwrite rest
  simp only [Format.seq, except_bind_eq_ok, except_pure_eq_ok] at hwrite
  obtain ⟨front, hfront, back, hback, rfl⟩ := hwrite
  rw [List.append_assoc]
  exact seq_read_eq_ok.mpr ⟨back ++ rest, hfirst hfront _, hsecond hback _⟩

theorem ReadsBackAt.map {format : Format α} {into : α → β} {back : β → α} {b : β}
    (h : format.ReadsBackAt (back b)) (hinto : into (back b) = b) :
    (format.map into back).ReadsBackAt b := by
  intro bytes hwrite rest
  exact stateT_map_eq_ok.mpr ⟨back b, h hwrite rest, hinto⟩

theorem ReadsBack.seq {first : Format α} {second : Format β} (hfirst : first.ReadsBack)
    (hsecond : second.ReadsBack) : (first.seq second).ReadsBack :=
  fun _ => ReadsBackAt.seq (hfirst _) (hsecond _)

theorem ReadsBack.map {format : Format α} {into : α → β} {back : β → α} (h : format.ReadsBack)
    (hinto : ∀ b, into (back b) = b) : (format.map into back).ReadsBack :=
  fun b => ReadsBackAt.map (h _) (hinto b)

private theorem many_go_append {item : Format α} {values taken : List α} {parts : List Bytes}
    (h : ∀ value ∈ values, item.ReadsBackAt value)
    (hparts : List.Forall₂ (fun v b => item.write v = .ok b) values parts) (rest : Bytes) :
    Reader.many.go item.read values.length taken (parts.flatten ++ rest) =
      .ok (taken.reverse ++ values, rest) := by
  induction hparts generalizing taken with
  | nil => simp [Reader.many.go]
  | @cons value part values parts hwrite _ ih =>
    have hvalue := h value List.mem_cons_self
    have hvalues := @ih (value :: taken) fun other hother => h other (List.mem_cons_of_mem _ hother)
    simp only [List.length_cons, Reader.many.go, List.flatten_cons, List.append_assoc,
      hvalue hwrite, hvalues, List.reverse_cons, List.cons_append, List.nil_append]

theorem list_write_eq_ok {item : Format α} {width : Nat} {values : List α} {bytes : Bytes} :
    (Format.list width item).write values = .ok bytes ↔ values.length < span width ∧
      ∃ parts, List.Forall₂ (fun v b => item.write v = .ok b) values parts ∧
        bytes = bigEndian width values.length ++ parts.flatten := by
  simp only [Format.list, except_bind_eq_ok, except_pure_eq_ok, writeCount_eq_ok,
    except_mapM_eq_ok]
  constructor
  · rintro ⟨_, ⟨hlen, rfl⟩, parts, hparts, rfl⟩
    exact ⟨hlen, parts, hparts, rfl⟩
  · rintro ⟨hlen, parts, hparts, rfl⟩
    exact ⟨_, ⟨hlen, rfl⟩, parts, hparts, rfl⟩

theorem ReadsBackAt.list {item : Format α} {values : List α} (width : Nat)
    (h : ∀ value ∈ values, item.ReadsBackAt value) :
    (Format.list width item).ReadsBackAt values := by
  intro bytes hwrite rest
  obtain ⟨hlen, parts, hparts, rfl⟩ := list_write_eq_ok.mp hwrite
  rw [List.append_assoc]
  exact stateT_bind_eq_ok.mpr ⟨_, _, number_append _ hlen, many_go_append h hparts rest⟩

theorem ReadsBack.list {item : Format α} (width : Nat) (h : item.ReadsBack) :
    (Format.list width item).ReadsBack :=
  fun _ => ReadsBackAt.list width fun value _ => h value

theorem ReadsBackAt.decode {format : Format α} {value : α} (h : format.ReadsBackAt value)
    {info : Bytes} (hwrite : format.write value = .ok info) : format.decode info = .ok value := by
  have hread := h hwrite []
  rw [List.append_nil] at hread
  simp only [Format.decode, readAll, hread]

theorem readAll_eq_ok {format : Format α} {surplus : Nat → Malformation} {bytes : Bytes}
    {value : α} : format.readAll surplus bytes = .ok value ↔
      format.read bytes = .ok (value, []) := by
  unfold readAll
  split <;> simp_all

end Format

theorem ConstantPool.size_readSlots {slots slots' : Array Slot} {free : Nat} {bytes rest : Bytes}
    (h : readSlots slots free bytes = .ok (slots', rest)) : slots'.size = slots.size + free := by
  fun_induction readSlots slots free bytes with
  | case1 => simp_all
  | case2 => cases h
  | case3 => cases h
  | case4 _ _ _ _ _ _ _ ih => simpa [Nat.add_assoc, Nat.add_comm, Nat.add_left_comm] using ih h
  | case5 _ _ _ _ _ _ _ ih => simpa [Nat.add_assoc, Nat.add_comm, Nat.add_left_comm] using ih h

theorem ConstantPool.fits_of_read {pool : ConstantPool} {bytes rest : Bytes}
    (h : ConstantPool.format.read bytes = .ok (pool, rest)) : pool.Fits := by
  obtain ⟨count, middle, -, h⟩ := stateT_bind_eq_ok.mp h
  unfold readCounted at h
  split at h
  · cases h
  · rename_i free hcount
    simp only [except_bind_eq_ok, except_pure_eq_ok, Prod.mk.injEq, Prod.exists] at h
    obtain ⟨slots, _, hslots, rfl, -⟩ := h
    have hsize := size_readSlots hslots
    have hlt := count.toNat_lt
    simp only [List.size_toArray, List.length_singleton] at hsize
    unfold Fits capacity
    dsimp only
    omega

theorem ClassFile.pool_of_ofBytes {file : ClassFile} {bytes : Bytes}
    (h : ClassFile.ofBytes bytes = .ok file) :
    ∃ front rest, ConstantPool.format.read front = .ok (file.pool, rest) := by
  obtain ⟨parts, hread, rfl⟩ := stateT_map_eq_ok.mp (Format.readAll_eq_ok.mp h)
  obtain ⟨_, minor, major, pool, parts⟩ := parts
  obtain ⟨_, -, hread⟩ := Format.seq_read_eq_ok.mp hread
  obtain ⟨_, -, hread⟩ := Format.seq_read_eq_ok.mp hread
  obtain ⟨_, -, hread⟩ := Format.seq_read_eq_ok.mp hread
  obtain ⟨_, hpool, -⟩ := Format.seq_read_eq_ok.mp hread
  exact ⟨_, _, hpool⟩

theorem ClassFile.fits_of_ofBytes {file : ClassFile} {bytes : Bytes}
    (h : ClassFile.ofBytes bytes = .ok file) : file.pool.Fits := by
  obtain ⟨_, _, hpool⟩ := ClassFile.pool_of_ofBytes h
  exact ConstantPool.fits_of_read hpool

theorem Attribute.readsBack : Attribute.format.ReadsBack :=
  (Format.readsBack_u16.seq (Format.readsBack_blob 4)).map fun _ => rfl

theorem Handler.readsBack : Handler.format.ReadsBack :=
  (Format.readsBack_u16.seq (Format.readsBack_u16.seq
    (Format.readsBack_u16.seq Format.readsBack_u16))).map fun _ => rfl

theorem Code.readsBack : Code.format.ReadsBack :=
  (Format.readsBack_u16.seq (Format.readsBack_u16.seq ((Format.readsBack_blob 4).seq
    ((Handler.readsBack.list 2).seq (Attribute.readsBack.list 2))))).map fun _ => rfl

theorem LocalVariable.readsBack_table : LocalVariable.tableFormat.ReadsBack :=
  ((Format.readsBack_u16.seq (Format.readsBack_u16.seq (Format.readsBack_u16.seq
    (Format.readsBack_u16.seq Format.readsBack_u16)))).map fun _ => rfl).list 2

theorem Bootstrap.readsBack_table : Bootstrap.tableFormat.ReadsBack :=
  ((Format.readsBack_u16.seq (Format.readsBack_u16.list 2)).map fun _ => rfl).list 2

section Encode
variable {α : Type} {attr attr' : Attribute} {format : Format α} {value : α}

theorem Attribute.encode_eq_ok_iff : attr.encode format value = .ok attr' ↔
    ∃ info, format.write value = .ok info ∧ attr' = ⟨attr.name, info⟩ := by
  simp only [Attribute.encode, except_bind_eq_ok, except_pure_eq_ok]
  simp only [eq_comm]

theorem Attribute.name_of_encode (h : attr.encode format value = .ok attr') :
    attr'.name = attr.name := by
  obtain ⟨info, -, rfl⟩ := Attribute.encode_eq_ok_iff.mp h
  rfl

/-- Encoding changes the payload of an attribute only, to bytes that decode to the value. -/
theorem Attribute.encode_eq_ok (h : format.ReadsBack)
    (hencode : attr.encode format value = .ok attr') :
    attr'.name = attr.name ∧ format.decode attr'.info = .ok value := by
  refine ⟨Attribute.name_of_encode hencode, ?_⟩
  obtain ⟨info, hwrite, rfl⟩ := Attribute.encode_eq_ok_iff.mp hencode
  exact (h value).decode hwrite

end Encode

end StaticCompanion
