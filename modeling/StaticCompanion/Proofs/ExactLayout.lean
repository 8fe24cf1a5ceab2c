import StaticCompanion.Proofs.WritingBack

namespace StaticCompanion

namespace Format
variable {α β : Type}

/-- Reading and writing are inverse, and just the values that fit can be written. -/
structure Exact (format : Format α) (fits : α → Prop) : Prop where
  writesBack : format.WritesBack
  readsBack : format.ReadsBack
  writes : ∀ value, (∃ bytes, format.write value = .ok bytes) ↔ fits value

/-- All items of the list fit, and so does their number. -/
structure ListFits (width : Nat) (fits : α → Prop) (values : List α) : Prop where
  length_lt : values.length < span width
  fits : ∀ value ∈ values, fits value

theorem exact_u8 : u8.Exact fun _ => True :=
  ⟨writesBack_u8, readsBack_u8, fun _ => iff_of_true ⟨_, rfl⟩ trivial⟩

theorem exact_u16 : u16.Exact fun _ => True :=
  ⟨writesBack_u16, readsBack_u16, fun _ => iff_of_true ⟨_, rfl⟩ trivial⟩

theorem exact_blob (width : Nat) : (blob width).Exact fun bytes => bytes.length < span width := by
  refine ⟨writesBack_blob width, readsBack_blob width, fun payload => ?_⟩
  constructor
  · rintro ⟨bytes, hwrite⟩
    exact (blob_write_eq_ok.mp hwrite).1
  · intro hlen
    exact ⟨_, blob_write_eq_ok.mpr ⟨hlen, rfl⟩⟩

theorem Exact.seq {first : Format α} {second : Format β} {fits : α → Prop} {fits' : β → Prop}
    (hfirst : first.Exact fits) (hsecond : second.Exact fits') :
    (first.seq second).Exact fun pair => fits pair.1 ∧ fits' pair.2 := by
  refine ⟨hfirst.writesBack.seq hsecond.writesBack, hfirst.readsBack.seq hsecond.readsBack,
    fun pair => ?_⟩
  rw [← hfirst.writes, ← hsecond.writes]
  constructor
  · rintro ⟨bytes, hwrite⟩
    obtain ⟨front, back, hfront, hback, -⟩ := seq_write_eq_ok.mp hwrite
    exact ⟨⟨front, hfront⟩, back, hback⟩
  · rintro ⟨⟨front, hfront⟩, back, hback⟩
    exact ⟨_, seq_write_eq_ok.mpr ⟨front, back, hfront, hback, rfl⟩⟩

theorem Exact.map {format : Format α} {into : α → β} {back : β → α} {fits : α → Prop}
    {fits' : β → Prop} (h : format.Exact fits) (hback : ∀ a, back (into a) = a)
    (hinto : ∀ b, into (back b) = b) (hfits : ∀ b, fits (back b) ↔ fits' b) :
    (format.map into back).Exact fits' :=
  ⟨h.writesBack.map hback, h.readsBack.map hinto, fun b => (h.writes (back b)).trans (hfits b)⟩

theorem exists_parts {item : Format α} {values : List α}
    (h : ∀ value ∈ values, ∃ part, item.write value = .ok part) :
    ∃ parts, List.Forall₂ (fun v b => item.write v = .ok b) values parts := by
  induction values with
  | nil => exact ⟨[], .nil⟩
  | cons value values ih =>
    obtain ⟨part, hpart⟩ := h value List.mem_cons_self
    obtain ⟨parts, hparts⟩ := ih fun other hother => h other (List.mem_cons_of_mem _ hother)
    exact ⟨part :: parts, .cons hpart hparts⟩

theorem list_writes_iff {item : Format α} {width : Nat} {values : List α} :
    (∃ bytes, (list width item).write values = .ok bytes) ↔
      ListFits width (fun value => ∃ part, item.write value = .ok part) values := by
  constructor
  · rintro ⟨bytes, hwrite⟩
    obtain ⟨hlen, parts, hparts, -⟩ := list_write_eq_ok.mp hwrite
    refine ⟨hlen, fun value hmem => ?_⟩
    obtain ⟨part, -, hpart⟩ := forall₂_mem_left hparts hmem
    exact ⟨part, hpart⟩
  · rintro ⟨hlen, hvalues⟩
    obtain ⟨parts, hparts⟩ := exists_parts hvalues
    exact ⟨_, list_write_eq_ok.mpr ⟨hlen, parts, hparts, rfl⟩⟩

theorem Exact.list {item : Format α} {fits : α → Prop} (width : Nat) (h : item.Exact fits) :
    (list width item).Exact (ListFits width fits) := by
  refine ⟨h.writesBack.list width, h.readsBack.list width, fun values => ?_⟩
  rw [list_writes_iff]
  simp only [h.writes]

theorem length_of_list_write {item : Format α} {width : Nat} {values : List α} {bytes : Bytes}
    (hwrite : (Format.list width item).write values = .ok bytes) {value : α}
    (hmem : value ∈ values) :
    ∃ part, item.write value = .ok part ∧ width + part.length ≤ bytes.length := by
  obtain ⟨-, parts, hparts, rfl⟩ := list_write_eq_ok.mp hwrite
  obtain ⟨part, hpart, hitem⟩ := forall₂_mem_left hparts hmem
  refine ⟨part, hitem, ?_⟩
  have hlen := (List.sublist_flatten_of_mem hpart).length_le
  rw [List.length_append, length_bigEndian]
  omega

end Format

end StaticCompanion
