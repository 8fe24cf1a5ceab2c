import StaticCompanion.Proofs.Reading

/-!
# Pools that can be built

A pool starts out empty or is read, and then constants are put into it and replaced. Whatever the
changes are, and whether they fail or not, the slots of the pool remain the rows of whole constants
behind the slot of position 0. So a class file over such a pool is read back as it was written,
unless its pool declares bytes to be no text that do spell one.
-/
namespace StaticCompanion

namespace Entry

theorem set_row {first old entry : Entry} {i : Nat} (h : first.row[i]? = some (.entry old))
    (hslots : old.slots = entry.slots) : first.row.set i (.entry entry) = entry.row := by
  unfold row at h ⊢
  cases i with
  | zero =>
    obtain rfl := Slot.entry.inj (Option.some.inj h)
    rw [List.set_cons_zero, hslots]
  | succ i =>
    rw [List.getElem?_cons_succ] at h
    have hmem := List.mem_of_getElem? h
    split at hmem <;> simp at hmem

theorem set_rows {entries : List Entry} {old entry : Entry} {i : Nat}
    (h : (entries.flatMap row)[i]? = some (.entry old)) (hslots : old.slots = entry.slots) :
    ∃ entries' : List Entry,
      (entries.flatMap row).set i (.entry entry) = entries'.flatMap row := by
  induction entries generalizing i with
  | nil => cases h
  | cons first entries ih =>
    rw [List.flatMap_cons] at h ⊢
    cases Nat.lt_or_ge i first.row.length with
    | inl hlt =>
      rw [List.getElem?_append_left hlt] at h
      refine ⟨entry :: entries, ?_⟩
      rw [List.set_append_left _ _ hlt, set_row h hslots, List.flatMap_cons]
    | inr hge =>
      rw [List.getElem?_append_right hge] at h
      obtain ⟨entries', hset⟩ := ih h
      refine ⟨first :: entries', ?_⟩
      rw [List.set_append_right _ _ hge, hset, List.flatMap_cons]

end Entry

namespace ConstantPool
variable {pool : ConstantPool}

section Changes
variable {ε α β : Type}

/-- The pool that a change leaves behind, also where it fails. -/
def after (change : PoolM ε α) (pool : ConstantPool) : ConstantPool :=
  match change pool with
  | .ok _ left | .error _ left => left

theorem after_of_ok {change : PoolM ε α} {left : ConstantPool} {a : α}
    (hrun : change pool = .ok a left) : after change pool = left := by
  simp [after, hrun]

theorem after_of_error {change : PoolM ε α} {left : ConstantPool} {fault : ε}
    (hrun : change pool = .error fault left) : after change pool = left := by
  simp [after, hrun]

/-- The pools that putting and replacing constants gives from the empty pool and from pools that
were read. -/
inductive Reachable : ConstantPool → Prop
  | empty : Reachable empty
  | read {count : UInt16} {bytes rest : Bytes} {pool : ConstantPool}
    (h : readCounted count bytes = .ok (pool, rest)) : Reachable pool
  | put {pool : ConstantPool} (entry : Entry) (h : Reachable pool) :
    Reachable (after (put entry) pool)
  | replace {pool : ConstantPool} (index : UInt16) (entry : Entry) (h : Reachable pool) :
    Reachable (after (replace index entry) pool)

/-- Reachable pools stay reachable, whether the change succeeds or fails. -/
def Stays (change : PoolM ε α) : Prop := ∀ ⦃pool⦄, Reachable pool → Reachable (after change pool)

end Changes

theorem put_stays (entry : Entry) : Stays (put entry) := fun _ h => .put entry h

theorem replace_stays (index : UInt16) (entry : Entry) : Stays (replace index entry) :=
  fun _ h => .replace index entry h

theorem putText_stays (text : String) : Stays (putText text) := put_stays _

/-- A put leaves the pool as it was, or with its constant behind the others. -/
theorem after_put (entry : Entry) (pool : ConstantPool) : after (put entry) pool = pool ∨
    pool.position? entry = none ∧ pool.slots.size + entry.slots ≤ capacity ∧
      after (put entry) pool = pool.append entry := by
  cases hrun : put entry pool with
  | ok index left =>
    rw [after_of_ok hrun]
    rcases put_eq_ok.mp hrun with ⟨k, -, -, hleft⟩ | ⟨hnone, hroom, -, hleft⟩
    · exact .inl hleft
    · exact .inr ⟨hnone, hroom, hleft⟩
  | error fault left =>
    rw [after_of_error hrun]
    exact .inl (put_eq_error.mp hrun).2.2.2

/-- The slots are rows of whole constants, and no more of them than a class file can count. -/
structure Regular (pool : ConstantPool) : Prop where
  rows : ∃ entries : List Entry, pool.slots.toList = .gap :: entries.flatMap Entry.row
  fits : pool.Fits

theorem regular_empty : empty.Regular := ⟨⟨[], rfl⟩, by decide⟩

theorem regular_of_read {count : UInt16} {bytes rest : Bytes}
    (h : readCounted count bytes = .ok (pool, rest)) : pool.Regular := by
  have hcount := Format.readsBack_u16 count rfl bytes
  have hread := stateT_bind_eq_ok.mpr ⟨count, bytes, hcount, h⟩
  obtain ⟨entries, -, hslots⟩ := empty_le_of_read hread
  exact ⟨⟨entries, hslots⟩, fits_of_read hread⟩

theorem Regular.put (h : pool.Regular) (entry : Entry) : (after (put entry) pool).Regular := by
  rcases after_put entry pool with hsame | ⟨-, hroom, happend⟩
  · rw [hsame]
    exact h
  · obtain ⟨entries, hslots⟩ := h.rows
    rw [happend]
    refine ⟨⟨entries ++ [entry], ?_⟩, fits_append hroom⟩
    rw [append_slots, hslots, List.flatMap_append, List.flatMap_singleton, List.cons_append]

theorem Regular.replace (h : pool.Regular) (index : UInt16) (entry : Entry) :
    (after (replace index entry) pool).Regular := by
  unfold after ConstantPool.replace
  cases hold : pool.entry index with
  | error fault => exact h
  | ok old =>
    by_cases hsame : old.slots = entry.slots
    · simp only [hsame, if_true]
      obtain ⟨⟨entries, hslots⟩, hfits⟩ := h
      have hslot := entry_eq_ok.mp hold
      rw [← Array.getElem?_toList, hslots] at hslot
      refine ⟨?_, ?_⟩
      · rw [Array.toList_setIfInBounds, hslots]
        cases hindex : index.toNat with
        | zero => rw [hindex] at hslot; cases hslot
        | succ i =>
          rw [hindex, List.getElem?_cons_succ] at hslot
          obtain ⟨entries', hset⟩ := Entry.set_rows hslot hsame
          exact ⟨entries', by rw [List.set_cons_succ, hset]⟩
      · unfold Fits at hfits ⊢
        rw [Array.size_setIfInBounds]
        exact hfits
    · simp only [hsame, if_false]
      exact h

theorem Reachable.regular (h : Reachable pool) : pool.Regular := by
  induction h with
  | empty => exact regular_empty
  | read hread => exact regular_of_read hread
  | put entry _ ih => exact ih.put entry
  | replace index entry _ ih => exact ih.replace index entry

theorem exists_index {entries : List Entry} {entry : Entry} (hfits : pool.Fits)
    (hslots : pool.slots.toList = .gap :: entries.flatMap Entry.row) (hmem : entry ∈ entries) :
    ∃ index, pool.entry index = .ok entry := by
  have hrow : Slot.entry entry ∈ entries.flatMap Entry.row :=
    List.mem_flatMap.mpr ⟨entry, hmem, List.mem_cons_self⟩
  apply exists_index_of_mem hfits
  rw [hslots]
  exact List.mem_cons_of_mem _ hrow

/-- The bytes that are kept because they are no text spell none in either way. -/
def KeepsNoText (pool : ConstantPool) : Prop :=
  ∀ ⦃index payload⦄, pool.entry index = .ok (.utf8 (.invalid payload)) →
    Utf8.decode payload = none ∧ ModifiedUtf8.decode payload = none

theorem KeepsNoText.canonical (h : pool.KeepsNoText) {index : UInt16} {entry : Entry}
    (hentry : pool.entry index = .ok entry) : entry.Canonical := by
  cases entry with
  | utf8 text =>
    cases text with
    | valid text => exact PoolText.ofBytes_encode text
    | invalid payload =>
      obtain ⟨hplain, hmodified⟩ := h hentry
      change PoolText.ofBytes payload = .invalid payload
      rw [PoolText.ofBytes, hplain, hmodified]
      rfl
  | _ => trivial

theorem keepsNoText_of_slots (h : ∀ payload, .entry (.utf8 (.invalid payload)) ∈ pool.slots →
    Utf8.decode payload = none ∧ ModifiedUtf8.decode payload = none) : pool.KeepsNoText := by
  intro index payload hentry
  exact h payload (Array.mem_of_getElem? (entry_eq_ok.mp hentry))

theorem Regular.empty_le (h : pool.Regular) (htexts : pool.KeepsNoText) : empty ≤ pool := by
  obtain ⟨entries, hslots⟩ := h.rows
  refine ⟨entries, fun entry hmem => ?_, hslots⟩
  obtain ⟨index, hentry⟩ := exists_index h.fits hslots hmem
  exact htexts.canonical hentry

end ConstantPool

/-- A class file over a pool that can be built is read back as it was written. -/
theorem ClassFile.ofBytes_of_toBytes_of_reachable {file : ClassFile} {bytes : Bytes}
    (hpool : file.pool.Reachable) (htexts : file.pool.KeepsNoText)
    (hwrite : file.toBytes = .ok bytes) : ClassFile.ofBytes bytes = .ok file := by
  have hregular := hpool.regular
  exact ClassFile.ofBytes_of_toBytes (hregular.empty_le htexts) hregular.fits hwrite

section Built
open ConstantPool

/-- A text, bytes that are none, a float that is no number and a long are put. Then the text is
replaced by one with NUL and a supplementary character. -/
def builtPool : ConstantPool :=
  after (replace 1 (.utf8 (.valid "\x00𝄞"))) (after (put (.long 5)) (after (put (.float 0x7FC00001))
    (after (put (.utf8 (.invalid [0xFF]))) (after (putText "text") empty))))

def builtFile : ClassFile where
  minorVersion := 0
  majorVersion := 52
  pool := builtPool
  flags := ⟨0x21⟩
  thisClass := 4
  superClass := 0
  interfaces := [3]
  fields := [⟨⟨1⟩, 1, 1, []⟩]
  methods := []
  attributes := [⟨1, [0xAB]⟩]

def builtBytes : Bytes :=
  [0xCA, 0xFE, 0xBA, 0xBE, 0x00, 0x00, 0x00, 0x34, 0x00, 0x06,
    0x01, 0x00, 0x08, 0xC0, 0x80, 0xED, 0xA0, 0xB4, 0xED, 0xB4, 0x9E, 0x01, 0x00, 0x01, 0xFF,
    0x04, 0x7F, 0xC0, 0x00, 0x01, 0x05, 0x00, 0x00, 0x00, 0x00, 0x00, 0x00, 0x00, 0x05,
    0x00, 0x21, 0x00, 0x04, 0x00, 0x00, 0x00, 0x01, 0x00, 0x03,
    0x00, 0x01, 0x00, 0x01, 0x00, 0x01, 0x00, 0x01, 0x00, 0x00, 0x00, 0x00,
    0x00, 0x01, 0x00, 0x01, 0x00, 0x00, 0x00, 0x01, 0xAB]

theorem slots_builtPool : builtPool.slots = #[.gap, .entry (.utf8 (.valid "\x00𝄞")),
    .entry (.utf8 (.invalid [0xFF])), .entry (.float 0x7FC00001), .entry (.long 5), .gap] := by
  decide +kernel

theorem reachable_builtPool : builtPool.Reachable :=
  replace_stays _ _ (put_stays _ (put_stays _ (put_stays _ (putText_stays _ .empty))))

theorem keepsNoText_builtPool : builtPool.KeepsNoText := by
  refine keepsNoText_of_slots fun payload hmem => ?_
  rw [slots_builtPool] at hmem
  obtain rfl : payload = [0xFF] := by simpa using hmem
  decide +kernel

theorem ClassFile.ofBytes_builtBytes : builtPool.Reachable ∧ builtPool.KeepsNoText ∧
    builtFile.toBytes = .ok builtBytes ∧ ClassFile.ofBytes builtBytes = .ok builtFile := by
  have hwrite : builtFile.toBytes = .ok builtBytes := by decide +kernel
  have hread := ClassFile.ofBytes_of_toBytes_of_reachable reachable_builtPool
    keepsNoText_builtPool hwrite
  exact ⟨reachable_builtPool, keepsNoText_builtPool, hwrite, hread⟩

end Built

end StaticCompanion
