import StaticCompanion.Proofs.ReachablePools

/-!
# Calls that change a pool

Constants are put into a pool, alone or to spell a name, a member or a handle, and they are
replaced. However such calls follow each other, and whichever of them fail, the gaps stay just where
constants of two slots need them and the slots can be counted, so every index tells the slot that it
is meant for. A call that fails takes nothing away: a single constant leaves the pool as it was, and
what is spelled by several constants may leave some of them behind the others.
-/
namespace StaticCompanion

/-- What constants spell together. Class files refer to it by one index. -/
inductive PoolItem where
  | text (text : String)
  | className (name : String)
  | nameAndType (name descriptor : String)
  | member (kind : RefKind) (key : MemberKey)
  | methodHandle (kind : UInt8) (reference : UInt16)
  | methodType (descriptor : String)
  deriving DecidableEq, Repr

inductive PoolPut where
  | constant (entry : Entry)
  | item (item : PoolItem)
  deriving DecidableEq, Repr

inductive PoolCall where
  | put (what : PoolPut)
  | replace (index : UInt16) (entry : Entry)
  deriving DecidableEq, Repr

open ConstantPool

def PoolItem.put : PoolItem → PoolM PoolFault UInt16
  | .text content => putText content
  | .className name => putClass name
  | .nameAndType name descriptor => putNameAndType name descriptor
  | .member kind key => putMember kind key
  | .methodHandle kind reference => putMethodHandle kind reference
  | .methodType descriptor => putMethodType descriptor

def PoolPut.run : PoolPut → PoolM PoolFault UInt16
  | .constant entry => ConstantPool.put entry
  | .item what => what.put

/-- The pool that a call leaves behind, also where it fails. -/
def PoolCall.leave (pool : ConstantPool) : PoolCall → ConstantPool
  | put what => after what.run pool
  | replace index entry => after (ConstantPool.replace index entry) pool

/-- The constant in a slot. -/
def Slot.constant? : Slot → Option Entry
  | .entry constant => some constant
  | .gap => none

@[simp]
theorem Slot.constant?_entry (entry : Entry) : (Slot.entry entry).constant? = some entry := rfl

@[simp]
theorem Slot.constant?_gap : Slot.gap.constant? = none := rfl

namespace ConstantPool

def callAll (calls : List PoolCall) (pool : ConstantPool) : ConstantPool :=
  calls.foldl PoolCall.leave pool

/-- The pools that calls start from. -/
inductive IsStart : ConstantPool → Prop
  | empty : IsStart empty
  | read {count : UInt16} {bytes rest : Bytes} {pool : ConstantPool}
    (h : readCounted count bytes = .ok (pool, rest)) : IsStart pool

/-- The constants with the positions of their slots. -/
def positions (pool : ConstantPool) : List (Nat × Entry) :=
  pool.slots.toList.zipIdx.filterMap fun item => item.1.constant?.map fun entry => (item.2, entry)

/-- The first constant that passes a test, and its index. -/
def find? (pool : ConstantPool) (test : Entry → Bool) : Option (UInt16 × Entry) :=
  pool.entries.find? fun item => test item.2

/-- The pool `q` has the slots of `p`, and behind them those of further constants. -/
def Extends (p q : ConstantPool) : Prop :=
  ∃ entries : List Entry, q.slots.toList = p.slots.toList ++ entries.flatMap Entry.row

end ConstantPool

def Entry.IsWide (entry : Entry) : Prop := entry.kind = .long ∨ entry.kind = .double

theorem Entry.isWide_iff {entry : Entry} : entry.IsWide ↔ entry.slots = 2 := by
  cases entry with
  | memberRef kind owner nameAndType => cases kind <;> simp [IsWide, kind, slots, RefKind.entryKind]
  | _ => simp [IsWide, kind, slots]

namespace ConstantPool
variable {p q r pool : ConstantPool}

/-- Gaps are at position 0 and behind the constants of two slots, and nowhere else. -/
structure WellFormed (pool : ConstantPool) : Prop where
  first : pool.slots[0]? = some .gap
  gap_behind : ∀ i entry, pool.slots[i]? = some (.entry entry) → entry.IsWide →
    pool.slots[i + 1]? = some .gap ∧ pool.slots[i + 2]? ≠ some .gap
  behind_wide : ∀ i, pool.slots[i + 1]? = some .gap →
    ∃ entry, pool.slots[i]? = some (.entry entry) ∧ entry.IsWide
  size_pos : 1 ≤ pool.slots.size
  size_le : pool.slots.size ≤ 65535

/-- Every index that is given out tells the position of the slot that it is meant for. -/
structure IndexesExactly (pool : ConstantPool) : Prop where
  count : pool.count.toNat = pool.slots.size
  entries : pool.entries.map (Prod.map UInt16.toNat id) = pool.positions
  find : ∀ test, (pool.find? test).map (Prod.map UInt16.toNat id) =
    pool.positions.find? fun item => test item.2
  search : ∀ entry, pool.position? entry =
    (pool.find? fun other => other.same entry).map fun item => item.1.toNat
  put : ∀ what index left, PoolPut.run what pool = .ok index left →
    ∃ entry, left.entry index = .ok entry

/-- A change that fails takes nothing away. -/
structure FailsCleanly (pool : ConstantPool) : Prop where
  put : ∀ entry fault left, put entry pool = .error fault left → left = pool
  replace : ∀ index entry fault left, replace index entry pool = .error fault left → left = pool
  item : ∀ item fault left, PoolItem.put item pool = .error fault left → pool.Extends left

section Keeps
variable {ε α β : Type} {P : ConstantPool → Prop}

theorem after_bind {change : PoolM ε α} {next : α → PoolM ε β} (hchange : P (after change p))
    (hnext : ∀ a q, P q → P (after (next a) q)) : P (after (change >>= next) p) := by
  cases hrun : change p with
  | ok a q =>
    have hq : P q := after_of_ok hrun ▸ hchange
    simpa [after, bind, EStateM.bind, hrun] using hnext a q hq
  | error fault q =>
    have hq : P q := after_of_error hrun ▸ hchange
    simpa [after, bind, EStateM.bind, hrun] using hq

variable (hput : ∀ entry pool, P pool → P (after (put entry) pool))
include hput

/-- What putting a constant keeps is kept by putting several, one after another. -/
theorem keeps_item (item : PoolItem) (h : P pool) : P (after item.put pool) := by
  have htext (text : String) {p : ConstantPool} (hp : P p) : P (after (putText text) p) :=
    hput _ p hp
  have hclass (name : String) {p : ConstantPool} (hp : P p) : P (after (putClass name) p) :=
    after_bind (htext name hp) fun _ q hq => hput _ q hq
  have hpair (name descriptor : String) {p : ConstantPool} (hp : P p) :
      P (after (putNameAndType name descriptor) p) :=
    after_bind (htext name hp) fun _ q hq =>
      after_bind (htext descriptor hq) fun _ r hr => hput _ r hr
  cases item with
  | text text => exact htext text h
  | className name => exact hclass name h
  | nameAndType name descriptor => exact hpair name descriptor h
  | member kind key =>
    exact after_bind (hclass key.owner h) fun _ q hq =>
      after_bind (hpair key.name key.descriptor hq) fun _ r hr => hput _ r hr
  | methodHandle kind reference => exact hput _ pool h
  | methodType descriptor => exact after_bind (htext descriptor h) fun _ q hq => hput _ q hq

theorem keeps_put (what : PoolPut) (h : P pool) : P (after what.run pool) := by
  cases what with
  | constant entry => exact hput entry pool h
  | item item => exact keeps_item hput item h

theorem keeps_puts (puts : List PoolPut) (h : P pool) : P (callAll (puts.map .put) pool) := by
  unfold callAll
  rw [List.foldl_map]
  exact List.foldlRecOn puts _ h fun _ hq what _ => keeps_put hput what hq

theorem keeps_callAll (hreplace : ∀ index entry pool, P pool → P (after (replace index entry) pool))
    (calls : List PoolCall) (h : P pool) : P (callAll calls pool) := by
  refine List.foldlRecOn calls _ h fun q hq call _ => ?_
  cases call with
  | put what => exact keeps_put hput what hq
  | replace index entry => exact hreplace index entry q hq

end Keeps

theorem reachable_callAll {start : ConstantPool} (hstart : start.IsStart) (calls : List PoolCall) :
    (callAll calls start).Reachable := by
  have hreachable : start.Reachable := by
    cases hstart with
    | empty => exact .empty
    | read h => exact .read h
  exact keeps_callAll (fun entry _ h => .put entry h)
    (fun index entry _ h => .replace index entry h)
    calls hreachable

end ConstantPool

namespace Entry

theorem gap_behind_rows {entries : List Entry} {i : Nat} {entry : Entry}
    (h : (entries.flatMap row)[i]? = some (.entry entry)) (hwide : entry.slots = 2) :
    (entries.flatMap row)[i + 1]? = some .gap := by
  induction entries generalizing i with
  | nil => cases h
  | cons first entries ih =>
    by_cases htwo : first.slots = 2
    · have hrow : first.row = [.entry first, .gap] := by simp [row, htwo]
      rw [List.flatMap_cons, hrow] at h ⊢
      rcases i with _ | _ | i
      · rfl
      · cases h
      · exact ih h
    · have hrow : first.row = [.entry first] := by simp [row, htwo]
      rw [List.flatMap_cons, hrow] at h ⊢
      rcases i with _ | i
      · cases h
        exact absurd hwide htwo
      · exact ih h

theorem wide_before_rows {entries : List Entry} {i : Nat}
    (h : (entries.flatMap row)[i]? = some .gap) :
    ∃ k entry, i = k + 1 ∧ (entries.flatMap row)[k]? = some (.entry entry) ∧ entry.slots = 2 := by
  induction entries generalizing i with
  | nil => cases h
  | cons first entries ih =>
    by_cases htwo : first.slots = 2
    · have hrow : first.row = [.entry first, .gap] := by simp [row, htwo]
      rw [List.flatMap_cons, hrow] at h ⊢
      rcases i with _ | _ | i
      · cases h
      · exact ⟨0, first, rfl, rfl, htwo⟩
      · obtain ⟨k, entry, rfl, hentry, hwide⟩ := ih h
        exact ⟨k + 2, entry, rfl, hentry, hwide⟩
    · have hrow : first.row = [.entry first] := by simp [row, htwo]
      rw [List.flatMap_cons, hrow] at h ⊢
      rcases i with _ | i
      · cases h
      · obtain ⟨k, entry, rfl, hentry, hwide⟩ := ih h
        exact ⟨k + 1, entry, rfl, hentry, hwide⟩

end Entry

namespace ConstantPool
variable {p q r pool : ConstantPool}

theorem Regular.wellFormed (h : pool.Regular) : pool.WellFormed := by
  obtain ⟨entries, hslots⟩ := h.rows
  have hget (i : Nat) : pool.slots[i + 1]? = (entries.flatMap Entry.row)[i]? := by
    rw [← Array.getElem?_toList, hslots, List.getElem?_cons_succ]
  have hfirst : pool.slots[0]? = some .gap := by
    rw [← Array.getElem?_toList, hslots, List.getElem?_cons_zero]
  have hbefore (i : Nat) (hgap : pool.slots[i + 1]? = some .gap) :
      ∃ entry, pool.slots[i]? = some (.entry entry) ∧ entry.IsWide := by
    rw [hget] at hgap
    obtain ⟨k, entry, rfl, hentry, hwide⟩ := Entry.wide_before_rows hgap
    exact ⟨entry, (hget k).trans hentry, Entry.isWide_iff.mpr hwide⟩
  have hbehind (i : Nat) (entry : Entry) (hentry : pool.slots[i]? = some (.entry entry))
      (hwide : entry.IsWide) : pool.slots[i + 1]? = some .gap := by
    cases i with
    | zero => simp [hfirst] at hentry
    | succ i =>
      rw [hget] at hentry
      exact (hget (i + 1)).trans (Entry.gap_behind_rows hentry (Entry.isWide_iff.mp hwide))
  refine ⟨hfirst, fun i entry hentry hwide => ⟨hbehind i entry hentry hwide, fun hgap => ?_⟩,
    hbefore, ?_, h.fits⟩
  · -- a second gap would need a constant where the first one is
    obtain ⟨other, hother, -⟩ := hbefore (i + 1) hgap
    simp [hbehind i entry hentry hwide] at hother
  · rw [← Array.length_toList, hslots, List.length_cons]
    omega

theorem mem_positions {i : Nat} {entry : Entry} :
    (i, entry) ∈ pool.positions ↔ pool.slots[i]? = some (.entry entry) := by
  unfold positions
  rw [List.mem_filterMap, ← Array.getElem?_toList]
  constructor
  · rintro ⟨⟨slot, position⟩, hmem, hsome⟩
    have hslot := List.mem_zipIdx_iff_getElem?.mp hmem
    cases slot with
    | entry other =>
      obtain ⟨rfl, rfl⟩ := Prod.mk.inj (Option.some.inj hsome)
      exact hslot
    | gap => cases hsome
  · intro hslot
    exact ⟨(.entry entry, i), List.mem_zipIdx_iff_getElem?.mpr hslot, rfl⟩

theorem entries_eq_map (pool : ConstantPool) :
    pool.entries = pool.positions.map (Prod.map UInt16.ofNat id) := by
  unfold entries positions
  rw [List.map_filterMap]
  congr 1
  funext ⟨slot, position⟩
  cases slot <;> rfl

theorem Fits.toNat_of_mem_positions (hfits : pool.Fits) {item : Nat × Entry}
    (hmem : item ∈ pool.positions) :
    Prod.map UInt16.toNat id (Prod.map UInt16.ofNat id item) = item := by
  obtain ⟨i, entry⟩ := item
  have hlt := (Array.getElem?_eq_some_iff.mp (mem_positions.mp hmem)).1
  simp [toNat_ofNat_of_fits hfits hlt]

theorem Fits.find (hfits : pool.Fits) (test : Entry → Bool) :
    (pool.find? test).map (Prod.map UInt16.toNat id) =
      pool.positions.find? fun item => test item.2 := by
  unfold find?
  rw [entries_eq_map, List.find?_map, Option.map_map]
  change (pool.positions.find? fun item => test item.2).map _ = _
  cases hfound : pool.positions.find? fun item => test item.2 with
  | none => rfl
  | some item =>
    have hmem := List.mem_of_find?_eq_some hfound
    simpa using hfits.toNat_of_mem_positions hmem

private theorem find?_slots (test : Entry → Bool) (slots : List Slot) (k : Nat) :
    (((slots.zipIdx k).filterMap fun item => item.1.constant?.map fun entry => (item.2, entry)).find?
      fun item => test item.2).map Prod.fst =
    (slots.findIdx? fun slot => slot.constant?.any test).map (· + k) := by
  induction slots generalizing k with
  | nil => rfl
  | cons slot slots ih =>
    have hshift : (fun i => i + (k + 1)) = (fun i => i + k) ∘ fun i => i + 1 := by
      funext i
      simp only [Function.comp_apply]
      omega
    rw [List.zipIdx_cons, List.filterMap_cons, List.findIdx?_cons]
    cases slot with
    | entry other =>
      rw [Slot.constant?_entry, Option.map_some, Option.any_some]
      by_cases htest : test other = true
      · simp [List.find?_cons_of_pos, htest]
      · rw [List.find?_cons_of_neg (by simpa using htest), ih, if_neg htest, Option.map_map, hshift]
    | gap =>
      rw [Slot.constant?_gap, Option.map_none, Option.any_none, ih, if_neg (by simp),
        Option.map_map, hshift]

theorem position?_eq_findIdx? (pool : ConstantPool) (entry : Entry) :
    pool.position? entry =
      pool.slots.findIdx? fun slot => slot.constant?.any fun other => other.same entry := by
  unfold position?
  congr
  funext slot
  cases slot <;> rfl

theorem Fits.search (hfits : pool.Fits) (entry : Entry) :
    pool.position? entry =
      (pool.find? fun other => other.same entry).map fun item => item.1.toNat := by
  have hfound := congrArg (Option.map Prod.fst) (hfits.find fun other => other.same entry)
  have hslots := find?_slots (fun other => other.same entry) pool.slots.toList 0
  rw [Option.map_map] at hfound
  have hfst : (Prod.fst ∘ Prod.map UInt16.toNat id : UInt16 × Entry → Nat) =
      fun item => item.1.toNat := rfl
  rw [← hfst, hfound, positions, hslots, position?_eq_findIdx?]
  obtain ⟨⟨slots⟩⟩ := pool
  simp

theorem Fits.toNat_count (hfits : pool.Fits) : pool.count.toNat = pool.slots.size := by
  have hsize : pool.slots.size ≤ 65535 := hfits
  simp only [count, UInt16.toNat_ofNat']
  omega

theorem Extends.refl (p : ConstantPool) : p.Extends p := ⟨[], by simp⟩

theorem Extends.trans (hpq : p.Extends q) (hqr : q.Extends r) : p.Extends r := by
  obtain ⟨first, hq⟩ := hpq
  obtain ⟨second, hr⟩ := hqr
  exact ⟨first ++ second, by rw [hr, hq, List.flatMap_append, List.append_assoc]⟩

theorem extends_append (p : ConstantPool) (entry : Entry) : p.Extends (p.append entry) :=
  ⟨[entry], by simp [append_slots]⟩

theorem extends_put (entry : Entry) (p : ConstantPool) : p.Extends (after (put entry) p) := by
  rcases after_put entry p with hsame | ⟨-, -, happend⟩
  · rw [hsame]
    exact Extends.refl p
  · rw [happend]
    exact extends_append p entry

theorem extends_item (item : PoolItem) (p : ConstantPool) : p.Extends (after item.put p) :=
  keeps_item (fun entry q hq => hq.trans (extends_put entry q)) item (Extends.refl p)

theorem failsCleanly (pool : ConstantPool) : pool.FailsCleanly := by
  refine ⟨fun entry fault left hrun => ?_, fun index entry fault left hrun => ?_,
    fun item fault left hrun => ?_⟩
  · exact (put_eq_error.mp hrun).2.2.2
  · unfold ConstantPool.replace at hrun
    split at hrun
    · cases hrun
      rfl
    · split at hrun
      · cases hrun
      · cases hrun
        rfl
  · rw [← after_of_error hrun]
    exact extends_item item pool

end ConstantPool

namespace PoolItem
variable {pool : ConstantPool} {index : UInt16} {item : PoolItem}

/-- The kind of the constant that an item is referred to by. -/
def kind : PoolItem → EntryKind
  | .text _ => .utf8
  | .className _ => .class
  | .nameAndType _ _ => .nameAndType
  | .member kind _ => kind.entryKind
  | .methodHandle _ _ => .methodHandle
  | .methodType _ => .methodType

/-- The constants of the pool spell the item, the last of them at this index. -/
def HeldAt (pool : ConstantPool) (index : UInt16) : PoolItem → Prop
  | .text content => pool.text index = .ok content
  | .className name => pool.className index = .ok name
  | .nameAndType name descriptor => pool.nameAndType index = .ok (name, descriptor)
  | .member kind key => pool.Refers kind index key
  | .methodHandle kind reference => pool.entry index = .ok (.methodHandle kind reference)
  | .methodType descriptor =>
    ∃ text, pool.entry index = .ok (.methodType text) ∧ pool.text text = .ok descriptor

theorem put_grows (item : PoolItem) :
    Grows item.put fun index pool => item.HeldAt pool index := by
  cases item with
  | text content => exact putText_grows content
  | className name => exact putClass_grows name
  | nameAndType name descriptor => exact putNameAndType_grows name descriptor
  | member kind key => exact putMember_grows kind key
  | methodHandle kind reference => exact putMethodHandle_grows kind reference
  | methodType descriptor => exact putMethodType_grows descriptor

theorem HeldAt.entry (h : item.HeldAt pool index) :
    ∃ entry, pool.entry index = .ok entry ∧ entry.kind = item.kind := by
  cases item with
  | text content => exact ⟨_, text_eq_ok.mp h, rfl⟩
  | className name =>
    obtain ⟨j, hentry, -⟩ := className_eq_ok.mp h
    exact ⟨_, hentry, rfl⟩
  | nameAndType name descriptor =>
    obtain ⟨j, k, hentry, -⟩ := nameAndType_eq_ok.mp h
    exact ⟨_, hentry, rfl⟩
  | member kind key =>
    obtain ⟨owner, nameAndType, hentry⟩ := h.entry
    exact ⟨_, hentry, rfl⟩
  | methodHandle kind reference => exact ⟨_, h, rfl⟩
  | methodType descriptor =>
    obtain ⟨text, hentry, -⟩ := h
    exact ⟨_, hentry, rfl⟩

end PoolItem

namespace ConstantPool
variable {pool : ConstantPool}

theorem Fits.indexesExactly (hfits : pool.Fits) : pool.IndexesExactly := by
  refine ⟨hfits.toNat_count, ?_, hfits.find, hfits.search, fun what index left hrun => ?_⟩
  · rw [entries_eq_map, List.map_map]
    exact (List.map_congr_left fun item hmem => hfits.toNat_of_mem_positions hmem).trans
      (List.map_id _)
  · cases what with
    | constant entry =>
      obtain ⟨other, hother, -⟩ := entry_of_put hfits hrun
      exact ⟨other, hother⟩
    | item item =>
      obtain ⟨-, -, hheld⟩ := item.put_grows hfits hrun
      obtain ⟨entry, hentry, -⟩ := hheld.entry
      exact ⟨entry, hentry⟩

/-- Whatever calls are made on a pool that is empty or was read, and whichever of them fail, the
slots stay well formed, no index is cut off, and the next call fails cleanly if it fails. -/
theorem wellFormed_callAll {start : ConstantPool} (hstart : start.IsStart)
    (calls : List PoolCall) : (callAll calls start).WellFormed ∧
      (callAll calls start).IndexesExactly ∧ (callAll calls start).FailsCleanly := by
  have hregular := (reachable_callAll hstart calls).regular
  exact ⟨hregular.wellFormed, hregular.fits.indexesExactly, failsCleanly _⟩

section Mixed

/-- The pool that holds a long and has no room behind it. -/
def longPool : ConstantPool := ⟨#[.gap, .entry (.long 5), .gap]⟩

/-- The first two calls fail: a long makes no room for an integer, and a gap is no constant. -/
def mixedCalls : List PoolCall :=
  [.replace 1 (.integer 7), .replace 2 (.long 7), .put (.item (.className "A")),
    .put (.constant (.double 0)), .put (.item (.className "A")), .replace 5 (.long 9)]

theorem wellFormed_callAll_of_mixed :
    readCounted 3 (5 :: bigEndian 8 5) = .ok (longPool, []) ∧
      (callAll mixedCalls longPool).slots = #[.gap, .entry (.long 5), .gap,
        .entry (.utf8 (.valid "A")), .entry (.class 3), .entry (.long 9), .gap] ∧
      (callAll mixedCalls longPool).WellFormed ∧ (callAll mixedCalls longPool).IndexesExactly ∧
      (callAll mixedCalls longPool).FailsCleanly := by
  have hread : readCounted 3 (5 :: bigEndian 8 5) = .ok (longPool, []) := by decide +kernel
  have hslots : (callAll mixedCalls longPool).slots = #[.gap, .entry (.long 5), .gap,
      .entry (.utf8 (.valid "A")), .entry (.class 3), .entry (.long 9), .gap] := by
    decide +kernel
  exact ⟨hread, hslots, wellFormed_callAll (.read hread) mixedCalls⟩

end Mixed

end ConstantPool

end StaticCompanion
