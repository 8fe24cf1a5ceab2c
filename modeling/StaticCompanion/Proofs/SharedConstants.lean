import StaticCompanion.Proofs.PoolCalls

/-!
# Constants are shared

What is put into a pool is found again at the index that was given for it, and putting it once more,
at once or after any further puts, gives that index and adds nothing. This holds over pools that were
read as well, whatever constants they hold twice, because a search always ends at the first one. A
pool that puts alone have built holds nothing twice.
-/
namespace StaticCompanion

open ConstantPool

/-- The lookups that fit an item give it back at this index. The member of a handle is the one that
its reference led to when the handle was put. -/
def PoolItem.AgreesAt (before left : ConstantPool) (index : UInt16) : PoolItem → Prop
  | .text content => left.text index = .ok content
  | .className name => left.className index = .ok name
  | .nameAndType name descriptor => left.nameAndType index = .ok (name, descriptor)
  | .member _ key => left.member index = .ok key
  | .methodHandle kind reference =>
    ∀ key, before.member reference = .ok key → left.methodHandle index = .ok (kind, key)
  | .methodType descriptor =>
    ∃ text, left.entry index = .ok (.methodType text) ∧ left.text text = .ok descriptor

theorem PoolItem.HeldAt.agreesAt {item : PoolItem} {before left : ConstantPool} {index : UInt16}
    (h : item.HeldAt left index) (hle : before ≤ left) : item.AgreesAt before left index := by
  cases item with
  | member kind key => exact h.member
  | methodHandle kind reference =>
    intro key hkey
    exact methodHandle_eq_ok.mpr ⟨reference, h, member_of_le hle hkey⟩
  | _ => exact h

namespace Entry

theorem same_self {entry : Entry} (hfloat : ∀ bits, entry ≠ .float bits)
    (hdouble : ∀ bits, entry ≠ .double bits) : entry.same entry = true := by
  unfold same
  split
  · exact absurd rfl (hfloat _)
  · exact absurd rfl (hdouble _)
  · exact beq_self_eq_true entry

theorem sameFloat_comm (a b : UInt32) : sameFloat a b = sameFloat b a := by
  unfold sameFloat
  dsimp only
  rw [BEq.comm (a := a), Bool.and_comm (decide _), Bool.and_comm (_ == 0)]

theorem sameDouble_comm (a b : UInt64) : sameDouble a b = sameDouble b a := by
  unfold sameDouble
  dsimp only
  rw [BEq.comm (a := a), Bool.and_comm (decide _), Bool.and_comm (_ == 0)]

theorem same_comm (a b : Entry) : a.same b = b.same a := by
  unfold same
  split
  · exact sameFloat_comm _ _
  · exact sameDouble_comm _ _
  · rename_i hfloats hdoubles
    split
    · exact absurd rfl (hfloats _ _ rfl)
    · exact absurd rfl (hdoubles _ _ rfl)
    · exact BEq.comm

theorem eq_of_getElem?_row {entry a : Entry} {k : Nat} (h : entry.row[k]? = some (.entry a)) :
    k = 0 ∧ a = entry := by
  unfold row at h
  cases k with
  | zero => exact ⟨rfl, (Slot.entry.inj (Option.some.inj h)).symm⟩
  | succ k =>
    rw [List.getElem?_cons_succ] at h
    have hmem := List.mem_of_getElem? h
    split at hmem <;> simp at hmem

end Entry

namespace ConstantPool
variable {p q r pool : ConstantPool} {e : Entry}

section Repeats
variable {ε α β : Type}

/-- Where the change succeeds, it succeeds again on each pool that extends the one it leaves, with
the same result and without a change. -/
def Repeats (change : PoolM ε α) : Prop :=
  ∀ ⦃p a q⦄, change p = .ok a q → p.Extends q ∧ ∀ r, q.Extends r → change r = .ok a r

theorem Repeats.bind {change : PoolM ε α} {next : α → PoolM ε β} (h : Repeats change)
    (hnext : ∀ a, Repeats (next a)) : Repeats (change >>= next) := by
  intro p b q hrun
  obtain ⟨a, middle, ha, hb⟩ := state_bind_eq_ok.mp hrun
  have hfirst := h ha
  have hsecond := hnext a hb
  refine ⟨hfirst.1.trans hsecond.1, fun r hr => ?_⟩
  have hagain := hfirst.2 r (hsecond.1.trans hr)
  exact state_bind_eq_ok.mpr ⟨a, r, hagain, hsecond.2 r hr⟩

end Repeats

theorem Extends.slots (h : p.Extends q) {i : Nat} (hi : i < p.slots.size) :
    q.slots[i]? = p.slots[i]? := by
  obtain ⟨entries, hq⟩ := h
  rw [← Array.getElem?_toList, ← Array.getElem?_toList, hq]
  exact List.getElem?_append_left (by simpa using hi)

/-- A search that ends does not look at what comes later. -/
theorem Extends.position? (h : p.Extends q) {k : Nat} (hk : p.position? e = some k) :
    q.position? e = some k := by
  obtain ⟨⟨other, hother, hsame⟩, hfirst⟩ := position?_eq_some.mp hk
  have hlt := (Array.getElem?_eq_some_iff.mp hother).1
  refine position?_eq_some.mpr
    ⟨⟨other, by rw [h.slots hlt, hother], hsame⟩, fun j hj other hj' => ?_⟩
  rw [h.slots (by omega)] at hj'
  exact hfirst j hj other hj'

theorem position?_append (hself : e.same e = true) (hnone : p.position? e = none) :
    (p.append e).position? e = some p.slots.size := by
  refine position?_eq_some.mpr ⟨⟨e, getElem?_append_size p e, hself⟩, fun j hj other hother => ?_⟩
  rw [(extends_append p e).slots hj] at hother
  exact position?_eq_none.mp hnone j other hother

theorem put_repeats (hfloat : ∀ bits, e ≠ .float bits) (hdouble : ∀ bits, e ≠ .double bits) :
    Repeats (put e) := by
  intro p index q hrun
  rcases put_eq_ok.mp hrun with ⟨k, hk, hindex, rfl⟩ | ⟨hnone, -, hindex, rfl⟩
  · exact ⟨Extends.refl _, fun r hr => put_eq_ok.mpr (.inl ⟨k, hr.position? hk, hindex, rfl⟩)⟩
  · have hk := position?_append (Entry.same_self hfloat hdouble) hnone
    exact ⟨extends_append p e, fun r hr => put_eq_ok.mpr (.inl ⟨_, hr.position? hk, hindex, rfl⟩)⟩

/-- No constant of the pool is the same as another one. -/
def Distinct (pool : ConstantPool) : Prop :=
  ∀ (i j : Nat) (a b : Entry), pool.slots[i]? = some (.entry a) →
    pool.slots[j]? = some (.entry b) → a.same b = true → i = j

theorem of_getElem?_append {i : Nat} {a : Entry} (h : (p.append e).slots[i]? = some (.entry a)) :
    p.slots[i]? = some (.entry a) ∨ i = p.slots.size ∧ a = e := by
  by_cases hi : i < p.slots.size
  · rw [(extends_append p e).slots hi] at h
    exact .inl h
  · right
    rw [← Array.getElem?_toList, append_slots, List.getElem?_append_right (by simpa using hi)] at h
    have hrow := Entry.eq_of_getElem?_row h
    rw [Array.length_toList] at hrow
    exact ⟨by omega, hrow.2⟩

theorem Distinct.put (h : pool.Distinct) (entry : Entry) : (after (put entry) pool).Distinct := by
  rcases after_put entry pool with hkept | ⟨hnone, -, happend⟩
  · rw [hkept]
    exact h
  · rw [happend]
    have hnew := position?_eq_none.mp hnone
    intro i j a b hi hj hsame
    rcases of_getElem?_append hi with hold | ⟨hi, ha⟩
    · rcases of_getElem?_append hj with hold' | ⟨hj, hb⟩
      · exact h i j a b hold hold' hsame
      · simp [hb, hnew i a hold] at hsame
    · rcases of_getElem?_append hj with hold' | ⟨hj, hb⟩
      · rw [Entry.same_comm, ha] at hsame
        simp [hnew j b hold'] at hsame
      · rw [hi, hj]

theorem distinct_callAll_puts (puts : List PoolPut) :
    (callAll (puts.map .put) empty).Distinct := by
  have hempty : empty.Distinct := by
    intro i j a b hi
    have hmem := Array.mem_of_getElem? hi
    simp [empty] at hmem
  exact keeps_puts (fun entry _ h => h.put entry) puts hempty

end ConstantPool

namespace PoolItem

theorem put_repeats (item : PoolItem) : Repeats item.put := by
  have htext (text : String) : Repeats (putText text) :=
    ConstantPool.put_repeats (by simp) (by simp)
  have hclass (name : String) : Repeats (putClass name) :=
    (htext name).bind fun _ => ConstantPool.put_repeats (by simp) (by simp)
  have hpair (name descriptor : String) : Repeats (putNameAndType name descriptor) :=
    (htext name).bind fun _ => (htext descriptor).bind fun _ =>
      ConstantPool.put_repeats (by simp) (by simp)
  cases item with
  | text content => exact htext content
  | className name => exact hclass name
  | nameAndType name descriptor => exact hpair name descriptor
  | member kind key =>
    exact (hclass key.owner).bind fun _ => (hpair key.name key.descriptor).bind fun _ =>
      ConstantPool.put_repeats (by simp) (by simp)
  | methodHandle kind reference =>
    exact ConstantPool.put_repeats (by simp) (by simp)
  | methodType descriptor =>
    exact (htext descriptor).bind fun _ =>
      ConstantPool.put_repeats (by simp) (by simp)

/-- What is put over a pool that calls have led to is found at the index that is given back, older
indices keep their constants, and from then on putting it again gives that index and changes
nothing. A pool that was built by puts holds no two constants that are the same. -/
theorem put_isShared {start left : ConstantPool} {index : UInt16} (hstart : start.IsStart)
    (calls : List PoolCall) (item : PoolItem)
    (hput : item.put (callAll calls start) = .ok index left) :
    item.AgreesAt (callAll calls start) left index ∧
      (∃ entry, left.entry index = .ok entry ∧ entry.kind = item.kind) ∧
      (∀ i entry, (callAll calls start).entry i = .ok entry → left.entry i = .ok entry) ∧
      (∀ more : List PoolPut, item.put (callAll (more.map .put) left) =
        .ok index (callAll (more.map .put) left)) ∧
      ∀ (puts : List PoolPut) i j a b, (callAll (puts.map .put) empty).entry i = .ok a →
        (callAll (puts.map .put) empty).entry j = .ok b → a.same b = true → i = j := by
  have hfits := (reachable_callAll hstart calls).regular.fits
  obtain ⟨hle, -, hheld⟩ := item.put_grows hfits hput
  refine ⟨hheld.agreesAt hle, hheld.entry, fun i entry => entry_of_le hle, fun more => ?_,
    fun puts i j a b hi hj hsame => ?_⟩
  · have hextends : left.Extends (callAll (more.map .put) left) :=
      keeps_puts (fun entry q hq => hq.trans (extends_put entry q)) more (Extends.refl left)
    exact (item.put_repeats hput).2 _ hextends
  · have hpositions := distinct_callAll_puts puts _ _ a b (entry_eq_ok.mp hi) (entry_eq_ok.mp hj)
    exact UInt16.toNat_inj.mp (hpositions hsame)

section Duplicates

/-- A pool that was read and holds its text twice. -/
def duplicates : ConstantPool :=
  ⟨#[.gap, .entry (.utf8 (.valid "A")), .entry (.utf8 (.valid "A")), .entry (.class 2)]⟩

def duplicatesBytes : Bytes := [1, 0, 1, 65, 1, 0, 1, 65, 7, 0, 2]

/-- The class that was read has its name from the second text. A search for the name ends at the
first one, so the class is put anew. -/
def sharedPool : ConstantPool :=
  ⟨#[.gap, .entry (.utf8 (.valid "A")), .entry (.utf8 (.valid "A")), .entry (.class 2),
    .entry (.double 0), .gap, .entry (.class 1)]⟩

def doublePut : List PoolCall := [.put (.constant (.double 0))]

theorem put_isShared_of_duplicates :
    readCounted 4 duplicatesBytes = .ok (duplicates, []) ∧
      put (.className "A") (callAll doublePut duplicates) = .ok 6 sharedPool ∧
      sharedPool.className 6 = .ok "A" ∧
      (∃ entry, sharedPool.entry 6 = .ok entry ∧ entry.kind = .class) ∧
      sharedPool.entry 3 = .ok (.class 2) ∧
      ∀ more : List PoolPut, put (.className "A") (callAll (more.map .put) sharedPool) =
        .ok 6 (callAll (more.map .put) sharedPool) := by
  have hread : readCounted 4 duplicatesBytes = .ok (duplicates, []) := by decide +kernel
  have hput : put (.className "A") (callAll doublePut duplicates) = .ok 6 sharedPool := by
    cbv
  have hold : (callAll doublePut duplicates).entry 3 = .ok (.class 2) := by decide +kernel
  have hshared := put_isShared (.read hread) doublePut (.className "A") hput
  exact ⟨hread, hput, hshared.1, hshared.2.1, hshared.2.2.1 3 _ hold, hshared.2.2.2.1⟩

end Duplicates

end PoolItem

end StaticCompanion
