import StaticCompanion.ConstantPool.Insert
import StaticCompanion.ConstantPool.Lookup
import StaticCompanion.Proofs.Steps
import StaticCompanion.Proofs.Text

/-!
# Growing pools

Putting something into a pool only adds slots behind those that are there, so whatever an index
led to before, it still leads to. What has been put is found at the index that was given back.
Both hold for pools that have no more slots than indices can tell, and puts keep to that.
-/
namespace StaticCompanion

namespace Entry

/-- A constant that is read back as it is. Bytes that spell a text are no broken text. -/
def Canonical : Entry → Prop
  | utf8 text => PoolText.ofBytes text.toBytes = text
  | _ => True

def row (entry : Entry) : List Slot := .entry entry :: if entry.slots = 2 then [.gap] else []

theorem length_row (entry : Entry) : entry.row.length = entry.slots := by
  cases entry <;> rfl

theorem slots_pos (entry : Entry) : 0 < entry.slots := by
  cases entry <;> simp [slots]

end Entry

namespace ConstantPool

/-- The pool has no more slots than a class file can count. -/
def Fits (pool : ConstantPool) : Prop := pool.slots.size ≤ capacity

instance (pool : ConstantPool) : Decidable pool.Fits := inferInstanceAs (Decidable (_ ≤ _))

/-- A pool is below the pools that have further constants behind its own. -/
instance : LE ConstantPool where
  le p q := ∃ entries : List Entry, (∀ entry ∈ entries, entry.Canonical) ∧
    q.slots.toList = p.slots.toList ++ entries.flatMap Entry.row

variable {p q r : ConstantPool}

@[refl]
theorem le_refl (p : ConstantPool) : p ≤ p := ⟨[], by simp, by simp⟩

theorem le_trans (hpq : p ≤ q) (hqr : q ≤ r) : p ≤ r := by
  obtain ⟨first, hfirst, hq⟩ := hpq
  obtain ⟨second, hsecond, hr⟩ := hqr
  refine ⟨first ++ second, ?_, ?_⟩
  · intro entry hentry
    cases List.mem_append.mp hentry with
    | inl hmem => exact hfirst entry hmem
    | inr hmem => exact hsecond entry hmem
  · rw [hr, hq, List.flatMap_append, List.append_assoc]

theorem slots_of_le (hle : p ≤ q) {i : Nat} {slot : Slot} (hslot : p.slots[i]? = some slot) :
    q.slots[i]? = some slot := by
  obtain ⟨entries, -, hq⟩ := hle
  rw [← Array.getElem?_toList] at hslot ⊢
  rw [hq]
  rw [List.getElem?_append_left (List.getElem?_eq_some_iff.mp hslot).1]
  exact hslot

theorem entry_eq_ok {i : UInt16} {e : Entry} :
    p.entry i = .ok e ↔ p.slots[i.toNat]? = some (.entry e) := by
  unfold entry
  split <;> simp_all

theorem entry_of_le (hle : p ≤ q) {i : UInt16} {e : Entry} (he : p.entry i = .ok e) :
    q.entry i = .ok e :=
  entry_eq_ok.mpr (slots_of_le hle (entry_eq_ok.mp he))

theorem text_eq_ok {i : UInt16} {s : String} :
    p.text i = .ok s ↔ p.entry i = .ok (.utf8 (.valid s)) := by
  unfold text
  cases he : p.entry i with
  | error fault => simp [bind, Except.bind]
  | ok e => cases e with
    | utf8 t => cases t <;> simp [bind, Except.bind, pure, Except.pure]
    | _ => simp [bind, Except.bind]

theorem className_eq_ok {i : UInt16} {s : String} :
    p.className i = .ok s ↔ ∃ j, p.entry i = .ok (.class j) ∧ p.text j = .ok s := by
  unfold className
  cases he : p.entry i with
  | error fault => simp [bind, Except.bind]
  | ok e => cases e <;> simp [bind, Except.bind]

theorem nameAndType_eq_ok {i : UInt16} {pair : String × String} :
    p.nameAndType i = .ok pair ↔
      ∃ j k, p.entry i = .ok (.nameAndType j k) ∧ p.text j = .ok pair.1 ∧
        p.text k = .ok pair.2 := by
  obtain ⟨name, type⟩ := pair
  unfold nameAndType
  cases he : p.entry i with
  | error fault => simp
  | ok e => cases e <;> simp

theorem member_eq_ok {i : UInt16} {key : MemberKey} :
    p.member i = .ok key ↔
      ∃ kind j k, p.entry i = .ok (.memberRef kind j k) ∧ p.className j = .ok key.owner ∧
        p.nameAndType k = .ok (key.name, key.descriptor) := by
  obtain ⟨owner, name, type⟩ := key
  unfold member
  cases he : p.entry i with
  | error fault => simp
  | ok e => cases e <;> simp

/-- The constant with this index refers to a member in the way of this kind. -/
structure Refers (pool : ConstantPool) (kind : RefKind) (index : UInt16) (key : MemberKey) :
    Prop where
  entry : ∃ owner nameAndType, pool.entry index = .ok (.memberRef kind owner nameAndType)
  member : pool.member index = .ok key

theorem methodHandle_eq_ok {i : UInt16} {kind : UInt8} {key : MemberKey} :
    p.methodHandle i = .ok (kind, key) ↔
      ∃ j, p.entry i = .ok (.methodHandle kind j) ∧ p.member j = .ok key := by
  unfold methodHandle
  cases he : p.entry i with
  | error fault => simp
  | ok e => cases e <;> simp [and_comm, and_assoc]

section Monotone
variable (hle : p ≤ q)
include hle

theorem text_of_le {i : UInt16} {s : String} (h : p.text i = .ok s) : q.text i = .ok s :=
  text_eq_ok.mpr (entry_of_le hle (text_eq_ok.mp h))

theorem className_of_le {i : UInt16} {s : String} (h : p.className i = .ok s) :
    q.className i = .ok s := by
  obtain ⟨j, he, hs⟩ := className_eq_ok.mp h
  exact className_eq_ok.mpr ⟨j, entry_of_le hle he, text_of_le hle hs⟩

theorem nameAndType_of_le {i : UInt16} {pair : String × String} (h : p.nameAndType i = .ok pair) :
    q.nameAndType i = .ok pair := by
  obtain ⟨j, k, he, hname, htype⟩ := nameAndType_eq_ok.mp h
  exact nameAndType_eq_ok.mpr ⟨j, k, entry_of_le hle he, text_of_le hle hname, text_of_le hle htype⟩

theorem member_of_le {i : UInt16} {key : MemberKey} (h : p.member i = .ok key) :
    q.member i = .ok key := by
  obtain ⟨kind, j, k, he, howner, hpair⟩ := member_eq_ok.mp h
  exact member_eq_ok.mpr
    ⟨kind, j, k, entry_of_le hle he, className_of_le hle howner, nameAndType_of_le hle hpair⟩

theorem Refers.of_le {kind : RefKind} {i : UInt16} {key : MemberKey} (h : p.Refers kind i key) :
    q.Refers kind i key := by
  obtain ⟨owner, nameAndType, hentry⟩ := h.entry
  exact ⟨⟨owner, nameAndType, entry_of_le hle hentry⟩, member_of_le hle h.member⟩

theorem methodHandle_of_le {i : UInt16} {handle : UInt8 × MemberKey}
    (h : p.methodHandle i = .ok handle) : q.methodHandle i = .ok handle := by
  obtain ⟨j, he, hkey⟩ := methodHandle_eq_ok.mp h
  exact methodHandle_eq_ok.mpr ⟨j, entry_of_le hle he, member_of_le hle hkey⟩

end Monotone

/-- Whenever the change succeeds on a pool that fits, the pool has grown and still fits, and the
result and the new pool are as stated. -/
def Grows {ε α : Type} (change : PoolM ε α) (post : α → ConstantPool → Prop) : Prop :=
  ∀ ⦃p a p'⦄, p.Fits → change p = .ok a p' → p ≤ p' ∧ p'.Fits ∧ post a p'

theorem Grows.imp {ε α : Type} {change : PoolM ε α} {P Q : α → ConstantPool → Prop}
    (h : Grows change P) (himp : ∀ a p, P a p → Q a p) : Grows change Q := by
  intro p a p' hfits hrun
  obtain ⟨hle, hfits', hpost⟩ := h hfits hrun
  exact ⟨hle, hfits', himp _ _ hpost⟩

/-- One change after another. What the first one gives has to survive the growth by the second. -/
theorem Grows.bind {ε α β : Type} {change : PoolM ε α} {next : α → PoolM ε β}
    {P : α → ConstantPool → Prop} {Q : β → ConstantPool → Prop} (h : Grows change P)
    (hnext : ∀ a p b p', P a p → p.Fits → next a p = .ok b p' → p ≤ p' ∧ p'.Fits ∧ Q b p') :
    Grows (change >>= next) Q := by
  intro p b p' hfits hrun
  obtain ⟨a, p₁, ha, hb⟩ := state_bind_eq_ok.mp hrun
  obtain ⟨hle, hfits₁, hpost⟩ := h hfits ha
  obtain ⟨hle', hfits', hpost'⟩ := hnext a p₁ b p' hpost hfits₁ hb
  exact ⟨le_trans hle hle', hfits', hpost'⟩

theorem toNat_ofNat_of_fits (hfits : p.Fits) {i : Nat} (hi : i < p.slots.size) :
    (UInt16.ofNat i).toNat = i := by
  have hsize : p.slots.size ≤ 65535 := hfits
  rw [UInt16.toNat_ofNat']
  omega

theorem exists_index_of_mem (hfits : p.Fits) {e : Entry} (hmem : .entry e ∈ p.slots.toList) :
    ∃ index, p.entry index = .ok e := by
  obtain ⟨i, hi⟩ := List.getElem?_of_mem hmem
  rw [Array.getElem?_toList] at hi
  obtain ⟨hlt, -⟩ := Array.getElem?_eq_some_iff.mp hi
  refine ⟨UInt16.ofNat i, entry_eq_ok.mpr ?_⟩
  rw [toNat_ofNat_of_fits hfits hlt, hi]

theorem append_slots (p : ConstantPool) (e : Entry) :
    (p.append e).slots.toList = p.slots.toList ++ e.row := by
  unfold append Entry.row
  split <;> simp

theorem size_append (p : ConstantPool) (e : Entry) :
    (p.append e).slots.size = p.slots.size + e.slots := by
  have hslots := congrArg List.length (append_slots p e)
  rw [Array.length_toList] at hslots
  rw [hslots, List.length_append, Array.length_toList, Entry.length_row]

theorem getElem?_append_size (p : ConstantPool) (e : Entry) :
    (p.append e).slots[p.slots.size]? = some (.entry e) := by
  rw [← Array.getElem?_toList, append_slots]
  simp [Entry.row]

theorem eq_of_same {a e : Entry} (hfloat : ∀ bits, e ≠ .float bits)
    (hdouble : ∀ bits, e ≠ .double bits) (hsame : a.same e = true) : a = e := by
  unfold Entry.same at hsame
  split at hsame
  · exact absurd rfl (hfloat _)
  · exact absurd rfl (hdouble _)
  · exact beq_iff_eq.mp hsame

theorem position?_eq_some {e : Entry} {k : Nat} :
    p.position? e = some k ↔ (∃ other, p.slots[k]? = some (.entry other) ∧ other.same e = true) ∧
      ∀ j < k, ∀ other, p.slots[j]? = some (.entry other) → other.same e = false := by
  unfold position?
  rw [Array.findIdx?_eq_some_iff_getElem]
  constructor
  · rintro ⟨hlt, hsame, hfirst⟩
    constructor
    · cases hslot : p.slots[k] with
      | entry other =>
        rw [hslot] at hsame
        exact ⟨other, by rw [Array.getElem?_eq_getElem hlt, hslot], hsame⟩
      | gap => simp [hslot] at hsame
    · intro j hj other hother
      obtain ⟨hjlt, hslot⟩ := Array.getElem?_eq_some_iff.mp hother
      have hj := hfirst j hj
      rw [hslot] at hj
      simpa using hj
  · rintro ⟨⟨other, hother, hsame⟩, hfirst⟩
    obtain ⟨hlt, hslot⟩ := Array.getElem?_eq_some_iff.mp hother
    refine ⟨hlt, by simpa [hslot] using hsame, fun j hj => ?_⟩
    cases hslot : p.slots[j] with
    | entry other =>
      have hj := hfirst j hj other (by rw [Array.getElem?_eq_getElem (by omega), hslot])
      simpa using hj
    | gap => simp

theorem position?_eq_none {e : Entry} : p.position? e = none ↔
    ∀ (j : Nat) (other : Entry), p.slots[j]? = some (.entry other) → other.same e = false := by
  unfold position?
  rw [Array.findIdx?_eq_none_iff]
  constructor
  · intro h j other hother
    have hslot := h _ (Array.mem_of_getElem? hother)
    simpa using hslot
  · intro h slot hslot
    cases slot with
    | entry other =>
      obtain ⟨j, hj⟩ := Array.mem_iff_getElem?.mp hslot
      exact h j other hj
    | gap => rfl

/-- A put finds its constant or puts it behind the others. -/
theorem put_eq_ok {e : Entry} {i : UInt16} : put e p = .ok i q ↔
    (∃ k, p.position? e = some k ∧ i = UInt16.ofNat k ∧ q = p) ∨
      (p.position? e = none ∧ p.slots.size + e.slots ≤ capacity ∧ i = p.count ∧
        q = p.append e) := by
  unfold put
  cases p.position? e with
  | some k => simp [eq_comm]
  | none =>
    by_cases hroom : p.slots.size + e.slots ≤ capacity
    · simp [hroom, eq_comm]
    · simp [hroom]

theorem put_eq_error {e : Entry} {fault : PoolFault} : put e p = .error fault q ↔
    p.position? e = none ∧ capacity < p.slots.size + e.slots ∧ fault = .full ∧ q = p := by
  unfold put
  cases p.position? e with
  | some k => simp
  | none =>
    by_cases hroom : p.slots.size + e.slots ≤ capacity
    · simp [hroom, Nat.not_lt.mpr hroom]
    · simp [hroom, Nat.lt_of_not_le hroom, eq_comm]

theorem toNat_count_of_room {e : Entry} (hroom : p.slots.size + e.slots ≤ capacity) :
    p.count.toNat = p.slots.size := by
  have hpos := e.slots_pos
  have hsize : p.slots.size + e.slots ≤ 65535 := hroom
  simp only [count, UInt16.toNat_ofNat']
  omega

theorem fits_append {e : Entry} (hroom : p.slots.size + e.slots ≤ capacity) :
    (p.append e).Fits := by
  unfold Fits
  rw [size_append]
  exact hroom

theorem entry_append {e : Entry} (hroom : p.slots.size + e.slots ≤ capacity) :
    (p.append e).entry p.count = .ok e := by
  rw [entry_eq_ok, toNat_count_of_room hroom, getElem?_append_size]

theorem entry_of_put {e : Entry} {i : UInt16} (hfits : p.Fits) (hrun : put e p = .ok i q) :
    ∃ other, q.entry i = .ok other ∧ (other = e ∨ other.same e = true) := by
  rcases put_eq_ok.mp hrun with ⟨k, hposition, rfl, rfl⟩ | ⟨-, hroom, rfl, rfl⟩
  · obtain ⟨⟨other, hslot, hsame⟩, -⟩ := position?_eq_some.mp hposition
    have hlt := (Array.getElem?_eq_some_iff.mp hslot).1
    exact ⟨other, entry_eq_ok.mpr (by rw [toNat_ofNat_of_fits hfits hlt, hslot]), .inr hsame⟩
  · exact ⟨e, entry_append hroom, .inl rfl⟩

theorem put_grows {e : Entry} (hcanonical : e.Canonical) (hfloat : ∀ bits, e ≠ .float bits)
    (hdouble : ∀ bits, e ≠ .double bits) : Grows (put e) fun i p => p.entry i = .ok e := by
  intro p i p' hfits hrun
  obtain ⟨other, hother, hsame⟩ := entry_of_put hfits hrun
  have hentry : p'.entry i = .ok e := by
    rcases hsame with rfl | hsame
    · exact hother
    · rw [← eq_of_same hfloat hdouble hsame, hother]
  rcases put_eq_ok.mp hrun with ⟨k, -, -, rfl⟩ | ⟨-, hroom, -, rfl⟩
  · exact ⟨le_refl _, hfits, hentry⟩
  · exact ⟨⟨[e], by simpa using hcanonical, by simp [append_slots]⟩, fits_append hroom, hentry⟩

theorem putText_grows (s : String) : Grows (putText s) fun i p => p.text i = .ok s := by
  apply (put_grows (e := .utf8 (.valid s)) (PoolText.ofBytes_encode s) (by simp) (by simp)).imp
  intro i p hentry
  exact text_eq_ok.mpr hentry

theorem putClass_grows (name : String) :
    Grows (putClass name) fun i p => p.className i = .ok name := by
  apply (putText_grows name).bind
  intro j p i p' hname hfits hrun
  obtain ⟨hle, hfits', he⟩ := put_grows (by trivial) (by simp) (by simp) hfits hrun
  exact ⟨hle, hfits', className_eq_ok.mpr ⟨j, he, text_of_le hle hname⟩⟩

theorem putNameAndType_grows (name type : String) :
    Grows (putNameAndType name type) fun i p => p.nameAndType i = .ok (name, type) := by
  apply (putText_grows name).bind
  intro j p i p' hname hfits hrun
  obtain ⟨k, p₁, htype, hput⟩ := state_bind_eq_ok.mp hrun
  obtain ⟨hle₁, hfits₁, htype⟩ := putText_grows type hfits htype
  obtain ⟨hle₂, hfits₂, he⟩ := put_grows (by trivial) (by simp) (by simp) hfits₁ hput
  have hle : p ≤ p' := le_trans hle₁ hle₂
  exact ⟨hle, hfits₂,
    nameAndType_eq_ok.mpr ⟨j, k, he, text_of_le hle hname, text_of_le hle₂ htype⟩⟩

theorem putMember_grows (kind : RefKind) (key : MemberKey) :
    Grows (putMember kind key) fun i p => p.Refers kind i key := by
  apply (putClass_grows key.owner).bind
  intro j p i p' howner hfits hrun
  obtain ⟨k, p₁, hpair, hput⟩ := state_bind_eq_ok.mp hrun
  obtain ⟨hle₁, hfits₁, hpair⟩ := putNameAndType_grows key.name key.descriptor hfits hpair
  obtain ⟨hle₂, hfits₂, he⟩ := put_grows (by trivial) (by simp) (by simp) hfits₁ hput
  have hle : p ≤ p' := le_trans hle₁ hle₂
  have hmember := member_eq_ok.mpr
    ⟨kind, j, k, he, className_of_le hle howner, nameAndType_of_le hle₂ hpair⟩
  exact ⟨hle, hfits₂, ⟨j, k, he⟩, hmember⟩

theorem putMethodHandle_grows (kind : UInt8) (reference : UInt16) :
    Grows (putMethodHandle kind reference) fun i p =>
      p.entry i = .ok (.methodHandle kind reference) :=
  put_grows (by trivial) (by simp) (by simp)

theorem putMethodType_grows (descriptor : String) :
    Grows (putMethodType descriptor) fun i p =>
      ∃ j, p.entry i = .ok (.methodType j) ∧ p.text j = .ok descriptor := by
  apply (putText_grows descriptor).bind
  intro j p i p' hdescriptor hfits hrun
  obtain ⟨hle, hfits', he⟩ := put_grows (by trivial) (by simp) (by simp) hfits hrun
  exact ⟨hle, hfits', j, he, text_of_le hle hdescriptor⟩

theorem mapM_grows {ε α β : Type} {change : α → PoolM ε β} {R : α → β → ConstantPool → Prop}
    (hmono : ∀ a b p q, p ≤ q → R a b p → R a b q) (h : ∀ a, Grows (change a) (R a))
    (as : List α) :
    Grows (as.mapM change) fun bs p => List.Forall₂ (fun a b => R a b p) as bs := by
  induction as with
  | nil =>
    intro p bs p' hfits hrun
    simp only [List.mapM_nil, state_pure_eq_ok] at hrun
    obtain ⟨rfl, rfl⟩ := hrun
    exact ⟨le_refl p, hfits, .nil⟩
  | cons a as ih =>
    intro p bs p' hfits hrun
    obtain ⟨b, p₁, rest, ha, has, rfl⟩ := state_mapM_cons_eq_ok.mp hrun
    obtain ⟨hle₁, hfits₁, hb⟩ := h a hfits ha
    obtain ⟨hle₂, hfits₂, hrest⟩ := ih hfits₁ has
    exact ⟨le_trans hle₁ hle₂, hfits₂, .cons (hmono _ _ _ _ hle₂ hb) hrest⟩

end ConstantPool

end StaticCompanion
