import StaticCompanion.Proofs.ReachablePools

/-!
# What a put leaves at its index

A put compares floating-point constants as numbers, and as numbers the two zeros are equal. So the
constant at the index that a put gives has the bytes of the one that was put, unless this is a zero
and the zero of the other sign comes before it in the pool. Then that one is shared in its place.
-/
namespace StaticCompanion

namespace Entry
variable {a e : Entry}

/-- The constant is a zero, and the other one is the zero of the other sign in its format. -/
inductive IsOppositeZero : Entry → Entry → Prop
  | negativeFloat : IsOppositeZero (.float 0x80000000) (.float 0)
  | positiveFloat : IsOppositeZero (.float 0) (.float 0x80000000)
  | negativeDouble : IsOppositeZero (.double 0x8000000000000000) (.double 0)
  | positiveDouble : IsOppositeZero (.double 0) (.double 0x8000000000000000)

theorem IsOppositeZero.same (h : a.IsOppositeZero e) : a.same e = true := by
  cases h <;> decide

theorem IsOppositeZero.same_self (h : a.IsOppositeZero e) : e.same e = true := by
  cases h <;> decide

theorem IsOppositeZero.ne (h : a.IsOppositeZero e) : a ≠ e := by
  cases h <;> decide

theorem IsOppositeZero.write_ne (h : a.IsOppositeZero e) :
    Entry.format.write a ≠ Entry.format.write e := by
  cases h <;> decide

theorem float_magnitude_eq_zero {bits : UInt32} (h : bits &&& 0x7FFFFFFF = 0) :
    bits = 0 ∨ bits = 0x80000000 := by
  have hlt := bits.toNat_lt
  have hnat : bits.toNat &&& 0x7FFFFFFF = 0 := congrArg UInt32.toNat h
  have hmod : bits.toNat &&& 0x7FFFFFFF = bits.toNat % 2 ^ 31 := Nat.and_two_pow_sub_one_eq_mod _ 31
  rw [← UInt32.toNat_inj, ← UInt32.toNat_inj]
  change bits.toNat = 0 ∨ bits.toNat = 0x80000000
  omega

theorem double_magnitude_eq_zero {bits : UInt64} (h : bits &&& 0x7FFFFFFFFFFFFFFF = 0) :
    bits = 0 ∨ bits = 0x8000000000000000 := by
  have hlt := bits.toNat_lt
  have hnat : bits.toNat &&& 0x7FFFFFFFFFFFFFFF = 0 := congrArg UInt64.toNat h
  have hmod : bits.toNat &&& 0x7FFFFFFFFFFFFFFF = bits.toNat % 2 ^ 63 :=
    Nat.and_two_pow_sub_one_eq_mod _ 63
  rw [← UInt64.toNat_inj, ← UInt64.toNat_inj]
  change bits.toNat = 0 ∨ bits.toNat = 0x8000000000000000
  omega

theorem eq_or_isOppositeZero_of_sameFloat {a b : UInt32} (h : sameFloat a b = true) :
    a = b ∨ (float a).IsOppositeZero (float b) := by
  simp only [sameFloat, Bool.and_eq_true, Bool.or_eq_true, beq_iff_eq] at h
  rcases h.2 with heq | ⟨ha, hb⟩
  · exact .inl heq
  · rcases float_magnitude_eq_zero ha with rfl | rfl <;>
      rcases float_magnitude_eq_zero hb with rfl | rfl
    · exact .inl rfl
    · exact .inr .positiveFloat
    · exact .inr .negativeFloat
    · exact .inl rfl

theorem eq_or_isOppositeZero_of_sameDouble {a b : UInt64} (h : sameDouble a b = true) :
    a = b ∨ (double a).IsOppositeZero (double b) := by
  simp only [sameDouble, Bool.and_eq_true, Bool.or_eq_true, beq_iff_eq] at h
  rcases h.2 with heq | ⟨ha, hb⟩
  · exact .inl heq
  · rcases double_magnitude_eq_zero ha with rfl | rfl <;>
      rcases double_magnitude_eq_zero hb with rfl | rfl
    · exact .inl rfl
    · exact .inr .positiveDouble
    · exact .inr .negativeDouble
    · exact .inl rfl

theorem eq_or_isOppositeZero_of_same (h : a.same e = true) : a = e ∨ a.IsOppositeZero e := by
  unfold same at h
  split at h
  · rcases eq_or_isOppositeZero_of_sameFloat h with rfl | hzero
    · exact .inl rfl
    · exact .inr hzero
  · rcases eq_or_isOppositeZero_of_sameDouble h with rfl | hzero
    · exact .inl rfl
    · exact .inr hzero
  · exact .inl (beq_iff_eq.mp h)

end Entry

namespace ConstantPool
variable {pool left : ConstantPool} {entry : Entry} {index : UInt16}

/-- The zero of the other sign is in the pool, and the constant itself is not before it. -/
def Shadows (pool : ConstantPool) (entry : Entry) : Prop :=
  ∃ (k : Nat) (other : Entry), pool.slots[k]? = some (.entry other) ∧ other.IsOppositeZero entry ∧
    ∀ j < k, pool.slots[j]? ≠ some (.entry entry)

/-- A search ends at the zero of the other sign just if this one shadows the constant. -/
theorem isOppositeZero_iff_of_position? {k : Nat} {stored : Entry}
    (hk : pool.position? entry = some k) (hstored : pool.slots[k]? = some (.entry stored)) :
    stored.IsOppositeZero entry ↔ pool.Shadows entry := by
  obtain ⟨⟨other, hother, hsame⟩, hfirst⟩ := position?_eq_some.mp hk
  obtain rfl : other = stored := Slot.entry.inj (Option.some.inj (hother.symm.trans hstored))
  constructor
  · intro hzero
    refine ⟨k, other, hstored, hzero, fun j hj hentry => ?_⟩
    have hdiffers := hfirst j hj entry hentry
    rw [hzero.same_self] at hdiffers
    cases hdiffers
  · rintro ⟨i, zero, hi, hzero, hbefore⟩
    rcases Entry.eq_or_isOppositeZero_of_same hsame with rfl | hopposite
    · -- The constant itself would be first, but the zero is the same as well and not behind it.
      exfalso
      rcases Nat.lt_trichotomy i k with hlt | rfl | hgt
      · have hdiffers := hfirst i hlt zero hi
        rw [hzero.same] at hdiffers
        cases hdiffers
      · exact hzero.ne (Slot.entry.inj (Option.some.inj (hi.symm.trans hstored)))
      · exact hbefore k hgt hstored
    · exact hopposite

theorem not_shadows_of_position? (hnone : pool.position? entry = none) : ¬ pool.Shadows entry := by
  rintro ⟨k, other, hother, hzero, -⟩
  have hdiffers := position?_eq_none.mp hnone k other hother
  rw [hzero.same] at hdiffers
  cases hdiffers

/-- The constant at the index that a put gives is the one that was put, unless it is shadowed. -/
theorem put_stores_iff (hfits : pool.Fits) (hput : put entry pool = .ok index left) :
    ∃ stored, left.entry index = .ok stored ∧
      (stored = entry ∧ ¬ pool.Shadows entry ∨
        stored.IsOppositeZero entry ∧ pool.Shadows entry ∧ left = pool) := by
  rcases put_eq_ok.mp hput with ⟨k, hk, rfl, rfl⟩ | ⟨hnone, hroom, rfl, rfl⟩
  · obtain ⟨⟨stored, hstored, hsame⟩, -⟩ := position?_eq_some.mp hk
    have hlt := (Array.getElem?_eq_some_iff.mp hstored).1
    have hindex : left.entry (UInt16.ofNat k) = .ok stored :=
      entry_eq_ok.mpr (by rw [toNat_ofNat_of_fits hfits hlt, hstored])
    have hiff := isOppositeZero_iff_of_position? hk hstored
    refine ⟨stored, hindex, ?_⟩
    rcases Entry.eq_or_isOppositeZero_of_same hsame with rfl | hzero
    · exact .inl ⟨rfl, fun hshadows => (hiff.mpr hshadows).ne rfl⟩
    · exact .inr ⟨hzero, hiff.mp hzero, rfl⟩
  · exact ⟨entry, entry_append hroom, .inl ⟨rfl, not_shadows_of_position? hnone⟩⟩

/-- Over every pool that can be built, the constant at the index that a put gives has the bytes of
the one that was put just if it is not shadowed. Otherwise it is the zero of the other sign, and
nothing is put. -/
theorem put_writes_iff (hpool : pool.Reachable) (hput : put entry pool = .ok index left) :
    ∃ stored, left.entry index = .ok stored ∧
      (stored = entry ∨ stored.IsOppositeZero entry ∧ left = pool) ∧
      (Entry.format.write stored = Entry.format.write entry ↔ ¬ pool.Shadows entry) := by
  obtain ⟨stored, hindex, hcases⟩ := put_stores_iff hpool.regular.fits hput
  refine ⟨stored, hindex, ?_⟩
  rcases hcases with ⟨rfl, hclear⟩ | ⟨hzero, hshadows, hleft⟩
  · exact ⟨.inl rfl, iff_of_true rfl hclear⟩
  · exact ⟨.inr ⟨hzero, hleft⟩, iff_of_false hzero.write_ne (fun hclear => hclear hshadows)⟩

section Zeros

/-- A pool that was read and holds both zeros. -/
def bothZeros : ConstantPool :=
  ⟨#[.gap, .entry (.float 0x80000000), .entry (.float 0)]⟩

def bothZerosBytes : Bytes := [4, 0x80, 0, 0, 0, 4, 0, 0, 0, 0]

/-- Here the negative zero comes first, so that it is found when it is put. -/
theorem put_writes_of_bothZeros :
    readCounted 3 bothZerosBytes = .ok (bothZeros, []) ∧
      put (.float 0x80000000) bothZeros = .ok 1 bothZeros ∧
      ¬ bothZeros.Shadows (.float 0x80000000) ∧
      ∃ stored, bothZeros.entry 1 = .ok stored ∧
        Entry.format.write stored = .ok [4, 0x80, 0, 0, 0] := by
  have hread : readCounted 3 bothZerosBytes = .ok (bothZeros, []) := by decide +kernel
  have hput : put (.float 0x80000000) bothZeros = .ok 1 bothZeros := by cbv
  have hclear : ¬ bothZeros.Shadows (.float 0x80000000) := by
    rintro ⟨k, other, hother, hzero, hbefore⟩
    rcases k with - | - | k
    · cases hother
    · cases hother
      cases hzero
    · exact hbefore 1 (by omega) rfl
  obtain ⟨stored, hindex, -, hwrites⟩ := put_writes_iff (.read hread) hput
  have hbytes : Entry.format.write (.float 0x80000000) = .ok [4, 0x80, 0, 0, 0] := by
    decide +kernel
  exact ⟨hread, hput, hclear, stored, hindex, (hwrites.mpr hclear).trans hbytes⟩

/-- A pool into which zero was put. Negative zero is then given the index of zero. -/
theorem put_shares_opposite_zeros :
    (after (put (.float 0)) empty).Reachable ∧
      put (.float 0x80000000) (after (put (.float 0)) empty) =
        .ok 1 (after (put (.float 0)) empty) ∧
      (after (put (.float 0)) empty).entry 1 = .ok (.float 0) ∧
      Entry.format.write (.float 0) = .ok [4, 0, 0, 0, 0] ∧
      Entry.format.write (.float 0x80000000) = .ok [4, 0x80, 0, 0, 0] := by
  refine ⟨.put _ .empty, ?_, ?_, ?_, ?_⟩
  · cbv
  · cbv
  · decide +kernel
  · decide +kernel

end Zeros

end ConstantPool

end StaticCompanion
