import Mathlib.Logic.Basic
import StaticCompanion.AccessFlags

namespace StaticCompanion.AccessFlags
variable {flags : AccessFlags} {mask other : UInt16}

theorem has_iff : flags.has mask = true ↔ flags.bits &&& mask = mask := by
  simp [has]

theorem has_set (flags : AccessFlags) (mask : UInt16) : (flags.set mask).has mask = true := by
  rw [has_iff, ← UInt16.toBitVec_inj]
  ext i hi
  simpa [set] using Or.inr

theorem has_set_of_has (h : flags.has mask = true) : (flags.set other).has mask = true := by
  rw [has_iff, ← UInt16.toBitVec_inj] at h ⊢
  ext i hi
  have hbit := congrArg (fun bits => bits.getLsbD i) h
  simp only [UInt16.toBitVec_and, set, UInt16.toBitVec_or] at hbit ⊢
  grind

theorem has_of_has_or (h : flags.has (mask ||| other) = true) : flags.has mask = true := by
  rw [has_iff, ← UInt16.toBitVec_inj] at h ⊢
  ext i hi
  have hbit := congrArg (fun bits => bits.getLsbD i) h
  simp only [UInt16.toBitVec_and, UInt16.toBitVec_or] at hbit ⊢
  grind

theorem has_clear (hdisjoint : other &&& mask = 0) (h : flags.has mask = true) :
    (flags.clear other).has mask = true := by
  rw [has_iff, ← UInt16.toBitVec_inj] at h ⊢
  rw [← UInt16.toBitVec_inj] at hdisjoint
  ext i hi
  have hbit := congrArg (fun bits => bits.getLsbD i) h
  have hnone := congrArg (fun bits => bits.getLsbD i) hdisjoint
  simp [clear] at hbit hnone ⊢
  grind

theorem set_of_has (h : flags.has mask = true) : flags.set mask = flags := by
  rw [has_iff, ← UInt16.toBitVec_inj] at h
  unfold set
  congr 1
  rw [← UInt16.toBitVec_inj]
  ext i hi
  have hbit := congrArg (fun bits => bits.getLsbD i) h
  simp only [UInt16.toBitVec_and, UInt16.toBitVec_or] at hbit ⊢
  grind

theorem hasAny_set (hdisjoint : other &&& mask = 0) :
    (flags.set other).hasAny mask = flags.hasAny mask := by
  have hbits : (flags.bits ||| other) &&& mask = flags.bits &&& mask := by
    rw [← UInt16.toBitVec_inj]
    rw [← UInt16.toBitVec_inj] at hdisjoint
    ext i hi
    have hnone := congrArg (fun bits => bits.getLsbD i) hdisjoint
    simp at hnone ⊢
    grind
  rw [hasAny, hasAny, set, hbits]

theorem hasAny_clear (flags : AccessFlags) (mask : UInt16) :
    (flags.clear mask).hasAny mask = false := by
  have hbits : flags.bits &&& ~~~mask &&& mask = 0 := by
    rw [← UInt16.toBitVec_inj]
    ext i hi
    simp
  simp [hasAny, clear, hbits]

theorem not_hidden_toPublic (flags : AccessFlags) :
    flags.toPublic.hasAny (isPrivate ||| isProtected) = false := by
  rw [toPublic, hasAny_set (by decide), hasAny_clear]

theorem isPublic_toPublic (flags : AccessFlags) : flags.toPublic.has isPublic = true :=
  has_set _ _

theorem isStatic_toPublic (h : flags.has isStatic = true) : flags.toPublic.has isStatic = true :=
  has_set_of_has (has_clear (by decide) h)

theorem has_toPublic (hdisjoint : (isPublic ||| isPrivate ||| isProtected) &&& mask = 0) :
    flags.toPublic.has mask = flags.has mask := by
  have hbits : flags.toPublic.bits &&& mask = flags.bits &&& mask := by
    rw [← UInt16.toBitVec_inj] at hdisjoint ⊢
    ext i hi
    have hnone := congrArg (fun bits => bits.getLsbD i) hdisjoint
    simp [toPublic, set, clear] at hnone ⊢
    grind
  rw [has, has, hbits]

theorem hasAny_or : flags.hasAny (mask ||| other) = true ↔
    flags.hasAny mask = true ∨ flags.hasAny other = true := by
  have hdistrib : flags.bits &&& (mask ||| other) =
      flags.bits &&& mask ||| flags.bits &&& other := by
    rw [← UInt16.toBitVec_inj]
    ext i hi
    simp [Bool.and_or_distrib_left]
  simp only [hasAny, bne_iff_ne, hdistrib, ne_eq, UInt16.or_eq_zero_iff]
  exact not_and_or

theorem hasAny_eq_has {i : Nat} (hbit : mask.toBitVec = BitVec.twoPow 16 i) (hi : i < 16) :
    flags.hasAny mask = flags.has mask := by
  have hmask : mask ≠ 0 := by
    intro hzero
    have hset := congrArg (fun bits => bits.getLsbD i) hbit
    simp [hzero, hi] at hset
  have hand : flags.bits &&& mask = if flags.bits.toBitVec.getLsbD i then mask else 0 := by
    rw [← UInt16.toBitVec_inj, UInt16.toBitVec_and, hbit, BitVec.and_twoPow]
    split
    · exact hbit.symm
    · rfl
  rw [hasAny, has, hand]
  cases flags.bits.toBitVec.getLsbD i with
  | false => simpa using hmask.symm
  | true => simpa using hmask

end StaticCompanion.AccessFlags
