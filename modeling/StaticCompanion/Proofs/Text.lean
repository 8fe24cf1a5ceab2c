import Mathlib.Tactic.SplitIfs
import StaticCompanion.Text.PoolText

namespace StaticCompanion

namespace Utf8
variable {code : Nat} {a b c d : UInt8}

theorem toNat_byte {n : Nat} (hn : n < 256) : (UInt8.ofNat n).toNat = n := by
  rw [UInt8.toNat_ofNat', Nat.mod_eq_of_lt (by omega)]

section Two
variable (hcode : code < 0x800)
include hcode

theorem toNat_group2 : (UInt8.ofNat (192 + code / 64)).toNat = 192 + code / 64 ∧
    (UInt8.ofNat (128 + code % 64)).toNat = 128 + code % 64 :=
  ⟨toNat_byte (by omega), toNat_byte (by omega)⟩

theorem not_lt_group2 : ¬ UInt8.ofNat (192 + code / 64) < 0x80 := by
  rw [UInt8.lt_iff_toNat_lt, (toNat_group2 hcode).1, show (0x80 : UInt8).toNat = 128 from rfl]
  omega

theorem code2_group2 :
    code2 (UInt8.ofNat (192 + code / 64)) (UInt8.ofNat (128 + code % 64)) = code := by
  rw [code2, (toNat_group2 hcode).1, (toNat_group2 hcode).2]
  omega

theorem isGroup2_group2 :
    isGroup2 (UInt8.ofNat (192 + code / 64)) (UInt8.ofNat (128 + code % 64)) =
      decide (0x80 ≤ code) := by
  rw [isGroup2, isTail, code2_group2 hcode, (toNat_group2 hcode).1, (toNat_group2 hcode).2]
  have hfirst : (192 + code / 64) / 32 = 6 := by omega
  have htail : (128 + code % 64) / 64 = 2 := by omega
  simp [hfirst, htail]

end Two

section Three
variable (hcode : code < 0x10000)
include hcode

theorem toNat_group3 : (UInt8.ofNat (224 + code / 4096)).toNat = 224 + code / 4096 ∧
    (UInt8.ofNat (128 + code / 64 % 64)).toNat = 128 + code / 64 % 64 ∧
    (UInt8.ofNat (128 + code % 64)).toNat = 128 + code % 64 :=
  ⟨toNat_byte (by omega), toNat_byte (by omega), toNat_byte (by omega)⟩

theorem code3_group3 : code3 (UInt8.ofNat (224 + code / 4096))
    (UInt8.ofNat (128 + code / 64 % 64)) (UInt8.ofNat (128 + code % 64)) = code := by
  obtain ⟨hfirst, hsecond, hthird⟩ := toNat_group3 hcode
  rw [code3, hfirst, hsecond, hthird]
  omega

theorem isGroup3_group3 : isGroup3 (UInt8.ofNat (224 + code / 4096))
    (UInt8.ofNat (128 + code / 64 % 64)) (UInt8.ofNat (128 + code % 64)) =
      decide (0x800 ≤ code) := by
  obtain ⟨hfirst, hsecond, hthird⟩ := toNat_group3 hcode
  rw [isGroup3, isTail, isTail, code3_group3 hcode, hfirst, hsecond, hthird]
  have hopens : (224 + code / 4096) / 16 = 14 := by omega
  have htail : (128 + code / 64 % 64) / 64 = 2 := by omega
  have htail' : (128 + code % 64) / 64 = 2 := by omega
  simp [hopens, htail, htail']

end Three

theorem opens_of_isGroup3 (hgroup : isGroup3 a b c = true) : a.toNat / 16 = 14 := by
  simp only [isGroup3, Bool.and_eq_true, beq_iff_eq] at hgroup
  exact hgroup.1.1.1

theorem not_isGroup3 (ha : a.toNat / 16 ≠ 14) : isGroup3 a b c = false := by
  simp [isGroup3, ha]

theorem not_lt_of_opens (hopens : a.toNat / 16 = 14) : ¬ a < 0x80 := by
  rw [UInt8.lt_iff_toNat_lt, show (0x80 : UInt8).toNat = 128 from rfl]
  omega

theorem not_isGroup2_of_opens (hopens : a.toNat / 16 = 14) : isGroup2 a b = false := by
  have hfirst : a.toNat / 32 ≠ 6 := by omega
  simp [isGroup2, hfirst]

theorem not_isGroup4 (ha : a.toNat / 16 < 15) : isGroup4 a b c d = false := by
  have hfirst : a.toNat / 8 ≠ 30 := by omega
  simp [isGroup4, hfirst]

variable {text : List Char} {rest : Bytes}

theorem go_one (ha : a < 0x80) :
    decode.go text (a :: rest) = decode.go (Char.ofNat a.toNat :: text) rest := by
  rw [decode.go.eq_def]
  exact if_pos ha

theorem go_two (ha : ¬ a < 0x80) (hgroup : isGroup2 a b = true) :
    decode.go text (a :: b :: rest) = decode.go (Char.ofNat (code2 a b) :: text) rest := by
  rw [decode.go.eq_def]
  dsimp only
  rw [if_neg ha, if_pos hgroup]

theorem go_three (hgroup : isGroup3 a b c = true) (hscalar : isSurrogate (code3 a b c) = false) :
    decode.go text (a :: b :: c :: rest) = decode.go (Char.ofNat (code3 a b c) :: text) rest := by
  have hopens := opens_of_isGroup3 hgroup
  rw [decode.go.eq_def]
  simp only [if_neg (not_lt_of_opens hopens), not_isGroup2_of_opens hopens, hgroup, hscalar,
    Bool.false_eq_true, if_false, Bool.not_false, Bool.and_true, if_true]

theorem go_eq_none (ha : ¬ a < 0x80) (hnot2 : isGroup2 a b = false)
    (hnot3 : ∀ c, rest.head? = some c → isGroup3 a b c = false ∨ isSurrogate (code3 a b c) = true)
    (hnot4 : a.toNat / 16 < 15) : decode.go text (a :: b :: rest) = none := by
  rw [decode.go.eq_def]
  simp only [if_neg ha, hnot2, Bool.false_eq_true, if_false]
  cases rest with
  | nil => rfl
  | cons c rest =>
    have hthree : (isGroup3 a b c && !isSurrogate (code3 a b c)) = false := by
      rcases hnot3 c rfl with h | h <;> simp [h]
    simp only [hthree, Bool.false_eq_true, if_false]
    cases rest with
    | nil => rfl
    | cons d rest => simp only [not_isGroup4 hnot4, Bool.false_eq_true, if_false]

end Utf8

namespace ModifiedUtf8
open Utf8

theorem isSurrogate_of_high {code : Nat} (hhigh : isHighSurrogate code = true) :
    isSurrogate code = true := by
  simp only [isHighSurrogate, Bool.and_eq_true, decide_eq_true_eq] at hhigh
  simp only [isSurrogate, Bool.and_eq_true, decide_eq_true_eq]
  omega

theorem isSurrogate_of_low {code : Nat} (hlow : isLowSurrogate code = true) :
    isSurrogate code = true := by
  simp only [isLowSurrogate, Bool.and_eq_true, decide_eq_true_eq] at hlow
  simp only [isSurrogate, Bool.and_eq_true, decide_eq_true_eq]
  omega

inductive Spells (char : Char) : Bytes → Prop
  | nul (hcode : char.toNat = 0) : Spells char [0xC0, 0x80]
  | one {a : UInt8} (hpos : 0 < a) (hlt : a < 0x80) (hcode : a.toNat = char.toNat) :
    Spells char [a]
  | two {a b : UInt8} (hlt : ¬ a < 0x80) (hnul : ¬ (a = 0xC0 ∧ b = 0x80))
    (hgroup : isGroup2 a b = true) (hcode : code2 a b = char.toNat) : Spells char [a, b]
  | three {a b c : UInt8} (hgroup : isGroup3 a b c = true) (hcode : code3 a b c = char.toNat) :
    Spells char [a, b, c]
  | pair {a b c d e f : UInt8} (hfirst : isGroup3 a b c = true)
    (hhigh : isHighSurrogate (code3 a b c) = true) (hsecond : isGroup3 d e f = true)
    (hlow : isLowSurrogate (code3 d e f) = true)
    (hcode : joinSurrogates (code3 a b c) (code3 d e f) = char.toNat) :
    Spells char [a, b, c, d, e, f]

variable {char : Char}

section Decode
variable {text : List Char} {rest : Bytes} {a b c d e f : UInt8}

theorem go_one (hpos : 0 < a) (ha : a < 0x80) :
    decode.go text (a :: rest) = decode.go (Char.ofNat a.toNat :: text) rest := by
  rw [decode.go.eq_def]
  exact if_pos (by simp [hpos, ha])

theorem go_nul : decode.go text (0xC0 :: 0x80 :: rest) = decode.go (Char.ofNat 0 :: text) rest := by
  rw [decode.go.eq_def]
  rfl

theorem go_two (ha : ¬ a < 0x80) (hnul : ¬ (a = 0xC0 ∧ b = 0x80)) (hgroup : isGroup2 a b = true) :
    decode.go text (a :: b :: rest) = decode.go (Char.ofNat (code2 a b) :: text) rest := by
  have hlong : ¬ (0 < a && a < 0x80) = true := by simp [ha]
  rw [decode.go.eq_def]
  dsimp only
  rw [if_neg hlong, if_neg (by simpa using hnul), if_pos hgroup]

theorem not_nul_of_opens (hopens : a.toNat / 16 = 14) : ¬ (a == 0xC0 && b == 0x80) = true := by
  intro hnul
  simp only [Bool.and_eq_true, beq_iff_eq] at hnul
  rw [hnul.1] at hopens
  revert hopens
  decide

theorem go_three (hgroup : isGroup3 a b c = true) (hscalar : isSurrogate (code3 a b c) = false) :
    decode.go text (a :: b :: c :: rest) = decode.go (Char.ofNat (code3 a b c) :: text) rest := by
  have hopens := opens_of_isGroup3 hgroup
  have hlong : ¬ (0 < a && a < 0x80) = true := by simp [not_lt_of_opens hopens]
  rw [decode.go.eq_def]
  dsimp only
  rw [if_neg hlong, if_neg (not_nul_of_opens hopens)]
  simp only [not_isGroup2_of_opens hopens, hgroup, hscalar, Bool.false_eq_true, if_false,
    Bool.not_false, Bool.not_true, if_true]

theorem go_pair (hfirst : isGroup3 a b c = true) (hhigh : isHighSurrogate (code3 a b c) = true)
    (hsecond : isGroup3 d e f = true) (hlow : isLowSurrogate (code3 d e f) = true) :
    decode.go text (a :: b :: c :: d :: e :: f :: rest) =
      decode.go (Char.ofNat (joinSurrogates (code3 a b c) (code3 d e f)) :: text) rest := by
  have hopens := opens_of_isGroup3 hfirst
  have hlong : ¬ (0 < a && a < 0x80) = true := by simp [not_lt_of_opens hopens]
  have hsurrogate := isSurrogate_of_high hhigh
  rw [decode.go.eq_def]
  dsimp only
  rw [if_neg hlong, if_neg (not_nul_of_opens hopens)]
  simp only [not_isGroup2_of_opens hopens, hfirst, hsurrogate, hhigh, hsecond, hlow,
    Bool.false_eq_true, if_false, Bool.not_true, Bool.and_true, if_true]

end Decode

section Characters

theorem isValid_toNat (char : Char) : char.toNat < 0xD800 ∨
    0xDFFF < char.toNat ∧ char.toNat < 0x110000 := char.valid

theorem scalar_toNat (char : Char) : isSurrogate char.toNat = false := by
  have hvalid := isValid_toNat char
  simp only [isSurrogate, Bool.and_eq_false_iff, decide_eq_false_iff_not]
  omega

theorem isHighSurrogate_highSurrogate {code : Nat} (hsupplementary : 0x10000 ≤ code)
    (hlt : code < 0x110000) : isHighSurrogate (highSurrogate code) = true := by
  have hhigh : highSurrogate code = 0xD800 + (code - 0x10000) / 0x400 := rfl
  simp only [isHighSurrogate, Bool.and_eq_true, decide_eq_true_eq]
  omega

theorem isLowSurrogate_lowSurrogate (code : Nat) : isLowSurrogate (lowSurrogate code) = true := by
  have hlow : lowSurrogate code = 0xDC00 + (code - 0x10000) % 0x400 := rfl
  simp only [isLowSurrogate, Bool.and_eq_true, decide_eq_true_eq]
  omega

theorem joinSurrogates_split {code : Nat} (hsupplementary : 0x10000 ≤ code) :
    joinSurrogates (highSurrogate code) (lowSurrogate code) = code := by
  have hhigh : highSurrogate code - 0xD800 = (code - 0x10000) / 0x400 := Nat.add_sub_cancel_left ..
  have hlow : lowSurrogate code - 0xDC00 = (code - 0x10000) % 0x400 := Nat.add_sub_cancel_left ..
  have hjoin : 0x10000 + (highSurrogate code - 0xD800) * 0x400 + (lowSurrogate code - 0xDC00) =
      code := by omega
  unfold joinSurrogates
  exact hjoin

theorem isGroup3_of_isSurrogate {code : Nat} (hsurrogate : isSurrogate code = true) :
    code < 0x10000 ∧ isGroup3 (UInt8.ofNat (224 + code / 4096))
      (UInt8.ofNat (128 + code / 64 % 64)) (UInt8.ofNat (128 + code % 64)) = true := by
  simp only [isSurrogate, Bool.and_eq_true, decide_eq_true_eq] at hsurrogate
  have hcode : code < 0x10000 := by omega
  refine ⟨hcode, ?_⟩
  rw [isGroup3_group3 hcode, decide_eq_true (show 0x800 ≤ code by omega)]

theorem spells_encodeChar (char : Char) : Spells char (encodeChar char) := by
  unfold encodeChar
  dsimp only
  split_ifs with hnul hone htwo hthree
  · exact .nul hnul
  · have hbyte := toNat_byte (show char.toNat < 256 by omega)
    apply Spells.one
    · rw [UInt8.lt_iff_toNat_lt, hbyte]
      exact Nat.pos_of_ne_zero hnul
    · rw [UInt8.lt_iff_toNat_lt, hbyte]
      exact hone
    · exact hbyte
  · have hgroup := isGroup2_group2 htwo
    rw [decide_eq_true (show 0x80 ≤ char.toNat by omega)] at hgroup
    apply Spells.two (not_lt_group2 htwo) _ hgroup (code2_group2 htwo)
    intro hzero
    have hcode := code2_group2 htwo
    rw [hzero.1, hzero.2] at hcode
    exact hnul hcode.symm
  · have hgroup := isGroup3_group3 hthree
    rw [decide_eq_true (show 0x800 ≤ char.toNat by omega)] at hgroup
    exact .three hgroup (code3_group3 hthree)
  · have hsupplementary : 0x10000 ≤ char.toNat := Nat.le_of_not_lt hthree
    have hlt : char.toNat < 0x110000 := by
      have hvalid := isValid_toNat char
      omega
    have hhigh := isHighSurrogate_highSurrogate hsupplementary hlt
    have hlow := isLowSurrogate_lowSurrogate char.toNat
    obtain ⟨hfirst, hgroup⟩ := isGroup3_of_isSurrogate (isSurrogate_of_high hhigh)
    obtain ⟨hsecond, hgroup'⟩ := isGroup3_of_isSurrogate (isSurrogate_of_low hlow)
    have hcode := joinSurrogates_split hsupplementary
    rw [← code3_group3 hfirst, ← code3_group3 hsecond] at hcode
    rw [← code3_group3 hfirst] at hhigh
    rw [← code3_group3 hsecond] at hlow
    exact .pair hgroup hhigh hgroup' hlow hcode

/-- Modified UTF-8 reads the characters that it writes. -/
theorem go_of_spells {bytes : Bytes} (hspells : Spells char bytes) (text : List Char)
    (rest : Bytes) : decode.go text (bytes ++ rest) = decode.go (char :: text) rest := by
  have hchar := Char.ofNat_toNat char
  cases hspells with
  | nul hcode =>
    rw [← hchar, hcode]
    exact go_nul
  | one hpos hlt hcode =>
    rw [← hchar, ← hcode]
    exact go_one hpos hlt
  | two hlt hnul hgroup hcode =>
    rw [← hchar, ← hcode]
    exact go_two hlt hnul hgroup
  | three hgroup hcode =>
    have hscalar := scalar_toNat char
    rw [← hcode] at hchar hscalar
    rw [← hchar]
    exact go_three hgroup hscalar
  | pair hfirst hhigh hsecond hlow hcode =>
    rw [← hchar, ← hcode]
    exact go_pair hfirst hhigh hsecond hlow

theorem encode_cons (char : Char) (text : List Char) :
    encode (char :: text) = encodeChar char ++ encode text := rfl

theorem decode_encode (text : List Char) : decode (encode text) = some text := by
  have hgo (taken : List Char) : decode.go taken (encode text) = some (taken.reverse ++ text) := by
    induction text generalizing taken with
    | nil => simp [encode, decode.go]
    | cons char text ih =>
      rw [encode_cons, go_of_spells (spells_encodeChar char), ih]
      simp
  exact hgo []

/-- Plain UTF-8 reads a character in the same way, or refuses it with all that follows. -/
theorem utf8_go_of_spells {bytes : Bytes} (hspells : Spells char bytes) (text : List Char)
    (rest : Bytes) :
    Utf8.decode.go text (bytes ++ rest) = Utf8.decode.go (char :: text) rest ∨
      Utf8.decode.go text (bytes ++ rest) = none := by
  have hchar := Char.ofNat_toNat char
  cases hspells with
  | nul hcode =>
    right
    apply Utf8.go_eq_none (by decide) (by decide) _ (by decide)
    intro c hc
    left
    exact not_isGroup3 (by decide)
  | one hpos hlt hcode =>
    left
    rw [← hchar, ← hcode]
    exact Utf8.go_one hlt
  | two hlt hnul hgroup hcode =>
    left
    rw [← hchar, ← hcode]
    exact Utf8.go_two hlt hgroup
  | three hgroup hcode =>
    left
    have hscalar := scalar_toNat char
    rw [← hcode] at hchar hscalar
    rw [← hchar]
    exact Utf8.go_three hgroup hscalar
  | @pair a b c d e f hfirst hhigh hsecond hlow hcode =>
    right
    have hopens := opens_of_isGroup3 hfirst
    apply Utf8.go_eq_none (not_lt_of_opens hopens) (not_isGroup2_of_opens hopens) _ (by omega)
    intro third hthird
    obtain rfl : c = third := Option.some.inj hthird
    right
    exact isSurrogate_of_high hhigh

theorem utf8_decode_encode (text : List Char) :
    Utf8.decode (encode text) = some text ∨ Utf8.decode (encode text) = none := by
  have hgo (taken : List Char) :
      Utf8.decode.go taken (encode text) = some (taken.reverse ++ text) ∨
        Utf8.decode.go taken (encode text) = none := by
    induction text generalizing taken with
    | nil => simp [encode, Utf8.decode.go]
    | cons char text ih =>
      rw [encode_cons]
      cases utf8_go_of_spells (spells_encodeChar char) taken (encode text) with
      | inl hread =>
        rw [hread]
        simpa only [List.reverse_cons, List.append_assoc, List.singleton_append] using
          ih (char :: taken)
      | inr hrefused =>
        right
        exact hrefused
  exact hgo []

end Characters

end ModifiedUtf8

theorem PoolText.ofBytes_encode (text : String) :
    PoolText.ofBytes (PoolText.valid text).toBytes = .valid text := by
  have hplain := ModifiedUtf8.utf8_decode_encode text.toList
  have hmodified := ModifiedUtf8.decode_encode text.toList
  unfold PoolText.ofBytes PoolText.toBytes
  rcases hplain with h | h <;> simp [h, hmodified]

end StaticCompanion
