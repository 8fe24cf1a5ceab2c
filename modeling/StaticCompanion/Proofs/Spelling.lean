import Mathlib.Data.List.Forall2
import StaticCompanion.Proofs.Text

/-!
# The spellings of a text

Decoding accepts nothing but what encoding writes, both for plain and for modified UTF-8. A text
is spelled alike in both unless it has a NUL or a supplementary character, and then its modified
spelling is the longer one.
-/
namespace StaticCompanion

theorem Char.toNat_ofNat_of_scalar {code : Nat} (hlt : code < 0x110000)
    (hscalar : Utf8.isSurrogate code = false) : (Char.ofNat code).toNat = code := by
  have hvalid : code.isValidChar := by
    simp only [Utf8.isSurrogate, Bool.and_eq_false_iff, decide_eq_false_iff_not] at hscalar
    unfold Nat.isValidChar
    omega
  rw [Char.ofNat, dif_pos hvalid]
  rfl

/-- Behind the text that decoding had taken it has found one that is encoded as the bytes. -/
def Continues (encodeChar : Char → Bytes) (taken text : List Char) (bytes : Bytes) : Prop :=
  ∃ found, text = taken.reverse ++ found ∧ found.flatMap encodeChar = bytes

theorem Continues.cons {encodeChar : Char → Bytes} {char : Char} {taken text : List Char}
    {bytes front rest : Bytes} (h : Continues encodeChar (char :: taken) text rest)
    (hchar : encodeChar char = front) (hbytes : bytes = front ++ rest) :
    Continues encodeChar taken text bytes := by
  obtain ⟨found, rfl, rfl⟩ := h
  exact ⟨char :: found, by simp, by rw [List.flatMap_cons, hchar, hbytes]⟩

/-- Runs of bytes that are replaced by the same or longer ones: all stay, or the whole grows. -/
theorem flatten_eq_or_length_lt {as bs : List Bytes}
    (h : List.Forall₂ (fun a b => b = a ∨ a.length < b.length) as bs) :
    bs = as ∨ as.flatten.length < bs.flatten.length := by
  induction h with
  | nil => exact .inl rfl
  | @cons a b as bs hhead _ ih =>
    rw [List.flatten_cons, List.flatten_cons, List.length_append, List.length_append]
    rcases hhead with rfl | hhead
    · rcases ih with rfl | ih
      · exact .inl rfl
      · exact .inr (Nat.add_lt_add_left ih _)
    · have htail : as.flatten.length ≤ bs.flatten.length := by
        rcases ih with rfl | ih
        · exact Nat.le_refl _
        · exact Nat.le_of_lt ih
      exact .inr (Nat.add_lt_add_of_lt_of_le hhead htail)

namespace Utf8
variable {a b c d : UInt8}

section Groups

theorem of_isGroup2 (h : isGroup2 a b = true) :
    a.toNat / 32 = 6 ∧ b.toNat / 64 = 2 ∧ 0x80 ≤ code2 a b := by
  simp only [isGroup2, isTail, Bool.and_eq_true, beq_iff_eq, decide_eq_true_eq] at h
  exact ⟨h.1.1, h.1.2, h.2⟩

theorem of_isGroup3 (h : isGroup3 a b c = true) :
    a.toNat / 16 = 14 ∧ b.toNat / 64 = 2 ∧ c.toNat / 64 = 2 ∧ 0x800 ≤ code3 a b c := by
  simp only [isGroup3, isTail, Bool.and_eq_true, beq_iff_eq, decide_eq_true_eq] at h
  exact ⟨h.1.1.1, h.1.1.2, h.1.2, h.2⟩

theorem of_isGroup4 (h : isGroup4 a b c d = true) :
    a.toNat / 8 = 30 ∧ b.toNat / 64 = 2 ∧ c.toNat / 64 = 2 ∧ d.toNat / 64 = 2 ∧
      0x10000 ≤ code4 a b c d ∧ code4 a b c d < 0x110000 := by
  simp only [isGroup4, isTail, Bool.and_eq_true, beq_iff_eq, decide_eq_true_eq] at h
  exact ⟨h.1.1.1.1.1, h.1.1.1.1.2, h.1.1.1.2, h.1.1.2, h.1.2, h.2⟩

theorem ofNat_eq {n : Nat} (h : n = a.toNat) : UInt8.ofNat n = a := by
  rw [h, UInt8.ofNat_toNat]

theorem group2_code2 (h : isGroup2 a b = true) : group2 (code2 a b) = [a, b] := by
  obtain ⟨ha, hb, -⟩ := of_isGroup2 h
  have hcode : code2 a b = a.toNat % 32 * 64 + b.toNat % 64 := rfl
  rw [group2, ofNat_eq (a := a) (by omega), ofNat_eq (a := b) (by omega)]

theorem group3_code3 (h : isGroup3 a b c = true) : group3 (code3 a b c) = [a, b, c] := by
  obtain ⟨ha, hb, hc, -⟩ := of_isGroup3 h
  have hcode : code3 a b c = a.toNat % 16 * 4096 + b.toNat % 64 * 64 + c.toNat % 64 := rfl
  rw [group3, ofNat_eq (a := a) (by omega), ofNat_eq (a := b) (by omega),
    ofNat_eq (a := c) (by omega)]

theorem group4_code4 (h : isGroup4 a b c d = true) : group4 (code4 a b c d) = [a, b, c, d] := by
  obtain ⟨ha, hb, hc, hd, -⟩ := of_isGroup4 h
  have hcode : code4 a b c d =
    a.toNat % 8 * 262144 + b.toNat % 64 * 4096 + c.toNat % 64 * 64 + d.toNat % 64 := rfl
  rw [group4, ofNat_eq (a := a) (by omega), ofNat_eq (a := b) (by omega),
    ofNat_eq (a := c) (by omega), ofNat_eq (a := d) (by omega)]

theorem toNat_group4 {code : Nat} (hcode : code < 0x110000) :
    (UInt8.ofNat (240 + code / 262144)).toNat = 240 + code / 262144 ∧
      (UInt8.ofNat (128 + code / 4096 % 64)).toNat = 128 + code / 4096 % 64 ∧
      (UInt8.ofNat (128 + code / 64 % 64)).toNat = 128 + code / 64 % 64 ∧
      (UInt8.ofNat (128 + code % 64)).toNat = 128 + code % 64 :=
  ⟨toNat_byte (by omega), toNat_byte (by omega), toNat_byte (by omega), toNat_byte (by omega)⟩

theorem code4_group4 {code : Nat} (hcode : code < 0x110000) :
    code4 (UInt8.ofNat (240 + code / 262144)) (UInt8.ofNat (128 + code / 4096 % 64))
      (UInt8.ofNat (128 + code / 64 % 64)) (UInt8.ofNat (128 + code % 64)) = code := by
  obtain ⟨hfirst, hsecond, hthird, hfourth⟩ := toNat_group4 hcode
  rw [code4, hfirst, hsecond, hthird, hfourth]
  omega

theorem isGroup4_group4 {code : Nat} (hle : 0x10000 ≤ code) (hcode : code < 0x110000) :
    isGroup4 (UInt8.ofNat (240 + code / 262144)) (UInt8.ofNat (128 + code / 4096 % 64))
      (UInt8.ofNat (128 + code / 64 % 64)) (UInt8.ofNat (128 + code % 64)) = true := by
  obtain ⟨hfirst, hsecond, hthird, hfourth⟩ := toNat_group4 hcode
  rw [isGroup4, isTail, isTail, isTail, code4_group4 hcode, hfirst, hsecond, hthird, hfourth]
  have hopens : (240 + code / 262144) / 8 = 30 := by omega
  have htail : (128 + code / 4096 % 64) / 64 = 2 := by omega
  have htail' : (128 + code / 64 % 64) / 64 = 2 := by omega
  have htail'' : (128 + code % 64) / 64 = 2 := by omega
  simp [hopens, htail, htail', htail'', hle, hcode]

theorem code2_lt (a b : UInt8) : code2 a b < 0x800 := by
  unfold code2
  omega

theorem code3_lt (a b c : UInt8) : code3 a b c < 0x10000 := by
  unfold code3
  omega

end Groups

section Characters

theorem toNat_lt (char : Char) : char.toNat < 0x110000 := by
  have hvalid := ModifiedUtf8.isValid_toNat char
  omega

theorem encodeChar_one (ha : a < 0x80) : encodeChar (Char.ofNat a.toNat) = [a] := by
  have hlt : a.toNat < 0x80 := UInt8.lt_iff_toNat_lt.mp ha
  have hscalar : isSurrogate a.toNat = false := by simp [isSurrogate]; omega
  unfold encodeChar
  rw [Char.toNat_ofNat_of_scalar (by omega) hscalar, if_pos hlt, UInt8.ofNat_toNat]

theorem encodeChar_two (h : isGroup2 a b = true) :
    encodeChar (Char.ofNat (code2 a b)) = [a, b] := by
  obtain ⟨-, -, hle⟩ := of_isGroup2 h
  have hlt := code2_lt a b
  have hscalar : isSurrogate (code2 a b) = false := by simp [isSurrogate]; omega
  unfold encodeChar
  rw [Char.toNat_ofNat_of_scalar (by omega) hscalar, if_neg (by omega), if_pos hlt, group2_code2 h]

theorem encodeChar_three (h : isGroup3 a b c = true) (hscalar : isSurrogate (code3 a b c) = false) :
    encodeChar (Char.ofNat (code3 a b c)) = [a, b, c] := by
  obtain ⟨-, -, -, hle⟩ := of_isGroup3 h
  have hlt := code3_lt a b c
  unfold encodeChar
  rw [Char.toNat_ofNat_of_scalar (by omega) hscalar, if_neg (by omega), if_neg (by omega),
    if_pos hlt, group3_code3 h]

theorem encodeChar_four (h : isGroup4 a b c d = true) :
    encodeChar (Char.ofNat (code4 a b c d)) = [a, b, c, d] := by
  obtain ⟨-, -, -, -, hle, hlt⟩ := of_isGroup4 h
  have hscalar : isSurrogate (code4 a b c d) = false := by simp [isSurrogate]; omega
  unfold encodeChar
  rw [Char.toNat_ofNat_of_scalar hlt hscalar, if_neg (by omega), if_neg (by omega),
    if_neg (by omega), group4_code4 h]

end Characters

theorem go_four (hgroup : isGroup4 a b c d = true) {text : List Char} {rest : Bytes} :
    decode.go text (a :: b :: c :: d :: rest) =
      decode.go (Char.ofNat (code4 a b c d) :: text) rest := by
  obtain ⟨ha, -⟩ := of_isGroup4 hgroup
  have hlong : ¬ a < 0x80 := by
    rw [UInt8.lt_iff_toNat_lt, show (0x80 : UInt8).toNat = 128 from rfl]
    omega
  have hnot2 : isGroup2 a b = false := by
    have hfirst : a.toNat / 32 ≠ 6 := by omega
    simp [isGroup2, hfirst]
  rw [decode.go.eq_def]
  simp only [if_neg hlong, hnot2, not_isGroup3 (show a.toNat / 16 ≠ 14 by omega), hgroup,
    Bool.false_and, Bool.false_eq_true, if_false, if_true]

/-- The bytes that decoding has passed are the encoding of the text that it has found. -/
theorem continues_of_go {taken text : List Char} {bytes : Bytes}
    (h : decode.go taken bytes = some text) : Continues encodeChar taken text bytes := by
  fun_induction decode.go taken bytes with
  | case1 taken =>
    obtain rfl := Option.some.inj h
    exact ⟨[], by simp⟩
  | case2 taken a rest ha ih => exact (ih h).cons (encodeChar_one ha) rfl
  | case4 taken a ha b rest hgroup ih => exact (ih h).cons (encodeChar_two hgroup) rfl
  | case6 taken a ha b hnot2 c rest hgroup ih =>
    simp only [Bool.and_eq_true, Bool.not_eq_true'] at hgroup
    exact (ih h).cons (encodeChar_three hgroup.1 hgroup.2) rfl
  | case8 taken a ha b hnot2 c hnot3 d rest hgroup ih =>
    exact (ih h).cons (encodeChar_four hgroup) rfl
  | _ => cases h

theorem go_encodeChar (char : Char) (text : List Char) (rest : Bytes) :
    decode.go text (encodeChar char ++ rest) = decode.go (char :: text) rest := by
  have hchar := Char.ofNat_toNat char
  have hscalar := ModifiedUtf8.scalar_toNat char
  unfold encodeChar
  dsimp only
  split_ifs with hone htwo hthree
  · have hbyte := toNat_byte (show char.toNat < 256 by omega)
    rw [List.singleton_append, go_one (UInt8.lt_iff_toNat_lt.mpr (by rw [hbyte]; exact hone)),
      hbyte, hchar]
  · have hgroup := isGroup2_group2 htwo
    rw [decide_eq_true (show 0x80 ≤ char.toNat by omega)] at hgroup
    rw [group2, List.cons_append, List.singleton_append, go_two (not_lt_group2 htwo) hgroup,
      code2_group2 htwo, hchar]
  · have hgroup := isGroup3_group3 hthree
    rw [decide_eq_true (show 0x800 ≤ char.toNat by omega)] at hgroup
    rw [← code3_group3 hthree] at hscalar
    rw [group3, List.cons_append, List.cons_append, List.singleton_append,
      go_three hgroup hscalar, code3_group3 hthree, hchar]
  · have hle : 0x10000 ≤ char.toNat := Nat.le_of_not_lt hthree
    have hlt := toNat_lt char
    rw [group4, List.cons_append, List.cons_append, List.cons_append, List.singleton_append,
      go_four (isGroup4_group4 hle hlt), code4_group4 hlt, hchar]

theorem decode_eq_some {bytes : Bytes} {text : List Char} :
    decode bytes = some text ↔ bytes = encode text := by
  constructor
  · intro h
    obtain ⟨_, rfl, rfl⟩ := continues_of_go h
    rfl
  · rintro rfl
    have hgo (taken : List Char) :
        decode.go taken (encode text) = some (taken.reverse ++ text) := by
      induction text generalizing taken with
      | nil => simp [encode, decode.go]
      | cons char text ih =>
        rw [encode, List.flatMap_cons, go_encodeChar, ← encode, ih]
        simp
    exact hgo []

end Utf8

namespace ModifiedUtf8
open Utf8
variable {a b c d e f : UInt8}

section Characters

theorem encodeChar_nul : encodeChar (Char.ofNat 0) = [0xC0, 0x80] := by decide

theorem encodeChar_one (hpos : 0 < a) (ha : a < 0x80) :
    encodeChar (Char.ofNat a.toNat) = [a] := by
  have hpos : 0 < a.toNat := UInt8.lt_iff_toNat_lt.mp hpos
  have hlt : a.toNat < 0x80 := UInt8.lt_iff_toNat_lt.mp ha
  have hscalar : isSurrogate a.toNat = false := by simp [isSurrogate]; omega
  unfold encodeChar
  rw [Char.toNat_ofNat_of_scalar (by omega) hscalar, if_neg (by omega), if_pos hlt,
    UInt8.ofNat_toNat]

theorem encodeChar_two (h : isGroup2 a b = true) :
    encodeChar (Char.ofNat (code2 a b)) = [a, b] := by
  obtain ⟨-, -, hle⟩ := of_isGroup2 h
  have hlt := code2_lt a b
  have hscalar : isSurrogate (code2 a b) = false := by simp [isSurrogate]; omega
  unfold encodeChar
  rw [Char.toNat_ofNat_of_scalar (by omega) hscalar, if_neg (by omega), if_neg (by omega),
    if_pos hlt, group2_code2 h]

theorem encodeChar_three (h : isGroup3 a b c = true) (hscalar : isSurrogate (code3 a b c) = false) :
    encodeChar (Char.ofNat (code3 a b c)) = [a, b, c] := by
  obtain ⟨-, -, -, hle⟩ := of_isGroup3 h
  have hlt := code3_lt a b c
  unfold encodeChar
  rw [Char.toNat_ofNat_of_scalar (by omega) hscalar, if_neg (by omega), if_neg (by omega),
    if_neg (by omega), if_pos hlt, group3_code3 h]

theorem split_joinSurrogates {high low : Nat} (hhigh : isHighSurrogate high = true)
    (hlow : isLowSurrogate low = true) : highSurrogate (joinSurrogates high low) = high ∧
      lowSurrogate (joinSurrogates high low) = low ∧
      0x10000 ≤ joinSurrogates high low ∧ joinSurrogates high low < 0x110000 := by
  simp only [isHighSurrogate, isLowSurrogate, Bool.and_eq_true, decide_eq_true_eq] at hhigh hlow
  unfold highSurrogate lowSurrogate joinSurrogates
  omega

theorem encodeChar_pair (hfirst : isGroup3 a b c = true)
    (hhigh : isHighSurrogate (code3 a b c) = true) (hsecond : isGroup3 d e f = true)
    (hlow : isLowSurrogate (code3 d e f) = true) :
    encodeChar (Char.ofNat (joinSurrogates (code3 a b c) (code3 d e f))) = [a, b, c, d, e, f] := by
  obtain ⟨hhalf, hhalf', hle, hlt⟩ := split_joinSurrogates hhigh hlow
  have hscalar : isSurrogate (joinSurrogates (code3 a b c) (code3 d e f)) = false := by
    simp [isSurrogate]
    omega
  unfold encodeChar
  rw [Char.toNat_ofNat_of_scalar hlt hscalar, if_neg (by omega), if_neg (by omega),
    if_neg (by omega), if_neg (by omega), hhalf, hhalf', group3_code3 hfirst,
    group3_code3 hsecond]
  rfl

end Characters

theorem continues_of_go {taken text : List Char} {bytes : Bytes}
    (h : decode.go taken bytes = some text) : Continues encodeChar taken text bytes := by
  fun_induction decode.go taken bytes with
  | case1 taken =>
    obtain rfl := Option.some.inj h
    exact ⟨[], by simp⟩
  | case2 taken a rest ha ih =>
    simp only [Bool.and_eq_true, decide_eq_true_eq] at ha
    exact (ih h).cons (encodeChar_one ha.1 ha.2) rfl
  | case4 taken a ha b rest hnul ih =>
    simp only [Bool.and_eq_true, beq_iff_eq] at hnul
    obtain ⟨rfl, rfl⟩ := hnul
    exact (ih h).cons encodeChar_nul rfl
  | case5 taken a ha b rest hnul hgroup ih => exact (ih h).cons (encodeChar_two hgroup) rfl
  | case8 taken a ha b hnul hnot2 c rest hgroup hscalar ih =>
    simp only [Bool.not_eq_true', Bool.not_eq_false] at hgroup hscalar
    exact (ih h).cons (encodeChar_three hgroup hscalar) rfl
  | case9 taken a ha b hnul hnot2 c hgroup hsurrogate d e f rest hpair ih =>
    simp only [Bool.not_eq_true', Bool.not_eq_false] at hgroup
    simp only [Bool.and_eq_true] at hpair
    obtain ⟨⟨hhigh, hsecond⟩, hlow⟩ := hpair
    exact (ih h).cons (encodeChar_pair hgroup hhigh hsecond hlow) rfl
  | _ => cases h

theorem decode_eq_some {bytes : Bytes} {text : List Char} :
    decode bytes = some text ↔ bytes = encode text := by
  constructor
  · intro h
    obtain ⟨_, rfl, rfl⟩ := continues_of_go h
    rfl
  · rintro rfl
    exact decode_encode text

/-- A character has one spelling, or it is one of those that plain UTF-8 spells with a zero byte
or with four bytes and modified UTF-8 with more. -/
theorem encodeChar_eq_or (char : Char) :
    (encodeChar char = Utf8.encodeChar char ∧ 0 ∉ Utf8.encodeChar char ∧
        (Utf8.encodeChar char).length ≠ 4) ∨
      ((Utf8.encodeChar char).length < (encodeChar char).length ∧
        (0 ∈ Utf8.encodeChar char ∨ (Utf8.encodeChar char).length = 4)) := by
  have hnonzero {n : Nat} (hpos : 0 < n) (hn : n < 256) : 0 ≠ UInt8.ofNat n := by
    intro hzero
    have htoNat := toNat_byte hn
    rw [← hzero, UInt8.toNat_zero] at htoNat
    omega
  have hlt := Utf8.toNat_lt char
  by_cases hnul : char.toNat = 0
  · right
    unfold encodeChar Utf8.encodeChar
    rw [hnul]
    exact ⟨by decide, .inl (by decide)⟩
  unfold encodeChar Utf8.encodeChar
  dsimp only
  rw [if_neg hnul]
  split_ifs with hone htwo hthree
  · left
    refine ⟨rfl, ?_, by simp⟩
    simpa using hnonzero (Nat.pos_of_ne_zero hnul) (by omega)
  · left
    refine ⟨rfl, ?_, by simp [group2]⟩
    simp only [group2, List.mem_cons, List.not_mem_nil, or_false, not_or]
    exact ⟨hnonzero (by omega) (by omega), hnonzero (by omega) (by omega)⟩
  · left
    refine ⟨rfl, ?_, by simp [group3]⟩
    simp only [group3, List.mem_cons, List.not_mem_nil, or_false, not_or]
    exact ⟨hnonzero (by omega) (by omega), hnonzero (by omega) (by omega),
      hnonzero (by omega) (by omega)⟩
  · right
    exact ⟨by simp [group3, group4], .inr (by simp [group4])⟩

theorem map_encodeChar_eq_or (text : List Char) :
    text.map encodeChar = text.map Utf8.encodeChar ∨
      (Utf8.encode text).length < (encode text).length := by
  have hchars : List.Forall₂ (fun a b : Bytes => b = a ∨ a.length < b.length)
      (text.map Utf8.encodeChar) (text.map encodeChar) := by
    rw [List.forall₂_map_left_iff, List.forall₂_map_right_iff, List.forall₂_same]
    intro char _
    rcases encodeChar_eq_or char with ⟨hsame, -⟩ | ⟨hlonger, -⟩
    · exact .inl hsame
    · exact .inr hlonger
  exact flatten_eq_or_length_lt hchars

theorem encodeChar_eq_iff (char : Char) : encodeChar char = Utf8.encodeChar char ↔
    0 ∉ Utf8.encodeChar char ∧ (Utf8.encodeChar char).length ≠ 4 := by
  rcases encodeChar_eq_or char with ⟨hsame, hkept⟩ | ⟨hlonger, hother⟩
  · exact iff_of_true hsame hkept
  · refine iff_of_false (fun h => ?_) fun ⟨hzero, hfour⟩ => hother.elim hzero hfour
    rw [h] at hlonger
    exact Nat.lt_irrefl _ hlonger

theorem encode_eq_iff (text : List Char) : encode text = Utf8.encode text ↔
    0 ∉ Utf8.encode text ∧ ∀ char ∈ text, (Utf8.encodeChar char).length ≠ 4 := by
  have hzero : 0 ∉ Utf8.encode text ↔ ∀ char ∈ text, 0 ∉ Utf8.encodeChar char := by
    simp [Utf8.encode, List.mem_flatMap]
  have hmap : encode text = Utf8.encode text ↔
      text.map encodeChar = text.map Utf8.encodeChar := by
    constructor
    · intro h
      rcases map_encodeChar_eq_or text with hsame | hlonger
      · exact hsame
      · rw [h] at hlonger
        exact absurd hlonger (Nat.lt_irrefl _)
    · intro h
      exact congrArg List.flatten h
  rw [hmap, List.map_inj_left, hzero]
  simp only [encodeChar_eq_iff, forall_and]

end ModifiedUtf8

/-- Plain UTF-8 that is no modified UTF-8: it has a zero byte or a character of four bytes. -/
def Utf8.IsPlainOnly (payload : Bytes) : Prop :=
  ∃ text, Utf8.decode payload = some text ∧
    (0 ∈ payload ∨ ∃ char ∈ text, (Utf8.encodeChar char).length = 4)

namespace PoolText

theorem ofBytes_eq_valid {payload : Bytes} {text : String} : ofBytes payload = .valid text ↔
    payload = Utf8.encode text.toList ∨ payload = ModifiedUtf8.encode text.toList := by
  constructor
  · intro h
    unfold ofBytes at h
    split at h
    · rename_i found hfound
      obtain rfl := PoolText.valid.inj h
      rw [String.toList_ofList]
      rcases Option.or_eq_some_iff.mp hfound with hplain | ⟨-, hmodified⟩
      · exact .inl (Utf8.decode_eq_some.mp hplain)
      · exact .inr (ModifiedUtf8.decode_eq_some.mp hmodified)
    · cases h
  · rintro (rfl | rfl)
    · simp [ofBytes, Utf8.decode_eq_some.mpr rfl]
    · exact ofBytes_encode text

theorem toBytes_ofBytes_of_plain {payload : Bytes} {text : List Char}
    (htext : Utf8.decode payload = some text) :
    (ofBytes payload).toBytes = ModifiedUtf8.encode text := by
  simp [ofBytes, htext, toBytes]

theorem ofBytes_eq_invalid {payload kept : Bytes} (h : ofBytes payload = .invalid kept) :
    kept = payload := by
  unfold ofBytes at h
  split at h
  · cases h
  · exact (PoolText.invalid.inj h).symm

/-- A payload is written as it is unless it is plain UTF-8 only. -/
theorem toBytes_ofBytes_iff {payload : Bytes} :
    (ofBytes payload).toBytes = payload ↔ ¬ Utf8.IsPlainOnly payload := by
  constructor
  · rintro hkept ⟨text, htext, hother⟩
    obtain rfl := Utf8.decode_eq_some.mp htext
    rw [toBytes_ofBytes_of_plain htext, ModifiedUtf8.encode_eq_iff] at hkept
    obtain ⟨hzero, hfour⟩ := hkept
    rcases hother with h | ⟨char, hmem, h⟩
    · exact hzero h
    · exact hfour char hmem h
  · intro hother
    cases htext : ofBytes payload with
    | invalid kept => exact ofBytes_eq_invalid htext
    | valid text =>
      rcases ofBytes_eq_valid.mp htext with rfl | hmodified
      · refine (ModifiedUtf8.encode_eq_iff _).mpr ⟨fun h => hother ?_, fun char hmem h => hother ?_⟩
        · exact ⟨_, Utf8.decode_eq_some.mpr rfl, .inl h⟩
        · exact ⟨_, Utf8.decode_eq_some.mpr rfl, .inr ⟨char, hmem, h⟩⟩
      · exact hmodified.symm

theorem not_isPlainOnly_iff {payload : Bytes} : ¬ Utf8.IsPlainOnly payload ↔
    ∀ text, ofBytes payload = .valid text → payload = ModifiedUtf8.encode text.toList := by
  rw [← toBytes_ofBytes_iff]
  cases htext : ofBytes payload with
  | invalid kept => simp [toBytes, ofBytes_eq_invalid htext]
  | valid text => simp [toBytes, eq_comm]

theorem encode_ne_of_isPlainOnly {payload : Bytes} {text : List Char}
    (htext : Utf8.decode payload = some text) (hplain : Utf8.IsPlainOnly payload) :
    ModifiedUtf8.encode text ≠ payload := by
  intro h
  rw [← toBytes_ofBytes_of_plain htext] at h
  exact toBytes_ofBytes_iff.mp h hplain

end PoolText

end StaticCompanion
