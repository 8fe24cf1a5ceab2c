/-!
# Bytes and big-endian numbers

Every number of a class file is a big-endian group of bytes. `bigEndian` writes such a group,
`ofBigEndian` reads it back, and `splitExact` cuts a fixed number of bytes off a run. The main
statements are that the two number functions invert each other at a given width and that a
successful cut loses nothing.
-/
namespace StaticCompanion

/-- A run of bytes, as held by class files and archives. -/
abbrev Bytes := List UInt8

def span (width : Nat) : Nat := Nat.pow 256 width

@[simp]
theorem span_zero : span 0 = 1 := rfl

theorem span_succ (width : Nat) : span (width + 1) = span width * 256 := rfl

theorem span_pos (width : Nat) : 0 < span width := Nat.pow_pos (by decide)

/-- The `width` low bytes of a number, most significant first. -/
def bigEndian : (width : Nat) → Nat → Bytes
  | 0, _ => []
  | width + 1, n => UInt8.ofNat (n / span width) :: bigEndian width n

/-- The number written by a group of bytes, most significant first. -/
def ofBigEndian (bytes : Bytes) : Nat :=
  bytes.foldl (fun n byte => n * 256 + byte.toNat) 0

/-- The first `count` bytes and those behind them, if there are as many. -/
def splitExact (count : Nat) (bytes : Bytes) : Option (Bytes × Bytes) :=
  go count [] bytes
where
  go : Nat → Bytes → Bytes → Option (Bytes × Bytes)
    | 0, taken, rest => some (taken.reverse, rest)
    | _ + 1, _, [] => none
    | count + 1, taken, byte :: rest => go count (byte :: taken) rest

@[simp]
theorem length_bigEndian (width n : Nat) : (bigEndian width n).length = width := by
  induction width with
  | zero => rfl
  | succ width ih => simp [bigEndian, ih]

private theorem foldl_digits (bytes : Bytes) (n : Nat) :
    bytes.foldl (fun n byte => n * 256 + byte.toNat) n =
      n * span bytes.length + ofBigEndian bytes := by
  induction bytes generalizing n with
  | nil => simp [ofBigEndian]
  | cons byte bytes ih =>
    simp only [ofBigEndian, List.foldl_cons, List.length_cons]
    rw [ih, ih (0 * 256 + byte.toNat)]
    simp only [Nat.zero_mul, Nat.zero_add, span_succ, Nat.add_mul]
    rw [Nat.mul_assoc, Nat.mul_comm 256 (span _)]
    omega

theorem ofBigEndian_cons (byte : UInt8) (bytes : Bytes) :
    ofBigEndian (byte :: bytes) = byte.toNat * span bytes.length + ofBigEndian bytes := by
  simp only [ofBigEndian, List.foldl_cons, Nat.zero_mul, Nat.zero_add]
  exact foldl_digits bytes byte.toNat

theorem ofBigEndian_lt (bytes : Bytes) : ofBigEndian bytes < span bytes.length := by
  induction bytes with
  | nil => simp [ofBigEndian]
  | cons byte bytes ih =>
    rw [ofBigEndian_cons, List.length_cons, span_succ]
    have small := byte.toNat_lt
    have bound : (byte.toNat + 1) * span bytes.length ≤ 256 * span bytes.length :=
      Nat.mul_le_mul_right _ (by omega)
    rw [Nat.add_mul, Nat.one_mul] at bound
    rw [Nat.mul_comm (span _) 256]
    omega

theorem ofBigEndian_bigEndian (width n : Nat) :
    ofBigEndian (bigEndian width n) = n % span width := by
  induction width with
  | zero => simp [bigEndian, ofBigEndian, Nat.mod_one]
  | succ width ih =>
    have digit : (UInt8.ofNat (n / span width)).toNat = n / span width % 256 := UInt8.toNat_ofNat'
    rw [bigEndian, ofBigEndian_cons, length_bigEndian, ih, digit, span_succ, Nat.mod_mul,
      Nat.mul_comm, Nat.add_comm]

theorem bigEndian_ofBigEndian (bytes : Bytes) :
    bigEndian bytes.length (ofBigEndian bytes) = bytes := by
  suffices general : ∀ high, bigEndian bytes.length (high * span bytes.length + ofBigEndian bytes)
      = bytes by simpa using general 0
  induction bytes with
  | nil => intro _; rfl
  | cons byte bytes ih =>
    intro high
    have digits : high * span (bytes.length + 1) + ofBigEndian (byte :: bytes) =
        (high * 256 + byte.toNat) * span bytes.length + ofBigEndian bytes := by
      rw [ofBigEndian_cons, span_succ, Nat.add_mul, Nat.mul_assoc,
        Nat.mul_comm (span _) 256, Nat.add_assoc]
    rw [List.length_cons, digits, bigEndian, ih]
    congr 1
    rw [Nat.add_comm, Nat.add_mul_div_right _ _ (span_pos _),
      Nat.div_eq_of_lt (ofBigEndian_lt bytes)]
    apply UInt8.toNat_inj.mp
    have small := byte.toNat_lt
    simp only [UInt8.toNat_ofNat']
    omega

private theorem splitExact_go_eq_some {count : Nat} {taken bytes front rest : Bytes} :
    splitExact.go count taken bytes = some (front, rest) ↔
      ∃ cut, front = taken.reverse ++ cut ∧ bytes = cut ++ rest ∧ cut.length = count := by
  induction count generalizing taken bytes with
  | zero =>
    simp only [splitExact.go, Option.some.injEq, Prod.mk.injEq]
    constructor
    · rintro ⟨rfl, rfl⟩
      exact ⟨[], by simp⟩
    · rintro ⟨cut, rfl, rfl, empty⟩
      simp [List.eq_nil_of_length_eq_zero empty]
  | succ count ih =>
    cases bytes with
    | nil =>
      simp only [splitExact.go, reduceCtorEq, false_iff, not_exists]
      rintro cut ⟨-, empty, long⟩
      have := List.append_eq_nil_iff.mp empty.symm
      simp [this.1] at long
    | cons byte bytes =>
      rw [splitExact.go, ih]
      constructor
      · rintro ⟨cut, rfl, rfl, rfl⟩
        exact ⟨byte :: cut, by simp⟩
      · rintro ⟨cut, rfl, split, long⟩
        cases cut with
        | nil => simp at long
        | cons _ cut =>
          obtain ⟨rfl, rfl⟩ := List.cons.inj split
          exact ⟨cut, by simp, rfl, by simpa using long⟩

theorem splitExact_eq_some_iff {count : Nat} {bytes front rest : Bytes} :
    splitExact count bytes = some (front, rest) ↔
      bytes = front ++ rest ∧ front.length = count := by
  rw [splitExact, splitExact_go_eq_some]
  constructor
  · rintro ⟨cut, rfl, rfl, long⟩
    exact ⟨by simp, by simpa using long⟩
  · rintro ⟨rfl, long⟩
    exact ⟨front, by simp, rfl, long⟩

theorem splitExact_eq_none_iff {count : Nat} {bytes : Bytes} :
    splitExact count bytes = none ↔ bytes.length < count := by
  rw [Option.eq_none_iff_forall_not_mem]
  constructor
  · intro fails
    refine Nat.lt_of_not_le fun enough => fails (bytes.take count, bytes.drop count) ?_
    exact splitExact_eq_some_iff.mpr ⟨by simp, by simp; omega⟩
  · rintro short ⟨front, rest⟩ cut
    obtain ⟨rfl, long⟩ := splitExact_eq_some_iff.mp cut
    simp at short
    omega

end StaticCompanion
