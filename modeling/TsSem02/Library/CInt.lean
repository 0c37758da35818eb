import Mathlib

/-! # C++ integer conversions

Conversions of a mathematical integer to the unsigned and to the two's
complement signed type of a given width.  The usual arithmetic conversions are
compositions of these two: a signed operand compared with an unsigned one of the
same width goes through `toUnsigned` first.
-/

namespace CInt

/-- The value of `x` converted to the unsigned type of `width` bits. -/
def toUnsigned (width : Nat) (x : Int) : Nat := (x % 2 ^ width).toNat

/-- The value of `x` converted to the two's complement type of `width` bits. -/
def toSigned (width : Nat) (x : Int) : Int := Int.bmod x (2 ^ width)

/-! ## Range -/

theorem toUnsigned_lt (width : Nat) (x : Int) : toUnsigned width x < 2 ^ width := by
  have positive : (0 : Int) < 2 ^ width := Int.pow_pos (by decide)
  have bound := Int.emod_lt_of_pos x positive
  have nonneg := Int.emod_nonneg x (Int.ne_of_gt positive)
  unfold toUnsigned
  have cast : ((2 ^ width : Nat) : Int) = 2 ^ width := by norm_cast
  omega

/-! ## Conversions that keep the value -/

theorem toUnsigned_of_lt {width : Nat} {x : Int} (nonneg : 0 ≤ x) (bound : x < 2 ^ width) :
    toUnsigned width x = x.toNat := by
  unfold toUnsigned
  rw [Int.emod_eq_of_lt nonneg bound]

@[simp] theorem toUnsigned_natCast {width n : Nat} (bound : n < 2 ^ width) :
    toUnsigned width (n : Int) = n := by
  rw [toUnsigned_of_lt (Int.natCast_nonneg n) (by exact_mod_cast bound), Int.toNat_natCast]

/-- Going through the signed type of the same width does not change the
    unsigned value: both name the same bit pattern. -/
@[simp] theorem toUnsigned_toSigned (width : Nat) (x : Int) :
    toUnsigned width (toSigned width x) = toUnsigned width x := by
  unfold toUnsigned toSigned
  have cast : ((2 ^ width : Nat) : Int) = 2 ^ width := by norm_cast
  rw [← cast, Int.bmod_emod]

@[simp] theorem toUnsigned_toUnsigned (width : Nat) (x : Int) :
    toUnsigned width (toUnsigned width x : Int) = toUnsigned width x :=
  toUnsigned_natCast (toUnsigned_lt width x)

theorem toSigned_of_inRange {width : Nat} {x : Int} (lower : -2 ^ width ≤ x) (upper : x < 2 ^ width) :
    toSigned (width + 1) x = x := by
  have cast : ((2 ^ (width + 1) : Nat) : Int) = 2 * 2 ^ width := by
    rw [Nat.pow_succ']
    norm_cast
  unfold toSigned
  rw [Int.bmod_eq_of_le] <;> omega

/-! ## Wrapping -/

theorem toSigned_of_above {width : Nat} {x : Int} (lower : 2 ^ width ≤ x) (upper : x < 2 * 2 ^ width) :
    toSigned (width + 1) x = x - 2 * 2 ^ width := by
  have cast : ((2 ^ (width + 1) : Nat) : Int) = 2 * 2 ^ width := by
    rw [Nat.pow_succ']
    norm_cast
  have wrapped : toSigned (width + 1) (x - 2 * 2 ^ width) = toSigned (width + 1) x := by
    unfold toSigned
    rw [← cast, Int.sub_bmod_right]
  rw [← wrapped]
  exact toSigned_of_inRange (by omega) (by omega)

/-- Just below the signed range a value wraps to a nonnegative one. -/
theorem toSigned_of_below {width : Nat} {x : Int} (lower : -(2 * 2 ^ width) ≤ x)
    (upper : x < -2 ^ width) : toSigned (width + 1) x = x + 2 * 2 ^ width := by
  have cast : ((2 ^ (width + 1) : Nat) : Int) = 2 * 2 ^ width := by
    rw [Nat.pow_succ']
    norm_cast
  have wrapped : toSigned (width + 1) (x + 2 * 2 ^ width) = toSigned (width + 1) x := by
    unfold toSigned
    rw [← cast, Int.add_bmod_right]
  rw [← wrapped]
  exact toSigned_of_inRange (by omega) (by omega)

/-- A negative value of magnitude at most `2 ^ width` wraps to the top of the
    unsigned range. -/
theorem toUnsigned_neg {width n : Nat} (positive : 0 < n) (bound : n ≤ 2 ^ width) :
    toUnsigned width (-(n : Int)) = 2 ^ width - n := by
  have cast : ((2 ^ width : Nat) : Int) = 2 ^ width := by norm_cast
  have shifted : -(n : Int) % 2 ^ width = 2 ^ width - n := by
    rw [← Int.add_emod_right, Int.emod_eq_of_lt (by omega) (by omega)]
    omega
  unfold toUnsigned
  rw [shifted]
  omega

end CInt
