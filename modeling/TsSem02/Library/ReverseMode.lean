import Mathlib

/-! # Reverse mode

A matrix that depends on a parameter has a velocity at 0, entry by entry.  What a
backward pass has to do with a velocity is said by `pairing`: the derivative of a
number that depends on the matrix is the pairing of its gradient with the velocity.
The adjoints of a product are what such a pass computes (`pairing_mul_left`,
`pairing_mul_right`).
-/

namespace ReverseMode

open Matrix

variable {N m n : Type} [Fintype N] [Fintype m] [Fintype n]

/-! ## Velocities -/

def HasVelocity (curve : ℝ → Matrix N m ℝ) (velocity : Matrix N m ℝ) : Prop :=
  ∀ i j, HasDerivAt (fun t => curve t i j) (velocity i j) 0

omit [Fintype N] [Fintype m] in
theorem hasVelocity_const (value : Matrix N m ℝ) : HasVelocity (fun _ => value) 0 :=
  fun i j => hasDerivAt_const 0 (value i j)

omit [Fintype N] [Fintype m] in
theorem hasVelocity_line (value direction : Matrix N m ℝ) : HasVelocity (fun t => value + t • direction) direction := by
  intro i j
  simpa using ((hasDerivAt_id (0 : ℝ)).mul_const (direction i j)).const_add (value i j)

omit [Fintype N] [Fintype n] in
theorem HasVelocity.mul {X : ℝ → Matrix N m ℝ} {W : ℝ → Matrix m n ℝ} {velocityX : Matrix N m ℝ} {velocityW : Matrix m n ℝ}
    (movingX : HasVelocity X velocityX) (movingW : HasVelocity W velocityW) :
    HasVelocity (fun t => X t * W t) (velocityX * W 0 + X 0 * velocityW) := by
  intro i j
  have terms := HasDerivAt.fun_sum (u := Finset.univ) fun k _ => (movingX i k).fun_mul (movingW k j)
  simpa [Matrix.mul_apply, Finset.sum_add_distrib] using terms

omit [Fintype N] [Fintype m] in
theorem HasVelocity.add {X Y : ℝ → Matrix N m ℝ} {velocityX velocityY : Matrix N m ℝ} (movingX : HasVelocity X velocityX)
    (movingY : HasVelocity Y velocityY) : HasVelocity (fun t => X t + Y t) (velocityX + velocityY) :=
  fun i j => (movingX i j).fun_add (movingY i j)

omit [Fintype N] [Fintype m] in
theorem HasVelocity.map {X : ℝ → Matrix N m ℝ} {velocity : Matrix N m ℝ} {f slope : ℝ → ℝ} (moving : HasVelocity X velocity)
    (smooth : ∀ i j, HasDerivAt f (slope (X 0 i j)) (X 0 i j)) :
    HasVelocity (fun t => (X t).map f) (Matrix.of fun i j => slope (X 0 i j) * velocity i j) :=
  fun i j => (smooth i j).comp (0 : ℝ) (moving i j)

/-! ## The pairing -/

def pairing (A B : Matrix N m ℝ) : ℝ := ∑ i, ∑ j, A i j * B i j

theorem pairing_eq_trace (A B : Matrix N m ℝ) : pairing A B = (Aᵀ * B).trace := by
  simp only [pairing, Matrix.trace, Matrix.diag_apply, Matrix.mul_apply, Matrix.transpose_apply]
  exact Finset.sum_comm

@[simp] theorem pairing_zero (A : Matrix N m ℝ) : pairing A 0 = 0 := by simp [pairing]

theorem pairing_add (A B C : Matrix N m ℝ) : pairing A (B + C) = pairing A B + pairing A C := by
  simp [pairing, mul_add, Finset.sum_add_distrib]

theorem pairing_neg (A B : Matrix N m ℝ) : pairing A (-B) = -pairing A B := by simp [pairing]

theorem pairing_mul_left (G : Matrix N n ℝ) (V : Matrix N m ℝ) (W : Matrix m n ℝ) :
    pairing G (V * W) = pairing (G * Wᵀ) V := by
  rw [pairing_eq_trace, pairing_eq_trace, Matrix.transpose_mul, Matrix.transpose_transpose, ← Matrix.mul_assoc,
    Matrix.trace_mul_comm, Matrix.mul_assoc]

theorem pairing_mul_right (G : Matrix N n ℝ) (X : Matrix N m ℝ) (V : Matrix m n ℝ) :
    pairing G (X * V) = pairing (Xᵀ * G) V := by
  rw [pairing_eq_trace, pairing_eq_trace, Matrix.transpose_mul, Matrix.transpose_transpose, Matrix.mul_assoc]

theorem pairing_of_mul (G V : Matrix N m ℝ) (factor : N → m → ℝ) :
    pairing G (Matrix.of fun i j => factor i j * V i j) = pairing (Matrix.of fun i j => factor i j * G i j) V := by
  simp only [pairing, Matrix.of_apply]
  refine Finset.sum_congr rfl fun i _ => Finset.sum_congr rfl fun j _ => ?_
  ring

theorem pairing_self_nonneg (A : Matrix N m ℝ) : 0 ≤ pairing A A :=
  Finset.sum_nonneg fun i _ => Finset.sum_nonneg fun j _ => mul_self_nonneg (A i j)

theorem pairing_self_eq_zero {A : Matrix N m ℝ} : pairing A A = 0 ↔ A = 0 := by
  constructor
  · intro none
    rw [pairing, Finset.sum_eq_zero_iff_of_nonneg fun i _ => Finset.sum_nonneg fun j _ => mul_self_nonneg (A i j)] at none
    ext i j
    have row := none i (Finset.mem_univ i)
    rw [Finset.sum_eq_zero_iff_of_nonneg fun j _ => mul_self_nonneg (A i j)] at row
    simpa using row j (Finset.mem_univ j)
  · intro none
    simp [none]

/-! ## A step downhill -/

theorem exists_lt_of_hasDerivAt {f : ℝ → ℝ} {slope : ℝ} (derivative : HasDerivAt f slope 0) (negative : slope < 0) :
    ∃ bound > 0, ∀ t, 0 < t → t < bound → f t < f 0 := by
  have slopes := (hasDerivAt_iff_tendsto_slope.mp derivative).eventually_lt_const negative
  rw [eventually_nhdsWithin_iff, Metric.eventually_nhds_iff] at slopes
  obtain ⟨bound, positive, near⟩ := slopes
  refine ⟨bound, positive, fun t after before => ?_⟩
  have here := near (by simpa [abs_of_pos after] using before) after.ne'
  rw [slope_def_field, sub_zero, div_neg_iff] at here
  rcases here with ⟨-, past⟩ | ⟨down, -⟩
  · exact absurd past (not_lt.mpr after.le)
  · exact sub_neg.mp down

end ReverseMode
