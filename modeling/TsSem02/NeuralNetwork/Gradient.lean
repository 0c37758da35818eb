import TsSem02.Library.ReverseMode
import TsSem02.NeuralNetwork.Layers

/-! # What the backward pass computes

The parameters move on a straight line, and every layer is followed along it: the
velocity of what a module returns, paired with any `dLdy`, is the velocity of what it
takes, paired with the `dLdx` of its `backward`, plus the slope along its own
parameters (`Adjoint`).  One after another the modules give the gradient of the loss
(`backpropagate_gradient`), and `step` goes down along it (`trainBatch_descends`).
-/

namespace Layers

open ReverseMode

/-- The functions of numpy, exactly. -/
noncomputable def Numpy.real : Numpy ℝ := ⟨Real.exp, Real.log, Real.tanh⟩

@[simp] theorem real_exp : Numpy.real.exp = Real.exp := rfl
@[simp] theorem real_log : Numpy.real.log = Real.log := rfl
@[simp] theorem real_tanh : Numpy.real.tanh = Real.tanh := rfl

variable {N m n d e C : ℕ} {kind : Kind m n} {layout : Layout d e}

/-! ## Moving the parameters -/

/-- The parameters, moved towards those of another module. -/
noncomputable def Module.move (t : ℝ) (module direction : Module ℝ N kind) : Module ℝ N kind :=
  match module, direction with
  | .linear layer, .linear direction =>
    .linear { layer with W := layer.W + t • direction.W, b := layer.b + t • direction.b }
  | module, _ => module

/-- The slope that the stored gradient predicts in a direction. -/
noncomputable def Module.slope (module direction : Module ℝ N kind) : ℝ :=
  match module, direction with
  | .linear layer, .linear direction => pairing layer.dLdW direction.W + ∑ j, layer.dLdb j * direction.b j
  | _, _ => 0

/-- No entry is where the module has a kink. -/
def Module.Smooth (module : Module ℝ N kind) (X : Matrix (Fin N) (Fin m) ℝ) : Prop :=
  match module, X with
  | .relu _, X => ∀ i j, X i j ≠ 0
  | .elu layer, X => layer.a = 1 ∨ ∀ i j, X i j ≠ 0
  | _, _ => True

namespace NeuralNetwork

noncomputable def move {d e : ℕ} {layout : Layout d e} (t : ℝ) (network direction : NeuralNetwork ℝ N layout) :
    NeuralNetwork ℝ N layout :=
  match network, direction with
  | .nil, .nil => .nil
  | .cons module modules, .cons direction directions => .cons (module.move t direction) (modules.move t directions)

noncomputable def slope {d e : ℕ} {layout : Layout d e} (network direction : NeuralNetwork ℝ N layout) : ℝ :=
  match network, direction with
  | .nil, .nil => 0
  | .cons module modules, .cons direction directions => module.slope direction + modules.slope directions

/-- No entry is at a kink anywhere in the network. -/
def Smooth {d e : ℕ} {layout : Layout d e} (network : NeuralNetwork ℝ N layout) (X : Matrix (Fin N) (Fin d) ℝ) : Prop :=
  match network, X with
  | .nil, _ => True
  | .cons module modules, X => module.Smooth X ∧ modules.Smooth (module.forward .real X).2

end NeuralNetwork

/-! ## One layer -/

section Activations

/-- What `backward` of an activation has to do with a velocity. -/
theorem pairing_map {X : ℝ → Matrix (Fin N) (Fin d) ℝ} {velocity : Matrix (Fin N) (Fin d) ℝ} {f : ℝ → ℝ}
    (slope : ℝ → ℝ) (backward : Matrix (Fin N) (Fin d) ℝ → Matrix (Fin N) (Fin d) ℝ) (moving : HasVelocity X velocity)
    (smooth : ∀ i j, HasDerivAt f (slope (X 0 i j)) (X 0 i j))
    (entries : ∀ dLdy, backward dLdy = Matrix.of fun i j => slope (X 0 i j) * dLdy i j) :
    ∃ velocity', HasVelocity (fun t => (X t).map f) velocity' ∧
      ∀ dLdy, pairing dLdy velocity' = pairing (backward dLdy) velocity := by
  refine ⟨_, moving.map smooth, fun dLdy => ?_⟩
  rw [pairing_of_mul, entries]

theorem hasDerivAt_sigmoid (x : ℝ) : HasDerivAt (fun x : ℝ => 1 / (1 + Real.exp (-x)))
    (1 / (1 + Real.exp (-x)) * (1 - 1 / (1 + Real.exp (-x)))) x := by
  have derivative := Real.hasDerivAt_sigmoid x
  simp only [← Real.sigmoid_def, one_div]
  exact derivative

theorem hasDerivAt_tanh (x : ℝ) : HasDerivAt Real.tanh (1 - Real.tanh x ^ 2) x := by
  have nonzero := (Real.cosh_pos x).ne'
  have quotient := (Real.hasDerivAt_sinh x).div (Real.hasDerivAt_cosh x) nonzero
  have same : Real.sinh / Real.cosh = Real.tanh := by
    funext x
    exact (Real.tanh_eq_sinh_div_cosh x).symm
  have slope : (Real.cosh x * Real.cosh x - Real.sinh x * Real.sinh x) / Real.cosh x ^ 2 = 1 - Real.tanh x ^ 2 := by
    rw [Real.tanh_eq_sinh_div_cosh]
    field_simp
  rwa [same, slope] at quotient

theorem hasDerivAt_relu {x : ℝ} (off : x ≠ 0) : HasDerivAt (fun x : ℝ => max x 0) (indicator (x > 0)) x := by
  rcases off.lt_or_gt with negative | positive
  · have flat : (fun x : ℝ => max x 0) =ᶠ[nhds x] fun _ => 0 := by
      filter_upwards [Iio_mem_nhds negative] with y below
      exact max_eq_right (le_of_lt below)
    simpa [indicator, negative.not_gt] using (hasDerivAt_const x (0 : ℝ)).congr_of_eventuallyEq flat
  · have same : (fun x : ℝ => max x 0) =ᶠ[nhds x] id := by
      filter_upwards [Ioi_mem_nhds positive] with y above
      exact max_eq_left (le_of_lt above)
    simpa [indicator, positive] using (hasDerivAt_id x).congr_of_eventuallyEq same

/-- The two branches of `ELU` meet at zero, and with `a = 1` smoothly. -/
theorem hasDerivAt_elu {a x : ℝ} (smooth : a = 1 ∨ x ≠ 0) :
    HasDerivAt (fun x : ℝ => indicator (x ≥ 0) * x + indicator (x < 0) * a * (Real.exp x - 1))
      (indicator (x > 0) + indicator (x ≤ 0) * a * Real.exp x) x := by
  have left : HasDerivAt (fun x : ℝ => a * (Real.exp x - 1)) (a * Real.exp x) x :=
    ((Real.hasDerivAt_exp x).sub_const 1).const_mul a
  rcases lt_trichotomy x 0 with negative | rfl | positive
  · have same : (fun x : ℝ => indicator (x ≥ 0) * x + indicator (x < 0) * a * (Real.exp x - 1)) =ᶠ[nhds x]
        fun x => a * (Real.exp x - 1) := by
      filter_upwards [Iio_mem_nhds negative] with y below
      simp [indicator, not_le.mpr (Set.mem_Iio.mp below), Set.mem_Iio.mp below]
    simpa [indicator, negative.not_gt, negative.le] using left.congr_of_eventuallyEq same
  · -- both one-sided derivatives are 1
    obtain rfl : a = 1 := by simpa using smooth
    have below : HasDerivWithinAt (fun x : ℝ => indicator (x ≥ 0) * x + indicator (x < 0) * 1 * (Real.exp x - 1)) 1
        (Set.Iic 0) 0 := by
      have here : HasDerivWithinAt (fun x : ℝ => 1 * (Real.exp x - 1)) 1 (Set.Iic 0) 0 := by
        simpa using left.hasDerivWithinAt
      refine here.congr (fun y inside => ?_) (by simp [indicator])
      rcases (Set.mem_Iic.mp inside).lt_or_eq with negative | rfl
      · simp [indicator, not_le.mpr negative, negative]
      · simp [indicator]
    have above : HasDerivWithinAt (fun x : ℝ => indicator (x ≥ 0) * x + indicator (x < 0) * 1 * (Real.exp x - 1)) 1
        (Set.Ici 0) 0 := by
      refine (hasDerivAt_id (0 : ℝ)).hasDerivWithinAt.congr (fun y inside => ?_) (by simp [indicator])
      simp [indicator, Set.mem_Ici.mp inside, not_lt.mpr (Set.mem_Ici.mp inside)]
    have both := below.union above
    rw [Set.Iic_union_Ici, hasDerivWithinAt_univ] at both
    simpa [indicator] using both
  · have same : (fun x : ℝ => indicator (x ≥ 0) * x + indicator (x < 0) * a * (Real.exp x - 1)) =ᶠ[nhds x] id := by
      filter_upwards [Ioi_mem_nhds positive] with y above
      simp [indicator, le_of_lt (Set.mem_Ioi.mp above), not_lt.mpr (le_of_lt (Set.mem_Ioi.mp above))]
    simpa [indicator, positive, positive.not_ge] using (hasDerivAt_id x).congr_of_eventuallyEq same

end Activations

theorem linear_adjoint (layer direction : Linear ℝ N m n) {X : ℝ → Matrix (Fin N) (Fin m) ℝ}
    {velocity : Matrix (Fin N) (Fin m) ℝ} (moving : HasVelocity X velocity) :
    ∃ velocity', HasVelocity
        (fun t => X t * (layer.W + t • direction.W) + Matrix.of fun _ j => (layer.b + t • direction.b) j) velocity' ∧
      ∀ dLdy, pairing dLdy velocity' = pairing (dLdy * layer.W.transpose) velocity +
        (pairing ((X 0).transpose * dLdy) direction.W + ∑ j, (∑ i, dLdy i j) * direction.b j) := by
  have bias : HasVelocity (fun t => (Matrix.of fun _ j => (layer.b + t • direction.b) j : Matrix (Fin N) (Fin n) ℝ))
      (Matrix.of fun _ j => direction.b j) := by
    intro i j
    simpa using ((hasDerivAt_id (0 : ℝ)).mul_const (direction.b j)).const_add (layer.b j)
  refine ⟨_, (moving.mul (hasVelocity_line layer.W direction.W)).add bias, fun dLdy => ?_⟩
  have rows : pairing dLdy (Matrix.of fun _ j => direction.b j) = ∑ j, (∑ i, dLdy i j) * direction.b j := by
    simp only [pairing, Matrix.of_apply, Finset.sum_mul]
    exact Finset.sum_comm
  rw [pairing_add, pairing_add, pairing_mul_left, pairing_mul_right, rows, add_assoc]
  simp

theorem Module.adjoint (module direction : Module ℝ N kind) {X : ℝ → Matrix (Fin N) (Fin m) ℝ}
    {velocity : Matrix (Fin N) (Fin m) ℝ} (moving : HasVelocity X velocity) (smooth : module.Smooth (X 0)) :
    ∃ velocity', HasVelocity (fun t => ((module.move t direction).forward .real (X t)).2) velocity' ∧
      ∀ dLdy, pairing dLdy velocity' =
        pairing ((module.forward .real (X 0)).1.backward .real dLdy).2 velocity +
          ((module.forward .real (X 0)).1.backward .real dLdy).1.slope direction := by
  cases module with
  | linear layer =>
    cases direction with
    | linear direction => exact linear_adjoint layer direction moving
  | sigmoid layer =>
    obtain ⟨velocity', moves, pairs⟩ := pairing_map
      (fun x => 1 / (1 + Real.exp (-x)) * (1 - 1 / (1 + Real.exp (-x)))) (layer.forward .real (X 0)).1.backward
      moving (fun i j => hasDerivAt_sigmoid (X 0 i j)) fun dLdy => rfl
    exact ⟨velocity', moves, fun dLdy => (pairs dLdy).trans (add_zero _).symm⟩
  | relu layer =>
    obtain ⟨velocity', moves, pairs⟩ := pairing_map (fun x => indicator (x > 0)) (layer.forward (X 0)).1.backward
      moving (fun i j => hasDerivAt_relu (smooth i j)) fun dLdy => rfl
    exact ⟨velocity', moves, fun dLdy => (pairs dLdy).trans (add_zero _).symm⟩
  | elu layer =>
    have off : ∀ i j, layer.a = 1 ∨ X 0 i j ≠ 0 := fun i j => smooth.imp_right fun off => off i j
    obtain ⟨velocity', moves, pairs⟩ := pairing_map
      (fun x => indicator (x > 0) + indicator (x ≤ 0) * layer.a * Real.exp x) ((layer.forward .real (X 0)).1.backward .real)
      moving (fun i j => hasDerivAt_elu (off i j)) fun dLdy => by
        ext i j
        exact mul_comm _ _
    exact ⟨velocity', moves, fun dLdy => (pairs dLdy).trans (add_zero _).symm⟩
  | tanh layer =>
    obtain ⟨velocity', moves, pairs⟩ := pairing_map (fun x => 1 - Real.tanh x ^ 2) (layer.forward .real (X 0)).1.backward
      moving (fun i j => hasDerivAt_tanh (X 0 i j)) fun dLdy => by
        ext i j
        exact mul_comm _ _
    exact ⟨velocity', moves, fun dLdy => (pairs dLdy).trans (add_zero _).symm⟩

/-! ## All layers -/

theorem Module.move_zero (module direction : Module ℝ N kind) : module.move 0 direction = module := by
  cases module with
  | linear layer =>
    cases direction with
    | linear direction => simp [Module.move]
  | _ => rfl

namespace NeuralNetwork

theorem move_zero (network direction : NeuralNetwork ℝ N layout) : network.move 0 direction = network := by
  induction network with
  | nil =>
    cases direction
    rfl
  | cons module modules ih =>
    cases direction with
    | cons direction directions => rw [move, Module.move_zero, ih]

theorem adjoint (network direction : NeuralNetwork ℝ N layout) {X : ℝ → Matrix (Fin N) (Fin d) ℝ}
    {velocity : Matrix (Fin N) (Fin d) ℝ} (moving : HasVelocity X velocity) (smooth : network.Smooth (X 0)) :
    ∃ velocity', HasVelocity (fun t => ((network.move t direction).forward .real (X t)).2) velocity' ∧
      ∀ dLdy, pairing dLdy velocity' =
        pairing ((network.forward .real (X 0)).1.backward .real dLdy).2 velocity +
          ((network.forward .real (X 0)).1.backward .real dLdy).1.slope direction := by
  induction network with
  | nil =>
    cases direction
    exact ⟨velocity, moving, fun dLdy => (add_zero _).symm⟩
  | cons module modules ih =>
    cases direction with
    | cons direction directions =>
      obtain ⟨between, movesBetween, pairsBetween⟩ := module.adjoint direction moving smooth.1
      have later := ih directions movesBetween
      rw [Module.move_zero] at later
      obtain ⟨velocity', moves, pairs⟩ := later smooth.2
      refine ⟨velocity', moves, fun dLdy => ?_⟩
      calc pairing dLdy velocity'
        _ = pairing ((modules.forward .real (module.forward .real (X 0)).2).1.backward .real dLdy).2 between +
            ((modules.forward .real (module.forward .real (X 0)).2).1.backward .real dLdy).1.slope directions :=
            pairs dLdy
        _ = _ := by
            rw [pairsBetween, add_assoc]
            rfl

end NeuralNetwork

/-! ## The loss -/

section Loss

variable {row : ℝ → Fin C → ℝ} {velocity : Fin C → ℝ}

theorem sum_exp_pos (row : Fin C → ℝ) (c : Fin C) : 0 < ∑ k, Real.exp (row k) :=
  Finset.sum_pos (fun k _ => Real.exp_pos (row k)) ⟨c, Finset.mem_univ c⟩

theorem hasDerivAt_log_softmax (moving : ∀ c, HasDerivAt (fun t => row t c) (velocity c) 0) (c : Fin C) :
    HasDerivAt (fun t => Real.log (Real.exp (row t c) / ∑ k, Real.exp (row t k)))
      (velocity c - ∑ k, Real.exp (row 0 k) / (∑ k, Real.exp (row 0 k)) * velocity k) 0 := by
  have logs : (fun t => Real.log (Real.exp (row t c) / ∑ k, Real.exp (row t k))) =
      fun t => row t c - Real.log (∑ k, Real.exp (row t k)) := by
    funext t
    rw [Real.log_div (Real.exp_pos _).ne' (sum_exp_pos (row t) c).ne', Real.log_exp]
  have sum : HasDerivAt (fun t => ∑ k, Real.exp (row t k)) (∑ k, Real.exp (row 0 k) * velocity k) 0 :=
    HasDerivAt.fun_sum fun k _ => (moving k).exp
  rw [logs]
  refine ((moving c).sub (sum.log (sum_exp_pos (row 0) c).ne')).congr_deriv ?_
  rw [Finset.sum_div]
  simp only [div_mul_eq_mul_div]

/-- The loss along a curve: `backward` of the loss is its gradient. -/
theorem hasDerivAt_loss {X : ℝ → Matrix (Fin N) (Fin C) ℝ} {velocity : Matrix (Fin N) (Fin C) ℝ}
    (moving : HasVelocity X velocity) (y : Fin N → Fin C) :
    HasDerivAt (fun t => (NLLLoss.forward .real (X t) y).2)
      (pairing (NLLLoss.forward .real (X 0) y).1.backward velocity) 0 := by
  have entries := fun i => hasDerivAt_log_softmax (moving i)
  have total := (HasDerivAt.fun_sum (u := Finset.univ) fun i _ => HasDerivAt.fun_sum (u := Finset.univ) fun c _ =>
    (entries i c).mul_const (if y i = c then (1 : ℝ) else 0)).div_const (N : ℝ) |>.neg
  refine total.congr_deriv ?_
  rw [pairing, ← neg_div, ← Finset.sum_neg_distrib, Finset.sum_div]
  refine Finset.sum_congr rfl fun i _ => ?_
  simp only [NLLLoss.forward, NLLLoss.backward, Matrix.of_apply, real_exp, mul_ite, mul_one, mul_zero,
    Finset.sum_ite_eq, Finset.mem_univ, if_true, neg_sub, sub_div, Finset.sum_div, sub_mul, Finset.sum_sub_distrib]
  congr 1
  · exact Finset.sum_congr rfl fun c _ => by ring
  · simp [ite_mul, div_eq_inv_mul]

end Loss

/-! ## The gradient of the loss -/

noncomputable def kinked : NeuralNetwork ℝ 1 (.cons .linear (.cons .relu .nil) : Layout 1 2) :=
  .cons (.linear ⟨!![1, -1], 0, 0, 0, 0, 0⟩) (.cons (.relu ⟨0⟩) .nil)

section Gradient

variable {X : Matrix (Fin N) (Fin d) ℝ} {network : NeuralNetwork ℝ N layout}

theorem hasDerivAt_lossBatch (direction : NeuralNetwork ℝ N layout) {X : ℝ → Matrix (Fin N) (Fin d) ℝ}
    {velocity : Matrix (Fin N) (Fin d) ℝ} (moving : HasVelocity X velocity) (smooth : network.Smooth (X 0))
    (y : Fin N → Fin e) : HasDerivAt (fun t => (network.move t direction).lossBatch .real (X t) y)
      (pairing ((network.forward .real (X 0)).1.backward .real
          (NLLLoss.forward .real (network.forward .real (X 0)).2 y).1.backward).2 velocity +
        (network.backpropagate .real (X 0) y).slope direction) 0 := by
  obtain ⟨velocity', moves, pairs⟩ := network.adjoint direction moving smooth
  have loss := hasDerivAt_loss moves y
  rw [pairs, network.move_zero] at loss
  exact loss

/-- What `backward` has stored in the layers is the gradient of the loss: in every
    direction in which the weights and biases of all layers may move, it gives the
    derivative. -/
theorem backpropagate_gradient (direction : NeuralNetwork ℝ N layout) (smooth : network.Smooth X) (y : Fin N → Fin e) :
    HasDerivAt (fun t => (network.move t direction).lossBatch .real X y)
      ((network.backpropagate .real X y).slope direction) 0 := by
  have loss := hasDerivAt_lossBatch direction (hasVelocity_const X) smooth y
  rwa [pairing_zero, zero_add] at loss

theorem backpropagate_gradient_kinked : HasDerivAt (fun t => (kinked.move t kinked).lossBatch .real !![1] fun _ => 0)
    ((kinked.backpropagate .real !![1] fun _ => 0).slope kinked) 0 := by
  have smooth : kinked.Smooth !![1] := by
    refine ⟨trivial, fun i j => ?_, trivial⟩
    fin_cases i
    fin_cases j <;> simp [Module.forward, Linear.forward, Matrix.vecHead, Matrix.vecTail]
  exact backpropagate_gradient kinked smooth _

end Gradient

/-! ## A step down the gradient -/

/-- The parameters alone. -/
def Module.parameters (module : Module ℝ N kind) : Module ℝ N kind :=
  match module with
  | .linear layer => .linear ⟨layer.W, layer.b, 0, 0, 0, 0⟩
  | .sigmoid _ => .sigmoid ⟨0⟩
  | .relu _ => .relu ⟨0⟩
  | .elu layer => .elu ⟨layer.a, 0⟩
  | .tanh _ => .tanh ⟨0, 0⟩

/-- The direction against the stored gradient. -/
def Module.descent (module : Module ℝ N kind) : Module ℝ N kind :=
  match module with
  | .linear layer => .linear { layer with W := -layer.dLdW, b := -layer.dLdb }
  | module => module

/-- The stored gradient is zero. -/
def Module.Stationary (module : Module ℝ N kind) : Prop :=
  match module with
  | .linear layer => layer.dLdW = 0 ∧ layer.dLdb = 0
  | _ => True

namespace Module

variable {module : Module ℝ N kind}

theorem forward_parameters {other : Module ℝ N kind} (same : module.parameters = other.parameters)
    (X : Matrix (Fin N) (Fin m) ℝ) : (module.forward .real X).2 = (other.forward .real X).2 := by
  cases module <;> cases other <;> simp_all [parameters, forward, Linear.forward, Sigmoid.forward, ReLU.forward,
    ELU.forward, Tanh.forward]

theorem parameters_forward (X : Matrix (Fin N) (Fin m) ℝ) : (module.forward .real X).1.parameters = module.parameters := by
  cases module <;> rfl

theorem parameters_backward (dLdy : Matrix (Fin N) (Fin n) ℝ) :
    (module.backward .real dLdy).1.parameters = module.parameters := by
  cases module <;> rfl

theorem parameters_step {trained : Module ℝ N kind} (same : trained.parameters = module.parameters) (learningRate : ℝ) :
    (trained.step learningRate).parameters = (module.move learningRate trained.descent).parameters := by
  cases module <;> cases trained <;> simp_all [parameters, step, move, descent, Linear.step, sub_eq_add_neg]

/-- Against the gradient the slope is minus the sum of the squares. -/
theorem slope_descent_nonpos : module.slope module.descent ≤ 0 := by
  cases module with
  | linear layer =>
    have squares := pairing_self_nonneg layer.dLdW
    have more : 0 ≤ ∑ j, layer.dLdb j * layer.dLdb j := Finset.sum_nonneg fun j _ => mul_self_nonneg _
    simp only [slope, descent, pairing_neg, Pi.neg_apply, mul_neg, Finset.sum_neg_distrib]
    linarith
  | _ => exact le_refl 0

theorem stationary_of_slope (flat : module.slope module.descent = 0) : module.Stationary := by
  cases module with
  | linear layer =>
    have squares := pairing_self_nonneg layer.dLdW
    have more : 0 ≤ ∑ j, layer.dLdb j * layer.dLdb j := Finset.sum_nonneg fun j _ => mul_self_nonneg _
    simp only [slope, descent, pairing_neg, Pi.neg_apply, mul_neg, Finset.sum_neg_distrib] at flat
    constructor
    · exact pairing_self_eq_zero.mp (by linarith)
    · have none : ∑ j, layer.dLdb j * layer.dLdb j = 0 := by linarith
      rw [Finset.sum_eq_zero_iff_of_nonneg fun j _ => mul_self_nonneg _] at none
      funext j
      simpa using none j (Finset.mem_univ j)
  | _ => trivial

end Module

namespace NeuralNetwork

def parameters {d e : ℕ} {layout : Layout d e} (network : NeuralNetwork ℝ N layout) : NeuralNetwork ℝ N layout :=
  match network with
  | .nil => .nil
  | .cons module modules => .cons module.parameters modules.parameters

def descent {d e : ℕ} {layout : Layout d e} (network : NeuralNetwork ℝ N layout) : NeuralNetwork ℝ N layout :=
  match network with
  | .nil => .nil
  | .cons module modules => .cons module.descent modules.descent

def Stationary {d e : ℕ} {layout : Layout d e} (network : NeuralNetwork ℝ N layout) : Prop :=
  match network with
  | .nil => True
  | .cons module modules => module.Stationary ∧ modules.Stationary

variable {network : NeuralNetwork ℝ N layout}

theorem forward_parameters {other : NeuralNetwork ℝ N layout} (same : network.parameters = other.parameters)
    (X : Matrix (Fin N) (Fin d) ℝ) : (network.forward .real X).2 = (other.forward .real X).2 := by
  induction network with
  | nil =>
    cases other
    rfl
  | cons module modules ih =>
    cases other with
    | cons other others =>
      obtain ⟨first, rest⟩ := cons.inj same
      show (modules.forward .real (module.forward .real X).2).2 = (others.forward .real (other.forward .real X).2).2
      rw [Module.forward_parameters first, ih rest]

theorem parameters_forward (X : Matrix (Fin N) (Fin d) ℝ) :
    (network.forward .real X).1.parameters = network.parameters := by
  induction network with
  | nil => rfl
  | cons module modules ih => exact congrArg₂ cons (Module.parameters_forward X) (ih _)

theorem parameters_backward (dLdy : Matrix (Fin N) (Fin e) ℝ) :
    (network.backward .real dLdy).1.parameters = network.parameters := by
  induction network with
  | nil => rfl
  | cons module modules ih => exact congrArg₂ cons (Module.parameters_backward _) (ih dLdy)

theorem parameters_backpropagate (network : NeuralNetwork ℝ N layout) (X : Matrix (Fin N) (Fin d) ℝ) (y : Fin N → Fin e) :
    (network.backpropagate .real X y).parameters = network.parameters :=
  (parameters_backward _).trans (parameters_forward X)

theorem parameters_step {trained : NeuralNetwork ℝ N layout} (same : trained.parameters = network.parameters)
    (learningRate : ℝ) :
    (trained.step learningRate).parameters = (network.move learningRate trained.descent).parameters := by
  induction network with
  | nil =>
    cases trained
    rfl
  | cons module modules ih =>
    cases trained with
    | cons trained others =>
      obtain ⟨first, rest⟩ := cons.inj same
      exact congrArg₂ cons (Module.parameters_step first learningRate) (ih rest)

theorem slope_descent_nonpos : network.slope network.descent ≤ 0 := by
  induction network with
  | nil => exact le_refl 0
  | cons module modules ih => exact add_nonpos module.slope_descent_nonpos ih

theorem stationary_of_slope (flat : network.slope network.descent = 0) : network.Stationary := by
  induction network with
  | nil => trivial
  | cons module modules ih =>
    have here := module.slope_descent_nonpos
    have later := modules.slope_descent_nonpos
    have total : module.slope module.descent + modules.slope modules.descent = 0 := flat
    exact ⟨Module.stationary_of_slope (by linarith), ih (by linarith)⟩

end NeuralNetwork

section Descent

variable {X : Matrix (Fin N) (Fin d) ℝ} {network : NeuralNetwork ℝ N layout} {y : Fin N → Fin e}

/-- Unless the gradient is zero, training on a batch lowers the loss of this batch, if
    the learning rate is small enough. -/
theorem trainBatch_descends (smooth : network.Smooth X) (moves : ¬ (network.backpropagate .real X y).Stationary) :
    ∃ bound > 0, ∀ learningRate, 0 < learningRate → learningRate < bound →
      (network.trainBatch .real learningRate X y).lossBatch .real X y < network.lossBatch .real X y := by
  have derivative := hasDerivAt_lossBatch (network.backpropagate .real X y).descent (hasVelocity_const X) smooth y
  rw [pairing_zero, zero_add] at derivative
  have negative : (network.backpropagate .real X y).slope (network.backpropagate .real X y).descent < 0 :=
    lt_of_le_of_ne NeuralNetwork.slope_descent_nonpos (mt NeuralNetwork.stationary_of_slope moves)
  obtain ⟨bound, positive, lower⟩ := exists_lt_of_hasDerivAt derivative negative
  refine ⟨bound, positive, fun learningRate after before => ?_⟩
  have less := lower learningRate after before
  have same := NeuralNetwork.parameters_step (network.parameters_backpropagate X y) learningRate
  have loss : (network.trainBatch .real learningRate X y).lossBatch .real X y =
      (network.move learningRate (network.backpropagate .real X y).descent).lossBatch .real X y := by
    rw [NeuralNetwork.lossBatch, NeuralNetwork.trainBatch, NeuralNetwork.forward_parameters same]
    rfl
  rw [loss]
  rwa [NeuralNetwork.move_zero] at less

noncomputable def untrained : NeuralNetwork ℝ 1 (.cons .linear .nil : Layout 1 2) := .cons (.linear ⟨0, 0, 0, 0, 0, 0⟩) .nil

theorem trainBatch_descends_untrained : ∃ bound > 0, ∀ learningRate, 0 < learningRate → learningRate < bound →
    (untrained.trainBatch .real learningRate !![1] fun _ => 0).lossBatch .real !![1] (fun _ => 0) <
      untrained.lossBatch .real !![1] fun _ => 0 := by
  have smooth : untrained.Smooth !![1] := ⟨trivial, trivial⟩
  refine trainBatch_descends smooth fun stationary => ?_
  have bias := congrFun stationary.1.2 0
  simp [NLLLoss.backward] at bias
  norm_num at bias

end Descent

end Layers
