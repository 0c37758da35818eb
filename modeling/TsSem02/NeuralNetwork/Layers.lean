import Mathlib

/-! # The layers of a network

`layers.py`, and the activations that are tried in the notebook beside it.  An array of
size `(N, m)` is a matrix, of entries that are exact; a network is given with the
layout of its modules, so that the sizes fit.

What `forward` and `backward` store for each other are fields of the layers.
-/

namespace Layers

/-- The functions of numpy, on one entry. -/
structure Numpy (K : Type) where
  exp : K → K
  log : K → K
  tanh : K → K

section Sizes

variable (K : Type) (N : ℕ)

structure Linear (inputSize outputSize : ℕ) where
  W : Matrix (Fin inputSize) (Fin outputSize) K
  b : Fin outputSize → K
  X : Matrix (Fin N) (Fin inputSize) K
  dLdW : Matrix (Fin inputSize) (Fin outputSize) K
  dLdb : Fin outputSize → K
  dLdx : Matrix (Fin N) (Fin inputSize) K

structure Sigmoid (d : ℕ) where
  s : Matrix (Fin N) (Fin d) K

structure ReLU (d : ℕ) where
  X : Matrix (Fin N) (Fin d) K

structure ELU (d : ℕ) where
  a : K
  X : Matrix (Fin N) (Fin d) K

structure Tanh (d : ℕ) where
  X : Matrix (Fin N) (Fin d) K
  y : Matrix (Fin N) (Fin d) K

structure NLLLoss (C : ℕ) where
  p : Matrix (Fin N) (Fin C) K
  y : Matrix (Fin N) (Fin C) K

/-- The classes of modules, with the widths of what they take and return. -/
inductive Kind : ℕ → ℕ → Type where
  | linear {m n : ℕ} : Kind m n
  | sigmoid {d : ℕ} : Kind d d
  | relu {d : ℕ} : Kind d d
  | elu {d : ℕ} : Kind d d
  | tanh {d : ℕ} : Kind d d

inductive Module : {m n : ℕ} → Kind m n → Type where
  | linear {m n : ℕ} (layer : Linear K N m n) : Module (@Kind.linear m n)
  | sigmoid {d : ℕ} (layer : Sigmoid K N d) : Module (@Kind.sigmoid d)
  | relu {d : ℕ} (layer : ReLU K N d) : Module (@Kind.relu d)
  | elu {d : ℕ} (layer : ELU K N d) : Module (@Kind.elu d)
  | tanh {d : ℕ} (layer : Tanh K N d) : Module (@Kind.tanh d)

/-- The classes of the list `modules`. -/
inductive Layout : ℕ → ℕ → Type where
  | nil {d : ℕ} : Layout d d
  | cons {d e f : ℕ} (kind : Kind d e) (rest : Layout e f) : Layout d f

/-- `NeuralNetwork(modules)` -/
inductive NeuralNetwork : {d e : ℕ} → Layout d e → Type where
  | nil {d : ℕ} : NeuralNetwork (@Layout.nil d)
  | cons {d e f : ℕ} {kind : Kind d e} {rest : Layout e f} (module : Module K N kind) (modules : NeuralNetwork rest) :
      NeuralNetwork (.cons kind rest)

end Sizes

variable {K : Type} [Field K] {N : ℕ} (np : Numpy K)

/-! ## `Linear` -/

namespace Linear

variable {inputSize outputSize : ℕ} (self : Linear K N inputSize outputSize)

def forward (X : Matrix (Fin N) (Fin inputSize) K) :
    Linear K N inputSize outputSize × Matrix (Fin N) (Fin outputSize) K :=
  ({ self with X := X }, X * self.W + Matrix.of fun _ j => self.b j)

def backward (dLdy : Matrix (Fin N) (Fin outputSize) K) :
    Linear K N inputSize outputSize × Matrix (Fin N) (Fin inputSize) K :=
  let dLdx := dLdy * self.W.transpose
  ({ self with
      dLdW := self.X.transpose * dLdy
      dLdb := fun j => ∑ i, dLdy i j
      dLdx := dLdx }, dLdx)

def step (learningRate : K) : Linear K N inputSize outputSize :=
  { self with
    W := self.W - learningRate • self.dLdW
    b := self.b - learningRate • self.dLdb }

end Linear

/-! ## The activations -/

section Activations

variable {d : ℕ}

def Sigmoid.forward (_self : Sigmoid K N d) (X : Matrix (Fin N) (Fin d) K) : Sigmoid K N d × Matrix (Fin N) (Fin d) K :=
  let s := X.map fun x => 1 / (1 + np.exp (-x))
  (⟨s⟩, s)

def Sigmoid.backward (self : Sigmoid K N d) (dLdy : Matrix (Fin N) (Fin d) K) : Matrix (Fin N) (Fin d) K :=
  Matrix.of fun i j => self.s i j * (1 - self.s i j) * dLdy i j

def Tanh.forward (_self : Tanh K N d) (X : Matrix (Fin N) (Fin d) K) : Tanh K N d × Matrix (Fin N) (Fin d) K :=
  let y := X.map np.tanh
  (⟨X, y⟩, y)

def Tanh.backward (self : Tanh K N d) (dLdy : Matrix (Fin N) (Fin d) K) : Matrix (Fin N) (Fin d) K :=
  Matrix.of fun i j => dLdy i j * (1 - self.y i j ^ 2)

variable [LinearOrder K]

def indicator (P : Prop) [Decidable P] : K := if P then 1 else 0

def ReLU.forward (_self : ReLU K N d) (X : Matrix (Fin N) (Fin d) K) : ReLU K N d × Matrix (Fin N) (Fin d) K :=
  (⟨X⟩, X.map fun x => max x 0)

def ReLU.backward (self : ReLU K N d) (dLdy : Matrix (Fin N) (Fin d) K) : Matrix (Fin N) (Fin d) K :=
  Matrix.of fun i j => indicator (self.X i j > 0) * dLdy i j

def ELU.forward (self : ELU K N d) (X : Matrix (Fin N) (Fin d) K) : ELU K N d × Matrix (Fin N) (Fin d) K :=
  ({ self with X := X }, X.map fun x => indicator (x ≥ 0) * x + indicator (x < 0) * self.a * (np.exp x - 1))

def ELU.backward (self : ELU K N d) (dLdy : Matrix (Fin N) (Fin d) K) : Matrix (Fin N) (Fin d) K :=
  Matrix.of fun i j =>
    dLdy i j * (indicator (self.X i j > 0) + indicator (self.X i j ≤ 0) * self.a * np.exp (self.X i j))

end Activations

/-! ## `NLLLoss` -/

section Loss

variable {C : ℕ}

/-- `forward`; the labels are the indices of classes. -/
def NLLLoss.forward (X : Matrix (Fin N) (Fin C) K) (y : Fin N → Fin C) : NLLLoss K N C × K :=
  let p := Matrix.of fun i c => np.exp (X i c) / ∑ c, np.exp (X i c)
  let y := Matrix.of fun i c => if y i = c then 1 else 0
  (⟨p, y⟩, -((∑ i, ∑ c, np.log (p i c) * y i c) / N))

def NLLLoss.backward (self : NLLLoss K N C) : Matrix (Fin N) (Fin C) K :=
  Matrix.of fun i c => (self.p i c - self.y i c) / N

end Loss

/-! ## `NeuralNetwork` -/

variable [LinearOrder K]

def Module.forward {m n : ℕ} {kind : Kind m n} (module : Module K N kind) (X : Matrix (Fin N) (Fin m) K) :
    Module K N kind × Matrix (Fin N) (Fin n) K :=
  match module, X with
  | .linear layer, X => (layer.forward X).map .linear id
  | .sigmoid layer, X => (layer.forward np X).map .sigmoid id
  | .relu layer, X => (layer.forward X).map .relu id
  | .elu layer, X => (layer.forward np X).map .elu id
  | .tanh layer, X => (layer.forward np X).map .tanh id

def Module.backward {m n : ℕ} {kind : Kind m n} (module : Module K N kind) (dLdy : Matrix (Fin N) (Fin n) K) :
    Module K N kind × Matrix (Fin N) (Fin m) K :=
  match module, dLdy with
  | .linear layer, dLdy => (layer.backward dLdy).map .linear id
  | .sigmoid layer, dLdy => (.sigmoid layer, layer.backward dLdy)
  | .relu layer, dLdy => (.relu layer, layer.backward dLdy)
  | .elu layer, dLdy => (.elu layer, layer.backward np dLdy)
  | .tanh layer, dLdy => (.tanh layer, layer.backward dLdy)

/-- `step`; the activations have no parameters. -/
def Module.step {m n : ℕ} {kind : Kind m n} (learningRate : K) : Module K N kind → Module K N kind
  | .linear layer => .linear (layer.step learningRate)
  | module => module

namespace NeuralNetwork

variable {d e : ℕ} {layout : Layout d e}

def forward {d e : ℕ} {layout : Layout d e} (network : NeuralNetwork K N layout) (X : Matrix (Fin N) (Fin d) K) :
    NeuralNetwork K N layout × Matrix (Fin N) (Fin e) K :=
  match network, X with
  | .nil, X => (.nil, X)
  | .cons module modules, X =>
    let (module, y) := module.forward np X
    let (modules, y) := modules.forward y
    (.cons module modules, y)

def backward {d e : ℕ} {layout : Layout d e} (network : NeuralNetwork K N layout) (dLdy : Matrix (Fin N) (Fin e) K) :
    NeuralNetwork K N layout × Matrix (Fin N) (Fin d) K :=
  match network, dLdy with
  | .nil, dLdy => (.nil, dLdy)
  | .cons module modules, dLdy =>
    let (modules, dLdy) := modules.backward dLdy
    let (module, dLdy) := module.backward np dLdy
    (.cons module modules, dLdy)

def step {d e : ℕ} {layout : Layout d e} (learningRate : K) : NeuralNetwork K N layout → NeuralNetwork K N layout
  | .nil => .nil
  | .cons module modules => .cons (module.step learningRate) (modules.step learningRate)

/-- The loss that `train` records for a batch. -/
def lossBatch (network : NeuralNetwork K N layout) (X : Matrix (Fin N) (Fin d) K) (y : Fin N → Fin e) : K :=
  (NLLLoss.forward np (network.forward np X).2 y).2

/-- `network.backward(loss_func.backward())`, after the two calls of `forward`. -/
def backpropagate (network : NeuralNetwork K N layout) (X : Matrix (Fin N) (Fin d) K) (y : Fin N → Fin e) :
    NeuralNetwork K N layout :=
  let (network, predictions) := network.forward np X
  let (lossFunc, _) := NLLLoss.forward np predictions y
  (network.backward np lossFunc.backward).1

def trainBatch (learningRate : K) (network : NeuralNetwork K N layout) (X : Matrix (Fin N) (Fin d) K) (y : Fin N → Fin e) :
    NeuralNetwork K N layout :=
  (network.backpropagate np X y).step learningRate

end NeuralNetwork

end Layers
