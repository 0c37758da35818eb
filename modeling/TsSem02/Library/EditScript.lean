import Mathlib.Algebra.Order.Monoid.Defs
import Mathlib.Order.Bounds.Basic
import Mathlib.Tactic

/-! # Weighted edit scripts

A script turns one list into another, element by element: it changes an element
(or keeps it, which is a change into itself), inserts one or deletes one.  Every
edit has a weight.

* `distance_isLeast` — `distance` is the least weight of a script between two lists;
* `exists_script` — and there is a script of that weight.
-/

namespace EditScript

inductive Edit (α : Type*) where
  | change (source target : α)
  | insert (target : α)
  | delete (source : α)
deriving DecidableEq, Repr

structure Weights (α W : Type*) where
  change : α → α → W
  insert : α → W
  delete : α → W

variable {α W : Type*}

namespace Edit

def source : Edit α → List α
  | change source _ => [source]
  | insert _ => []
  | delete source => [source]

def target : Edit α → List α
  | change _ target => [target]
  | insert target => [target]
  | delete _ => []

def weight (weights : Weights α W) : Edit α → W
  | change source target => weights.change source target
  | insert target => weights.insert target
  | delete source => weights.delete source

end Edit

def source (script : List (Edit α)) : List α := script.flatMap Edit.source

def target (script : List (Edit α)) : List α := script.flatMap Edit.target

def Between (left right : List α) (script : List (Edit α)) : Prop := source script = left ∧ target script = right

/-- The last edit, if there is one, is not an insertion. -/
def Settled (script : List (Edit α)) : Prop := ∀ element, script.getLast? ≠ some (.insert element)

section Weight

variable [AddCommMonoid W]

def weight (weights : Weights α W) (script : List (Edit α)) : W := (script.map (Edit.weight weights)).sum

@[simp] theorem weight_nil (weights : Weights α W) : weight weights ([] : List (Edit α)) = 0 := rfl

@[simp] theorem weight_cons (weights : Weights α W) (edit : Edit α) (script : List (Edit α)) :
    weight weights (edit :: script) = edit.weight weights + weight weights script := rfl

variable [LinearOrder W]

/-- The least weight of a script between two lists. -/
def distance (weights : Weights α W) : List α → List α → W
  | [], [] => 0
  | [], b :: right => weights.insert b + distance weights [] right
  | a :: left, [] => weights.delete a + distance weights left []
  | a :: left, b :: right =>
    min (weights.change a b + distance weights left right)
      (min (weights.insert b + distance weights (a :: left) right)
        (weights.delete a + distance weights left (b :: right)))
termination_by left right => left.length + right.length

end Weight

/-! ## Scripts between two lists -/

variable {a b : α} {left right : List α} {script : List (Edit α)}

theorem between_nil : Between left right ([] : List (Edit α)) ↔ left = [] ∧ right = [] := by
  rw [Between, source, target, List.flatMap_nil, List.flatMap_nil, eq_comm, @eq_comm _ [] right]

theorem between_change :
    Between left right (.change a b :: script) ↔ ∃ left' right', left = a :: left' ∧ right = b :: right' ∧
      Between left' right' script := by
  constructor
  · rintro ⟨rfl, rfl⟩
    exact ⟨_, _, rfl, rfl, rfl, rfl⟩
  · rintro ⟨_, _, rfl, rfl, rfl, rfl⟩
    exact ⟨rfl, rfl⟩

theorem between_insert :
    Between left right (.insert b :: script) ↔ ∃ right', right = b :: right' ∧ Between left right' script := by
  constructor
  · rintro ⟨rfl, rfl⟩
    exact ⟨_, rfl, rfl, rfl⟩
  · rintro ⟨_, rfl, rfl, rfl⟩
    exact ⟨rfl, rfl⟩

theorem between_delete :
    Between left right (.delete a :: script) ↔ ∃ left', left = a :: left' ∧ Between left' right script := by
  constructor
  · rintro ⟨rfl, rfl⟩
    exact ⟨_, rfl, rfl, rfl⟩
  · rintro ⟨_, rfl, rfl, rfl⟩
    exact ⟨rfl, rfl⟩

theorem settled_nil : Settled ([] : List (Edit α)) := fun _ => by simp

/-- What is put in front of a script does not matter, unless the script is empty. -/
theorem settled_cons {edit : Edit α} :
    Settled (edit :: script) ↔ Settled script ∧ (script = [] → ∀ element, edit ≠ .insert element) := by
  cases script with
  | nil => simp [Settled]
  | cons next script => simp [Settled, List.getLast?_cons_cons]

theorem Settled.eq_nil (settled : Settled script) (empty : source script = []) : script = [] := by
  induction script with
  | nil => rfl
  | cons edit script ih =>
    obtain ⟨settled', last⟩ := settled_cons.mp settled
    rw [source, List.flatMap_cons, List.append_eq_nil_iff] at empty
    cases edit with
    | change a b => exact absurd empty.1 (List.cons_ne_nil _ _)
    | insert b => exact absurd rfl (last (ih settled' empty.2) b)
    | delete a => exact absurd empty.1 (List.cons_ne_nil _ _)

/-! ## The least weight -/

section Least

variable [AddCommMonoid W] [LinearOrder W] {weights : Weights α W}

theorem distance_le_change :
    distance weights (a :: left) (b :: right) ≤ weights.change a b + distance weights left right := by
  rw [distance]
  exact min_le_left _ _

theorem distance_le_insert :
    distance weights left (b :: right) ≤ weights.insert b + distance weights left right := by
  cases left with
  | nil => rw [distance]
  | cons a left =>
    rw [distance]
    exact (min_le_right _ _).trans (min_le_left _ _)

theorem distance_le_delete :
    distance weights (a :: left) right ≤ weights.delete a + distance weights left right := by
  cases right with
  | nil => rw [distance]
  | cons b right =>
    rw [distance]
    exact (min_le_right _ _).trans (min_le_right _ _)

theorem exists_script (weights : Weights α W) (left right : List α) :
    ∃ script, Between left right script ∧ weight weights script = distance weights left right := by
  induction left, right using distance.induct with
  | case1 => exact ⟨[], between_nil.mpr ⟨rfl, rfl⟩, by rw [distance, weight_nil]⟩
  | case2 b right ih =>
    obtain ⟨script, between, same⟩ := ih
    exact ⟨.insert b :: script, between_insert.mpr ⟨right, rfl, between⟩, by
      rw [distance, weight_cons, same]; rfl⟩
  | case3 a left ih =>
    obtain ⟨script, between, same⟩ := ih
    exact ⟨.delete a :: script, between_delete.mpr ⟨left, rfl, between⟩, by
      rw [distance, weight_cons, same]; rfl⟩
  | case4 a left b right changed inserted deleted =>
    rw [distance]
    rcases min_choice (weights.change a b + distance weights left right)
      (min (weights.insert b + distance weights (a :: left) right)
        (weights.delete a + distance weights left (b :: right))) with least | least
    · obtain ⟨script, between, same⟩ := changed
      refine ⟨.change a b :: script, between_change.mpr ⟨left, right, rfl, rfl, between⟩, ?_⟩
      rw [least, weight_cons, same]
      rfl
    · rw [least]
      rcases min_choice (weights.insert b + distance weights (a :: left) right)
        (weights.delete a + distance weights left (b :: right)) with least | least
      · obtain ⟨script, between, same⟩ := inserted
        refine ⟨.insert b :: script, between_insert.mpr ⟨right, rfl, between⟩, ?_⟩
        rw [least, weight_cons, same]
        rfl
      · obtain ⟨script, between, same⟩ := deleted
        refine ⟨.delete a :: script, between_delete.mpr ⟨left, rfl, between⟩, ?_⟩
        rw [least, weight_cons, same]
        rfl

variable [IsOrderedAddMonoid W]

theorem distance_le (weights : Weights α W) (between : Between left right script) :
    distance weights left right ≤ weight weights script := by
  induction script generalizing left right with
  | nil =>
    obtain ⟨rfl, rfl⟩ := between_nil.mp between
    rw [distance, weight_nil]
  | cons edit script ih =>
    rw [weight_cons]
    cases edit with
    | change a b =>
      obtain ⟨left, right, rfl, rfl, rest⟩ := between_change.mp between
      exact distance_le_change.trans (add_le_add_right (ih rest) _)
    | insert b =>
      obtain ⟨right, rfl, rest⟩ := between_insert.mp between
      exact distance_le_insert.trans (add_le_add_right (ih rest) _)
    | delete a =>
      obtain ⟨left, rfl, rest⟩ := between_delete.mp between
      exact distance_le_delete.trans (add_le_add_right (ih rest) _)

theorem distance_isLeast (weights : Weights α W) (left right : List α) :
    IsLeast { total | ∃ script, Between left right script ∧ weight weights script = total }
      (distance weights left right) := by
  refine ⟨exists_script weights left right, ?_⟩
  rintro _ ⟨script, between, rfl⟩
  exact distance_le weights between

theorem weight_nonneg (change : ∀ a b, 0 ≤ weights.change a b) (insert : ∀ b, 0 ≤ weights.insert b)
    (delete : ∀ a, 0 ≤ weights.delete a) (script : List (Edit α)) : 0 ≤ weight weights script := by
  refine List.sum_nonneg fun total member => ?_
  obtain ⟨edit, -, rfl⟩ := List.mem_map.mp member
  cases edit with
  | change a b => exact change a b
  | insert b => exact insert b
  | delete a => exact delete a

end Least

end EditScript
