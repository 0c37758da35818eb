import Mathlib.Data.Fintype.Card
import Mathlib.Data.List.Perm.Subperm
import Mathlib.Logic.Relation

/-! # Work lists

A queue of nodes that grows while it is worked off: a node that is met for the
first time puts its successors at the end, one that was met before is dropped.

* `exists_finished_of_reaches`, `exists_finished` — over finitely many nodes the queue
  becomes empty;
* `seen_nodup`, `mem_seen_iff` — then every node that can be reached from the
  first queue has been met, no other has, and none twice.
-/

namespace Worklist

variable {Node : Type*} [DecidableEq Node]

structure State (Node : Type*) where
  queue : List Node
  seen : List Node  -- in the order in which they were met

def start (roots : List Node) : State Node := ⟨roots, []⟩

def step (next : Node → List Node) (s : State Node) : State Node :=
  match s.queue with
  | [] => s
  | node :: queue =>
    if node ∈ s.seen then ⟨queue, s.seen⟩ else ⟨queue ++ next node, s.seen ++ [node]⟩

variable {next : Node → List Node} {s : State Node} {node : Node} {queue : List Node}

theorem step_nil (empty : s.queue = []) : step next s = s := by
  rw [step, empty]

theorem step_seen (first : s.queue = node :: queue) (member : node ∈ s.seen) :
    step next s = ⟨queue, s.seen⟩ := by
  simp only [step, first, if_pos member]

theorem step_new (first : s.queue = node :: queue) (fresh : node ∉ s.seen) :
    step next s = ⟨queue ++ next node, s.seen ++ [node]⟩ := by
  simp only [step, first, if_neg fresh]

/-- What can be reached from the roots. -/
inductive Reaches (next : Node → List Node) (roots : List Node) : Node → Prop where
  | root {node : Node} : node ∈ roots → Reaches next roots node
  | next {node successor : Node} : Reaches next roots node → successor ∈ next node → Reaches next roots successor

/-! ## What is met -/

/-- The nodes met and those in the queue are reachable, and nothing else is but
    through the queue. -/
structure Invariant (next : Node → List Node) (roots : List Node) (s : State Node) : Prop where
  nodup : s.seen.Nodup
  sound : ∀ node, node ∈ s.queue ∨ node ∈ s.seen → Reaches next roots node
  roots : ∀ node ∈ roots, node ∈ s.queue ∨ node ∈ s.seen
  closed : ∀ node ∈ s.seen, ∀ successor ∈ next node, successor ∈ s.queue ∨ successor ∈ s.seen

omit [DecidableEq Node] in
theorem start_invariant (next : Node → List Node) (roots : List Node) :
    Invariant next roots (start roots) where
  nodup := List.nodup_nil
  sound _ member := .root (member.resolve_right List.not_mem_nil)
  roots _ member := .inl member
  closed _ member := absurd member List.not_mem_nil

/-- A step loses no node. -/
theorem mem_step (member : node ∈ s.queue ∨ node ∈ s.seen) :
    node ∈ (step next s).queue ∨ node ∈ (step next s).seen := by
  match first : s.queue with
  | [] => rwa [step_nil first]
  | head :: queue =>
    rw [first, List.mem_cons] at member
    by_cases met : head ∈ s.seen
    · rw [step_seen first met]
      rcases member with (rfl | member) | member
      · exact .inr met
      · exact .inl member
      · exact .inr member
    · rw [step_new first met]
      simp only [List.mem_append, List.mem_singleton]
      tauto

theorem step_invariant {roots : List Node} (invariant : Invariant next roots s) :
    Invariant next roots (step next s) := by
  match first : s.queue with
  | [] => rwa [step_nil first]
  | head :: queue =>
    have reaches : Reaches next roots head := invariant.sound head (.inl (by simp [first]))
    by_cases met : head ∈ s.seen
    · refine ⟨?_, ?_, fun node member => mem_step (invariant.roots node member), ?_⟩
      · rw [step_seen first met]
        exact invariant.nodup
      · rw [step_seen first met]
        intro node member
        exact invariant.sound node (member.imp_left (by simp +contextual [first]))
      · intro node member successor edge
        rw [step_seen first met] at member
        exact mem_step (invariant.closed node member successor edge)
    · refine ⟨?_, ?_, fun node member => mem_step (invariant.roots node member), ?_⟩
      · rw [step_new first met]
        rw [← List.concat_eq_append]
        exact invariant.nodup.concat met
      · rw [step_new first met]
        intro node member
        simp only [List.mem_append, List.mem_singleton] at member
        rcases member with (waiting | edge) | seen | rfl
        · exact invariant.sound node (.inl (by simp [first, waiting]))
        · exact .next reaches edge
        · exact invariant.sound node (.inr seen)
        · exact reaches
      · intro node member successor edge
        rw [step_new first met, List.mem_append, List.mem_singleton] at member
        rcases member with seen | rfl
        · exact mem_step (invariant.closed node seen successor edge)
        · -- the successors of the new node have just been put into the queue
          rw [step_new first met]
          exact .inl (List.mem_append_right _ edge)

theorem iterate_invariant (next : Node → List Node) (roots : List Node) (rounds : Nat) :
    Invariant next roots ((step next)^[rounds] (start roots)) := by
  induction rounds with
  | zero => exact start_invariant next roots
  | succ rounds ih =>
    rw [Function.iterate_succ_apply']
    exact step_invariant ih

omit [DecidableEq Node] in
theorem Invariant.mem_seen_iff {roots : List Node} (invariant : Invariant next roots s) (empty : s.queue = []) :
    node ∈ s.seen ↔ Reaches next roots node := by
  have waiting {node : Node} (member : node ∈ s.queue ∨ node ∈ s.seen) : node ∈ s.seen :=
    member.resolve_left (by simp [empty])
  constructor
  · exact fun member => invariant.sound node (.inr member)
  · intro reaches
    induction reaches with
    | root member => exact waiting (invariant.roots _ member)
    | next _ edge ih => exact waiting (invariant.closed _ ih _ edge)

/-! ## The queue becomes empty -/

/-- A round drops a node from the queue, or there are fewer nodes left to meet, if only
    finitely many can be reached. -/
theorem exists_finished_of_reaches {roots : List Node} (nodes : List Node)
    (covers : ∀ node, Reaches next roots node → node ∈ nodes) : ∃ rounds, ((step next)^[rounds] (start roots)).queue = [] := by
  suffices finishes : ∀ s, Invariant next roots s → ∃ rounds, ((step next)^[rounds] s).queue = [] from
    finishes _ (start_invariant next roots)
  rintro ⟨queue, seen⟩ invariant
  induction unseen_eq : nodes.length - seen.length using Nat.strongRecOn generalizing queue seen with
  | ind unseen fewer =>
    induction queue with
    | nil => exact ⟨0, rfl⟩
    | cons node queue ih =>
      have invariant' := step_invariant invariant
      by_cases met : node ∈ seen
      · rw [step_seen rfl met] at invariant'
        obtain ⟨rounds, finished⟩ := ih invariant'
        refine ⟨rounds + 1, ?_⟩
        rwa [Function.iterate_succ_apply, step_seen rfl met]
      · rw [step_new rfl met] at invariant'
        have bound := (invariant'.nodup.subperm fun node member =>
          covers node (invariant'.sound node (.inr member))).length_le
        simp only [List.length_append, List.length_singleton] at bound
        have closer : nodes.length - (seen ++ [node]).length < unseen := by
          rw [← unseen_eq, List.length_append, List.length_singleton]
          exact Nat.sub_lt_sub_left bound (Nat.lt_succ_self _)
        obtain ⟨rounds, finished⟩ := fewer _ closer _ _ invariant' rfl
        refine ⟨rounds + 1, ?_⟩
        rwa [Function.iterate_succ_apply, step_new rfl met]

theorem exists_finished [Fintype Node] (next : Node → List Node) (roots : List Node) :
    ∃ rounds, ((step next)^[rounds] (start roots)).queue = [] :=
  exists_finished_of_reaches Finset.univ.toList fun node _ => Finset.mem_toList.mpr (Finset.mem_univ node)

end Worklist
