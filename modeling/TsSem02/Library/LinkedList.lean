import Mathlib.Data.List.Nodup
import Mathlib.Logic.Function.Basic

/-! # Doubly linked lists

A doubly linked list over an arbitrary type of node addresses: two link maps
`next` and `prev`, a head and a tail.  `Path` reads one link map along a list of
addresses, `Linked` ties both directions together.

Main results: a list stays linked when one node is unlinked (`Linked.unlink`)
and when a new node is put in front (`Linked.pushFront`); `Linked.congr` is the
frame rule, links of nodes outside the list do not matter.
-/

namespace LinkedList

variable {Node : Type*} [DecidableEq Node]

/-! ## One direction -/

/-- Following `step` from the first node of `nodes` visits exactly `nodes` and
    then stops. -/
def Path (step : Node → Option Node) : List Node → Prop
  | [] => True
  | node :: nodes => step node = nodes.head? ∧ Path step nodes

/-- `step` with the link of `source` changed to `target`; no change without a
    source. -/
def redirect (step : Node → Option Node) (source target : Option Node) : Node → Option Node :=
  match source with
  | none => step
  | some node => Function.update step node target

@[simp] theorem redirect_none (step : Node → Option Node) (target : Option Node) :
    redirect step none target = step := rfl

@[simp] theorem redirect_some (step : Node → Option Node) (node : Node) (target : Option Node) :
    redirect step (some node) target = Function.update step node target := rfl

theorem redirect_of_ne {step : Node → Option Node} {source target : Option Node} {node : Node}
    (other : source ≠ some node) : redirect step source target node = step node := by
  cases source with
  | none => rfl
  | some changed => exact Function.update_of_ne (fun equal => other (by rw [equal])) _ _

omit [DecidableEq Node] in
theorem Path.congr {step step' : Node → Option Node} {nodes : List Node}
    (path : Path step nodes) (agree : ∀ node ∈ nodes, step' node = step node) :
    Path step' nodes := by
  induction nodes with
  | nil => trivial
  | cons node nodes ih =>
    obtain ⟨link, rest⟩ := path
    refine ⟨?_, ih rest fun other member => agree other (List.mem_cons_of_mem _ member)⟩
    rw [agree node List.mem_cons_self, link]

omit [DecidableEq Node] in
theorem Path.link {step : Node → Option Node} {before after : List Node} {node : Node}
    (path : Path step (before ++ node :: after)) : step node = after.head? := by
  induction before with
  | nil => exact path.1
  | cons first before ih => exact ih path.2

theorem Path.unlink {step : Node → Option Node} {before after : List Node} {node : Node}
    (path : Path step (before ++ node :: after)) (nodup : (before ++ node :: after).Nodup) :
    Path (redirect step before.getLast? after.head?) (before ++ after) := by
  induction before with
  | nil => exact path.2
  | cons first before ih =>
    obtain ⟨link, rest⟩ := path
    obtain ⟨fresh, nodup⟩ := List.nodup_cons.mp nodup
    cases before with
    | nil =>
      refine ⟨by simp, ?_⟩
      apply Path.congr rest.2
      intro other member
      apply redirect_of_ne
      intro equal
      rw [List.getLast?_singleton, Option.some.injEq] at equal
      exact fresh (equal ▸ List.mem_cons_of_mem _ member)
    | cons second before =>
      rw [List.getLast?_cons_cons]
      refine ⟨?_, ih rest nodup⟩
      rw [redirect_of_ne]
      · simpa using link
      · intro equal
        have member := List.mem_of_getLast? equal
        exact fresh (by simp at member ⊢; tauto)

/-- A path grows at its end: the old last node is pointed at the new one, which
    ends the path. -/
theorem Path.concat {step : Node → Option Node} {nodes : List Node} {node : Node}
    (path : Path step nodes) (nodup : nodes.Nodup) (fresh : node ∉ nodes) :
    Path (Function.update (redirect step nodes.getLast? (some node)) node none)
      (nodes ++ [node]) := by
  induction nodes with
  | nil => exact ⟨Function.update_self .., trivial⟩
  | cons first nodes ih =>
    obtain ⟨link, rest⟩ := path
    obtain ⟨absent, nodup⟩ := List.nodup_cons.mp nodup
    have distinct : first ≠ node := fun equal => fresh (equal ▸ List.mem_cons_self)
    cases nodes with
    | nil =>
      refine ⟨?_, Function.update_self .., trivial⟩
      rw [Function.update_of_ne distinct, List.getLast?_singleton, redirect_some,
        Function.update_self]
      rfl
    | cons second nodes =>
      rw [List.getLast?_cons_cons]
      refine ⟨?_, ih rest nodup fun member => fresh (List.mem_cons_of_mem _ member)⟩
      rw [Function.update_of_ne distinct, redirect_of_ne, link]
      · rfl
      · exact fun equal => absent (List.mem_of_getLast? equal)

/-! ## Both directions -/

/-- `nodes` is the list from `head` to `tail`: `next` walks it forwards, `prev`
    backwards, and no node occurs twice. -/
structure Linked (next prev : Node → Option Node) (head tail : Option Node)
    (nodes : List Node) : Prop where
  nodup : nodes.Nodup
  head_eq : head = nodes.head?
  tail_eq : tail = nodes.getLast?
  forward : Path next nodes
  backward : Path prev nodes.reverse

namespace Linked

variable {next prev next' prev' : Node → Option Node} {head tail head' tail' : Option Node}
variable {nodes before after : List Node} {node : Node}

omit [DecidableEq Node]

theorem empty : Linked next prev none none [] :=
  ⟨List.nodup_nil, rfl, rfl, trivial, trivial⟩

theorem congr (linked : Linked next prev head tail nodes)
    (agreeNext : ∀ node ∈ nodes, next' node = next node)
    (agreePrev : ∀ node ∈ nodes, prev' node = prev node) :
    Linked next' prev' head tail nodes where
  nodup := linked.nodup
  head_eq := linked.head_eq
  tail_eq := linked.tail_eq
  forward := linked.forward.congr agreeNext
  backward := linked.backward.congr fun node member => agreePrev node (List.mem_reverse.mp member)

theorem next_eq (linked : Linked next prev head tail (before ++ node :: after)) :
    next node = after.head? :=
  linked.forward.link

theorem prev_eq (linked : Linked next prev head tail (before ++ node :: after)) :
    prev node = before.getLast? := by
  have backward := linked.backward
  rw [List.reverse_append, List.reverse_cons, List.append_assoc] at backward
  exact backward.link.trans List.head?_reverse

variable [DecidableEq Node]

/-- Unlinking a node: its neighbours, or the head and the tail where it has
    none, are pointed past it. -/
theorem unlink (linked : Linked next prev head tail (before ++ node :: after)) :
    Linked (redirect next before.getLast? after.head?) (redirect prev after.head? before.getLast?)
      (before ++ after).head? (before ++ after).getLast? (before ++ after) where
  nodup := linked.nodup.sublist (List.Sublist.append_left (List.sublist_cons_self _ _) _)
  head_eq := rfl
  tail_eq := rfl
  forward := linked.forward.unlink linked.nodup
  backward := by
    have reversed : (before ++ node :: after).reverse = after.reverse ++ node :: before.reverse := by
      simp
    have backward := linked.backward
    have nodup := List.nodup_reverse.mpr linked.nodup
    rw [reversed] at backward nodup
    rw [List.reverse_append]
    simpa only [List.getLast?_reverse, List.head?_reverse] using backward.unlink nodup

theorem pushFront (linked : Linked next prev head tail nodes) (fresh : node ∉ nodes) :
    Linked (Function.update next node head)
      (Function.update (redirect prev head (some node)) node none)
      (some node) (tail.or (some node)) (node :: nodes) where
  nodup := List.nodup_cons.mpr ⟨fresh, linked.nodup⟩
  head_eq := rfl
  tail_eq := by
    rw [linked.tail_eq]
    cases nodes with
    | nil => rfl
    | cons first nodes => cases found : (first :: nodes).getLast? <;> simp_all
  forward := by
    refine ⟨by rw [Function.update_self, linked.head_eq], ?_⟩
    apply linked.forward.congr
    intro other member
    exact Function.update_of_ne (fun equal => fresh (by rw [← equal]; exact member)) _ _
  backward := by
    rw [List.reverse_cons, linked.head_eq, ← List.getLast?_reverse]
    exact linked.backward.concat (List.nodup_reverse.mpr linked.nodup)
      fun member => fresh (List.mem_reverse.mp member)

end Linked

end LinkedList
