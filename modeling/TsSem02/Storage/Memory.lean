import TsSem02.Library.LinkedList
import TsSem02.Storage.SimpleLRU

/-! # Running the memory primitives of `SimpleLRU`

A heap is read through four functions of an address: is it allocated, which
entry does it hold, and where do its two links point.  Every primitive is given
the heap it ends in, and every such heap its four functions, so that a whole
operation runs by `simp`.
-/

namespace Afina.Backend

open LinkedList SimpleLRU

/-! ## Views of a heap -/

namespace Heap

def Alive (h : Heap) (p : Ptr) : Prop := (h p).isSome

def next (h : Heap) (p : Ptr) : Option Ptr := (h p).bind LruNode.next

def prev (h : Heap) (p : Ptr) : Option Ptr := (h p).bind LruNode.prev

def entry (h : Heap) (p : Ptr) : Option (Bytes × Bytes) := (h p).map fun n => (n.key, n.value)

/-- The node at an allocated address. -/
def nodeAt (h : Heap) (p : Ptr) : LruNode := (h p).getD ⟨[], [], none, none⟩

def alter (h : Heap) (p : Ptr) (f : LruNode → LruNode) : Heap :=
  Function.update h p ((h p).map f)

def withPrev (h : Heap) (p : Ptr) (q : Option Ptr) : Heap := h.alter p fun n => { n with prev := q }

def withNext (h : Heap) (p : Ptr) (q : Option Ptr) : Heap := h.alter p fun n => { n with next := q }

def withValue (h : Heap) (p : Ptr) (value : Bytes) : Heap :=
  h.alter p fun n => { n with value := value }

def freed (h : Heap) (p : Ptr) : Heap := Function.update h p none

def allocated (h : Heap) (p : Ptr) (key value : Bytes) : Heap :=
  Function.update h p (some ⟨key, value, none, none⟩)

variable {h : Heap} {p r : Ptr} {q : Option Ptr} {key value : Bytes}

theorem alive_of_entry {e : Bytes × Bytes} (stored : h.entry p = some e) : h.Alive p := by
  unfold entry at stored
  unfold Alive
  cases cell : h p <;> simp_all

@[simp] theorem nodeAt_next : (h.nodeAt p).next = h.next p := by
  unfold nodeAt next
  cases h p <;> rfl

@[simp] theorem nodeAt_prev : (h.nodeAt p).prev = h.prev p := by
  unfold nodeAt prev
  cases h p <;> rfl

theorem nodeAt_key (stored : h.entry p = some (key, value)) : (h.nodeAt p).key = key := by
  unfold entry at stored
  unfold nodeAt
  cases cell : h p <;> simp_all

theorem nodeAt_value (stored : h.entry p = some (key, value)) : (h.nodeAt p).value = value := by
  unfold entry at stored
  unfold nodeAt
  cases cell : h p <;> simp_all

theorem alter_self (f : LruNode → LruNode) : h.alter p f p = (h p).map f := Function.update_self ..

theorem alter_of_ne (f : LruNode → LruNode) (other : r ≠ p) : h.alter p f r = h r :=
  Function.update_of_ne other ..

theorem alter_view {β : Type} (view : LruNode → β) (f : LruNode → LruNode)
    (same : ∀ n, view (f n) = view n) : (h.alter p f r).map view = (h r).map view := by
  by_cases equal : r = p
  · subst equal
    rw [alter_self, Option.map_map]
    congr 1
    exact funext same
  · rw [alter_of_ne f equal]

theorem alive_alter (f : LruNode → LruNode) : (h.alter p f).Alive r ↔ h.Alive r := by
  have same := alter_view (h := h) (p := p) (r := r) (fun _ => ()) f fun _ => rfl
  unfold Alive
  cases left : h.alter p f r <;> cases right : h r <;> simp_all

@[simp] theorem alive_withPrev : (h.withPrev p q).Alive r ↔ h.Alive r := alive_alter _
@[simp] theorem alive_withNext : (h.withNext p q).Alive r ↔ h.Alive r := alive_alter _
@[simp] theorem alive_withValue : (h.withValue p value).Alive r ↔ h.Alive r := alive_alter _

@[simp] theorem entry_withPrev : (h.withPrev p q).entry r = h.entry r := alter_view _ _ fun _ => rfl
@[simp] theorem entry_withNext : (h.withNext p q).entry r = h.entry r := alter_view _ _ fun _ => rfl

theorem next_alter (f : LruNode → LruNode) (same : ∀ n, (f n).next = n.next) :
    (h.alter p f).next = h.next := by
  funext r
  have viewed := alter_view (h := h) (p := p) (r := r) LruNode.next f same
  unfold next
  cases altered : h.alter p f r <;> cases cell : h r <;> simp_all

theorem prev_alter (f : LruNode → LruNode) (same : ∀ n, (f n).prev = n.prev) :
    (h.alter p f).prev = h.prev := by
  funext r
  have viewed := alter_view (h := h) (p := p) (r := r) LruNode.prev f same
  unfold prev
  cases altered : h.alter p f r <;> cases cell : h r <;> simp_all

@[simp] theorem next_withPrev : (h.withPrev p q).next = h.next := next_alter _ fun _ => rfl
@[simp] theorem next_withValue : (h.withValue p value).next = h.next := next_alter _ fun _ => rfl
@[simp] theorem prev_withNext : (h.withNext p q).prev = h.prev := prev_alter _ fun _ => rfl
@[simp] theorem prev_withValue : (h.withValue p value).prev = h.prev := prev_alter _ fun _ => rfl

theorem entry_withValue_self {old : Bytes} (stored : h.entry p = some (key, old)) :
    (h.withValue p value).entry p = some (key, value) := by
  unfold entry at stored ⊢
  rw [withValue, alter_self, Option.map_map]
  cases cell : h p <;> simp_all

theorem entry_withValue_of_ne (other : r ≠ p) : (h.withValue p value).entry r = h.entry r := by
  rw [entry, withValue, alter_of_ne _ other, entry]

@[simp] theorem prev_withPrev (alive : h.Alive p) :
    (h.withPrev p q).prev = Function.update h.prev p q := by
  obtain ⟨n, cell⟩ := Option.isSome_iff_exists.mp alive
  funext r
  by_cases equal : r = p
  · subst equal
    simp [prev, withPrev, alter_self, cell]
  · simp [prev, withPrev, alter_of_ne _ equal, equal]

@[simp] theorem next_withNext (alive : h.Alive p) :
    (h.withNext p q).next = Function.update h.next p q := by
  obtain ⟨n, cell⟩ := Option.isSome_iff_exists.mp alive
  funext r
  by_cases equal : r = p
  · subst equal
    simp [next, withNext, alter_self, cell]
  · simp [next, withNext, alter_of_ne _ equal, equal]

theorem freed_self : h.freed p p = none := Function.update_self ..

theorem freed_of_ne (other : r ≠ p) : h.freed p r = h r := Function.update_of_ne other ..

theorem alive_freed : (h.freed p).Alive r ↔ r ≠ p ∧ h.Alive r := by
  unfold Alive
  by_cases equal : r = p
  · subst equal
    simp [freed_self]
  · simp [freed_of_ne equal, equal]

@[simp] theorem next_freed (other : r ≠ p) : (h.freed p).next r = h.next r := by
  rw [next, freed_of_ne other, next]

@[simp] theorem prev_freed (other : r ≠ p) : (h.freed p).prev r = h.prev r := by
  rw [prev, freed_of_ne other, prev]

@[simp] theorem entry_freed (other : r ≠ p) : (h.freed p).entry r = h.entry r := by
  rw [entry, freed_of_ne other, entry]

theorem allocated_of_ne (other : r ≠ p) : h.allocated p key value r = h r :=
  Function.update_of_ne other ..

theorem alive_allocated : (h.allocated p key value).Alive r ↔ r = p ∨ h.Alive r := by
  unfold Alive
  by_cases equal : r = p
  · simp [equal, allocated]
  · simp [allocated_of_ne equal, equal]

@[simp] theorem entry_allocated_self : (h.allocated p key value).entry p = some (key, value) := by
  simp [entry, allocated]

theorem entry_allocated_of_ne (other : r ≠ p) :
    (h.allocated p key value).entry r = h.entry r := by
  rw [entry, allocated_of_ne other, entry]

@[simp] theorem next_allocated : (h.allocated p key value).next = Function.update h.next p none := by
  funext r
  by_cases equal : r = p
  · simp [equal, next, allocated]
  · simp [next, allocated_of_ne equal, equal]

@[simp] theorem prev_allocated : (h.allocated p key value).prev = Function.update h.prev p none := by
  funext r
  by_cases equal : r = p
  · simp [equal, prev, allocated]
  · simp [prev, allocated_of_ne equal, equal]

/-- The heap with the `prev` of `p`, if there is a `p`, set to `q`. -/
def redirectPrev (h : Heap) (p q : Option Ptr) : Heap :=
  match p with
  | none => h
  | some p => h.withPrev p q

@[simp] theorem alive_redirectPrev {o : Option Ptr} : (h.redirectPrev o q).Alive r ↔ h.Alive r := by
  cases o with
  | none => exact Iff.rfl
  | some p => exact alive_withPrev

@[simp] theorem entry_redirectPrev {o : Option Ptr} : (h.redirectPrev o q).entry r = h.entry r := by
  cases o with
  | none => rfl
  | some p => exact entry_withPrev

@[simp] theorem next_redirectPrev {o : Option Ptr} : (h.redirectPrev o q).next = h.next := by
  cases o with
  | none => rfl
  | some p => exact next_withPrev

theorem prev_redirectPrev {o : Option Ptr} (alive : ∀ p, o = some p → h.Alive p) :
    (h.redirectPrev o q).prev = redirect h.prev o q := by
  cases o with
  | none => rfl
  | some p => exact prev_withPrev (alive p rfl)

end Heap

/-! ## Primitives -/

section Primitives

variable {s : SimpleLRU} {p q : Ptr}

theorem run_node_of {n : LruNode} (cell : s.heap p = some n) : (node (some p)).run s = pure (n, s) := by
  simp [node, StateT.run, cell, pure, Except.pure]

@[simp] theorem run_node (alive : s.heap.Alive p) :
    (node (some p)).run s = pure (s.heap.nodeAt p, s) := by
  obtain ⟨n, cell⟩ := Option.isSome_iff_exists.mp alive
  rw [run_node_of cell, Heap.nodeAt, cell, Option.getD_some]

theorem run_write (f : LruNode → LruNode) (alive : s.heap.Alive p) :
    (write (some p) f).run s = pure ((), { s with heap := s.heap.alter p f }) := by
  obtain ⟨n, cell⟩ := Option.isSome_iff_exists.mp alive
  simp [write, run_node_of cell, Heap.alter, cell]

@[simp] theorem run_setPrev (q : Option Ptr) (alive : s.heap.Alive p) :
    (setPrev (some p) q).run s = pure ((), { s with heap := s.heap.withPrev p q }) :=
  run_write _ alive

@[simp] theorem run_destroy_none (fuel : Nat) : (destroy fuel none).run s = pure ((), s) := by
  cases fuel <;> rfl

@[simp] theorem run_releaseNext (alive : s.heap.Alive p) :
    (releaseNext (some p)).run s =
      pure (s.heap.next p, { s with heap := s.heap.withNext p none }) := by
  obtain ⟨n, cell⟩ := Option.isSome_iff_exists.mp alive
  simp [releaseNext, run_node_of cell, run_write _ alive, Heap.next, cell, Heap.withNext]

@[simp] theorem run_resetNext (q : Option Ptr) (alive : s.heap.Alive p)
    (released : s.heap.next p = none) :
    (resetNext (some p) q).run s = pure ((), { s with heap := s.heap.withNext p q }) := by
  obtain ⟨n, cell⟩ := Option.isSome_iff_exists.mp alive
  have empty : n.next = none := by simpa [Heap.next, cell] using released
  simp [resetNext, run_node_of cell, run_write _ alive, empty, Heap.withNext]

theorem run_destroy_some {fuel : Nat} (enough : 0 < fuel) (alive : s.heap.Alive p)
    (released : s.heap.next p = none) :
    (destroy fuel (some p)).run s = pure ((), { s with heap := s.heap.freed p }) := by
  obtain ⟨fuel, rfl⟩ := Nat.exists_eq_succ_of_ne_zero (Nat.ne_of_gt enough)
  simp [destroy, alive, released, Heap.freed]

theorem run_resetNext_owner (r : Option Ptr) (alive : s.heap.Alive p) (owned : s.heap.next p = some q)
    (distinct : q ≠ p) (aliveOwned : s.heap.Alive q) (released : s.heap.next q = none)
    (enough : 0 < s.heapEnd) :
    (resetNext (some p) r).run s =
      pure ((), { s with heap := (s.heap.withNext p r).freed q }) := by
  have released' : (s.heap.withNext p r).next q = none := by simp [alive, distinct, released]
  rw [resetNext]
  simp only [StateT.run_bind, run_node alive, pure_bind, run_write _ alive, Heap.nodeAt_next, owned,
    StateT.run_get]
  exact run_destroy_some (s := { s with heap := s.heap.withNext p r }) enough (by simpa using aliveOwned)
    released'

theorem run_resetHead_owner (r : Option Ptr) (owned : s.lruHead = some q)
    (alive : s.heap.Alive q) (released : s.heap.next q = none) (enough : 0 < s.heapEnd) :
    (resetHead r).run s = pure ((), { s with lruHead := r, heap := s.heap.freed q }) := by
  rw [resetHead]
  simp only [StateT.run_bind, pure_bind, StateT.run_get, StateT.run_modify, owned]
  exact run_destroy_some (s := { s with lruHead := r }) enough alive released

@[simp] theorem run_releaseHead :
    releaseHead.run s = pure (s.lruHead, { s with lruHead := none }) := rfl

@[simp] theorem run_resetHead (q : Option Ptr) (released : s.lruHead = none) :
    (resetHead q).run s = pure ((), { s with lruHead := q }) := by
  simp [resetHead, released]

theorem run_bypassBackwards (n : LruNode) (alive : ∀ p, n.next = some p → s.heap.Alive p) :
    (bypassBackwards n).run s =
      pure ((), { s with heap := s.heap.redirectPrev n.next n.prev
                         lruTail := if n.next = none then n.prev else s.lruTail }) := by
  unfold bypassBackwards
  cases next : n.next with
  | none => rfl
  | some p => simpa [Heap.redirectPrev] using run_setPrev n.prev (alive p next)

@[simp] theorem run_addFree (x : Int) :
    (addFree x).run s = pure ((), { s with freeSize := CInt.toUnsigned 64 (s.freeSize + x) }) := rfl

@[simp] theorem run_newNode (key value : Bytes) :
    (newNode key value).run s =
      pure (s.heapEnd, { s with heap := s.heap.allocated s.heapEnd key value,
                                heapEnd := s.heapEnd + 1 }) := rfl

end Primitives

end Afina.Backend
