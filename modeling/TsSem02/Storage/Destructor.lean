import TsSem02.Storage.Reachable

/-! # The end of a `SimpleLRU`

`~SimpleLRU` clears the list from its tail, because `_lru_head.reset()` alone
overflows the stack: the destructor of a node runs inside the one of its
predecessor.  Here the stack has room for a number of nested destructors; for
`~SimpleLRU` one is enough, and for the list as a whole it takes as many as there
are nodes (`destructor_frees`).
-/

namespace Afina.Backend

open LinkedList SimpleLRU Runs

/-- `p->next.reset()`, with room for `depth` nested destructors. -/
def clearNext (depth : Nat) (p : Option Ptr) : LruM Unit := do
  let n ← node p
  write p fun n => { n with next := none }
  destroy depth n.next

/-- `_lru_head.reset()`, with room for `depth` nested destructors. -/
def clearHead (depth : Nat) : LruM Unit := do
  let head := (← get).lruHead
  modify fun s => { s with lruHead := none }
  destroy depth head

/-- One round of the loop in `~SimpleLRU`. -/
def clearTail (depth : Nat) : LruM Unit := do
  clearNext depth (← get).lruTail
  let tail ← node (← get).lruTail
  modify fun s => { s with lruTail := tail.prev }

def clearLoop (depth : Nat) : Nat → LruM Unit
  | 0 => throw .divergence
  | rounds + 1 => do
    if (← get).lruTail.isSome then
      clearTail depth
      clearLoop depth rounds

/-- `~SimpleLRU()`.  A round moves the tail to the node before it, so more rounds
    than there are addresses never end. -/
def destructor (depth : Nat) : LruM Unit := do
  modify fun s => { s with lruIndex := ∅ }
  clearLoop depth ((← get).heapEnd + 1)
  clearHead depth

/-! ## From the tail -/

/-- The tail is the last of `nodes`, and of the nodes behind it only the next one is
    left. -/
structure Clearing (s : SimpleLRU) (nodes : List Ptr) (behind : Option Ptr) : Prop where
  linked : Linked s.heap.next s.heap.prev s.lruHead (nodes ++ behind.toList).getLast? (nodes ++ behind.toList)
  tail : s.lruTail = nodes.getLast?
  alive : ∀ p, s.heap.Alive p ↔ p ∈ nodes ++ behind.toList

section Clearing

variable {s : SimpleLRU} {nodes : List Ptr} {behind : Option Ptr} {p : Ptr} {depth : Nat}

theorem run_clearNext {q : Ptr} (positive : 0 < depth) (alive : s.heap.Alive p) (owned : s.heap.next p = some q)
    (distinct : q ≠ p) (aliveOwned : s.heap.Alive q) (released : s.heap.next q = none) :
    (clearNext depth (some p)).run s = pure ((), { s with heap := (s.heap.withNext p none).freed q }) := by
  have released' : (s.heap.withNext p none).next q = none := by simp [alive, distinct, released]
  rw [clearNext]
  simp only [StateT.run_bind, run_node alive, pure_bind, run_write _ alive, Heap.nodeAt_next, owned]
  exact run_destroy_some (s := { s with heap := s.heap.withNext p none }) positive (by simpa using aliveOwned)
    released'

theorem run_clearNext_null (alive : s.heap.Alive p) (released : s.heap.next p = none) :
    (clearNext depth (some p)).run s = pure ((), { s with heap := s.heap.withNext p none }) := by
  rw [clearNext]
  simp only [StateT.run_bind, run_node alive, pure_bind, run_write _ alive, Heap.nodeAt_next, released]
  exact run_destroy_none depth

theorem Clearing.clearTail (positive : 0 < depth) (clearing : Clearing s (nodes ++ [p]) behind) :
    ∃ s', (clearTail depth).run s = pure ((), s') ∧ s'.lruIndex = s.lruIndex ∧ Clearing s' nodes (some p) := by
  have tail : s.lruTail = some p := by rw [clearing.tail, List.getLast?_concat]
  have alive : s.heap.Alive p := (clearing.alive p).mpr (by simp)
  have linked := clearing.linked
  cases behind with
  | none =>
    rw [Option.toList_none, List.append_nil] at linked
    have released : s.heap.next p = none := linked.next_eq
    have prevEq : s.heap.prev p = nodes.getLast? := linked.prev_eq
    refine ⟨{ s with heap := s.heap.withNext p none, lruTail := nodes.getLast? }, ?_, rfl, ?_⟩
    · simp [Backend.clearTail, tail, run_clearNext_null, alive, released, prevEq]
    · refine ⟨linked.congr (fun r _ => ?_) fun r _ => ?_, rfl, fun r => ?_⟩
      · rw [Heap.next_withNext alive, ← released, Function.update_eq_self]
      · rw [Heap.prev_withNext]
      · simpa using clearing.alive r
  | some q =>
    have absent : q ∉ nodes ++ [p] := by
      have nodup := List.nodup_middle.mp linked.nodup
      simpa using (List.nodup_cons.mp nodup).1
    have owned : s.heap.next p = some q := by
      rw [List.append_assoc] at linked
      exact linked.next_eq
    have released : s.heap.next q = none := linked.next_eq
    have prevEq : s.heap.prev p = nodes.getLast? := by
      rw [List.append_assoc] at linked
      exact linked.prev_eq
    have distinct : q ≠ p := fun equal => absent (by simp [equal])
    have aliveOwned : s.heap.Alive q := (clearing.alive q).mpr (by simp)
    have headEq : s.lruHead = (nodes ++ [p]).head? := by
      rw [linked.head_eq]
      simp
    have unlinked := linked.unlink
    rw [List.append_nil, ← headEq, List.getLast?_concat, List.head?_nil, redirect_some, redirect_none] at unlinked
    refine ⟨{ s with heap := (s.heap.withNext p none).freed q, lruTail := nodes.getLast? }, ?_, rfl, ?_⟩
    · simp [Backend.clearTail, tail, run_clearNext positive alive owned distinct aliveOwned released,
        Heap.alive_freed, alive, distinct.symm, prevEq]
    · refine ⟨?_, rfl, fun r => ?_⟩
      · rw [Option.toList_some, List.getLast?_concat]
        have other {r : Ptr} (listed : r ∈ nodes ++ [p]) : r ≠ q := fun equal => absent (equal ▸ listed)
        refine unlinked.congr (fun r listed => ?_) fun r listed => ?_
        · rw [Heap.next_freed (other listed), Heap.next_withNext alive]
        · rw [Heap.prev_freed (other listed), Heap.prev_withNext]
      · rw [Heap.alive_freed, Heap.alive_withNext, clearing.alive, Option.toList_some, Option.toList_some,
          List.mem_append, List.mem_singleton]
        constructor
        · rintro ⟨other, listed | equal⟩
          · exact listed
          · exact absurd equal other
        · intro listed
          exact ⟨fun equal => absent (equal ▸ listed), .inl listed⟩

theorem Clearing.clearLoop {rounds : Nat} (positive : 0 < depth) (clearing : Clearing s nodes behind)
    (enough : nodes.length < rounds) :
    ∃ s' last, (clearLoop depth rounds).run s = pure ((), s') ∧ s'.lruIndex = s.lruIndex ∧ Clearing s' [] last := by
  induction nodes using List.reverseRecOn generalizing s behind rounds with
  | nil =>
    obtain ⟨rounds, rfl⟩ := Nat.exists_eq_succ_of_ne_zero (Nat.ne_of_gt enough)
    have tail : s.lruTail = none := clearing.tail
    exact ⟨s, behind, by simp [Backend.clearLoop, tail], rfl, clearing⟩
  | append_singleton nodes p ih =>
    obtain ⟨rounds, rfl⟩ := Nat.exists_eq_succ_of_ne_zero (Nat.ne_of_gt (Nat.zero_lt_of_lt enough))
    have tail : s.lruTail = some p := by rw [clearing.tail, List.getLast?_concat]
    obtain ⟨s₁, cleared, index, clearing₁⟩ := clearing.clearTail positive
    rw [List.length_append, List.length_singleton] at enough
    obtain ⟨s', last, ran, index', clearing'⟩ := ih clearing₁ (Nat.lt_of_succ_lt_succ enough)
    exact ⟨s', last, by simp [Backend.clearLoop, tail, cleared, ran], index'.trans index, clearing'⟩

theorem Clearing.clearHead (positive : 0 < depth) (clearing : Clearing s [] behind) :
    ∃ s', (clearHead depth).run s = pure ((), s') ∧ s'.lruHead = none ∧ s'.lruTail = none ∧
      s'.lruIndex = s.lruIndex ∧ ∀ p, s'.heap p = none := by
  have headEq : s.lruHead = behind.toList.head? := clearing.linked.head_eq
  cases behind with
  | none =>
    refine ⟨{ s with lruHead := none }, ?_, rfl, clearing.tail, rfl, fun p => ?_⟩
    · rw [Option.toList_none, List.head?_nil] at headEq
      simp [Backend.clearHead, headEq]
    · exact Option.not_isSome_iff_eq_none.mp fun alive => List.not_mem_nil ((clearing.alive p).mp alive)
  | some q =>
    have alive : s.heap.Alive q := (clearing.alive q).mpr (by simp)
    have released : s.heap.next q = none := clearing.linked.forward.1
    refine ⟨{ s with lruHead := none, heap := s.heap.freed q }, ?_, rfl, clearing.tail, rfl, fun p => ?_⟩
    · rw [Option.toList_some, List.head?_cons] at headEq
      rw [Backend.clearHead]
      simp only [StateT.run_bind, pure_bind, StateT.run_get, StateT.run_modify, headEq]
      exact run_destroy_some (s := { s with lruHead := none }) positive alive released
    · refine Option.not_isSome_iff_eq_none.mp fun left => ?_
      obtain ⟨other, alive⟩ := Heap.alive_freed.mp left
      exact other (by simpa using (clearing.alive p).mp alive)

end Clearing

/-! ## From the head -/

section Destroying

variable {s : SimpleLRU} {nodes : List Ptr}

/-- The destructors of nodes that own each other are all active at once. -/
theorem run_destroy_iff {depth : Nat} (nodup : nodes.Nodup) (path : Path s.heap.next nodes)
    (alive : ∀ p ∈ nodes, s.heap.Alive p) :
    (∃ s', (destroy depth nodes.head?).run s = .ok ((), s')) ↔ nodes.length ≤ depth := by
  induction nodes generalizing s depth with
  | nil => exact ⟨fun _ => Nat.zero_le _, fun _ => ⟨s, run_destroy_none depth⟩⟩
  | cons p nodes ih =>
    obtain ⟨link, rest⟩ := path
    obtain ⟨absent, nodup⟩ := List.nodup_cons.mp nodup
    -- the destructor of the first node is active while the others run
    cases depth with
    | zero =>
      refine ⟨fun ⟨s', ran⟩ => ?_, fun short => absurd short (by simp)⟩
      cases ran
    | succ depth =>
      have other {r : Ptr} (listed : r ∈ nodes) : r ≠ p := fun equal => absent (equal ▸ listed)
      have ran : (destroy (depth + 1) (p :: nodes).head?).run s =
          (destroy depth nodes.head?).run { s with heap := s.heap.freed p } := by
        simp [destroy, alive p List.mem_cons_self, link, Heap.freed]
      rw [ran, List.length_cons, Nat.add_le_add_iff_right]
      apply ih nodup
      · exact rest.congr fun r listed => Heap.next_freed (other listed)
      · exact fun r listed => Heap.alive_freed.mpr ⟨other listed, alive r (List.mem_cons_of_mem _ listed)⟩

end Destroying

theorem Represents.length_le {s : SimpleLRU} {items : List Item} (represents : Represents s items) :
    items.length ≤ s.heapEnd := by
  have subset : items.map Prod.fst ⊆ List.range s.heapEnd :=
    fun p listed => List.mem_range.mpr (represents.allocated p listed)
  have shorter := (represents.linked.nodup.subperm subset).length_le
  rwa [List.length_map, List.length_range] at shorter

/-- The nodes that are allocated are those of the list. -/
theorem Represents.alive_iff {s : SimpleLRU} {items : List Item} (represents : Represents s items) (p : Ptr) :
    s.heap.Alive p ↔ p ∈ items.map Prod.fst := by
  refine ⟨represents.live p, fun listed => ?_⟩
  obtain ⟨item, member, rfl⟩ := List.mem_map.mp listed
  exact represents.alive member

theorem Represents.clearing {s : SimpleLRU} {items : List Item} (represents : Represents s items) :
    Clearing { s with lruIndex := ∅ } (items.map Prod.fst) none where
  linked := by
    rw [Option.toList_none, List.append_nil, ← represents.linked.tail_eq]
    exact represents.linked
  tail := represents.linked.tail_eq
  alive p := by
    rw [Option.toList_none, List.append_nil]
    exact represents.alive_iff p

/-- Whatever calls were made before, `~SimpleLRU` frees every node once, with no more
    than one destructor active at a time; `_lru_head.reset()` alone needs room for as
    many as there are nodes. -/
theorem destructor_frees {maxSize : Nat} {s : SimpleLRU} (bounded : maxSize < 2 ^ 63)
    (reachable : Reachable maxSize s) : ∃ chain, WellFormed s chain ∧ ∀ depth,
    (0 < depth → ∃ s', (destructor depth).run s = .ok ((), s') ∧ s'.lruHead = none ∧ s'.lruTail = none ∧
      s'.lruIndex = ∅ ∧ ∀ p, s'.heap p = none) ∧
    ((∃ s', (clearHead depth).run s = .ok ((), s')) ↔ chain.length ≤ depth) := by
  obtain ⟨items, represents⟩ := reachable.represents bounded
  refine ⟨cellsOf s items, represents.wellFormed, fun depth => ⟨fun positive => ?_, ?_⟩⟩
  · -- one round for every node, and one more that finds no tail
    have enough : (items.map Prod.fst).length < s.heapEnd + 1 := by
      rw [List.length_map]
      exact Nat.lt_succ_of_le represents.length_le
    obtain ⟨s₁, last, looped, index, clearing⟩ := represents.clearing.clearLoop positive enough
    obtain ⟨s', cleared, head, tail, index', freed⟩ := clearing.clearHead positive
    refine ⟨s', ?_, head, tail, index'.trans index, freed⟩
    rw [destructor]
    simp only [StateT.run_bind, StateT.run_modify, pure_bind, StateT.run_get, looped]
    exact cleared
  · have counted : (cellsOf s items).length = (items.map Prod.fst).length := by simp [cellsOf]
    have alive : ∀ p ∈ items.map Prod.fst, s.heap.Alive p := fun p => (represents.alive_iff p).mpr
    rw [counted, ← run_destroy_iff (s := { s with lruHead := none }) represents.linked.nodup
      represents.linked.forward alive, ← represents.linked.head_eq]
    rfl

/-- Two entries, of which the first owns the second. -/
theorem destructor_frees_two : ∃ s,
    runs Storage.call [.put [1] [2], .put [3] [4, 5]] (SimpleLRU.fresh 8) = .ok ([.flag true, .flag true], s) ∧
      (∃ s', (destructor 1).run s = .ok ((), s') ∧ ∀ p, s'.heap p = none) ∧
      ¬ ∃ s', (clearHead 1).run s = .ok ((), s') := by
  refine ⟨_, rfl, ?_, fun ⟨_, ran⟩ => by cases ran⟩
  have reachable : Reachable 8 _ := ⟨[.put [1] [2], .put [3] [4, 5]], [.flag true, .flag true], rfl⟩
  obtain ⟨chain, -, ends⟩ := destructor_frees (by decide) reachable
  obtain ⟨s', ran, -, -, -, freed⟩ := (ends 1).1 (by decide)
  exact ⟨s', ran, freed⟩

end Afina.Backend
