import TsSem02.Storage.Refinement

/-! # Every run of a `SimpleLRU`

What holds of all calls made on a fresh cache, in any order:

* `wellFormed_of_runs` — the chain, the index and the byte counter agree in every
  state a completed run reaches;
* `runs_refines_cache` — a completed run is a run of the abstract cache;
* `throughout_callOk_iff` — the calls of a run go as they should exactly when no
  `Put` or `Set` replaces a value by a shorter one.
-/

namespace Afina.Backend

open LinkedList LruCache SimpleLRU Runs

/-- The state after some completed calls on a fresh cache. -/
def Reachable (maxSize : Nat) (s : SimpleLRU) : Prop :=
  ∃ ops replies, runs Storage.call ops (SimpleLRU.fresh maxSize) = .ok (replies, s)

section Runs

variable {maxSize : Nat} {s : SimpleLRU}

theorem call_represents {op : StorageCall} {items : List Item} {reply : StorageReply}
    {s' : SimpleLRU} (represents : Represents s items)
    (called : Storage.call op s = .ok (reply, s')) : ∃ items', Represents s' items' := by
  obtain ⟨cache, refines⟩ := represents.refines
  obtain ⟨items', represents', -⟩ := (call_simulates refines called).2.represents
  exact ⟨items', represents'⟩

theorem runs_simulates {ops : List StorageCall} {replies : List StorageReply}
    (bounded : maxSize < 2 ^ 63)
    (ran : runs Storage.call ops (SimpleLRU.fresh maxSize) = .ok (replies, s)) :
    ∃ cache : ByteCache maxSize,
      runs (fun op cache => (.ok (ByteCache.call op cache) : Except Fault _)) ops Cache.empty =
        .ok (replies, cache) ∧ Refines s cache := by
  have simulated : ∀ op s (cache : ByteCache maxSize) reply next, Refines s cache →
      Storage.call op s = .ok (reply, next) →
      (ByteCache.call op cache).1 = reply ∧ Refines next (ByteCache.call op cache).2 :=
    fun op s cache reply next refines called => call_simulates refines called
  exact runs_simulation simulated (refines_fresh bounded) ran

theorem Reachable.refines (bounded : maxSize < 2 ^ 63) (reachable : Reachable maxSize s) :
    ∃ cache : ByteCache maxSize, Refines s cache := by
  obtain ⟨ops, replies, ran⟩ := reachable
  obtain ⟨cache, -, refines⟩ := runs_simulates bounded ran
  exact ⟨cache, refines⟩

theorem Reachable.represents (bounded : maxSize < 2 ^ 63) (reachable : Reachable maxSize s) :
    ∃ items, Represents s items := by
  obtain ⟨cache, refines⟩ := reachable.refines bounded
  obtain ⟨items, represents, -⟩ := refines.represents
  exact ⟨items, represents⟩

end Runs

/-! ## The memory -/

/-- The memory of `s` holds the nodes of `chain`, from head to tail. -/
structure WellFormed (s : SimpleLRU) (chain : List (Ptr × LruNode)) : Prop where
  cells : ∀ p n, (p, n) ∈ chain → s.heap p = some n
  acyclic : (chain.map Prod.fst).Nodup
  head : s.lruHead = (chain.map Prod.fst).head?
  tail : s.lruTail = (chain.map Prod.fst).getLast?
  forward : ∀ before p n after, chain = before ++ (p, n) :: after →
    n.next = (after.map Prod.fst).head?
  backward : ∀ before p n after, chain = before ++ (p, n) :: after →
    n.prev = (before.map Prod.fst).getLast?
  distinct : (chain.map fun cell => cell.2.key).Nodup
  index : ∀ key p, s.lruIndex.lookup key = some p ↔ ∃ n, (p, n) ∈ chain ∧ n.key = key
  accounted : s.freeSize + (chain.map fun cell => nodeSize cell.2.key cell.2.value).sum = s.maxSize

/-- The nodes a list of items describes. -/
def cellsOf (s : SimpleLRU) (items : List Item) : List (Ptr × LruNode) :=
  items.map fun item => (item.1, s.heap.nodeAt item.1)

theorem map_fst_cellsOf (s : SimpleLRU) (items : List Item) :
    (cellsOf s items).map Prod.fst = items.map Prod.fst := by
  simp [cellsOf]

theorem Represents.map_cellsOf {β : Type} {s : SimpleLRU} {items : List Item}
    (represents : Represents s items) (view : Bytes → Bytes → β) :
    (cellsOf s items).map (fun cell => view cell.2.key cell.2.value) =
      items.map fun item => view item.2.1 item.2.2 := by
  rw [cellsOf, List.map_map]
  apply List.map_congr_left
  intro item member
  have stored := represents.stored item member
  show view (s.heap.nodeAt item.1).key (s.heap.nodeAt item.1).value = _
  rw [Heap.nodeAt_key stored, Heap.nodeAt_value stored]

theorem Represents.wellFormed {s : SimpleLRU} {items : List Item}
    (represents : Represents s items) : WellFormed s (cellsOf s items) := by
  have place : ∀ before p n after, cellsOf s items = before ++ (p, n) :: after →
      n = s.heap.nodeAt p ∧
        items.map Prod.fst = before.map Prod.fst ++ p :: after.map Prod.fst := by
    intro before p n after split
    have listed : (p, n) ∈ cellsOf s items := by simp [split]
    obtain ⟨item, -, equal⟩ := List.mem_map.mp listed
    cases equal
    refine ⟨rfl, ?_⟩
    rw [← map_fst_cellsOf s, split, List.map_append, List.map_cons]
  have linked := represents.linked
  exact
    { cells := by
        intro p n listed
        obtain ⟨item, member, equal⟩ := List.mem_map.mp listed
        cases equal
        obtain ⟨n, cell⟩ := Option.isSome_iff_exists.mp (represents.alive member)
        simp [Heap.nodeAt, cell]
      acyclic := by
        rw [map_fst_cellsOf]
        exact linked.nodup
      head := by
        rw [map_fst_cellsOf]
        exact linked.head_eq
      tail := by
        rw [map_fst_cellsOf]
        exact linked.tail_eq
      forward := by
        intro before p n after split
        obtain ⟨rfl, addresses⟩ := place before p n after split
        rw [addresses] at linked
        rw [Heap.nodeAt_next]
        exact linked.next_eq
      backward := by
        intro before p n after split
        obtain ⟨rfl, addresses⟩ := place before p n after split
        rw [addresses] at linked
        rw [Heap.nodeAt_prev]
        exact linked.prev_eq
      distinct := by
        have keysNodup := represents.keysNodup
        rw [List.map_map] at keysNodup
        rw [represents.map_cellsOf fun key _ => key]
        exact keysNodup
      index := by
        intro key p
        rw [represents.indexed]
        constructor
        · rintro ⟨value, member⟩
          exact ⟨s.heap.nodeAt p, List.mem_map.mpr ⟨_, member, rfl⟩,
            Heap.nodeAt_key (represents.stored _ member)⟩
        · rintro ⟨n, listed, keyEq⟩
          obtain ⟨item, member, equal⟩ := List.mem_map.mp listed
          cases equal
          have stored := Heap.nodeAt_key (represents.stored _ member)
          rw [stored] at keyEq
          exact ⟨item.2.2, keyEq ▸ member⟩
      accounted := by
        rw [represents.map_cellsOf nodeSize]
        have accounted := represents.accounted
        rw [itemsSize, total, List.map_map] at accounted
        exact accounted }

theorem wellFormed_of_runs {maxSize : Nat} {ops : List StorageCall} {replies : List StorageReply}
    {s : SimpleLRU} (bounded : maxSize < 2 ^ 63)
    (ran : runs Storage.call ops (SimpleLRU.fresh maxSize) = .ok (replies, s)) :
    s.maxSize = maxSize ∧ ∃ chain, WellFormed s chain := by
  have reachable : Reachable maxSize s := ⟨ops, replies, ran⟩
  obtain ⟨cache, refines⟩ := reachable.refines bounded
  obtain ⟨items, represents, -⟩ := refines.represents
  exact ⟨refines.maxSize_eq, cellsOf s items, represents.wellFormed⟩

/-- A run that inserts two entries, moves one to the head and deletes the other. -/
theorem wellFormed_of_four_calls : ∃ s,
    runs Storage.call [.put [1] [2], .put [3] [4, 5], .get [1], .delete [3]] (SimpleLRU.fresh 8) =
        .ok ([.flag true, .flag true, .found (some [2]), .flag true], s) ∧
      s.maxSize = 8 ∧ ∃ chain, WellFormed s chain := by
  refine ⟨_, rfl, ?_⟩
  exact wellFormed_of_runs (by decide)
    (rfl : runs Storage.call [.put [1] [2], .put [3] [4, 5], .get [1], .delete [3]] _ = _)

/-! ## The abstract cache -/

/-- The entries of `s` in recency order. -/
def Holds (s : SimpleLRU) (entries : List (Bytes × Bytes)) : Prop :=
  ∃ chain, WellFormed s chain ∧ entries = chain.map fun cell => (cell.2.key, cell.2.value)

theorem Refines.holds {maxSize : Nat} {s : SimpleLRU} {cache : ByteCache maxSize}
    (refines : Refines s cache) : Holds s cache.entries := by
  obtain ⟨items, represents, entries⟩ := refines.represents
  exact ⟨cellsOf s items, represents.wellFormed, by rw [represents.map_cellsOf Prod.mk, entries]⟩

theorem runs_refines_cache {maxSize : Nat} {ops : List StorageCall} {replies : List StorageReply}
    {s : SimpleLRU} (bounded : maxSize < 2 ^ 63)
    (ran : runs Storage.call ops (SimpleLRU.fresh maxSize) = .ok (replies, s)) :
    ∃ cache : ByteCache maxSize,
      runs (fun op cache => (.ok (ByteCache.call op cache) : Except Fault _)) ops Cache.empty =
        .ok (replies, cache) ∧ Holds s cache.entries := by
  obtain ⟨cache, ranAbstract, refines⟩ := runs_simulates bounded ran
  exact ⟨cache, ranAbstract, refines.holds⟩

/-- A run that evicts the older of two entries. -/
theorem runs_refines_cache_evicting : ∃ s, ∃ cache : ByteCache 4,
    runs (fun op cache => (.ok (ByteCache.call op cache) : Except Fault _))
        [.put [1] [2], .put [3] [4, 5], .get [1]] Cache.empty =
      .ok ([.flag true, .flag true, .found none], cache) ∧ Holds s cache.entries := by
  exact ⟨_, runs_refines_cache (by decide)
    (rfl : runs Storage.call [.put [1] [2], .put [3] [4, 5], .get [1]] (SimpleLRU.fresh 4) = _)⟩

/-! ## Calls that go as they should -/

/-- The call completes, and `Put` and `Set` keep the entry they update and, when
    the new value is not longer, all others. -/
structure CallOk (s : SimpleLRU) (op : StorageCall) : Prop where
  completes : ∃ reply s', Storage.call op s = .ok (reply, s')
  updatedStays : ∀ key value p reply s', op.Overwrites key value →
    s.lruIndex.lookup key = some p → Storage.call op s = .ok (reply, s') →
    s'.lruIndex.lookup key = some p
  evictsNothing : ∀ key value old reply s', op.Overwrites key value →
    s.valueOf key = some old → value.length ≤ old.length → Storage.call op s = .ok (reply, s') →
    ∀ other, s'.lruIndex.lookup other = s.lruIndex.lookup other

section Overwriting

variable {s : SimpleLRU} {before after : List Item} {p : Ptr} {key old value : Bytes}
  {op : StorageCall}

/-- Overwriting a present key with a value that is not shorter keeps its node, in
    front of the other nodes or of those that fit. -/
theorem overwrites_run (represents : Represents s (before ++ (p, key, old) :: after))
    (overwrites : op.Overwrites key value) (notShorter : old.length ≤ value.length) :
    ∃ ok s', Storage.call op s = .ok (.flag ok, s') ∧
      (Represents s' ((p, key, old) :: (before ++ after)) ∨
        Represents s'
          ((p, key, value) :: keep (s.maxSize - nodeSize key value) (before ++ after))) := by
  obtain ⟨s₁, moved, represents₁, maxSize₁⟩ := moveToHead_present represents
  rw [call_eq_overwrite overwrites moved]
  by_cases fits : nodeSize key value ≤ s₁.maxSize
  · obtain ⟨s', ran, represents', -⟩ := overwrite_replaces represents₁ fits notShorter
    rw [maxSize₁] at represents'
    exact ⟨true, s', run_map_of_run ran, .inr represents'⟩
  · have ran : (overwrite p key value).run s₁ = pure (false, s₁) :=
      overwrite_refuses (Nat.lt_of_not_le fits)
    exact ⟨false, s₁, run_map_of_run ran, .inl represents₁⟩

theorem Represents.lookup_congr {s s' : SimpleLRU} {items items' : List Item}
    (represents : Represents s items) (represents' : Represents s' items')
    (same : (items'.map fun item => (item.1, item.2.1)).Perm
      (items.map fun item => (item.1, item.2.1))) (key : Bytes) :
    s'.lruIndex.lookup key = s.lruIndex.lookup key := by
  have places : ∀ {s : SimpleLRU} {items : List Item}, Represents s items → ∀ p,
      s.lruIndex.lookup key = some p ↔ (p, key) ∈ items.map fun item => (item.1, item.2.1) := by
    intro s items represents p
    rw [represents.indexed]
    simp
  apply Option.ext
  intro p
  rw [places represents', places represents, same.mem_iff]

end Overwriting

section Keeping

variable {s : SimpleLRU} {items : List Item} {op : StorageCall}

theorem Represents.exists_of_lookup {p : Ptr} {key : Bytes} (represents : Represents s items)
    (found : s.lruIndex.lookup key = some p) :
    ∃ before old after, items = before ++ (p, key, old) :: after ∧ s.valueOf key = some old := by
  obtain ⟨old, member⟩ := (represents.indexed key p).mp found
  obtain ⟨before, after, split⟩ := List.mem_iff_append.mp member
  exact ⟨before, old, after, split, represents.valueOf_eq member⟩

theorem Represents.exists_of_valueOf {key old : Bytes} (represents : Represents s items)
    (found : s.valueOf key = some old) :
    ∃ before p after, items = before ++ (p, key, old) :: after := by
  obtain ⟨p, indexed, -⟩ := Option.bind_eq_some_iff.mp found
  obtain ⟨before, value, after, split, same⟩ := represents.exists_of_lookup indexed
  rw [found] at same
  cases same
  exact ⟨before, p, after, split⟩

/-- A call that shrinks no value goes as it should. -/
theorem callOk_of_keeps (represents : Represents s items) (keeps : ¬ s.Shrinks op) :
    CallOk s op where
  completes := by
    obtain ⟨cache, refines⟩ := represents.refines
    obtain ⟨s', called, -⟩ := call_refines refines keeps
    exact ⟨_, s', called⟩
  updatedStays := by
    intro key value p reply s' overwrites found called
    obtain ⟨before, old, after, rfl, valueEq⟩ := represents.exists_of_lookup found
    have notShorter : old.length ≤ value.length :=
      Nat.not_lt.mp fun shorter => keeps ⟨key, value, old, overwrites, valueEq, shorter⟩
    obtain ⟨ok, s'', called', represents'⟩ := overwrites_run represents overwrites notShorter
    rw [called'] at called
    cases called
    cases represents' with
    | inl refused => exact refused.lookup_eq List.mem_cons_self
    | inr replaced => exact replaced.lookup_eq List.mem_cons_self
  evictsNothing := by
    intro key value old reply s' overwrites valueEq notLonger called
    obtain ⟨before, p, after, rfl⟩ := represents.exists_of_valueOf valueEq
    have notShorter : old.length ≤ value.length :=
      Nat.not_lt.mp fun shorter => keeps ⟨key, value, old, overwrites, valueEq, shorter⟩
    obtain ⟨ok, s'', called', represents'⟩ := overwrites_run represents overwrites notShorter
    rw [called'] at called
    cases called
    have moved : ((p, key) :: (before ++ after).map fun item => (item.1, item.2.1)).Perm
        ((before ++ (p, key, old) :: after).map fun item => (item.1, item.2.1)) := by
      simpa using List.perm_middle.symm
    cases represents' with
    | inl refused => exact represents.lookup_congr refused moved
    | inr replaced =>
      have accounted := represents.accounted
      have sameSize : nodeSize key value = entrySize (p, key, old).2 :=
        congrArg (key.length + ·) (Nat.le_antisymm notLonger notShorter)
      have allKept : keep (s.maxSize - nodeSize key value) (before ++ after) = before ++ after := by
        apply fit_eq_self
        rw [← itemsSize_eq, itemsSize_append]
        rw [itemsSize_append, itemsSize_cons] at accounted
        omega
      rw [allKept] at replaced
      exact represents.lookup_congr replaced moved

theorem keeps_of_callOk (represents : Represents s items) (ok : CallOk s op) :
    ¬ s.Shrinks op := by
  intro shrinks
  obtain ⟨cache, refines⟩ := represents.refines
  obtain ⟨reply, s', called⟩ := ok.completes
  rw [call_faults refines shrinks] at called
  cases called

end Keeping

theorem throughout_callOk_iff {maxSize : Nat} (bounded : maxSize < 2 ^ 63)
    (ops : List StorageCall) :
    Throughout Storage.call CallOk (SimpleLRU.fresh maxSize) ops ↔
      Throughout Storage.call (fun s op => ¬ s.Shrinks op) (SimpleLRU.fresh maxSize) ops := by
  have preserved : ∀ op (s : SimpleLRU) reply next, (∃ items, Represents s items) →
      Storage.call op s = .ok (reply, next) → ∃ items, Represents next items :=
    fun op s reply next ⟨items, represents⟩ called => call_represents represents called
  have agree : ∀ (s : SimpleLRU) op, (∃ items, Represents s items) →
      (CallOk s op ↔ ¬ s.Shrinks op) :=
    fun s op ⟨items, represents⟩ =>
      ⟨keeps_of_callOk represents, callOk_of_keeps represents⟩
  exact Throughout.congr preserved agree ⟨[], represents_fresh bounded⟩ ops

/-- Nothing is shrunk by storing into an empty cache. -/
theorem throughout_callOk_put : Throughout Storage.call CallOk (SimpleLRU.fresh 1024)
    [.put (ascii "k") (ascii "ab")] := by
  refine (throughout_callOk_iff (by decide) _).mpr ⟨?_, fun _ _ _ => trivial⟩
  rintro ⟨_, _, _, _, found, _⟩
  cases found

/-- Storing two bytes and then one byte under the same key. -/
theorem not_callOk_shorter : ¬ ∀ maxSize < 2 ^ 63, ∀ ops,
    Throughout Storage.call CallOk (SimpleLRU.fresh maxSize) ops := by
  intro always
  obtain ⟨-, second⟩ := always 1024 (by decide)
    [.put (ascii "k") (ascii "ab"), .put (ascii "k") (ascii "a")]
  obtain ⟨reply, s', called⟩ := (second _ _ rfl).1.completes
  cases called

end Afina.Backend
