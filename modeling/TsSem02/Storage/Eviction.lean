import TsSem02.Storage.Represents

/-! # Evicting, inserting and overwriting

The eviction loop keeps the longest prefix of the list that leaves the needed
bytes free, as long as the whole capacity would be enough; asked for more, it
takes out every node and then dereferences the null tail.  `putInHead` and
`overwrite` are run on top of it.
-/

namespace Afina.Backend

open LinkedList LruCache CInt SimpleLRU

def itemSize (item : Item) : Nat := entrySize item.2

theorem itemsSize_eq (items : List Item) : itemsSize items = total itemSize items := by
  rw [itemsSize, total, List.map_map]
  rfl

/-- The nodes an eviction down to `budget` bytes keeps. -/
def keep (budget : Nat) (items : List Item) : List Item := fit itemSize budget items

theorem keep_entries (budget : Nat) (items : List Item) :
    (keep budget items).map Prod.snd = fit entrySize budget (items.map Prod.snd) :=
  map_fit entrySize Prod.snd budget items

/-! ## The loop -/

section Loop

variable {s : SimpleLRU} {items : List Item} {need : Nat}

theorem evictLoop_step (fuel : Nat) {item : Item} (represents : Represents s (items ++ [item]))
    (short : s.freeSize < need) :
    ∃ s', (evictLoop (fuel + 1) need).run s = (evictLoop fuel need).run s' ∧
      Represents s' items ∧ s'.maxSize = s.maxSize := by
  obtain ⟨p, key, value⟩ := item
  have member : (p, key, value) ∈ items ++ [(p, key, value)] := by simp
  have last : Represents s (items ++ (p, key, value) :: []) := represents
  obtain ⟨s', ran, represents', maxSize⟩ := delete_present last
  have tail : s.lruTail = some p := by
    rw [represents.linked.tail_eq]
    simp
  refine ⟨s', ?_, by simpa using represents', maxSize⟩
  simp only [evictLoop, StateT.run_bind, StateT.run_get, pure_bind, if_pos short, tail,
    run_node (represents.alive member), Heap.nodeAt_key (represents.stored _ member), ran]

theorem evictLoop_enough {fuel : Nat} (enough : need ≤ s.freeSize) :
    (evictLoop (fuel + 1) need).run s = pure ((), s) := by
  simp only [evictLoop, StateT.run_bind, StateT.run_get, pure_bind, if_neg (Nat.not_lt.mpr enough)]
  rfl

theorem evictLoop_keeps {fuel : Nat} (represents : Represents s items) (within : need ≤ s.maxSize)
    (fuelEnough : items.length < fuel) :
    ∃ s', (evictLoop fuel need).run s = pure ((), s') ∧
      Represents s' (keep (s.maxSize - need) items) ∧ s'.maxSize = s.maxSize := by
  induction fuel generalizing s items with
  | zero => omega
  | succ fuel ih =>
    have accounted := represents.accounted
    rw [itemsSize_eq] at accounted
    by_cases enough : need ≤ s.freeSize
    · refine ⟨s, evictLoop_enough enough, ?_, rfl⟩
      rw [keep, fit_eq_self itemSize (by omega)]
      exact represents
    · rcases List.eq_nil_or_concat items with rfl | ⟨init, item, rfl⟩
      · simp only [total_nil] at accounted
        omega
      · rw [List.concat_eq_append] at represents accounted fuelEnough ⊢
        have fuelLeft : init.length < fuel := by simpa using fuelEnough
        obtain ⟨s₁, ran, represents₁, maxSize₁⟩ :=
          evictLoop_step fuel represents (Nat.lt_of_not_le enough)
        obtain ⟨s', ran', represents', maxSize'⟩ := ih represents₁ (maxSize₁ ▸ within) fuelLeft
        refine ⟨s', ran.trans ran', ?_, maxSize'.trans maxSize₁⟩
        rw [keep, fit_concat itemSize (by omega), ← maxSize₁]
        exact represents'

/-- Asked for more than the capacity, the loop empties the list and runs into the
    null tail. -/
theorem evictLoop_faults {fuel : Nat} (represents : Represents s items) (exceeds : s.maxSize < need)
    (fuelEnough : items.length < fuel) :
    (evictLoop fuel need).run s = .error .nullPointer := by
  induction fuel generalizing s items with
  | zero => omega
  | succ fuel ih =>
    have accounted := represents.accounted
    rcases List.eq_nil_or_concat items with rfl | ⟨init, item, rfl⟩
    · have tail : s.lruTail = none := represents.linked.tail_eq
      have short : s.freeSize < need := by omega
      simp only [evictLoop, StateT.run_bind, StateT.run_get, pure_bind, if_pos short, tail]
      rfl
    · rw [List.concat_eq_append] at represents accounted fuelEnough
      have fuelLeft : init.length < fuel := by simpa using fuelEnough
      have short : s.freeSize < need := by omega
      obtain ⟨s₁, ran, represents₁, maxSize₁⟩ := evictLoop_step fuel represents short
      rw [ran]
      exact ih represents₁ (maxSize₁ ▸ exceeds) fuelLeft

theorem length_le_index (represents : Represents s items) :
    items.length ≤ s.lruIndex.entries.length := by
  have subset : (items.map Prod.snd).map Prod.fst ⊆ s.lruIndex.keys := by
    intro key present
    obtain ⟨before, p, value, after, rfl⟩ := exists_item_split present
    apply AList.mem_keys.mp
    apply AList.lookup_isSome.mp
    have member : (p, key, value) ∈ before ++ (p, key, value) :: after := by simp
    rw [represents.lookup_eq member]
    rfl
  have bound := (List.subperm_of_subset represents.keysNodup subset).length_le
  simpa [AList.keys, List.keys] using bound

theorem evict_keeps (represents : Represents s items) (within : need ≤ s.maxSize) :
    ∃ s', (evict need).run s = pure ((), s') ∧
      Represents s' (keep (s.maxSize - need) items) ∧ s'.maxSize = s.maxSize := by
  simp only [evict, StateT.run_bind, StateT.run_get, pure_bind]
  exact evictLoop_keeps represents within (Nat.lt_succ_of_le (length_le_index represents))

theorem evict_faults (represents : Represents s items) (exceeds : s.maxSize < need) :
    (evict need).run s = .error .nullPointer := by
  simp only [evict, StateT.run_bind, StateT.run_get, pure_bind]
  exact evictLoop_faults represents exceeds (Nat.lt_succ_of_le (length_le_index represents))

end Loop

/-! ## `PutInHead` -/

/-- The memory after `insertHead` has allocated a node at `p` and made it the head. -/
structure Inserted (s s' : SimpleLRU) (p : Ptr) (key value : Bytes) : Prop where
  next : s'.heap.next = Function.update s.heap.next p s.lruHead
  prev : s'.heap.prev = Function.update (redirect s.heap.prev s.lruHead (some p)) p none
  entrySelf : s'.heap.entry p = some (key, value)
  entry : ∀ r, r ≠ p → s'.heap.entry r = s.heap.entry r
  alive : ∀ r, s'.heap.Alive r ↔ r = p ∨ s.heap.Alive r
  lruHead : s'.lruHead = some p
  lruTail : s'.lruTail = if s.lruHead = none then some p else s.lruTail
  lruIndex : s'.lruIndex = s.lruIndex.insert key p
  heapEnd : s'.heapEnd = p + 1
  maxSize : s'.maxSize = s.maxSize
  freeSize : s'.freeSize = toUnsigned 64 (s.freeSize - nodeSize key value)

theorem insertHead_run {s : SimpleLRU} {key : Bytes} (value : Bytes) (absent : s.lruIndex.lookup key = none)
    (headAlive : ∀ h, s.lruHead = some h → s.heap.Alive h ∧ h ≠ s.heapEnd) :
    ∃ s', (insertHead key value).run s = pure (true, s') ∧ Inserted s s' s.heapEnd key value := by
  have notMem : key ∉ s.lruIndex := AList.lookup_eq_none.mp absent
  cases head : s.lruHead with
  | none =>
    refine ⟨{ s with
      freeSize := toUnsigned 64 (s.freeSize - nodeSize key value)
      lruHead := some s.heapEnd
      lruTail := some s.heapEnd
      lruIndex := s.lruIndex.insert key s.heapEnd
      heap := s.heap.allocated s.heapEnd key value
      heapEnd := s.heapEnd + 1 }, ?_, ?_⟩
    · simp [insertHead, head, emplace, notMem, Int.sub_eq_add_neg]
    · constructor <;> simp +contextual [head, Heap.alive_allocated, Heap.entry_allocated_of_ne]
  | some h =>
    obtain ⟨alive, other⟩ := headAlive h head
    refine ⟨{ s with
      freeSize := toUnsigned 64 (s.freeSize - nodeSize key value)
      lruHead := some s.heapEnd
      lruIndex := s.lruIndex.insert key s.heapEnd
      heap := ((s.heap.allocated s.heapEnd key value).withPrev h (some s.heapEnd)).withNext s.heapEnd
        (some h)
      heapEnd := s.heapEnd + 1 }, ?_, ?_⟩
    · simp [insertHead, head, emplace, notMem, Heap.alive_allocated, alive, Int.sub_eq_add_neg]
    · constructor <;>
        simp +contextual [head, alive, Heap.alive_allocated, Heap.entry_allocated_of_ne,
          Function.update_comm other]

theorem insertHead_represents {s : SimpleLRU} {items : List Item} {key value : Bytes}
    (represents : Represents s items) (absent : key ∉ (items.map Prod.snd).map Prod.fst)
    (room : nodeSize key value ≤ s.freeSize) :
    ∃ s' p, (insertHead key value).run s = pure (true, s') ∧
      Represents s' ((p, key, value) :: items) ∧ s'.maxSize = s.maxSize := by
  have fresh : s.heapEnd ∉ items.map Prod.fst := fun listed =>
    Nat.lt_irrefl _ (represents.allocated _ listed)
  have other : ∀ r, r ∈ items.map Prod.fst → r ≠ s.heapEnd := fun r listed equal =>
    fresh (equal ▸ listed)
  have headListed : ∀ h, s.lruHead = some h → h ∈ items.map Prod.fst := fun h head =>
    List.mem_of_head? (represents.linked.head_eq.symm.trans head)
  obtain ⟨s', ran, inserted⟩ := insertHead_run value (represents.lookup_absent absent)
    (fun h head => by
      obtain ⟨item, member, equal⟩ := List.mem_map.mp (headListed h head)
      exact ⟨equal ▸ represents.alive member, other h (headListed h head)⟩)
  have pushed := represents.linked.pushFront fresh
  have tailEq : s'.lruTail = s.lruTail.or (some s.heapEnd) := by
    rw [inserted.lruTail, represents.linked.head_eq, represents.linked.tail_eq]
    cases items with
    | nil => rfl
    | cons first items => simp [List.getLast?_cons]
  refine ⟨s', s.heapEnd, ran, ?_, inserted.maxSize⟩
  exact
    { linked := by
        rw [inserted.next, inserted.prev, inserted.lruHead, tailEq]
        exact pushed
      stored := by
        intro item member
        rcases List.mem_cons.mp member with rfl | member
        · exact inserted.entrySelf
        · rw [inserted.entry item.1 (other _ (List.mem_map_of_mem member))]
          exact represents.stored item member
      live := by
        intro r alive
        rcases (inserted.alive r).mp alive with rfl | alive
        · exact List.mem_cons_self
        · exact List.mem_cons_of_mem _ (represents.live r alive)
      keysNodup := List.nodup_cons.mpr ⟨absent, represents.keysNodup⟩
      indexed := by
        intro key' r
        rw [inserted.lruIndex]
        by_cases same : key' = key
        · subst same
          rw [AList.lookup_insert]
          constructor
          · intro equal
            cases equal
            exact ⟨value, List.mem_cons_self⟩
          · rintro ⟨value', listed⟩
            cases List.mem_cons.mp listed with
            | inl first => cases first; rfl
            | inr listed =>
              exact absurd (List.mem_map_of_mem (List.mem_map_of_mem listed)) absent
        · rw [AList.lookup_insert_ne same, represents.indexed]
          refine exists_congr fun value' => ?_
          simp [same]
      allocated := by
        intro r listed
        rw [inserted.heapEnd]
        rcases List.mem_cons.mp listed with rfl | listed
        · exact Nat.lt_succ_self _
        · exact Nat.lt_succ_of_lt (represents.allocated r listed)
      accounted := by
        have accounted := represents.accounted
        have bounded := represents.bounded
        have size : entrySize (key, value) = nodeSize key value := rfl
        rw [inserted.freeSize, inserted.maxSize, itemsSize_cons, size, ← Int.ofNat_sub room,
          toUnsigned_natCast (by omega)]
        omega
      bounded := by
        rw [inserted.maxSize]
        exact represents.bounded }

theorem putInHead_refuses {s : SimpleLRU} {key value : Bytes}
    (large : s.maxSize < nodeSize key value) : (putInHead key value).run s = pure (false, s) := by
  simp only [putInHead, StateT.run_bind, StateT.run_get, pure_bind, if_pos large]
  rfl

theorem putInHead_inserts {s : SimpleLRU} {items : List Item} {key value : Bytes}
    (represents : Represents s items) (absent : key ∉ (items.map Prod.snd).map Prod.fst)
    (fits : nodeSize key value ≤ s.maxSize) :
    ∃ s' p, (putInHead key value).run s = pure (true, s') ∧
      Represents s' ((p, key, value) :: keep (s.maxSize - nodeSize key value) items) ∧
      s'.maxSize = s.maxSize := by
  obtain ⟨s₁, ran₁, represents₁, maxSize₁⟩ := evict_keeps represents fits
  have kept := fit_isPrefix itemSize (s.maxSize - nodeSize key value) items
  have absent₁ : key ∉ ((keep (s.maxSize - nodeSize key value) items).map Prod.snd).map Prod.fst := by
    intro listed
    exact absent (((kept.sublist.map Prod.snd).map Prod.fst).subset listed)
  have room : nodeSize key value ≤ s₁.freeSize := by
    have accounted := represents₁.accounted
    have within := total_fit_le itemSize (s.maxSize - nodeSize key value) items
    rw [itemsSize_eq, keep] at accounted
    omega
  obtain ⟨s', p, ran, represents', maxSize⟩ := insertHead_represents represents₁ absent₁ room
  refine ⟨s', p, ?_, represents', maxSize.trans maxSize₁⟩
  simp only [putInHead, StateT.run_bind, StateT.run_get, pure_bind, if_neg (Nat.not_lt.mpr fits),
    ran₁, ran]

/-! ## Overwriting in place -/

/-- Another value in the first node, with the counter adjusted, is another value
    in the first entry. -/
theorem Represents.rewrite {s : SimpleLRU} {items : List Item} {p : Ptr} {key old : Bytes}
    (value : Bytes) (free : Nat) (represents : Represents s ((p, key, old) :: items))
    (accounted : free + (nodeSize key value + itemsSize items) = s.maxSize) :
    Represents { s with freeSize := free, heap := s.heap.withValue p value }
      ((p, key, value) :: items) := by
  have stored : s.heap.entry p = some (key, old) := represents.stored _ List.mem_cons_self
  exact
    { linked := by simpa using represents.linked
      stored := by
        intro item member
        cases List.mem_cons.mp member with
        | inl first => subst first; exact Heap.entry_withValue_self stored
        | inr listed =>
          have front : Represents s ([] ++ (p, key, old) :: items) := represents
          have other := (front.others_alive (List.mem_map_of_mem listed)).2
          show (s.heap.withValue p value).entry item.1 = some item.2
          rw [Heap.entry_withValue_of_ne other]
          exact represents.stored item (List.mem_cons_of_mem _ listed)
      live := by
        intro r alive
        exact represents.live r (Heap.alive_withValue.mp alive)
      keysNodup := represents.keysNodup
      indexed := by
        intro key' r
        rw [represents.indexed]
        simp only [List.mem_cons, Prod.mk.injEq, exists_or, exists_and_left, exists_eq, and_true]
      allocated := represents.allocated
      accounted := accounted
      bounded := represents.bounded }

section Overwrite

variable {s : SimpleLRU} {items : List Item} {p : Ptr} {key old value : Bytes}

theorem overwrite_refuses (large : s.maxSize < nodeSize key value) :
    (overwrite p key value).run s = pure (false, s) := by
  simp only [overwrite, StateT.run_bind, StateT.run_get, pure_bind, if_pos large]
  rfl

/-- A value that is not shorter replaces the old one; the nodes behind that no
    longer fit are evicted. -/
theorem overwrite_replaces (represents : Represents s ((p, key, old) :: items))
    (fits : nodeSize key value ≤ s.maxSize) (notShorter : old.length ≤ value.length) :
    ∃ s', (overwrite p key value).run s = pure (true, s') ∧
      Represents s' ((p, key, value) :: keep (s.maxSize - nodeSize key value) items) ∧
      s'.maxSize = s.maxSize := by
  have stored : s.heap.entry p = some (key, old) := represents.stored _ List.mem_cons_self
  have alive := Heap.alive_of_entry stored
  have bounded := represents.bounded
  have sizes : nodeSize key old ≤ nodeSize key value := Nat.add_le_add_left notShorter _
  have delta : toUnsigned 64 ((nodeSize key value : Int) - nodeSize key old) =
      nodeSize key value - nodeSize key old := by
    rw [← Int.ofNat_sub sizes, toUnsigned_natCast (by omega)]
  have within : nodeSize key value - nodeSize key old ≤ s.maxSize := by omega
  obtain ⟨s₁, ran₁, represents₁, maxSize₁⟩ := evict_keeps represents within
  have kept : keep (s.maxSize - (nodeSize key value - nodeSize key old)) ((p, key, old) :: items) =
      (p, key, old) :: keep (s.maxSize - nodeSize key value) items := by
    have size : itemSize (p, key, old) = nodeSize key old := rfl
    rw [keep, fit, if_pos (by omega), size, keep]
    congr 2
    omega
  rw [kept] at represents₁
  have accounted := represents₁.accounted
  have size : entrySize (key, old) = nodeSize key old := rfl
  have keptSize := total_fit_le itemSize (s.maxSize - nodeSize key value) items
  rw [itemsSize_cons, size, itemsSize_eq, keep] at accounted
  have free : toUnsigned 64 (s₁.freeSize + -((nodeSize key value - nodeSize key old : Nat) : Int)) =
      s₁.freeSize - (nodeSize key value - nodeSize key old) := by
    rw [← Int.sub_eq_add_neg, ← Int.ofNat_sub (by omega), toUnsigned_natCast (by omega)]
  refine ⟨_, ?_, represents₁.rewrite value
    (s₁.freeSize - (nodeSize key value - nodeSize key old)) ?_, maxSize₁⟩
  · have alive₁ := Heap.alive_of_entry (represents₁.stored _ List.mem_cons_self)
    simp only [overwrite, StateT.run_bind, StateT.run_get, pure_bind, if_neg (Nat.not_lt.mpr fits),
      run_node alive, Heap.nodeAt_key stored, Heap.nodeAt_value stored, toUnsigned_toSigned,
      toUnsigned_toUnsigned, delta, ran₁, run_addFree, free, run_write (s := { s₁ with
        freeSize := s₁.freeSize - (nodeSize key value - nodeSize key old) }) _ alive₁]
    rfl
  · rw [itemsSize_eq, keep]
    omega

/-- A shorter value makes the size difference negative; compared as an unsigned
    number it is larger than any capacity. -/
theorem overwrite_faults (represents : Represents s ((p, key, old) :: items))
    (fits : nodeSize key value ≤ s.maxSize) (shorter : value.length < old.length) :
    (overwrite p key value).run s = .error .nullPointer := by
  have stored : s.heap.entry p = some (key, old) := represents.stored _ List.mem_cons_self
  have alive := Heap.alive_of_entry stored
  have bounded := represents.bounded
  have oldFits : nodeSize key old ≤ s.maxSize :=
    represents.size_le (p, key, old) List.mem_cons_self
  have sizes : nodeSize key value < nodeSize key old := Nat.add_lt_add_left shorter _
  have delta : toUnsigned 64 ((nodeSize key value : Int) - nodeSize key old) =
      2 ^ 64 - (nodeSize key old - nodeSize key value) := by
    rw [← toUnsigned_neg (by omega) (by omega)]
    congr 1
    omega
  simp only [overwrite, StateT.run_bind, StateT.run_get, pure_bind, if_neg (Nat.not_lt.mpr fits),
    run_node alive, Heap.nodeAt_key stored, Heap.nodeAt_value stored, toUnsigned_toSigned,
    toUnsigned_toUnsigned, delta]
  rw [evict_faults represents (by omega)]
  rfl

end Overwrite

end Afina.Backend
