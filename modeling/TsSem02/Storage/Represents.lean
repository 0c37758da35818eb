import TsSem02.Library.LinkedList
import TsSem02.Library.LruCache
import TsSem02.Storage.Memory

/-! # What a `SimpleLRU` memory represents

`Represents s items` says that the memory of `s` is the list `items`, head first:
forward and backward links, the index, the allocated nodes and the byte counter
all tell the same story.  `delete` and `moveToHead` are run here on a memory that
represents a list, and shown to represent the expected one afterwards.
-/

namespace Afina.Backend

open LinkedList LruCache SimpleLRU

/-- A node of the list: its address, and the key and the value it holds. -/
abbrev Item := Ptr × Bytes × Bytes

/-- The bytes an entry takes. -/
def entrySize (entry : Bytes × Bytes) : Nat := nodeSize entry.1 entry.2

/-- The bytes the nodes of a list take. -/
def itemsSize (items : List Item) : Nat := total entrySize (items.map Prod.snd)

structure Represents (s : SimpleLRU) (items : List Item) : Prop where
  linked : Linked s.heap.next s.heap.prev s.lruHead s.lruTail (items.map Prod.fst)
  stored : ∀ item ∈ items, s.heap.entry item.1 = some item.2
  live : ∀ p, s.heap.Alive p → p ∈ items.map Prod.fst
  keysNodup : ((items.map Prod.snd).map Prod.fst).Nodup
  indexed : ∀ key p, s.lruIndex.lookup key = some p ↔ ∃ value, (p, key, value) ∈ items
  allocated : ∀ p ∈ items.map Prod.fst, p < s.heapEnd
  accounted : s.freeSize + itemsSize items = s.maxSize
  bounded : s.maxSize < 2 ^ 63

@[simp] theorem itemsSize_nil : itemsSize [] = 0 := rfl

@[simp] theorem itemsSize_cons (item : Item) (items : List Item) :
    itemsSize (item :: items) = entrySize item.2 + itemsSize items := by
  simp [itemsSize]

@[simp] theorem itemsSize_append (left right : List Item) :
    itemsSize (left ++ right) = itemsSize left + itemsSize right := by
  simp [itemsSize]

theorem exists_item_split {items : List Item} {key : Bytes}
    (present : key ∈ (items.map Prod.snd).map Prod.fst) :
    ∃ before p value after, items = before ++ (p, key, value) :: after := by
  simp only [List.mem_map] at present
  obtain ⟨_, ⟨⟨p, key, value⟩, member, rfl⟩, rfl⟩ := present
  obtain ⟨before, after, equal⟩ := List.mem_iff_append.mp member
  exact ⟨before, p, value, after, equal⟩

namespace Represents

variable {s : SimpleLRU} {items before after : List Item} {p : Ptr} {key value : Bytes}

theorem alive (represents : Represents s items) {item : Item} (member : item ∈ items) :
    s.heap.Alive item.1 :=
  Heap.alive_of_entry (represents.stored item member)

theorem lookup_eq (represents : Represents s items) (member : (p, key, value) ∈ items) :
    s.lruIndex.lookup key = some p :=
  (represents.indexed key p).mpr ⟨value, member⟩

theorem lookup_absent (represents : Represents s items)
    (absent : key ∉ (items.map Prod.snd).map Prod.fst) : s.lruIndex.lookup key = none := by
  cases found : s.lruIndex.lookup key with
  | none => rfl
  | some p =>
    obtain ⟨value, member⟩ := (represents.indexed key p).mp found
    exact absurd (List.mem_map_of_mem (List.mem_map_of_mem member)) absent

variable {item : Item}

theorem node_absent (represents : Represents s (before ++ item :: after)) :
    item.1 ∉ (before ++ after).map Prod.fst := by
  have nodup := represents.linked.nodup
  rw [List.map_append, List.map_cons, List.nodup_middle, List.nodup_cons] at nodup
  simpa using nodup.1

theorem key_absent (represents : Represents s (before ++ item :: after)) :
    item.2.1 ∉ ((before ++ after).map Prod.snd).map Prod.fst := by
  have nodup := represents.keysNodup
  rw [List.map_append, List.map_append, List.map_cons, List.map_cons, List.nodup_middle,
    List.nodup_cons] at nodup
  simpa using nodup.1

theorem others_alive (represents : Represents s (before ++ item :: after)) {r : Ptr}
    (listed : r ∈ (before ++ after).map Prod.fst) : s.heap.Alive r ∧ r ≠ item.1 := by
  refine ⟨?_, fun equal => represents.node_absent (equal ▸ listed)⟩
  obtain ⟨other, member, rfl⟩ := List.mem_map.mp listed
  apply represents.alive
  simp only [List.mem_append, List.mem_cons] at member ⊢
  tauto

theorem linked_middle (represents : Represents s (before ++ item :: after)) :
    LinkedList.Linked s.heap.next s.heap.prev s.lruHead s.lruTail
      (before.map Prod.fst ++ item.1 :: after.map Prod.fst) := by
  have linked := represents.linked
  rwa [List.map_append, List.map_cons] at linked

theorem next_eq (represents : Represents s (before ++ item :: after)) :
    s.heap.next item.1 = (after.map Prod.fst).head? :=
  represents.linked_middle.next_eq

theorem prev_eq (represents : Represents s (before ++ item :: after)) :
    s.heap.prev item.1 = (before.map Prod.fst).getLast? :=
  represents.linked_middle.prev_eq

theorem size_le (represents : Represents s items) (item : Item) (member : item ∈ items) :
    entrySize item.2 ≤ s.maxSize := by
  obtain ⟨before, after, rfl⟩ := List.mem_iff_append.mp member
  have accounted := represents.accounted
  simp only [itemsSize_append, itemsSize_cons] at accounted
  omega

end Represents

theorem represents_fresh {maxSize : Nat} (bounded : maxSize < 2 ^ 63) :
    Represents (SimpleLRU.fresh maxSize) [] where
  linked := Linked.empty
  stored := by simp
  live := by simp [SimpleLRU.fresh, Heap.Alive]
  keysNodup := List.nodup_nil
  indexed := by simp [SimpleLRU.fresh]
  allocated := by simp
  accounted := rfl
  bounded := bounded

/-! ## `Delete` -/

theorem delete_absent {s : SimpleLRU} {items : List Item} {key : Bytes}
    (represents : Represents s items) (absent : key ∉ (items.map Prod.snd).map Prod.fst) :
    (delete key).run s = pure (false, s) := by
  simp [delete, represents.lookup_absent absent]

/-- The memory after `delete` has taken the node at `p` out of `s`. -/
structure Deleted (s s' : SimpleLRU) (p : Ptr) (key : Bytes) (size : Nat) : Prop where
  next : ∀ r, r ≠ p →
    s'.heap.next r = redirect s.heap.next (s.heap.prev p) (s.heap.next p) r
  prev : ∀ r, r ≠ p →
    s'.heap.prev r = redirect s.heap.prev (s.heap.next p) (s.heap.prev p) r
  entry : ∀ r, r ≠ p → s'.heap.entry r = s.heap.entry r
  alive : ∀ r, s'.heap.Alive r → r ≠ p ∧ s.heap.Alive r
  lruHead : s'.lruHead = if s.heap.prev p = none then s.heap.next p else s.lruHead
  lruTail : s'.lruTail = if s.heap.next p = none then s.heap.prev p else s.lruTail
  lruIndex : s'.lruIndex = s.lruIndex.erase key
  heapEnd : s'.heapEnd = s.heapEnd
  maxSize : s'.maxSize = s.maxSize
  freeSize : s'.freeSize = CInt.toUnsigned 64 (s.freeSize + size)

theorem delete_run {s : SimpleLRU} {p : Ptr} {key value : Bytes}
    (found : s.lruIndex.lookup key = some p) (stored : s.heap.entry p = some (key, value))
    (nextAlive : ∀ y, s.heap.next p = some y → s.heap.Alive y ∧ y ≠ p)
    (prevAlive : ∀ z, s.heap.prev p = some z → s.heap.Alive z ∧ z ≠ p ∧ s.heap.next z = some p)
    (isHead : s.heap.prev p = none → s.lruHead = some p) (enough : 0 < s.heapEnd) :
    ∃ s', (delete key).run s = pure (true, s') ∧ Deleted s s' p key (nodeSize key value) := by
  have alive := Heap.alive_of_entry stored
  have keyEq := Heap.nodeAt_key stored
  have valueEq := Heap.nodeAt_value stored
  have bypassed := run_bypassBackwards (s := { s with
    freeSize := CInt.toUnsigned 64 (s.freeSize + nodeSize key value)
    lruIndex := s.lruIndex.erase key }) (s.heap.nodeAt p)
  rw [Heap.nodeAt_next, Heap.nodeAt_prev] at bypassed
  simp only [delete, StateT.run_bind, StateT.run_get, pure_bind, found, run_node alive, run_addFree,
    StateT.run_modify, keyEq, valueEq, bypassed fun y next => (nextAlive y next).1]
  have notNext : s.heap.next p ≠ some p := fun equal => (nextAlive p equal).2 rfl
  have prevAfter := Heap.prev_redirectPrev (h := s.heap) (o := s.heap.next p) (q := s.heap.prev p)
    fun y next => (nextAlive y next).1
  have prevKept : (s.heap.redirectPrev (s.heap.next p) (s.heap.prev p)).prev p = s.heap.prev p := by
    rw [prevAfter, redirect_of_ne notNext]
  cases prevEq : s.heap.prev p with
  | none =>
    rw [prevEq] at prevAfter prevKept
    refine ⟨{ s with
      freeSize := CInt.toUnsigned 64 (s.freeSize + nodeSize key value)
      lruHead := s.heap.next p
      lruTail := if s.heap.next p = none then none else s.lruTail
      lruIndex := s.lruIndex.erase key
      heap := ((s.heap.redirectPrev (s.heap.next p) none).withNext p none).freed p }, ?_, ?_⟩
    · have owned := run_resetHead_owner (s := { s with
        freeSize := CInt.toUnsigned 64 (s.freeSize + nodeSize key value)
        lruTail := if s.heap.next p = none then none else s.lruTail
        lruIndex := s.lruIndex.erase key
        heap := (s.heap.redirectPrev (s.heap.next p) none).withNext p none }) (s.heap.next p)
        (isHead prevEq) (by simpa using alive) (by simp [alive]) enough
      simp [alive, prevKept, owned]
    · constructor <;> simp +contextual [alive, prevAfter, prevEq, Heap.alive_freed]
  | some z =>
    obtain ⟨aliveZ, distinct, ownedBy⟩ := prevAlive z prevEq
    rw [prevEq] at prevAfter prevKept
    refine ⟨{ s with
      freeSize := CInt.toUnsigned 64 (s.freeSize + nodeSize key value)
      lruTail := if s.heap.next p = none then some z else s.lruTail
      lruIndex := s.lruIndex.erase key
      heap := (((s.heap.redirectPrev (s.heap.next p) (some z)).withNext p none).withNext z
        (s.heap.next p)).freed p }, ?_, ?_⟩
    · have owned := run_resetNext_owner (s := { s with
        freeSize := CInt.toUnsigned 64 (s.freeSize + nodeSize key value)
        lruTail := if s.heap.next p = none then some z else s.lruTail
        lruIndex := s.lruIndex.erase key
        heap := (s.heap.redirectPrev (s.heap.next p) (some z)).withNext p none }) (p := z) (q := p)
        (s.heap.next p) (by simpa using aliveZ) (by simp [alive, distinct, ownedBy]) distinct.symm
        (by simpa using alive) (by simp [alive]) enough
      simp [alive, prevKept, owned]
    · constructor <;>
        simp +contextual [alive, aliveZ, prevAfter, prevEq, Heap.alive_freed, Function.update_apply]

theorem Deleted.represents {s s' : SimpleLRU} {before after : List Item} {p : Ptr} {key value : Bytes}
    (deleted : Deleted s s' p key (nodeSize key value))
    (represents : Represents s (before ++ (p, key, value) :: after)) : Represents s' (before ++ after) := by
  have linked := represents.linked_middle
  have nextEq : s.heap.next p = (after.map Prod.fst).head? := represents.next_eq
  have prevEq : s.heap.prev p = (before.map Prod.fst).getLast? := represents.prev_eq
  have unlinked := linked.unlink
  rw [← nextEq, ← prevEq] at unlinked
  have headEq : s'.lruHead = (before.map Prod.fst ++ after.map Prod.fst).head? := by
    rw [deleted.lruHead, prevEq, nextEq, linked.head_eq]
    cases before <;> simp
  have tailEq : s'.lruTail = (before.map Prod.fst ++ after.map Prod.fst).getLast? := by
    rw [deleted.lruTail, prevEq, nextEq, linked.tail_eq]
    cases after <;> simp
  exact
    { linked := by
        rw [List.map_append, headEq, tailEq]
        apply unlinked.congr
        · intro r listed
          rw [← List.map_append] at listed
          exact deleted.next r (represents.others_alive listed).2
        · intro r listed
          rw [← List.map_append] at listed
          exact deleted.prev r (represents.others_alive listed).2
      stored := by
        intro item itemMember
        rw [deleted.entry item.1 (represents.others_alive (List.mem_map_of_mem itemMember)).2]
        apply represents.stored
        simp only [List.mem_append, List.mem_cons] at itemMember ⊢
        tauto
      live := by
        intro r alive
        obtain ⟨distinct, alive⟩ := deleted.alive r alive
        have listed := represents.live r alive
        rw [List.map_append, List.map_cons, List.mem_append, List.mem_cons] at listed
        rw [List.map_append, List.mem_append]
        tauto
      keysNodup := by
        refine List.Nodup.sublist ?_ represents.keysNodup
        exact ((List.Sublist.append_left (List.sublist_cons_self _ _) _).map Prod.snd).map Prod.fst
      indexed := by
        intro key' r
        rw [deleted.lruIndex]
        by_cases same : key' = key
        · subst same
          rw [AList.lookup_erase]
          simp only [reduceCtorEq, false_iff, not_exists]
          intro value' listed
          exact represents.key_absent (List.mem_map.mpr ⟨_, List.mem_map_of_mem listed, rfl⟩)
        · rw [AList.lookup_erase_ne same, represents.indexed]
          refine exists_congr fun value' => ?_
          simp only [List.mem_append, List.mem_cons, Prod.mk.injEq]
          tauto
      allocated := by
        intro r listed
        rw [deleted.heapEnd]
        apply represents.allocated
        rw [List.map_append, List.mem_append] at listed
        rw [List.map_append, List.map_cons, List.mem_append, List.mem_cons]
        tauto
      accounted := by
        have accounted := represents.accounted
        have bounded := represents.bounded
        simp only [itemsSize_append, itemsSize_cons, entrySize] at accounted
        rw [deleted.freeSize, deleted.maxSize, itemsSize_append, ← Int.natCast_add,
          CInt.toUnsigned_natCast (by omega)]
        omega
      bounded := by
        rw [deleted.maxSize]
        exact represents.bounded }

theorem delete_present {s : SimpleLRU} {before after : List Item} {p : Ptr} {key value : Bytes}
    (represents : Represents s (before ++ (p, key, value) :: after)) :
    ∃ s', (delete key).run s = pure (true, s') ∧ Represents s' (before ++ after) ∧
      s'.maxSize = s.maxSize := by
  have member : (p, key, value) ∈ before ++ (p, key, value) :: after := by simp
  have linked := represents.linked_middle
  have nextEq : s.heap.next p = (after.map Prod.fst).head? := represents.next_eq
  have prevEq : s.heap.prev p = (before.map Prod.fst).getLast? := represents.prev_eq
  obtain ⟨s', ran, deleted⟩ := delete_run (represents.lookup_eq member)
    (represents.stored _ member)
    (fun y next => by
      rw [nextEq] at next
      apply represents.others_alive
      rw [List.map_append]
      exact List.mem_append_right _ (List.mem_of_head? next))
    (fun z prev => by
      rw [prevEq] at prev
      have ⟨alive, distinct⟩ := represents.others_alive (r := z) (by
        rw [List.map_append]
        exact List.mem_append_left _ (List.mem_of_getLast? prev))
      refine ⟨alive, distinct, ?_⟩
      obtain ⟨front, split⟩ := List.getLast?_eq_some_iff.mp prev
      rw [split, List.append_assoc] at linked
      exact linked.next_eq)
    (fun prev => by
      rw [prevEq, List.getLast?_eq_none_iff] at prev
      rw [linked.head_eq, prev]
      rfl)
    (Nat.zero_lt_of_lt (represents.allocated p (List.mem_map_of_mem member)))
  exact ⟨s', ran, deleted.represents represents, deleted.maxSize⟩

/-! ## `MoveToHead` -/

/-- The memory after `moveToHead` has moved the node at `p`, with predecessor `z`,
    in front of the head `h`. -/
structure Moved (s s' : SimpleLRU) (p z h : Ptr) : Prop where
  next : s'.heap.next =
    Function.update (Function.update s.heap.next z (s.heap.next p)) p (some h)
  prev : s'.heap.prev =
    Function.update (Function.update (redirect s.heap.prev (s.heap.next p) (some z)) h (some p)) p none
  entry : ∀ r, s'.heap.entry r = s.heap.entry r
  alive : ∀ r, s'.heap.Alive r ↔ s.heap.Alive r
  lruHead : s'.lruHead = some p
  lruTail : s'.lruTail = if s.heap.next p = none then some z else s.lruTail
  lruIndex : s'.lruIndex = s.lruIndex
  heapEnd : s'.heapEnd = s.heapEnd
  maxSize : s'.maxSize = s.maxSize
  freeSize : s'.freeSize = s.freeSize

theorem moveToHead_run {s : SimpleLRU} {p z h : Ptr} {key headKey headValue : Bytes}
    (found : s.lruIndex.lookup key = some p) (head : s.lruHead = some h)
    (headStored : s.heap.entry h = some (headKey, headValue)) (notHead : headKey ≠ key)
    (distinctHead : h ≠ p) (alive : s.heap.Alive p) (aliveZ : s.heap.Alive z) (distinct : z ≠ p)
    (prevEq : s.heap.prev p = some z) (prevZ : z ≠ h → s.heap.prev z ≠ none)
    (nextAlive : ∀ y, s.heap.next p = some y → s.heap.Alive y ∧ y ≠ p ∧ y ≠ z) :
    ∃ s', (moveToHead key).run s = pure (some p, s') ∧ Moved s s' p z h := by
  have aliveHead := Heap.alive_of_entry headStored
  have keyEq := Heap.nodeAt_key headStored
  have bypassed := run_bypassBackwards (s := s) (s.heap.nodeAt p)
  rw [Heap.nodeAt_next, Heap.nodeAt_prev, prevEq] at bypassed
  have prevAfter := Heap.prev_redirectPrev (h := s.heap) (o := s.heap.next p) (q := some z)
    fun y next => (nextAlive y next).1
  have notNext : s.heap.next p ≠ some p := fun equal => (nextAlive p equal).2.1 rfl
  have notNextZ : s.heap.next p ≠ some z := fun equal => (nextAlive z equal).2.2 rfl
  have prevKept : (s.heap.redirectPrev (s.heap.next p) (some z)).prev p = some z := by
    rw [prevAfter, redirect_of_ne notNext, prevEq]
  -- the guard on a predecessor without `prev` never fires: the head's was just set
  have guarded : (if z = h then some p else
      (s.heap.redirectPrev (s.heap.next p) (some z)).prev z) ≠ none := by
    split
    · simp
    · rename_i inner
      rw [prevAfter, redirect_of_ne notNextZ]
      exact prevZ inner
  simp only [moveToHead, StateT.run_bind, StateT.run_get, pure_bind, found, head, run_node aliveHead,
    keyEq, if_neg notHead, run_node alive, bypassed fun y next => (nextAlive y next).1]
  refine ⟨{ s with
    lruHead := some p
    lruTail := if s.heap.next p = none then some z else s.lruTail
    heap := ((((((s.heap.redirectPrev (s.heap.next p) (some z)).withPrev h (some p)).withNext z
      none).withNext p none).withNext z (s.heap.next p)).withNext p (some h)).withPrev p none }, ?_, ?_⟩
  · simp [aliveHead, alive, aliveZ, prevKept, Function.update_apply, distinct, distinctHead.symm, distinct.symm,
      guarded]
  · constructor <;> simp [alive, aliveZ, aliveHead, prevAfter]
    funext r
    simp only [Function.update_apply]
    split
    · rfl
    · split <;> rfl

theorem Represents.reorder {s s' : SimpleLRU} {items items' : List Item}
    (represents : Represents s items) (permuted : items'.Perm items)
    (linked : Linked s'.heap.next s'.heap.prev s'.lruHead s'.lruTail (items'.map Prod.fst))
    (entry : ∀ r, s'.heap.entry r = s.heap.entry r) (alive : ∀ r, s'.heap.Alive r ↔ s.heap.Alive r)
    (lruIndex : s'.lruIndex = s.lruIndex) (heapEnd : s'.heapEnd = s.heapEnd)
    (maxSize : s'.maxSize = s.maxSize) (freeSize : s'.freeSize = s.freeSize) :
    Represents s' items' where
  linked := linked
  stored := by
    intro item member
    rw [entry]
    exact represents.stored item (permuted.mem_iff.mp member)
  live := by
    intro r live
    rw [(permuted.map Prod.fst).mem_iff]
    exact represents.live r ((alive r).mp live)
  keysNodup := (((permuted.map Prod.snd).map Prod.fst).nodup_iff).mpr represents.keysNodup
  indexed := by
    intro key p
    rw [lruIndex, represents.indexed]
    exact exists_congr fun value => permuted.mem_iff.symm
  allocated := by
    intro r listed
    rw [heapEnd]
    exact represents.allocated r ((permuted.map Prod.fst).mem_iff.mp listed)
  accounted := by
    have same : itemsSize items' = itemsSize items :=
      ((permuted.map Prod.snd).map entrySize).sum_nat
    rw [same, freeSize, maxSize]
    exact represents.accounted
  bounded := by
    rw [maxSize]
    exact represents.bounded

theorem moveToHead_absent {s : SimpleLRU} {items : List Item} {key : Bytes}
    (represents : Represents s items) (absent : key ∉ (items.map Prod.snd).map Prod.fst) :
    (moveToHead key).run s = pure (none, s) := by
  simp [moveToHead, represents.lookup_absent absent]

theorem moveToHead_present {s : SimpleLRU} {before after : List Item} {p : Ptr} {key value : Bytes}
    (represents : Represents s (before ++ (p, key, value) :: after)) :
    ∃ s', (moveToHead key).run s = pure (some p, s') ∧
      Represents s' ((p, key, value) :: (before ++ after)) ∧ s'.maxSize = s.maxSize := by
  have member : (p, key, value) ∈ before ++ (p, key, value) :: after := by simp
  have found := represents.lookup_eq member
  have stored := represents.stored _ member
  have alive := represents.alive member
  have linked := represents.linked_middle
  have nextEq : s.heap.next p = (after.map Prod.fst).head? := represents.next_eq
  have prevEq : s.heap.prev p = (before.map Prod.fst).getLast? := represents.prev_eq
  cases before with
  | nil =>
    refine ⟨s, ?_, represents, rfl⟩
    have head : s.lruHead = some p := linked.head_eq
    simp [moveToHead, found, head, run_node alive, Heap.nodeAt_key stored]
  | cons first before =>
    obtain ⟨h, headKey, headValue⟩ := first
    have headStored : s.heap.entry h = some (headKey, headValue) := represents.stored (h, _, _) (by simp)
    have head : s.lruHead = some h := linked.head_eq
    have notHead : headKey ≠ key := fun equal => represents.key_absent (by simp [equal])
    obtain ⟨z, lastEq⟩ : ∃ z, (((h, headKey, headValue) :: before).map Prod.fst).getLast? = some z :=
      ⟨_, List.getLast?_eq_some_getLast (by simp)⟩
    rw [lastEq] at prevEq
    have zListed := List.mem_of_getLast? lastEq
    have aliveZ := represents.others_alive (r := z) (by
      rw [List.map_append]
      exact List.mem_append_left _ zListed)
    have pushed := linked.unlink.pushFront (by simpa using represents.node_absent)
    rw [lastEq, ← nextEq] at pushed
    obtain ⟨s', ran, moved⟩ := moveToHead_run found head headStored notHead
      (represents.others_alive (r := h) (by simp)).2 alive aliveZ.1 aliveZ.2 prevEq
      (fun inner => by
        obtain ⟨front, split⟩ := List.getLast?_eq_some_iff.mp lastEq
        rw [split, List.append_assoc] at linked
        have prevZ : s.heap.prev z = front.getLast? := linked.prev_eq
        rw [prevZ]
        cases front with
        | nil =>
          rw [List.map_cons, List.nil_append, List.cons.injEq] at split
          exact absurd split.1.symm inner
        | cons _ _ => simp [List.getLast?_cons])
      (fun y next => by
        rw [nextEq] at next
        have listed := List.mem_of_head? next
        have aliveY := represents.others_alive (r := y) (by
          rw [List.map_append]
          exact List.mem_append_right _ listed)
        refine ⟨aliveY.1, aliveY.2, ?_⟩
        rintro rfl
        have nodup := linked.nodup.sublist
          (List.Sublist.append_left (List.sublist_cons_self _ _) _)
        exact (List.nodup_append.mp nodup).2.2 _ zListed _ listed rfl)
    refine ⟨s', ran, ?_, moved.maxSize⟩
    apply represents.reorder List.perm_middle.symm _ moved.entry moved.alive moved.lruIndex
      moved.heapEnd moved.maxSize moved.freeSize
    have tailEq : s'.lruTail = (((((h, headKey, headValue) :: before).map Prod.fst) ++
        after.map Prod.fst).getLast?).or (some p) := by
      rw [moved.lruTail, nextEq, linked.tail_eq]
      cases after with
      | nil => rw [List.map_nil, List.append_nil, lastEq]; rfl
      | cons second after => simp [List.getLast?_cons]
    rw [moved.next, moved.prev, moved.lruHead, tailEq]
    simpa using pushed

end Afina.Backend
