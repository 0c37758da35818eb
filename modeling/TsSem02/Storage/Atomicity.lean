import TsSem02.Storage.Reachable

/-! # Calls that return false

A call that returns false leaves every byte of the memory as it was, with one
exception: `Put` and `Set` look their key up with `MoveToHead` and compare the
sizes afterwards, so a refused write has already made its key the most recent one
(`failed_overwrite`).  `unchanged_iff` says when the exception can be seen.
-/

namespace Afina.Backend

open LruCache SimpleLRU Runs

/-- `Put` and `Set` find the key they write at the head of the list, if at all. -/
def SimpleLRU.WritesHead (s : SimpleLRU) (op : StorageCall) : Prop :=
  ∀ key value p, op.Overwrites key value → s.lruIndex.lookup key = some p → s.lruHead = some p

section Failed

variable {s s' : SimpleLRU} {items before after : List Item} {p : Ptr} {key value old : Bytes}
  {op : StorageCall} {reply : StorageReply}

/-- A refused write of a present key has done nothing but the move to the head. -/
theorem failed_overwrite (represents : Represents s (before ++ (p, key, old) :: after))
    (overwrites : op.Overwrites key value) (called : Storage.call op s = .ok (reply, s'))
    (failed : reply.ok = false) : (moveToHead key).run s = pure (some p, s') := by
  obtain ⟨s₁, moved, represents₁, maxSize₁⟩ := moveToHead_present represents
  rw [call_eq_overwrite overwrites moved, StateT.run_map] at called
  by_cases fits : nodeSize key value ≤ s₁.maxSize
  · by_cases shorter : value.length < old.length
    · rw [overwrite_faults represents₁ fits shorter] at called
      cases called
    · obtain ⟨s₂, ran, -, -⟩ := overwrite_replaces represents₁ fits (Nat.not_lt.mp shorter)
      rw [ran] at called
      cases called
      cases failed
  · rw [overwrite_refuses (Nat.lt_of_not_le fits)] at called
    cases called
    exact moved

/-- An insertion only fails where `PutInHead` compares the sizes, before it does
    anything. -/
theorem failed_putInHead (represents : Represents s items)
    (absent : key ∉ (items.map Prod.snd).map Prod.fst)
    (called : (StorageReply.flag <$> putInHead key value).run s = .ok (reply, s'))
    (failed : reply.ok = false) : s' = s := by
  rw [StateT.run_map] at called
  by_cases fits : nodeSize key value ≤ s.maxSize
  · obtain ⟨s₁, q, ran, -, -⟩ := putInHead_inserts represents absent fits
    rw [ran] at called
    cases called
    cases failed
  · rw [putInHead_refuses (Nat.lt_of_not_le fits)] at called
    cases called
    rfl

/-- `PutIfAbsent` refuses a present key before it does anything. -/
theorem failed_putIfAbsent (represents : Represents s items)
    (called : (StorageReply.flag <$> putIfAbsent key value).run s = .ok (reply, s'))
    (failed : reply.ok = false) : s' = s := by
  cases indexed : s.lruIndex.lookup key with
  | some p =>
    have refuses : (putIfAbsent key value).run s = pure (false, s) := by
      simp only [putIfAbsent, StateT.run_bind, StateT.run_get, pure_bind, indexed]
      rfl
    rw [run_map_of_run refuses] at called
    cases called
    rfl
  | none =>
    have notListed : key ∉ (items.map Prod.snd).map Prod.fst := by
      intro listed
      obtain ⟨before, p, value', after, rfl⟩ := exists_item_split listed
      have listedThere : (p, key, value') ∈ before ++ (p, key, value') :: after := by simp
      rw [represents.lookup_eq listedThere] at indexed
      cases indexed
    have inserts : (putIfAbsent key value).run s = (putInHead key value).run s := by
      simp only [putIfAbsent, StateT.run_bind, StateT.run_get, pure_bind, indexed]
    rw [StateT.run_map, inserts, ← StateT.run_map] at called
    exact failed_putInHead represents notListed called failed

theorem failed_delete (represents : Represents s items)
    (called : (StorageReply.flag <$> delete key).run s = .ok (reply, s')) (failed : reply.ok = false) :
    s' = s := by
  by_cases listed : key ∈ (items.map Prod.snd).map Prod.fst
  · obtain ⟨before, p, value, after, rfl⟩ := exists_item_split listed
    obtain ⟨s₁, ran, -, -⟩ := delete_present represents
    rw [run_map_of_run ran] at called
    cases called
    cases failed
  · rw [run_map_of_run (delete_absent represents listed)] at called
    cases called
    rfl

theorem failed_get (represents : Represents s items)
    (called : (StorageReply.found <$> SimpleLRU.get key).run s = .ok (reply, s')) (failed : reply.ok = false) :
    s' = s := by
  by_cases listed : key ∈ (items.map Prod.snd).map Prod.fst
  · obtain ⟨before, p, value, after, rfl⟩ := exists_item_split listed
    obtain ⟨s₁, moved, represents₁, -⟩ := moveToHead_present represents
    have stored := represents₁.stored _ List.mem_cons_self
    have finds : (SimpleLRU.get key).run s = pure (some value, s₁) := by
      simp only [SimpleLRU.get, StateT.run_bind, moved, pure_bind,
        run_node (Heap.alive_of_entry stored), Heap.nodeAt_value stored]
      rfl
    rw [run_map_of_run finds] at called
    cases called
    cases failed
  · have misses : (SimpleLRU.get key).run s = pure (none, s) := by
      simp only [SimpleLRU.get, StateT.run_bind, moveToHead_absent represents listed, pure_bind]
      rfl
    rw [run_map_of_run misses] at called
    cases called
    rfl

theorem failed_other (represents : Represents s items)
    (absent : ∀ key value, op.Overwrites key value → key ∉ (items.map Prod.snd).map Prod.fst)
    (called : Storage.call op s = .ok (reply, s')) (failed : reply.ok = false) : s' = s := by
  cases op with
  | put key value =>
    have notListed := absent key value (.inl rfl)
    have inserts : (put key value).run s = (putInHead key value).run s := by
      simp only [put, StateT.run_bind, moveToHead_absent represents notListed, pure_bind]
    have calls : (StorageReply.flag <$> put key value).run s = .ok (reply, s') := called
    rw [StateT.run_map, inserts, ← StateT.run_map] at calls
    exact failed_putInHead represents notListed calls failed
  | set key value =>
    have misses : (SimpleLRU.set key value).run s = pure (false, s) := by
      simp only [SimpleLRU.set, StateT.run_bind,
        moveToHead_absent represents (absent key value (.inr rfl)), pure_bind]
      rfl
    have calls : (StorageReply.flag <$> SimpleLRU.set key value).run s = .ok (reply, s') := called
    rw [run_map_of_run misses] at calls
    cases calls
    rfl
  | putIfAbsent key value => exact failed_putIfAbsent represents called failed
  | delete key => exact failed_delete represents called failed
  | get key => exact failed_get represents called failed

theorem moveToHead_head (represents : Represents s items) (found : s.lruIndex.lookup key = some p)
    (head : s.lruHead = some p) : (moveToHead key).run s = pure (some p, s) := by
  obtain ⟨value, member⟩ := (represents.indexed key p).mp found
  have stored := represents.stored _ member
  simp [moveToHead, found, head, run_node (Heap.alive_of_entry stored), Heap.nodeAt_key stored]

theorem Holds.head_key {entries : List (Bytes × Bytes)} (holds : Holds s entries)
    (represents : Represents s ((p, key, value) :: items)) : (entries.map Prod.fst).head? = some key := by
  obtain ⟨chain, wellFormed, rfl⟩ := holds
  have head : s.lruHead = some p := represents.linked.head_eq
  have stored := represents.stored _ List.mem_cons_self
  have first := wellFormed.head
  rw [head] at first
  cases chain with
  | nil => cases first
  | cons cell chain =>
    obtain ⟨q, n⟩ := cell
    have same : p = q := Option.some.inj first
    subst same
    have cell := wellFormed.cells p n List.mem_cons_self
    have keyEq := Heap.nodeAt_key stored
    rw [Heap.nodeAt, cell] at keyEq
    exact congrArg some keyEq

end Failed

/-- A call that returns false changes neither the memory nor, which would show
    later, the recency order, unless it is a refused write of a present key that
    is not the most recent one. -/
theorem unchanged_iff {maxSize : Nat} {s s' : SimpleLRU} {op : StorageCall} {reply : StorageReply}
    (bounded : maxSize < 2 ^ 63) (reachable : Reachable maxSize s)
    (called : Storage.call op s = .ok (reply, s')) (failed : reply.ok = false) :
    (s' = s ↔ s.WritesHead op) ∧
      ((∀ entries, Holds s entries → Holds s' entries) ↔ s.WritesHead op) := by
  obtain ⟨items, represents⟩ := reachable.represents bounded
  have holds : Holds s (items.map Prod.snd) :=
    ⟨cellsOf s items, represents.wellFormed, by rw [represents.map_cellsOf Prod.mk]⟩
  have unchanged : s.WritesHead op → s' = s := by
    intro writesHead
    by_cases present : ∃ key value, op.Overwrites key value ∧ key ∈ (items.map Prod.snd).map Prod.fst
    · obtain ⟨key, value, overwrites, listed⟩ := present
      obtain ⟨before, p, old, after, rfl⟩ := exists_item_split listed
      have member : (p, key, old) ∈ before ++ (p, key, old) :: after := by simp
      have found := represents.lookup_eq member
      have moved := failed_overwrite represents overwrites called failed
      rw [moveToHead_head represents found (writesHead key value p overwrites found)] at moved
      cases moved
      rfl
    · refine failed_other represents (fun key value overwrites listed => ?_) called failed
      exact present ⟨key, value, overwrites, listed⟩
  have reorders : (∀ entries, Holds s entries → Holds s' entries) → s.WritesHead op := by
    intro sameOrder key value p overwrites found
    obtain ⟨before, old, after, rfl, -⟩ := represents.exists_of_lookup found
    have moved := failed_overwrite represents overwrites called failed
    obtain ⟨s₁, moved₁, represents₁, -⟩ := moveToHead_present represents
    rw [moved] at moved₁
    cases moved₁
    have first := (sameOrder _ holds).head_key represents₁
    cases before with
    | nil => exact represents.linked.head_eq
    | cons item before =>
      have same : item.2.1 = key := Option.some.inj first
      exact absurd (by simp [same]) represents.key_absent
  exact ⟨⟨fun same => reorders (same ▸ fun _ => id), unchanged⟩,
    reorders, fun writesHead entries => (unchanged writesHead) ▸ id⟩

/-- A write of four bytes under the key at the head of a cache of three bytes. -/
theorem unchanged_iff_head : ∃ s s',
    runs Storage.call [.put [1] [2]] (SimpleLRU.fresh 3) = .ok ([.flag true], s) ∧
      Storage.call (.put [1] [2, 3, 4]) s = .ok (.flag false, s') ∧
        (s' = s ↔ s.WritesHead (.put [1] [2, 3, 4])) ∧
          ((∀ entries, Holds s entries → Holds s' entries) ↔ s.WritesHead (.put [1] [2, 3, 4])) := by
  refine ⟨_, _, rfl, rfl, ?_⟩
  have three : 3 < 2 ^ 63 := by decide
  exact unchanged_iff three ⟨[.put [1] [2]], _, rfl⟩ rfl rfl

/-- A refused `Put` saves its key from the next eviction. -/
theorem refused_put_reorders : ¬ ∀ maxSize < 2 ^ 63, ∀ s op reply s', Reachable maxSize s →
    Storage.call op s = .ok (reply, s') → reply.ok = false → s' = s := by
  intro always
  have same := always 4 (by decide) _ (.put [1] [2, 3, 4, 5]) _ _
    ⟨[.put [1] [2], .put [3] [4]], _, rfl⟩ rfl rfl
  have head := congrArg SimpleLRU.lruHead same
  cases head

end Afina.Backend
