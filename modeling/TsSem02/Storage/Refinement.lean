import TsSem02.Storage.Eviction

/-! # `SimpleLRU` refines the byte-bounded LRU cache

`Refines s cache` relates a memory to an abstract cache of the same capacity.  A
storage call on related states does the same on both sides (`call_refines`),
except when it replaces a value by a shorter one: then it never completes
(`call_faults`).
-/

namespace Afina.Backend

open Association LruCache SimpleLRU Runs

/-- The abstract cache of a `SimpleLRU` of `maxSize` bytes. -/
abbrev ByteCache (maxSize : Nat) := Cache entrySize maxSize

def ByteCache.call {maxSize : Nat} (op : StorageCall) (cache : ByteCache maxSize) :
    StorageReply × ByteCache maxSize :=
  match op with
  | .put key value => (cache.put key value).map .flag id
  | .putIfAbsent key value => (cache.putIfAbsent key value).map .flag id
  | .set key value => (cache.set key value).map .flag id
  | .delete key => (cache.delete key).map .flag id
  | .get key => (cache.get key).map .found id

structure Refines {maxSize : Nat} (s : SimpleLRU) (cache : ByteCache maxSize) : Prop where
  maxSize_eq : s.maxSize = maxSize
  represents : ∃ items, Represents s items ∧ cache.entries = items.map Prod.snd

/-- The value stored under `key`. -/
def SimpleLRU.valueOf (s : SimpleLRU) (key : Bytes) : Option Bytes :=
  (s.lruIndex.lookup key).bind fun p => (s.heap p).map LruNode.value

/-- `Put` or `Set` replacing a value by a shorter one. -/
def SimpleLRU.Shrinks (s : SimpleLRU) (op : StorageCall) : Prop :=
  ∃ key value old, op.Overwrites key value ∧ s.valueOf key = some old ∧ value.length < old.length

theorem Represents.refines {s : SimpleLRU} {items : List Item} (represents : Represents s items) :
    ∃ cache : ByteCache s.maxSize, Refines s cache := by
  have within : total entrySize (items.map Prod.snd) ≤ s.maxSize := by
    have accounted := represents.accounted
    rw [itemsSize] at accounted
    omega
  exact ⟨⟨items.map Prod.snd, represents.keysNodup, within⟩, rfl, items, represents, rfl⟩

theorem refines_fresh {maxSize : Nat} (bounded : maxSize < 2 ^ 63) :
    Refines (SimpleLRU.fresh maxSize) (Cache.empty : ByteCache maxSize) :=
  ⟨rfl, [], represents_fresh bounded, rfl⟩

section Lookups

variable {maxSize : Nat} {cache : ByteCache maxSize} {s : SimpleLRU} {items : List Item}
  {key value : Bytes}

theorem absent_of_lookup (entries : cache.entries = items.map Prod.snd)
    (absent : cache.lookup key = none) : key ∉ (items.map Prod.snd).map Prod.fst := by
  rw [← entries]
  exact lookup_eq_none_iff_absent.mp absent

/-- A key found in the cache is at one place of the list, and what is around it
    are the other entries. -/
theorem split_of_lookup (represents : Represents s items)
    (entries : cache.entries = items.map Prod.snd) (found : cache.lookup key = some value) :
    ∃ before p after, items = before ++ (p, key, value) :: after ∧
      (before ++ after).map Prod.snd = without key cache.entries := by
  have member : (key, value) ∈ items.map Prod.snd := by
    obtain ⟨before, after, split⟩ := exists_split_of_lookup found
    rw [← entries, split]
    simp
  obtain ⟨⟨p, _⟩, listed, rfl⟩ := List.mem_map.mp member
  obtain ⟨before, after, rfl⟩ := List.mem_iff_append.mp listed
  refine ⟨before, p, after, rfl, ?_⟩
  have keysNodup := represents.keysNodup
  rw [List.map_append, List.map_cons] at entries keysNodup
  rw [entries, without_middle keysNodup, List.map_append]

theorem Represents.valueOf_eq {p : Ptr} (represents : Represents s items)
    (member : (p, key, value) ∈ items) : s.valueOf key = some value := by
  have stored := represents.stored _ member
  have alive := represents.alive member
  obtain ⟨n, cell⟩ := Option.isSome_iff_exists.mp alive
  have valueEq : n.value = value := by
    have read := Heap.nodeAt_value stored
    rwa [Heap.nodeAt, cell] at read
  rw [valueOf, represents.lookup_eq member]
  simp [cell, valueEq]

theorem Refines.valueOf_eq (refines : Refines s cache) (key : Bytes) :
    s.valueOf key = cache.lookup key := by
  obtain ⟨items, represents, entries⟩ := refines.represents
  cases found : cache.lookup key with
  | none =>
    rw [valueOf, represents.lookup_absent (absent_of_lookup entries found)]
    rfl
  | some value =>
    obtain ⟨before, p, after, rfl, -⟩ := split_of_lookup represents entries found
    exact represents.valueOf_eq (p := p) (by simp)

end Lookups

/-! ## The operations -/

section Operations

variable {maxSize : Nat} {s : SimpleLRU} {cache : ByteCache maxSize} {key value : Bytes}

theorem moveToHead_refines_absent (refines : Refines s cache) (absent : cache.lookup key = none) :
    (moveToHead key).run s = pure (none, s) := by
  obtain ⟨items, represents, entries⟩ := refines.represents
  exact moveToHead_absent represents (absent_of_lookup entries absent)

theorem moveToHead_refines {old : Bytes} (refines : Refines s cache)
    (found : cache.lookup key = some old) :
    ∃ s' p others, (moveToHead key).run s = pure (some p, s') ∧ s'.maxSize = s.maxSize ∧
      Represents s' ((p, key, old) :: others) ∧ others.map Prod.snd = without key cache.entries ∧
      s.lruIndex.lookup key = some p := by
  obtain ⟨items, represents, entries⟩ := refines.represents
  obtain ⟨before, p, after, rfl, others⟩ := split_of_lookup represents entries found
  obtain ⟨s', ran, represents', maxSize⟩ := moveToHead_present represents
  have member : (p, key, old) ∈ before ++ (p, key, old) :: after := by simp
  exact ⟨s', p, before ++ after, ran, maxSize, represents', others, represents.lookup_eq member⟩

theorem touch_refines {s' : SimpleLRU} {p : Ptr} {old : Bytes} {others : List Item}
    (found : cache.lookup key = some old) (maxSize_eq : s'.maxSize = maxSize)
    (represents : Represents s' ((p, key, old) :: others))
    (rest : others.map Prod.snd = without key cache.entries) : Refines s' (cache.touch key) := by
  refine ⟨maxSize_eq, _, represents, ?_⟩
  rw [Cache.entries_touch found, List.map_cons, rest]

theorem store_refines {s' : SimpleLRU} {p : Ptr} {others : List Item}
    (fits : entrySize (key, value) ≤ maxSize) (maxSize_eq : s'.maxSize = maxSize)
    (represents : Represents s'
      ((p, key, value) :: keep (maxSize - entrySize (key, value)) others))
    (rest : others.map Prod.snd = without key cache.entries) :
    Refines s' (cache.store key value fits) := by
  refine ⟨maxSize_eq, _, represents, ?_⟩
  rw [Cache.entries_store, List.map_cons, keep_entries, rest]

theorem overwrite_refines {p : Ptr} {old : Bytes} {others : List Item}
    (found : cache.lookup key = some old) (maxSize_eq : s.maxSize = maxSize)
    (represents : Represents s ((p, key, old) :: others))
    (rest : others.map Prod.snd = without key cache.entries)
    (notShorter : old.length ≤ value.length) :
    ∃ s', (overwrite p key value).run s = pure ((cache.put key value).1, s') ∧
      Refines s' (cache.put key value).2 := by
  by_cases fits : entrySize (key, value) ≤ maxSize
  · rw [Cache.put, dif_pos fits]
    obtain ⟨s', ran, represents', maxSize'⟩ :=
      overwrite_replaces represents (maxSize_eq ▸ fits) notShorter
    rw [maxSize_eq] at represents'
    exact ⟨s', ran, store_refines fits (maxSize'.trans maxSize_eq) represents' rest⟩
  · -- a value that is refused leaves the old one, which has moved to the head already
    rw [Cache.put, dif_neg fits]
    have large : s.maxSize < nodeSize key value := maxSize_eq ▸ Nat.lt_of_not_le fits
    exact ⟨s, overwrite_refuses large, touch_refines found maxSize_eq represents rest⟩

variable (value) in
theorem putInHead_refines (refines : Refines s cache) (absent : cache.lookup key = none) :
    ∃ s', (putInHead key value).run s = pure ((cache.put key value).1, s') ∧
      Refines s' (cache.put key value).2 := by
  obtain ⟨items, represents, entries⟩ := refines.represents
  have notListed := absent_of_lookup entries absent
  have maxSize_eq := refines.maxSize_eq
  by_cases fits : entrySize (key, value) ≤ maxSize
  · rw [Cache.put, dif_pos fits]
    obtain ⟨s', p, ran, represents', maxSize'⟩ :=
      putInHead_inserts represents notListed (maxSize_eq ▸ fits)
    rw [maxSize_eq] at represents'
    have rest : items.map Prod.snd = without key cache.entries := by
      rw [entries, without_of_absent notListed]
    exact ⟨s', ran, store_refines fits (maxSize'.trans maxSize_eq) represents' rest⟩
  · rw [Cache.put, dif_neg fits, Cache.touch_of_absent absent]
    have large : s.maxSize < nodeSize key value := maxSize_eq ▸ Nat.lt_of_not_le fits
    exact ⟨s, putInHead_refuses large, refines⟩

theorem put_eq_overwrite {s' : SimpleLRU} {p : Ptr}
    (moved : (moveToHead key).run s = pure (some p, s')) :
    (put key value).run s = (overwrite p key value).run s' := by
  simp only [put, StateT.run_bind, moved, pure_bind]

theorem set_eq_overwrite {s' : SimpleLRU} {p : Ptr}
    (moved : (moveToHead key).run s = pure (some p, s')) :
    (SimpleLRU.set key value).run s = (overwrite p key value).run s' := by
  simp only [SimpleLRU.set, StateT.run_bind, moved, pure_bind]

theorem put_refines (refines : Refines s cache) (keeps : ¬ s.Shrinks (.put key value)) :
    ∃ s', (put key value).run s = pure ((cache.put key value).1, s') ∧
      Refines s' (cache.put key value).2 := by
  cases found : cache.lookup key with
  | none =>
    obtain ⟨s', ran, refines'⟩ := putInHead_refines value refines found
    refine ⟨s', ?_, refines'⟩
    simp only [put, StateT.run_bind, moveToHead_refines_absent refines found, pure_bind, ran]
  | some old =>
    -- with a shorter value the size difference is negative, and wraps around where it is compared
    have notShorter : old.length ≤ value.length :=
      Nat.not_lt.mp fun shorter =>
        keeps ⟨key, value, old, .inl rfl, (refines.valueOf_eq key).trans found, shorter⟩
    obtain ⟨s₁, p, others, moved, maxSize₁, represents, rest, -⟩ := moveToHead_refines refines found
    rw [put_eq_overwrite moved]
    exact overwrite_refines found (maxSize₁.trans refines.maxSize_eq) represents rest notShorter

theorem set_refines (refines : Refines s cache) (keeps : ¬ s.Shrinks (.set key value)) :
    ∃ s', (SimpleLRU.set key value).run s = pure ((cache.set key value).1, s') ∧
      Refines s' (cache.set key value).2 := by
  cases found : cache.lookup key with
  | none =>
    have refused : cache.set key value = (false, cache) := by simp [Cache.set, found]
    rw [refused]
    refine ⟨s, ?_, refines⟩
    simp only [SimpleLRU.set, StateT.run_bind, moveToHead_refines_absent refines found, pure_bind]
    rfl
  | some old =>
    have replaced : cache.set key value = cache.put key value := by simp [Cache.set, found]
    have notShorter : old.length ≤ value.length :=
      Nat.not_lt.mp fun shorter =>
        keeps ⟨key, value, old, .inr rfl, (refines.valueOf_eq key).trans found, shorter⟩
    obtain ⟨s₁, p, others, moved, maxSize₁, represents, rest, -⟩ := moveToHead_refines refines found
    rw [set_eq_overwrite moved, replaced]
    exact overwrite_refines found (maxSize₁.trans refines.maxSize_eq) represents rest notShorter

theorem putIfAbsent_refines (refines : Refines s cache) :
    ∃ s', (putIfAbsent key value).run s = pure ((cache.putIfAbsent key value).1, s') ∧
      Refines s' (cache.putIfAbsent key value).2 := by
  obtain ⟨items, represents, entries⟩ := refines.represents
  cases found : cache.lookup key with
  | none =>
    have inserted : cache.putIfAbsent key value = cache.put key value := by
      simp [Cache.putIfAbsent, found]
    have notIndexed := represents.lookup_absent (absent_of_lookup entries found)
    obtain ⟨s', ran, refines'⟩ := putInHead_refines value refines found
    rw [inserted]
    refine ⟨s', ?_, refines'⟩
    simp only [putIfAbsent, StateT.run_bind, StateT.run_get, pure_bind, notIndexed, ran]
  | some old =>
    have refused : cache.putIfAbsent key value = (false, cache) := by
      simp [Cache.putIfAbsent, found]
    obtain ⟨before, p, after, rfl, -⟩ := split_of_lookup represents entries found
    have member : (p, key, old) ∈ before ++ (p, key, old) :: after := by simp
    have indexed : s.lruIndex.lookup key = some p := represents.lookup_eq member
    rw [refused]
    refine ⟨s, ?_, refines⟩
    simp only [putIfAbsent, StateT.run_bind, StateT.run_get, pure_bind, indexed]
    rfl

theorem delete_refines (refines : Refines s cache) :
    ∃ s', (delete key).run s = pure ((cache.delete key).1, s') ∧
      Refines s' (cache.delete key).2 := by
  obtain ⟨items, represents, entries⟩ := refines.represents
  cases found : cache.lookup key with
  | none =>
    have notListed := absent_of_lookup entries found
    refine ⟨s, ?_, refines.maxSize_eq, items, represents, ?_⟩
    · rw [delete_absent represents notListed, Cache.delete, found]
      rfl
    · show without key cache.entries = _
      rw [entries, without_of_absent notListed]
  | some value =>
    obtain ⟨before, p, after, rfl, rest⟩ := split_of_lookup represents entries found
    obtain ⟨s', ran, represents', maxSize'⟩ := delete_present represents
    refine ⟨s', ?_, maxSize'.trans refines.maxSize_eq, _, represents', rest.symm⟩
    rw [ran, Cache.delete, found]
    rfl

theorem get_refines (refines : Refines s cache) :
    ∃ s', (SimpleLRU.get key).run s = pure ((cache.get key).1, s') ∧ Refines s' (cache.get key).2 := by
  cases found : cache.lookup key with
  | none =>
    have missed : cache.get key = (none, cache) := by
      rw [Cache.get, found, Cache.touch_of_absent found]
    rw [missed]
    refine ⟨s, ?_, refines⟩
    simp only [SimpleLRU.get, StateT.run_bind, moveToHead_refines_absent refines found, pure_bind]
    rfl
  | some value =>
    obtain ⟨s', p, others, moved, maxSize', represents, rest, -⟩ := moveToHead_refines refines found
    have stored := represents.stored _ List.mem_cons_self
    refine ⟨s', ?_, touch_refines found (maxSize'.trans refines.maxSize_eq) represents rest⟩
    simp only [SimpleLRU.get, StateT.run_bind, moved, pure_bind, run_node (Heap.alive_of_entry stored),
      Heap.nodeAt_value stored, Cache.get, found]
    rfl

end Operations

/-! ## Calls -/

section Calls

variable {maxSize : Nat} {s : SimpleLRU} {cache : ByteCache maxSize} {op : StorageCall}

theorem run_map_of_run {α β : Type} {f : α → β} {m : LruM α} {s s' : SimpleLRU} {a : α}
    (ran : m.run s = pure (a, s')) : (f <$> m).run s = pure (f a, s') := by
  rw [StateT.run_map, ran]
  rfl

theorem call_refines (refines : Refines s cache) (keeps : ¬ s.Shrinks op) :
    ∃ s', Storage.call op s = .ok ((ByteCache.call op cache).1, s') ∧
      Refines s' (ByteCache.call op cache).2 := by
  cases op with
  | put key value =>
    obtain ⟨s', ran, refines'⟩ := put_refines refines keeps
    exact ⟨s', run_map_of_run ran, refines'⟩
  | putIfAbsent key value =>
    obtain ⟨s', ran, refines'⟩ := putIfAbsent_refines refines
    exact ⟨s', run_map_of_run ran, refines'⟩
  | set key value =>
    obtain ⟨s', ran, refines'⟩ := set_refines refines keeps
    exact ⟨s', run_map_of_run ran, refines'⟩
  | delete key =>
    obtain ⟨s', ran, refines'⟩ := delete_refines refines
    exact ⟨s', run_map_of_run ran, refines'⟩
  | get key =>
    obtain ⟨s', ran, refines'⟩ := get_refines refines
    exact ⟨s', run_map_of_run ran, refines'⟩

/-- On a present key, `Put` and `Set` are a move to the head and an overwrite. -/
theorem call_eq_overwrite {key value : Bytes} {s' : SimpleLRU} {p : Ptr}
    (overwrites : op.Overwrites key value) (moved : (moveToHead key).run s = pure (some p, s')) :
    Storage.call op s = (StorageReply.flag <$> overwrite p key value).run s' := by
  cases overwrites with
  | inl isPut =>
    subst isPut
    show (StorageReply.flag <$> put key value).run s = _
    rw [StateT.run_map, put_eq_overwrite moved, StateT.run_map]
  | inr isSet =>
    subst isSet
    show (StorageReply.flag <$> SimpleLRU.set key value).run s = _
    rw [StateT.run_map, set_eq_overwrite moved, StateT.run_map]

theorem call_faults (refines : Refines s cache) (shrinks : s.Shrinks op) :
    Storage.call op s = .error .nullPointer := by
  obtain ⟨key, value, old, overwrites, found, shorter⟩ := shrinks
  rw [refines.valueOf_eq] at found
  obtain ⟨s₁, p, others, moved, -, represents, -, -⟩ := moveToHead_refines refines found
  have oldFits : nodeSize key old ≤ s₁.maxSize := represents.size_le (p, key, old) List.mem_cons_self
  have fits : nodeSize key value ≤ s₁.maxSize :=
    Nat.le_trans (Nat.add_le_add_left (Nat.le_of_lt shorter) _) oldFits
  rw [call_eq_overwrite overwrites moved, StateT.run_map, overwrite_faults represents fits shorter]
  rfl

/-- A call that completes did not shrink a value, so it did what the abstract
    cache does. -/
theorem call_simulates {reply : StorageReply} {s' : SimpleLRU} (refines : Refines s cache)
    (called : Storage.call op s = .ok (reply, s')) :
    (ByteCache.call op cache).1 = reply ∧ Refines s' (ByteCache.call op cache).2 := by
  have keeps : ¬ s.Shrinks op := by
    intro shrinks
    rw [call_faults refines shrinks] at called
    cases called
  obtain ⟨s'', ran, refines'⟩ := call_refines refines keeps
  rw [ran] at called
  cases called
  exact ⟨rfl, refines'⟩

end Calls

end Afina.Backend
