import TsSem02.Library.LruCache

/-! # The working set of an LRU cache

An entry is only evicted by entries that are more recent.  `Guards` says which
keys may be in front of an entry and how much an entry of each key may weigh; as
long as all of that fits in the cache together, every operation on another key
keeps the entry (`Guards.touch`, `Guards.erase`, `Guards.put`).
-/

open Association

namespace LruCache

variable {κ ν : Type*} [DecidableEq κ]

theorem without_append_cons {key other : κ} {value : ν} {ahead behind : List (κ × ν)}
    (distinct : other ≠ key) : without other (ahead ++ (key, value) :: behind) =
      without other ahead ++ (key, value) :: without other behind := by
  have kept : ¬ key = other := fun same => distinct same.symm
  simp [without, kept]

theorem total_le_sum {weight : κ × ν → Nat} {entries : List (κ × ν)} {named : Finset κ} {bound : κ → Nat}
    (nodup : (entries.map Prod.fst).Nodup) (inside : ∀ entry ∈ entries, entry.1 ∈ named)
    (bounded : ∀ entry ∈ entries, weight entry ≤ bound entry.1) :
    total weight entries ≤ named.sum bound := by
  have subset : (entries.map Prod.fst).toFinset ⊆ named := by
    intro key member
    obtain ⟨entry, listed, rfl⟩ := List.mem_map.mp (List.mem_toFinset.mp member)
    exact inside entry listed
  calc total weight entries
      ≤ (entries.map fun entry => bound entry.1).sum := List.sum_le_sum bounded
    _ = (entries.map Prod.fst).toFinset.sum bound := by
        rw [List.sum_toFinset bound nodup, List.map_map]
        rfl
    _ ≤ named.sum bound := Finset.sum_le_sum_of_subset subset

namespace Cache

variable {weight : κ × ν → Nat} {capacity : Nat} {cache : Cache weight capacity} {key other : κ}
  {value new : ν} {named : Finset κ} {bound : κ → Nat}

/-- `key` has `value`; only entries of `named` keys are in front of it, and the
    entries of other keys are within their bounds. -/
structure Guards (cache : Cache weight capacity) (key : κ) (value : ν) (named : Finset κ)
    (bound : κ → Nat) : Prop where
  place : ∃ ahead behind, cache.entries = ahead ++ (key, value) :: behind ∧
    ∀ entry ∈ ahead, entry.1 ∈ named
  bounded : ∀ entry ∈ cache.entries, entry.1 ≠ key → weight entry ≤ bound entry.1

theorem Guards.lookup (guards : cache.Guards key value named bound) :
    cache.lookup key = some value := by
  obtain ⟨ahead, behind, split, -⟩ := guards.place
  exact lookup_of_mem cache.keysNodup (by rw [split]; simp)

omit [DecidableEq κ] in
theorem guards_of_head {rest : List (κ × ν)} (head : cache.entries = (key, value) :: rest)
    (bounded : ∀ entry ∈ cache.entries, entry.1 ≠ key → weight entry ≤ bound entry.1) :
    cache.Guards key value named bound where
  place := ⟨[], rest, head, fun _ member => absurd member List.not_mem_nil⟩
  bounded := bounded

theorem mem_entries_of_lookup (found : cache.lookup key = some value) : (key, value) ∈ cache.entries := by
  obtain ⟨before, after, split⟩ := exists_split_of_lookup found
  rw [split]
  simp

theorem Guards.touch (guards : cache.Guards key value named bound) (names : other = key ∨ other ∈ named) :
    (cache.touch other).Guards key value named bound := by
  cases found : cache.lookup other with
  | none => rw [touch_of_absent found]; exact guards
  | some stored =>
    have entries := entries_touch found
    have bounded : ∀ entry ∈ (cache.touch other).entries, entry.1 ≠ key → weight entry ≤ bound entry.1 := by
      intro entry member distinct
      rw [entries] at member
      cases List.mem_cons.mp member with
      | inl first => exact guards.bounded entry (first ▸ mem_entries_of_lookup found) distinct
      | inr listed => exact guards.bounded entry (mem_without.mp listed).1 distinct
    by_cases same : other = key
    · subst same
      rw [guards.lookup] at found
      cases found
      exact guards_of_head entries bounded
    · obtain ⟨ahead, behind, split, inside⟩ := guards.place
      refine ⟨⟨(other, stored) :: without other ahead, without other behind, ?_, ?_⟩, bounded⟩
      · rw [entries, split, without_append_cons same]
        rfl
      · intro entry member
        cases List.mem_cons.mp member with
        | inl first => rw [first]; exact names.resolve_left same
        | inr listed => exact inside entry (mem_without.mp listed).1

theorem Guards.erase (guards : cache.Guards key value named bound) (distinct : other ≠ key) :
    (cache.erase other).Guards key value named bound := by
  obtain ⟨ahead, behind, split, inside⟩ := guards.place
  refine ⟨⟨without other ahead, without other behind, ?_, ?_⟩, ?_⟩
  · rw [entries_erase, split, without_append_cons distinct]
  · exact fun entry member => inside entry (mem_without.mp member).1
  · intro entry member
    rw [entries_erase] at member
    exact guards.bounded entry (mem_without.mp member).1

/-- A new entry and the ones in front of `key` weigh no more than is allowed for
    the named keys. -/
theorem Guards.total_front_le {ahead behind : List (κ × ν)} (guards : cache.Guards key value named bound)
    (split : cache.entries = ahead ++ (key, value) :: behind) (inside : ∀ entry ∈ ahead, entry.1 ∈ named)
    (member : other ∈ named) (within : weight (other, new) ≤ bound other) :
    total weight ((other, new) :: without other ahead) ≤ named.sum bound := by
  have keys := cache.keysNodup
  rw [split, List.map_append, List.nodup_append] at keys
  obtain ⟨nodup, -, apart⟩ := keys
  have distinctFront : (((other, new) :: without other ahead).map Prod.fst).Nodup :=
    List.nodup_cons.mpr ⟨absent_without other ahead, keys_nodup_without nodup⟩
  refine total_le_sum distinctFront ?_ ?_
  · intro entry listed
    cases List.mem_cons.mp listed with
    | inl first => rw [first]; exact member
    | inr kept => exact inside entry (mem_without.mp kept).1
  · intro entry listed
    cases List.mem_cons.mp listed with
    | inl first => rw [first]; exact within
    | inr kept =>
      have before := (mem_without.mp kept).1
      refine guards.bounded entry (by rw [split]; simp [before]) fun same => ?_
      exact apart entry.1 (List.mem_map_of_mem before) key (by simp) same

/-- What is in front of the entry, the entry and the new one fit together, so the
    eviction stops behind the entry. -/
theorem Guards.store (guards : cache.Guards key value named bound) (distinct : other ≠ key)
    (member : other ∈ named) (within : weight (other, new) ≤ bound other)
    (budget : weight (key, value) + named.sum bound ≤ capacity) (fits : weight (other, new) ≤ capacity) :
    (cache.store other new fits).Guards key value named bound := by
  obtain ⟨ahead, behind, split, inside⟩ := guards.place
  have front := guards.total_front_le split inside member within
  rw [total_cons] at front
  have isPrefix : without other ahead ++ [(key, value)] <+: without other cache.entries := by
    rw [split, without_append_cons distinct]
    exact ⟨without other behind, by simp⟩
  have leaves : total weight (without other ahead ++ [(key, value)]) ≤ capacity - weight (other, new) := by
    rw [total_append, total_cons, total_nil]
    omega
  obtain ⟨rest, kept⟩ := isPrefix_fit weight isPrefix leaves
  refine ⟨⟨(other, new) :: without other ahead, rest, ?_, ?_⟩, ?_⟩
  · rw [entries_store, ← kept]
    simp
  · intro entry listed
    cases List.mem_cons.mp listed with
    | inl first => rw [first]; exact member
    | inr kept => exact inside entry (mem_without.mp kept).1
  · intro entry listed other'
    rw [entries_store] at listed
    cases List.mem_cons.mp listed with
    | inl first => rw [first]; exact within
    | inr kept =>
      have old := (fit_isPrefix weight _ _).subset kept
      exact guards.bounded entry (mem_without.mp old).1 other'

theorem Guards.put (guards : cache.Guards key value named bound) (distinct : other ≠ key)
    (member : other ∈ named) (within : weight (other, new) ≤ bound other)
    (budget : weight (key, value) + named.sum bound ≤ capacity) :
    (cache.put other new).2.Guards key value named bound := by
  rw [Cache.put]
  split
  · next fits => exact guards.store distinct member within budget fits
  · exact guards.touch (.inr member)

end Cache

end LruCache
