import TsSem02.Library.Dictionary
import TsSem02.Library.LruCache

/-! # Caches that are large enough

A cache that has the same entries as a dictionary keeps them through a write, if the
entries of the dictionary still fit afterwards (`Same.put`): eviction is all that tells
the two apart.
-/

namespace LruCache

open Dictionary

variable {κ ν : Type} [DecidableEq κ] {weight : κ × ν → Nat} {capacity : Nat}

/-- The same is found under all keys. -/
def Same (cache : Cache weight capacity) (dict : AList fun _ : κ => ν) : Prop :=
  ∀ key, cache.lookup key = dict.lookup key

variable {cache : Cache weight capacity} {dict : AList fun _ : κ => ν}

theorem same_empty : Same (Cache.empty : Cache weight capacity) ∅ := fun _ => rfl

theorem Same.touch (same : Same cache dict) (key : κ) : Same (cache.touch key) dict :=
  fun other => (Cache.lookup_touch cache key other).trans (same other)

theorem Same.erase (same : Same cache dict) (key : κ) : Same (cache.erase key) (dict.erase key) := by
  intro other
  by_cases equal : other = key
  · subst equal
    rw [AList.lookup_erase]
    exact Association.lookup_eq_none_iff_absent.mpr (absent_without other cache.entries)
  · rw [AList.lookup_erase_ne equal, ← same other]
    exact lookup_without_of_ne equal

/-- With the new entry in front, and without the old one of its key, the entries are
    those of the dictionary. -/
theorem Same.perm_insert (same : Same cache dict) (key : κ) (value : ν) :
    ((key, value) :: without key cache.entries).Perm (pairs (dict.insert key value)) := by
  apply perm_pairs
  · exact List.nodup_cons.mpr ⟨absent_without key cache.entries, keys_nodup_without cache.keysNodup⟩
  · intro other
    by_cases equal : other = key
    · subst equal
      rw [List.lookup_cons_self, AList.lookup_insert]
    · rw [List.lookup_cons, beq_eq_false_iff_ne.mpr equal, AList.lookup_insert_ne equal, ← same other]
      exact lookup_without_of_ne equal

/-- A write that leaves the entries of the dictionary within the capacity evicts
    nothing. -/
theorem Same.put (same : Same cache dict) {key : κ} {value : ν}
    (fits : total weight (pairs (dict.insert key value)) ≤ capacity) :
    (cache.put key value).1 = true ∧ Same (cache.put key value).2 (dict.insert key value) := by
  have perm := same.perm_insert key value
  have within : total weight ((key, value) :: without key cache.entries) ≤ capacity := by
    rwa [total, (perm.map weight).sum_eq]
  rw [total_cons] at within
  have small : weight (key, value) ≤ capacity := Nat.le_trans (Nat.le_add_right _ _) within
  rw [Cache.put, dif_pos small]
  refine ⟨rfl, fun other => ?_⟩
  have kept : (cache.store key value small).entries = (key, value) :: without key cache.entries := by
    rw [Cache.entries_store, fit_eq_self weight (by omega)]
  have nodup : ((pairs (dict.insert key value)).map Prod.fst).Nodup := by
    rw [keys_pairs]
    exact AList.keys_nodup _
  rw [Cache.lookup, kept, Association.lookup_perm nodup perm]
  ext found
  rw [Association.lookup_eq_some_iff_mem nodup, mem_pairs]

end LruCache
