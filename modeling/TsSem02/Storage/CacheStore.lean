import TsSem02.Library.Lockstep
import TsSem02.Storage.Refinement

/-! # The abstract cache as a store

What a server over `SimpleLRU` is to be compared with: the same server over the
abstract cache.  The one call that the memory does not survive, replacing a value
by a shorter one, fails here as well.
-/

namespace Afina.Backend

open LruCache Lockstep

/-- The call replaces a value of the cache by a shorter one. -/
def ByteCache.Shrinks {maxSize : Nat} (cache : ByteCache maxSize) : StorageCall → Prop
  | .put key value | .set key value => ∃ old ∈ cache.lookup key, value.length < old.length
  | _ => False

instance {maxSize : Nat} (cache : ByteCache maxSize) (op : StorageCall) : Decidable (cache.Shrinks op) := by
  cases op <;> unfold ByteCache.Shrinks <;> infer_instance

instance (maxSize : Nat) : Storage (ByteCache maxSize) where
  call op cache :=
    if cache.Shrinks op then .error .nullPointer else .ok (ByteCache.call op cache)

variable {maxSize : Nat} {s : SimpleLRU} {cache : ByteCache maxSize}

theorem Refines.shrinks_iff (refines : Refines s cache) (op : StorageCall) :
    s.Shrinks op ↔ cache.Shrinks op := by
  have overwriting : ∀ {key value : Bytes}, op.Overwrites key value →
      (s.Shrinks op ↔ ∃ old ∈ cache.lookup key, value.length < old.length) := by
    intro key value overwrites
    constructor
    · rintro ⟨key', value', old, overwrites', found, shorter⟩
      obtain ⟨rfl, rfl⟩ := overwrites.unique overwrites'
      rw [refines.valueOf_eq] at found
      exact ⟨old, found, shorter⟩
    · rintro ⟨old, found, shorter⟩
      refine ⟨key, value, old, overwrites, ?_, shorter⟩
      rw [refines.valueOf_eq]
      exact found
  have keeping : (∀ key value, ¬ op.Overwrites key value) → ¬ s.Shrinks op := by
    rintro never ⟨key, value, -, overwrites, -⟩
    exact never key value overwrites
  cases op with
  | put key value => exact overwriting (.inl rfl)
  | set key value => exact overwriting (.inr rfl)
  | putIfAbsent key value =>
    exact iff_of_false (keeping (by simp [StorageCall.Overwrites])) (by simp [ByteCache.Shrinks])
  | delete key => exact iff_of_false (keeping (by simp [StorageCall.Overwrites])) (by simp [ByteCache.Shrinks])
  | get key => exact iff_of_false (keeping (by simp [StorageCall.Overwrites])) (by simp [ByteCache.Shrinks])

theorem refines_inStep : InStep (@Refines maxSize)
    (@Storage.call SimpleLRU _) (@Storage.call (ByteCache maxSize) _) := by
  intro op s cache refines
  by_cases shrinks : cache.Shrinks op
  · have faults := call_faults refines ((refines.shrinks_iff op).mpr shrinks)
    have refuses : Storage.call op cache = .error .nullPointer := if_pos shrinks
    rw [faults, refuses]
    exact .error rfl
  · have keeps : ¬ s.Shrinks op := fun shrinks' => shrinks ((refines.shrinks_iff op).mp shrinks')
    obtain ⟨s', called, refines'⟩ := call_refines refines keeps
    have answers : Storage.call op cache = .ok (ByteCache.call op cache) := if_neg shrinks
    rw [called, answers]
    exact .ok ⟨rfl, refines'⟩

end Afina.Backend
