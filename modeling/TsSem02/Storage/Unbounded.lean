import TsSem02.Library.Unevicted
import TsSem02.Storage.CacheStore

/-! # While everything fits

A storage without a bound is a dictionary.  As long as the entries of the dictionary
would fit in a cache, and no value gets shorter, the cache answers as the dictionary
does (`execute_unbounded`): nothing is evicted.
-/

namespace Afina.Backend

open LruCache

/-- A storage that keeps everything. -/
def Unbounded : Type := AList fun _ : Bytes => Bytes

namespace Unbounded

def empty : Unbounded := (∅ : AList fun _ : Bytes => Bytes)

def lookup (dict : Unbounded) (key : Bytes) : Option Bytes := AList.lookup key dict

def insert (dict : Unbounded) (key value : Bytes) : Unbounded := AList.insert key value dict

def erase (dict : Unbounded) (key : Bytes) : Unbounded := AList.erase key dict

def call (op : StorageCall) (dict : Unbounded) : StorageReply × Unbounded :=
  match op with
  | .put key value => (.flag true, dict.insert key value)
  | .putIfAbsent key value =>
    if (dict.lookup key).isSome then (.flag false, dict) else (.flag true, dict.insert key value)
  | .set key value => if (dict.lookup key).isSome then (.flag true, dict.insert key value) else (.flag false, dict)
  | .delete key => (.flag (dict.lookup key).isSome, dict.erase key)
  | .get key => (.found (dict.lookup key), dict)

instance : Storage Unbounded where
  call op dict := .ok (dict.call op)

def size (dict : Unbounded) : Nat := total entrySize (Dictionary.pairs dict)

/-- The call replaces a value by a shorter one. -/
def Shrinks (dict : Unbounded) : StorageCall → Prop
  | .put key value | .set key value => ∃ old ∈ dict.lookup key, value.length < old.length
  | _ => False

instance (dict : Unbounded) : ∀ op, Decidable (dict.Shrinks op)
  | .put key value => inferInstanceAs (Decidable (∃ old ∈ dict.lookup key, value.length < old.length))
  | .set key value => inferInstanceAs (Decidable (∃ old ∈ dict.lookup key, value.length < old.length))
  | .putIfAbsent _ _ => inferInstanceAs (Decidable False)
  | .delete _ => inferInstanceAs (Decidable False)
  | .get _ => inferInstanceAs (Decidable False)

/-- No call of a program makes the dictionary larger than a bound, or a value shorter. -/
def Roomy {Result : Type} (maxSize : Nat) (dict : Unbounded) : Program StorageCall StorageReply Result → Prop
  | .done _ => True
  | .step op next =>
    ¬ dict.Shrinks op ∧ (dict.call op).2.size ≤ maxSize ∧ Roomy maxSize (dict.call op).2 (next (dict.call op).1)

end Unbounded

section Calls

variable {maxSize : Nat} {cache : ByteCache maxSize} {dict : Unbounded}

theorem Unbounded.shrinks_iff (same : Same cache dict) (op : StorageCall) : cache.Shrinks op ↔ dict.Shrinks op := by
  cases op <;> simp only [ByteCache.Shrinks, Unbounded.Shrinks, Unbounded.lookup, same _]

theorem call_unbounded (same : Same cache dict) (op : StorageCall) (fits : (dict.call op).2.size ≤ maxSize) :
    (ByteCache.call op cache).1 = (dict.call op).1 ∧ Same (ByteCache.call op cache).2 (dict.call op).2 := by
  have writes {key value : Bytes} (fits : (dict.insert key value).size ≤ maxSize) :
      StorageReply.flag (cache.put key value).1 = .flag true ∧ Same (cache.put key value).2 (dict.insert key value) := by
    obtain ⟨accepted, same⟩ := same.put fits
    exact ⟨congrArg StorageReply.flag accepted, same⟩
  cases op with
  | put key value => exact writes fits
  | putIfAbsent key value =>
    have here : cache.lookup key = dict.lookup key := same key
    simp only [ByteCache.call, Cache.putIfAbsent, Unbounded.call, here] at fits ⊢
    split
    · exact ⟨rfl, same⟩
    · rename_i absent
      rw [if_neg absent] at fits
      exact writes fits
  | set key value =>
    have here : cache.lookup key = dict.lookup key := same key
    simp only [ByteCache.call, Cache.set, Unbounded.call, here] at fits ⊢
    split
    · rename_i present
      rw [if_pos present] at fits
      exact writes fits
    · exact ⟨rfl, same⟩
  | delete key =>
    have here : cache.lookup key = dict.lookup key := same key
    exact ⟨congrArg (fun found : Option Bytes => StorageReply.flag found.isSome) here, same.erase key⟩
  | get key => exact ⟨congrArg StorageReply.found (same key), same.touch key⟩

theorem execute_unbounded {Result : Type} (program : Program StorageCall StorageReply Result) (same : Same cache dict)
    (roomy : dict.Roomy maxSize program) : ∃ result cache' dict',
    program.execute Storage.call cache = .ok (result, cache') ∧ program.execute Storage.call dict = .ok (result, dict') ∧
      Same cache' dict' := by
  induction program generalizing cache dict with
  | done result => exact ⟨result, cache, dict, rfl, rfl, same⟩
  | step op next ih =>
    obtain ⟨keeps, fits, rest⟩ := roomy
    obtain ⟨reply, sameAfter⟩ := call_unbounded same op fits
    obtain ⟨result, cache', dict', ran, ran', same'⟩ := ih (dict.call op).1 sameAfter rest
    have called : Storage.call op cache = .ok ((dict.call op).1, (ByteCache.call op cache).2) := by
      rw [← reply]
      exact if_neg fun shrinks => keeps ((Unbounded.shrinks_iff same op).mp shrinks)
    exact ⟨result, cache', dict', (Program.execute_step_of_ok called).trans ran, ran', same'⟩

end Calls

end Afina.Backend
