import TsSem02.Library.Association

/-! # Weight-bounded least-recently-used caches

A cache is a recency-ordered list of key/value pairs, most recent first, whose
total weight never exceeds a capacity.  Keys, values and the weight function are
arbitrary.

* `fit` — the longest prefix of a list within a weight budget, the entries an
  eviction keeps;
* `Cache` — the entries together with the proofs that keys are distinct and that
  the total weight is within the capacity;
* `touch`, `erase`, `store` — the three ways a cache changes, and the five
  storage operations built from them.
-/

open Association

namespace LruCache

/-! ## The longest prefix within a budget -/

section Fit

variable {Entry : Type*} (weight : Entry → Nat)

def total (entries : List Entry) : Nat := (entries.map weight).sum

@[simp] theorem total_nil : total weight [] = 0 := rfl

@[simp] theorem total_cons (entry : Entry) (entries : List Entry) :
    total weight (entry :: entries) = weight entry + total weight entries := by
  simp [total]

@[simp] theorem total_append (left right : List Entry) :
    total weight (left ++ right) = total weight left + total weight right := by
  simp [total]

theorem total_sublist_le {left right : List Entry} (sublist : left.Sublist right) :
    total weight left ≤ total weight right := by
  induction sublist with
  | slnil => exact Nat.le_refl _
  | cons entry _ ih => rw [total_cons]; omega
  | cons_cons entry _ ih => rw [total_cons, total_cons]; omega

/-- The longest prefix of `entries` whose total weight is at most `budget`. -/
def fit : Nat → List Entry → List Entry
  | _, [] => []
  | budget, entry :: entries =>
    if weight entry ≤ budget then entry :: fit (budget - weight entry) entries else []

theorem fit_isPrefix (budget : Nat) (entries : List Entry) : fit weight budget entries <+: entries := by
  induction entries generalizing budget with
  | nil => exact List.prefix_rfl
  | cons entry entries ih =>
    simp only [fit]
    split
    · exact (List.prefix_cons_inj entry).mpr (ih _)
    · exact List.nil_prefix

theorem total_fit_le (budget : Nat) (entries : List Entry) :
    total weight (fit weight budget entries) ≤ budget := by
  induction entries generalizing budget with
  | nil => exact Nat.zero_le _
  | cons entry entries ih =>
    simp only [fit]
    split
    · have rest := ih (budget - weight entry)
      simp only [total_cons]
      omega
    · exact Nat.zero_le _

theorem isPrefix_fit {budget : Nat} {entries kept : List Entry} (isPrefix : kept <+: entries)
    (within : total weight kept ≤ budget) : kept <+: fit weight budget entries := by
  induction entries generalizing budget kept with
  | nil => exact isPrefix
  | cons entry entries ih =>
    cases kept with
    | nil => exact List.nil_prefix
    | cons first kept =>
      obtain ⟨rfl, rest⟩ := List.cons_prefix_cons.mp isPrefix
      simp only [total_cons] at within
      rw [fit, if_pos (by omega)]
      exact List.cons_prefix_cons.mpr ⟨rfl, ih rest (by omega)⟩

theorem fit_eq_self {budget : Nat} {entries : List Entry} (within : total weight entries ≤ budget) :
    fit weight budget entries = entries :=
  (fit_isPrefix weight budget entries).eq_of_length_le
    (isPrefix_fit weight List.prefix_rfl within).length_le

/-- An entry at the end that does not fit is dropped first. -/
theorem fit_concat {budget : Nat} {entries : List Entry} {entry : Entry}
    (exceeds : budget < total weight (entries ++ [entry])) :
    fit weight budget (entries ++ [entry]) = fit weight budget entries := by
  induction entries generalizing budget with
  | nil =>
    simp only [List.nil_append, total_cons, total_nil] at exceeds
    simp only [List.nil_append, fit]
    rw [if_neg (by omega)]
  | cons first entries ih =>
    simp only [List.cons_append, total_cons] at exceeds
    simp only [List.cons_append, fit]
    split
    · rw [ih (by omega)]
    · rfl

theorem map_fit {Other : Type*} (view : Other → Entry) (budget : Nat) (entries : List Other) :
    (fit (fun other => weight (view other)) budget entries).map view =
      fit weight budget (entries.map view) := by
  induction entries generalizing budget with
  | nil => rfl
  | cons entry entries ih =>
    simp only [fit, List.map_cons]
    split
    · rw [List.map_cons, ih]
    · rfl

end Fit

/-! ## Entries by key -/

section Entries

variable {κ ν : Type*} [DecidableEq κ]

def without (key : κ) (entries : List (κ × ν)) : List (κ × ν) :=
  entries.filter fun entry => entry.1 ≠ key

theorem without_sublist (key : κ) (entries : List (κ × ν)) :
    (without key entries).Sublist entries :=
  List.filter_sublist

theorem mem_without {key : κ} {entry : κ × ν} {entries : List (κ × ν)} :
    entry ∈ without key entries ↔ entry ∈ entries ∧ entry.1 ≠ key := by
  simp [without]

theorem without_of_absent {key : κ} {entries : List (κ × ν)}
    (absent : key ∉ entries.map Prod.fst) : without key entries = entries := by
  apply List.filter_eq_self.mpr
  intro entry member
  simp only [ne_eq, decide_not, Bool.not_eq_eq_eq_not, Bool.not_true, decide_eq_false_iff_not]
  exact fun equal => absent (equal ▸ List.mem_map_of_mem member)

theorem without_middle {key : κ} {value : ν} {before after : List (κ × ν)}
    (nodup : ((before ++ (key, value) :: after).map Prod.fst).Nodup) :
    without key (before ++ (key, value) :: after) = before ++ after := by
  rw [List.map_append, List.map_cons, List.nodup_middle, List.nodup_cons, List.mem_append,
    not_or] at nodup
  obtain ⟨⟨notBefore, notAfter⟩, -⟩ := nodup
  unfold without
  rw [List.filter_append, List.filter_cons_of_neg (by simp)]
  congr 1
  · exact without_of_absent notBefore
  · exact without_of_absent notAfter

theorem lookup_without_of_ne {key other : κ} {entries : List (κ × ν)} (distinct : other ≠ key) :
    (without key entries).lookup other = entries.lookup other := by
  induction entries with
  | nil => rfl
  | cons entry entries ih =>
    obtain ⟨first, value⟩ := entry
    by_cases same : first = key
    · rw [List.lookup_cons, same, beq_eq_false_iff_ne.mpr distinct, ← ih]
      simp [without]
    · have kept : without key ((first, value) :: entries) = (first, value) :: without key entries := by
        simp [without, same]
      rw [kept, List.lookup_cons, List.lookup_cons, ih]

theorem keys_nodup_without {key : κ} {entries : List (κ × ν)}
    (nodup : (entries.map Prod.fst).Nodup) : ((without key entries).map Prod.fst).Nodup :=
  nodup.sublist ((without_sublist key entries).map Prod.fst)

theorem absent_without (key : κ) (entries : List (κ × ν)) :
    key ∉ (without key entries).map Prod.fst := by
  rw [List.mem_map]
  rintro ⟨entry, member, rfl⟩
  exact (mem_without.mp member).2 rfl

theorem total_touch (weight : κ × ν → Nat) {key : κ} {value : ν} {entries : List (κ × ν)}
    (nodup : (entries.map Prod.fst).Nodup) (found : entries.lookup key = some value) :
    total weight ((key, value) :: without key entries) = total weight entries := by
  obtain ⟨before, after, rfl⟩ := exists_split_of_lookup found
  rw [without_middle nodup]
  simp only [total_cons, total_append]
  omega

end Entries

/-! ## Caches -/

/-- A recency-ordered cache, most recent entry first. -/
@[ext] structure Cache {κ ν : Type*} (weight : κ × ν → Nat) (capacity : Nat) where
  entries : List (κ × ν)
  keysNodup : (entries.map Prod.fst).Nodup
  withinCapacity : total weight entries ≤ capacity

namespace Cache

variable {κ ν : Type*} [DecidableEq κ] {weight : κ × ν → Nat} {capacity : Nat}

omit [DecidableEq κ] in
def empty : Cache weight capacity where
  entries := []
  keysNodup := List.nodup_nil
  withinCapacity := Nat.zero_le _

def lookup (cache : Cache weight capacity) (key : κ) : Option ν := cache.entries.lookup key

def erase (cache : Cache weight capacity) (key : κ) : Cache weight capacity where
  entries := without key cache.entries
  keysNodup := keys_nodup_without cache.keysNodup
  withinCapacity :=
    Nat.le_trans (total_sublist_le weight (without_sublist _ _)) cache.withinCapacity

def touch (cache : Cache weight capacity) (key : κ) : Cache weight capacity :=
  match found : cache.entries.lookup key with
  | none => cache
  | some value =>
    { entries := (key, value) :: without key cache.entries
      keysNodup := List.nodup_cons.mpr
        ⟨absent_without key cache.entries, keys_nodup_without cache.keysNodup⟩
      withinCapacity := (total_touch weight cache.keysNodup found).symm ▸ cache.withinCapacity }

/-- Put `(key, value)` in front and keep, in recency order, as many of the other
    entries as fit with it. -/
def store (cache : Cache weight capacity) (key : κ) (value : ν)
    (fits : weight (key, value) ≤ capacity) : Cache weight capacity where
  entries := (key, value) :: fit weight (capacity - weight (key, value)) (without key cache.entries)
  keysNodup := by
    have sublist := ((fit_isPrefix weight (capacity - weight (key, value))
      (without key cache.entries)).sublist).map Prod.fst
    exact List.nodup_cons.mpr
      ⟨fun member => absent_without key cache.entries (sublist.subset member),
        (keys_nodup_without cache.keysNodup).sublist sublist⟩
  withinCapacity := by
    have kept := total_fit_le weight (capacity - weight (key, value)) (without key cache.entries)
    simp only [total_cons]
    omega

/-! ### The storage operations -/

def get (cache : Cache weight capacity) (key : κ) : Option ν × Cache weight capacity :=
  (cache.lookup key, cache.touch key)

def delete (cache : Cache weight capacity) (key : κ) : Bool × Cache weight capacity :=
  ((cache.lookup key).isSome, cache.erase key)

/-- A write that cannot fit is refused, but a present key is still moved to the
    front. -/
def put (cache : Cache weight capacity) (key : κ) (value : ν) : Bool × Cache weight capacity :=
  if fits : weight (key, value) ≤ capacity then (true, cache.store key value fits)
  else (false, cache.touch key)

def set (cache : Cache weight capacity) (key : κ) (value : ν) : Bool × Cache weight capacity :=
  if (cache.lookup key).isSome then cache.put key value else (false, cache)

def putIfAbsent (cache : Cache weight capacity) (key : κ) (value : ν) :
    Bool × Cache weight capacity :=
  if (cache.lookup key).isSome then (false, cache) else cache.put key value

/-! ### Lookups after a change -/

@[simp] theorem touch_of_absent {cache : Cache weight capacity} {key : κ}
    (absent : cache.lookup key = none) : cache.touch key = cache := by
  unfold touch
  split
  · rfl
  · rename_i value found
    rw [lookup, found] at absent
    cases absent

theorem entries_touch {cache : Cache weight capacity} {key : κ} {value : ν}
    (found : cache.lookup key = some value) :
    (cache.touch key).entries = (key, value) :: without key cache.entries := by
  unfold touch
  split
  · rename_i absent
    rw [lookup, absent] at found
    cases found
  · rename_i value' found'
    rw [lookup, found'] at found
    cases found
    rfl

@[simp] theorem entries_store (cache : Cache weight capacity) (key : κ) (value : ν)
    (fits : weight (key, value) ≤ capacity) :
    (cache.store key value fits).entries =
      (key, value) :: fit weight (capacity - weight (key, value)) (without key cache.entries) := rfl

@[simp] theorem entries_erase (cache : Cache weight capacity) (key : κ) :
    (cache.erase key).entries = without key cache.entries := rfl

theorem weight_le_of_lookup {cache : Cache weight capacity} {key : κ} {value : ν}
    (found : cache.lookup key = some value) : weight (key, value) ≤ capacity := by
  obtain ⟨before, after, split⟩ := exists_split_of_lookup found
  have within := cache.withinCapacity
  rw [split, total_append, total_cons] at within
  omega

@[simp] theorem lookup_touch (cache : Cache weight capacity) (key other : κ) :
    (cache.touch key).lookup other = cache.lookup other := by
  cases found : cache.lookup key with
  | none => rw [touch_of_absent found]
  | some value =>
    rw [lookup, entries_touch found]
    by_cases same : other = key
    · subst same
      rw [List.lookup_cons_self, found]
    · rw [List.lookup_cons, beq_eq_false_iff_ne.mpr same]
      exact lookup_without_of_ne same

theorem lookup_foldl_touch (cache : Cache weight capacity) (keys : List κ) (other : κ) :
    (keys.foldl touch cache).lookup other = cache.lookup other := by
  induction keys generalizing cache with
  | nil => rfl
  | cons key keys ih => rw [List.foldl_cons, ih, lookup_touch]

@[simp] theorem lookup_store_self (cache : Cache weight capacity) (key : κ) (value : ν)
    (fits : weight (key, value) ≤ capacity) :
    (cache.store key value fits).lookup key = some value := by
  rw [lookup, entries_store, List.lookup_cons_self]

theorem lookup_put_of_refused {cache : Cache weight capacity} {key : κ} {value : ν}
    (refused : capacity < weight (key, value)) (other : κ) :
    (cache.put key value).2.lookup other = cache.lookup other := by
  rw [put, dif_neg (Nat.not_le.mpr refused), lookup_touch]

/-- After a write of `value` the key has `value` exactly when the write fits. -/
theorem lookup_put_self {cache : Cache weight capacity} {key : κ} {value : ν} :
    (cache.put key value).2.lookup key = some value ↔ weight (key, value) ≤ capacity := by
  constructor
  · exact weight_le_of_lookup
  · intro fits
    rw [put, dif_pos fits, lookup_store_self]

theorem isSome_lookup_put {cache : Cache weight capacity} {key : κ} {value : ν}
    (present : (cache.lookup key).isSome) : ((cache.put key value).2.lookup key).isSome := by
  by_cases fits : weight (key, value) ≤ capacity
  · rw [lookup_put_self.mpr fits]
    rfl
  · rw [lookup_put_of_refused (Nat.lt_of_not_le fits)]
    exact present

theorem lookup_putIfAbsent_of_accepted {cache : Cache weight capacity} {key : κ} {value : ν}
    (accepted : (cache.putIfAbsent key value).1 = true) :
    (cache.putIfAbsent key value).2.lookup key = some value := by
  rw [putIfAbsent] at accepted ⊢
  split at accepted
  · cases accepted
  · rename_i absent
    rw [if_neg absent, lookup_put_self]
    rw [put] at accepted
    split at accepted
    · assumption
    · cases accepted

theorem lookup_putIfAbsent_of_refused {cache : Cache weight capacity} {key : κ} {value : ν}
    (refused : (cache.putIfAbsent key value).1 = false) (other : κ) :
    (cache.putIfAbsent key value).2.lookup other = cache.lookup other := by
  rw [putIfAbsent] at refused ⊢
  split at refused
  · rename_i present
    rw [if_pos present]
  · rename_i absent
    rw [if_neg absent]
    rw [put] at refused
    split at refused
    · cases refused
    · rename_i large
      exact lookup_put_of_refused (Nat.lt_of_not_le large) other

end Cache

end LruCache
