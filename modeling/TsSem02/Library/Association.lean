import Mathlib

/-! # Association lists

`List.lookup` in a list whose keys are distinct: what is found is what is in the
list (`lookup_eq_some_iff_mem`), whatever the order of the list (`lookup_perm`).
-/

namespace Association

variable {Key Value : Type*} [DecidableEq Key]

theorem exists_split_of_lookup {key : Key} {value : Value} {entries : List (Key × Value)}
    (found : entries.lookup key = some value) :
    ∃ before after, entries = before ++ (key, value) :: after := by
  obtain ⟨before, after, equal, -⟩ := List.lookup_eq_some_iff.mp found
  exact ⟨before, after, equal⟩

theorem lookup_eq_none_iff_absent {key : Key} {entries : List (Key × Value)} :
    entries.lookup key = none ↔ key ∉ entries.map Prod.fst := by
  simp only [List.lookup_eq_none_iff, List.mem_map, not_exists, not_and, bne_iff_ne]
  exact ⟨fun absent entry member equal => absent entry member equal.symm,
    fun absent entry member equal => absent entry member equal.symm⟩

theorem lookup_of_mem {key : Key} {value : Value} {entries : List (Key × Value)}
    (nodup : (entries.map Prod.fst).Nodup) (member : (key, value) ∈ entries) :
    entries.lookup key = some value := by
  induction entries with
  | nil => cases member
  | cons entry entries ih =>
    obtain ⟨absent, nodup⟩ := List.nodup_cons.mp nodup
    rcases List.mem_cons.mp member with rfl | member
    · exact List.lookup_cons_self
    · have other : key ≠ entry.1 := by
        intro equal
        exact absent (List.mem_map.mpr ⟨(key, value), member, equal⟩)
      rw [List.lookup_cons, beq_eq_false_iff_ne.mpr other]
      exact ih nodup member

theorem lookup_eq_some_iff_mem {key : Key} {value : Value} {entries : List (Key × Value)}
    (nodup : (entries.map Prod.fst).Nodup) : entries.lookup key = some value ↔ (key, value) ∈ entries := by
  refine ⟨fun found => ?_, lookup_of_mem nodup⟩
  obtain ⟨before, after, rfl⟩ := exists_split_of_lookup found
  simp

theorem lookup_perm {entries entries' : List (Key × Value)} (nodup : (entries.map Prod.fst).Nodup)
    (perm : entries'.Perm entries) (key : Key) : entries'.lookup key = entries.lookup key := by
  have nodup' := (perm.map Prod.fst).nodup_iff.mpr nodup
  ext value
  rw [lookup_eq_some_iff_mem nodup, lookup_eq_some_iff_mem nodup', perm.mem_iff]

/-! ## Another value for a key -/

def replace (key : Key) (value : Value) (entries : List (Key × Value)) : List (Key × Value) :=
  entries.map fun entry => if entry.1 = key then (key, value) else entry

@[simp] theorem keys_replace (key : Key) (value : Value) (entries : List (Key × Value)) :
    (replace key value entries).map Prod.fst = entries.map Prod.fst := by
  rw [replace, List.map_map]
  refine List.map_congr_left fun entry _ => ?_
  by_cases same : entry.1 = key
  · simp [same]
  · simp [same]

theorem lookup_replace_self {key : Key} {value : Value} {entries : List (Key × Value)}
    (present : key ∈ entries.map Prod.fst) : (replace key value entries).lookup key = some value := by
  induction entries with
  | nil => cases present
  | cons entry entries ih =>
    rw [replace, List.map_cons]
    by_cases same : entry.1 = key
    · rw [if_pos same]
      exact List.lookup_cons_self
    · rw [if_neg same, List.lookup_cons, beq_eq_false_iff_ne.mpr (Ne.symm same)]
      rw [List.map_cons, List.mem_cons] at present
      exact ih (present.resolve_left (Ne.symm same))

theorem lookup_replace_of_ne {key other : Key} (distinct : other ≠ key) (value : Value)
    (entries : List (Key × Value)) : (replace key value entries).lookup other = entries.lookup other := by
  induction entries with
  | nil => rfl
  | cons entry entries ih =>
    rw [replace, List.map_cons]
    by_cases same : entry.1 = key
    · rw [if_pos same, List.lookup_cons, List.lookup_cons, same, beq_eq_false_iff_ne.mpr distinct]
      exact ih
    · rw [if_neg same, List.lookup_cons, List.lookup_cons]
      cases other == entry.1 with
      | true => rfl
      | false => exact ih

end Association
