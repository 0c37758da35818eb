import TsSem02.Library.Dictionary

/-! # Counting in dictionaries

`tally` counts with a dictionary that has an entry for every key it has met.  The
relative frequencies are the probabilities under which the keys that were counted are
most likely (`likelihood_le`).
-/

namespace Tally

open Dictionary

variable {Key : Type} [DecidableEq Key]

/-! ## Counting -/

/-- `counts[key] += 1`, where a key that is missing counts as zero. -/
def increment (counts : AList fun _ : Key => ℕ) (key : Key) : AList fun _ : Key => ℕ :=
  counts.insert key ((counts.lookup key).getD 0 + 1)

def tally (keys : List Key) : AList fun _ : Key => ℕ := keys.foldl increment ∅

def occurrences (keys : List Key) (key : Key) : ℕ := keys.count key

theorem occurrences_pos {keys : List Key} {key : Key} : 0 < occurrences keys key ↔ key ∈ keys :=
  List.count_pos_iff

theorem occurrences_map {Entry : Type} (f : Entry → Key) (entries : List Entry) (key : Key) :
    occurrences (entries.map f) key = (entries.filter (f · = key)).length := by
  rw [occurrences, List.count, List.countP_map, ← List.countP_eq_length_filter]
  exact List.countP_congr fun entry _ => by simp

theorem sum_occurrences (keys : List Key) : ∑ key ∈ keys.toFinset, occurrences keys key = keys.length :=
  List.sum_toFinset_count_eq_length keys

theorem lookup_increment (counts : AList fun _ : Key => ℕ) (key other : Key) :
    (increment counts key).lookup other =
      if other = key then some ((counts.lookup key).getD 0 + 1) else counts.lookup other := by
  split
  · rename_i same
    subst same
    exact AList.lookup_insert counts
  · exact AList.lookup_insert_ne ‹_›

theorem lookup_foldl (keys : List Key) (counts : AList fun _ : Key => ℕ) (key : Key) :
    (keys.foldl increment counts).lookup key =
      if key ∈ keys then some ((counts.lookup key).getD 0 + occurrences keys key) else counts.lookup key := by
  induction keys generalizing counts with
  | nil => simp
  | cons first keys ih =>
    simp only [List.foldl_cons, ih, lookup_increment, List.mem_cons, occurrences, List.count_cons]
    by_cases same : key = first
    · subst same
      by_cases member : key ∈ keys
      · simp only [member, true_or, if_true, Option.getD_some, beq_self_eq_true]
        rw [Nat.add_right_comm, Nat.add_assoc]
      · simp [member, List.count_eq_zero_of_not_mem member]
    · simp [same, Ne.symm same]

theorem tally_append_singleton (keys : List Key) (key : Key) : tally (keys ++ [key]) = increment (tally keys) key := by
  rw [tally, List.foldl_append]
  rfl

theorem lookup_tally (keys : List Key) (key : Key) :
    (tally keys).lookup key = if key ∈ keys then some (occurrences keys key) else none := by
  rw [tally, lookup_foldl]
  simp

theorem getD_lookup_tally (keys : List Key) (key : Key) : ((tally keys).lookup key).getD 0 = occurrences keys key := by
  rw [lookup_tally]
  split
  · rfl
  · exact (List.count_eq_zero_of_not_mem ‹_›).symm

theorem keys_tally (keys : List Key) : (tally keys).keys.toFinset = keys.toFinset := by
  ext key
  rw [List.mem_toFinset, List.mem_toFinset, ← AList.mem_keys, ← AList.lookup_isSome, lookup_tally]
  split <;> simp_all

/-! ## The likelihood of what was counted -/

/-- The weight of a key that was counted `count` times among `total`. -/
noncomputable def weight (count total : ℕ) : ℝ := -(Real.log count - Real.log total)

theorem exp_weight {count total : ℕ} (positive : 0 < count) (some : 0 < total) :
    Real.exp (-weight count total) = count / total := by
  have countPos : (0 : ℝ) < count := Nat.cast_pos.mpr positive
  have totalPos : (0 : ℝ) < total := Nat.cast_pos.mpr some
  rw [weight, neg_neg, Real.exp_sub, Real.exp_log countPos, Real.exp_log totalPos]

theorem sum_frequency {keys : List Key} (some : keys ≠ []) :
    ∑ key ∈ keys.toFinset, ((occurrences keys key : ℝ) / keys.length) = 1 := by
  have length : (0 : ℝ) < keys.length := Nat.cast_pos.mpr (List.length_pos_iff.mpr some)
  rw [← Finset.sum_div, ← Nat.cast_sum, sum_occurrences, div_self length.ne']

/-- The probabilities of a tally add up to one. -/
theorem sum_exp_weights {keys : List Key} (some : keys ≠ []) :
    ((mapValues (fun _ count => weight count keys.length) (tally keys)).entries.map fun entry =>
      Real.exp (-entry.2)).sum = 1 := by
  have each : ∀ entry ∈ (tally keys).entries,
      Real.exp (-weight entry.2 keys.length) = (occurrences keys entry.1 : ℝ) / keys.length := by
    intro entry member
    have found := AList.mem_lookup_iff.mpr member
    rw [lookup_tally] at found
    split at found
    · rename_i counted
      have same : occurrences keys entry.1 = entry.2 := Option.some.inj found
      rw [← same]
      exact exp_weight (occurrences_pos.mpr counted) (List.length_pos_iff.mpr some)
    · cases found
  calc ((mapValues (fun _ count => weight count keys.length) (tally keys)).entries.map fun entry =>
      Real.exp (-entry.2)).sum
    _ = ((tally keys).entries.map fun entry => (occurrences keys entry.1 : ℝ) / keys.length).sum := by
        rw [mapValues, List.map_map]
        exact congrArg List.sum (List.map_congr_left each)
    _ = ((tally keys).keys.map fun key => (occurrences keys key : ℝ) / keys.length).sum := by
        rw [AList.keys, List.keys, List.map_map]
        rfl
    _ = ∑ key ∈ (tally keys).keys.toFinset, (occurrences keys key : ℝ) / keys.length :=
        (List.sum_toFinset _ (AList.keys_nodup _)).symm
    _ = 1 := by rw [keys_tally, sum_frequency some]

/-- No other probabilities make the keys more likely than their frequencies. -/
theorem likelihood_le (keys : List Key) (p : Key → ℝ) (positive : ∀ key ∈ keys, 0 < p key)
    (total : ∑ key ∈ keys.toFinset, p key ≤ 1) :
    (keys.map fun key => weight (occurrences keys key) keys.length).sum ≤ (keys.map fun key => -Real.log (p key)).sum := by
  cases keys with
  | nil => simp
  | cons first rest =>
    generalize sameKeys : first :: rest = keys at *
    have some : keys ≠ [] := by simp [← sameKeys]
    have length : (0 : ℝ) < keys.length := Nat.cast_pos.mpr (List.length_pos_iff.mpr some)
    have counted : ∀ key ∈ keys, (0 : ℝ) < occurrences keys key := fun key member =>
      Nat.cast_pos.mpr (occurrences_pos.mpr member)
    -- each key is compared by `log x ≤ x - 1`
    have differ : (keys.map fun key => weight (occurrences keys key) keys.length - -Real.log (p key)).sum ≤ 0 := by
      calc (keys.map fun key => weight (occurrences keys key) keys.length - -Real.log (p key)).sum
        _ ≤ (keys.map fun key => p key * keys.length / occurrences keys key - 1).sum := by
            apply List.sum_le_sum
            intro key member
            have here := counted key member
            have atMost := Real.log_le_sub_one_of_pos
              (div_pos (mul_pos (positive key member) length) here)
            rw [Real.log_div (mul_pos (positive key member) length).ne' here.ne',
              Real.log_mul (positive key member).ne' length.ne'] at atMost
            rw [weight]
            linarith
        _ = ∑ key ∈ keys.toFinset, (p key * keys.length - occurrences keys key) := by
            rw [Finset.sum_list_map_count]
            apply Finset.sum_congr rfl
            intro key member
            have here := counted key (List.mem_toFinset.mp member)
            rw [nsmul_eq_mul]
            change ((occurrences keys key : ℕ) : ℝ) * _ = _
            field_simp
        _ = (∑ key ∈ keys.toFinset, p key - 1) * keys.length := by
            rw [Finset.sum_sub_distrib, ← Finset.sum_mul, ← Nat.cast_sum, sum_occurrences]
            ring
        _ ≤ 0 := mul_nonpos_of_nonpos_of_nonneg (by linarith) length.le
    calc (keys.map fun key => weight (occurrences keys key) keys.length).sum
      _ = (keys.map fun key => (weight (occurrences keys key) keys.length - -Real.log (p key)) + -Real.log (p key)).sum := by
          simp only [sub_add_cancel]
      _ = (keys.map fun key => weight (occurrences keys key) keys.length - -Real.log (p key)).sum +
          (keys.map fun key => -Real.log (p key)).sum := List.sum_map_add
      _ ≤ (keys.map fun key => -Real.log (p key)).sum := by linarith

end Tally
