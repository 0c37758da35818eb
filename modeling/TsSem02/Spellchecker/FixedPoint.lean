import TsSem02.Spellchecker.Candidates

/-! # The repeated pass

The loop of `fix_query` corrects the original query again and again, so it ends with
the result of one pass (`fixQuery_iff`).  Whether this is a fixed point depends on
the candidates of that result.
-/

namespace Spellchecker

open RunningMinimum

variable (self : Spellchecker) {query corrected result : Query}

/-! ## One pass -/

/-- A query with a word, which no candidate that counts improves. -/
def Settles (query : Query) : Prop :=
  split query ≠ [] ∧ ∀ candidate, self.IsCandidate query candidate →
    self.getQueryProb query ≤ self.getQueryProb candidate ∨ 3000 < self.getQueryProb candidate

theorem fixAll_wordless (wordless : split query = []) : self.fixAll query = .error .indexError := by
  rw [fixAll, fixDict, wordless]
  rfl

theorem fixAll_fixed_iff : self.fixAll query = .ok query ↔ self.Settles query := by
  by_cases worded : split query = []
  · rw [self.fixAll_wordless worded]
    exact ⟨nofun, fun settles => absurd worded settles.1⟩
  obtain ⟨found, first, pass⟩ := self.fixAll_first worded
  rw [pass, Except.ok.injEq]
  constructor
  · intro same
    refine ⟨worded, fun candidate member => ?_⟩
    have least := first.le ((mem_candidates worded).mpr member)
    split at same
    · next heavy => exact .inr (heavy.trans_le least)
    · exact .inl (same ▸ least)
  · intro settles
    split
    · rfl
    · next light =>
      have better := settles.2 found ((mem_candidates worded).mp first.mem)
      exact first.eq_head (better.resolve_right light)

/-! ## The loop -/

/-- From the second round on the query in the loop is the corrected one. -/
theorem fixLoop_result (pass : self.fixAll query = .ok corrected) {fuel : Nat} {oldQuery : Option Query}
    {newQuery : Query} (later : oldQuery ≠ some newQuery ∨ newQuery = corrected)
    (stopped : self.fixLoop query fuel oldQuery newQuery = some (.ok result)) : result = corrected := by
  induction fuel generalizing oldQuery newQuery with
  | zero => cases stopped
  | succ fuel ih =>
    rw [fixLoop] at stopped
    split at stopped
    · rw [pass] at stopped
      exact ih (.inr rfl) stopped
    · next equal =>
      cases stopped
      exact later.resolve_left equal

/-- The loop ends within three rounds, with the result of one pass. -/
theorem fixQuery_iff (worded : split query ≠ []) (pass : self.fixAll query = .ok corrected) :
    (∃ fuel, self.fixQuery fuel query = some (.ok result)) ↔ result = corrected := by
  have length : (split query).length ≠ 0 := mt List.eq_nil_of_length_eq_zero worded
  constructor
  · rintro ⟨fuel, stopped⟩
    rw [fixQuery, if_neg length] at stopped
    exact self.fixLoop_result pass (.inl (Option.some_ne_none query).symm) stopped
  · rintro rfl
    refine ⟨3, ?_⟩
    rw [fixQuery, if_neg length, fixLoop, if_pos nofun, pass]
    show self.fixLoop query 2 (some query) result = _
    by_cases same : query = result
    · rw [fixLoop, if_neg (not_not.mpr (congrArg some same))]
    · rw [fixLoop, if_pos (fun equal => same (Option.some.inj equal)), pass]
      show self.fixLoop query 1 (some result) result = _
      rw [fixLoop, if_neg (not_not.mpr rfl)]

/-- The result is a fixed point exactly if no candidate counts, or the first of the
    lightest candidates has none that is lighter. -/
theorem reaches_fixed_iff (worded : split query ≠ []) :
    (∃ fuel result, self.fixQuery fuel query = some (.ok result) ∧ self.fixAll result = .ok result) ↔
      (∀ candidate, self.IsCandidate query candidate → 3000 < self.getQueryProb candidate) ∨
        ∃ candidate, FirstLightest self.getQueryProb (query :: self.corrections query) candidate ∧
          self.Settles candidate := by
  obtain ⟨found, first, pass⟩ := self.fixAll_first worded
  have heavier {candidate : Query} (member : self.IsCandidate query candidate) :
      self.getQueryProb found ≤ self.getQueryProb candidate := first.le ((mem_candidates worded).mpr member)
  have reaches : (∃ fuel result, self.fixQuery fuel query = some (.ok result) ∧ self.fixAll result = .ok result) ↔
      self.Settles (if self.getQueryProb found > 3000 then query else found) := by
    rw [← fixAll_fixed_iff]
    constructor
    · rintro ⟨fuel, result, stopped, fixed⟩
      rwa [(self.fixQuery_iff worded pass).mp ⟨fuel, stopped⟩] at fixed
    · intro fixed
      obtain ⟨fuel, stopped⟩ := (self.fixQuery_iff worded pass).mpr rfl
      exact ⟨fuel, _, stopped, fixed⟩
  rw [reaches]
  split
  · next heavy =>
    have all (candidate : Query) (member : self.IsCandidate query candidate) :
        3000 < self.getQueryProb candidate := heavy.trans_le (heavier member)
    exact ⟨fun _ => .inl all, fun _ => ⟨worded, fun candidate member => .inr (all candidate member)⟩⟩
  · next light =>
    constructor
    · intro settles
      exact .inr ⟨found, first, settles⟩
    · rintro (heavy | ⟨candidate, first', settles⟩)
      · exact absurd (heavy found ((mem_candidates worded).mp first.mem)) light
      · rwa [first.unique first']

/-- The two halves of a word of the dictionary are joined. -/
theorem reaches_fixed_iff_word : ∃ self : Spellchecker, self.fixAll ['a', ' ', 'b'] = .ok ['a', 'b'] ∧
    ∃ fuel result, self.fixQuery fuel ['a', ' ', 'b'] = some (.ok result) ∧ self.fixAll result = .ok result := by
  let self : Spellchecker := ⟨⟨⟨[⟨['a', 'b'], 1⟩], by simp⟩, ∅⟩, ⟨∅⟩, .newestFirst, Char.toLower⟩
  have first : FirstLightest self.getQueryProb (['a', ' ', 'b'] :: self.corrections ['a', ' ', 'b']) ['a', 'b'] :=
    ⟨(['a', ' ', 'b'] :: self.corrections ['a', ' ', 'b']).take 5, [['a', ' ', ' ', 'b']], by decide +kernel,
      by decide +kernel, by decide +kernel⟩
  have worded : split ['a', 'b'] ≠ [] := by decide +kernel
  have least : ∀ other ∈ self.corrections ['a', 'b'], self.getQueryProb ['a', 'b'] ≤ self.getQueryProb other := by
    decide +kernel
  refine ⟨self, by decide +kernel,
    (self.reaches_fixed_iff (by decide +kernel)).mpr (.inr ⟨['a', 'b'], first, worded, ?_⟩)⟩
  intro candidate member
  rcases List.mem_cons.mp ((mem_candidates worded).mpr member) with rfl | inside
  · exact .inl le_rfl
  · exact .inl (least candidate inside)

/-- A pass joins only two words. -/
theorem not_fixed_twice : ¬ ∀ (self : Spellchecker) (query : Query), split query ≠ [] →
    ∃ fuel result, self.fixQuery fuel query = some (.ok result) ∧ self.fixAll result = .ok result := by
  intro always
  let self : Spellchecker := ⟨⟨⟨[⟨['a', 'b', 'c'], 1⟩], by simp⟩, ∅⟩, ⟨∅⟩, .newestFirst, Char.toLower⟩
  have worded : split ['a', ' ', 'b', ' ', 'c'] ≠ [] := by decide +kernel
  have pass : self.fixAll ['a', ' ', 'b', ' ', 'c'] = .ok ['a', 'b', ' ', 'c'] := by decide +kernel
  have again : self.fixAll ['a', 'b', ' ', 'c'] = .ok ['a', 'b', 'c'] := by decide +kernel
  obtain ⟨fuel, result, stopped, fixed⟩ := always self _ worded
  rw [(self.fixQuery_iff worded pass).mp ⟨fuel, stopped⟩, again] at fixed
  exact absurd fixed (by decide)

end Spellchecker
