import TsSem02.Spellchecker.Spellchecker

/-! # One pass

The five corrections together are one loop over all candidates (`fixAll_eq`), so a
pass finds the first of the lightest (`fixAll_best`).
-/

namespace Spellchecker

open RunningMinimum

variable (self : Spellchecker) (query : Query)

/-! ## The candidates -/

/-- The queries that a pass considers. -/
inductive IsCandidate : Query → Prop where
  | itself : IsCandidate query
  | chain {words : List Word} : List.Forall₂ (fun word choice => choice ∈ self.choices word) (split query) words →
      IsCandidate (unwords words ++ ['\n'])
  | ruLayout {before after : List Word} {word : Word} : split query = before ++ word :: after →
      IsCandidate (unwords (before ++ switchEnToRu word :: after))
  | enLayout {before after : List Word} {word : Word} : split query = before ++ word :: after →
      IsCandidate (unwords (before ++ switchRuToEn word :: after))
  | join {before after : Query} : query = before ++ ' ' :: after → IsCandidate (before ++ after)
  | split {before after : Query} : query = before ++ after → 1 ≤ before.length → before.length ≤ query.length - 2 →
      IsCandidate (before ++ ' ' :: after)

def chainQueries : List Query :=
  (genChain ((split query).map self.choices)).toOption.toList.flatten.map fun words => unwords words ++ ['\n']

def layoutQueries : List Query :=
  (split query).zipIdx.flatMap fun (word, idx) =>
    [unwords ((split query).take idx ++ [switchEnToRu word] ++ (split query).drop (idx + 1)),
      unwords ((split query).take idx ++ [switchRuToEn word] ++ (split query).drop (idx + 1))]

def joinQueries : List Query :=
  query.zipIdx.flatMap fun (ch, idx) => if ch ≠ ' ' then [] else [query.take idx ++ query.drop (idx + 1)]

def splitQueries : List Query :=
  (List.range' 1 (query.length - 1 - 1)).map fun i => query.take i ++ ' ' :: query.drop i

def corrections : List Query :=
  self.chainQueries query ++ layoutQueries query ++ joinQueries query ++ splitQueries query

variable {self query}

theorem mem_zipIdx_iff_split {α : Type} {items : List α} {item : α} {idx : Nat} :
    (item, idx) ∈ items.zipIdx ↔ ∃ before after, items = before ++ item :: after ∧ before.length = idx := by
  rw [List.mem_zipIdx_iff_getElem?]
  show items[idx]? = some item ↔ _
  constructor
  · intro here
    obtain ⟨bound, same⟩ := List.getElem?_eq_some_iff.mp here
    refine ⟨items.take idx, items.drop (idx + 1), ?_, List.length_take_of_le bound.le⟩
    rw [← same, ← List.drop_eq_getElem_cons bound, List.take_append_drop]
  · rintro ⟨before, after, rfl, rfl⟩
    simp

theorem genChain_ok {choices : List (List Word)} (some_word : choices ≠ []) :
    ∃ chains, genChain choices = .ok chains ∧ ∀ chain, chain ∈ chains ↔ List.Forall₂ (· ∈ ·) chain choices := by
  induction choices using genChain.induct with
  | case1 => exact absurd rfl some_word
  | case2 choices =>
    refine ⟨_, rfl, fun chain => ?_⟩
    rw [List.mem_map]
    constructor
    · rintro ⟨word, member, rfl⟩
      exact .cons member .nil
    · intro chosen
      cases chosen with
      | cons member rest =>
        cases rest
        exact ⟨_, member, rfl⟩
  | case3 choices rest more ih =>
    obtain ⟨chains, same, mem_chains⟩ := ih more
    refine ⟨_, by rw [genChain.eq_3 choices rest more, same]; rfl, fun chain => ?_⟩
    rw [List.mem_flatMap]
    constructor
    · rintro ⟨word, member, inside⟩
      obtain ⟨others, chosen, rfl⟩ := List.mem_map.mp inside
      exact .cons member ((mem_chains others).mp chosen)
    · intro chosen
      cases chosen with
      | cons member rest => exact ⟨_, member, List.mem_map.mpr ⟨_, (mem_chains _).mpr rest, rfl⟩⟩

theorem mem_chainQueries {candidate : Query} (worded : split query ≠ []) :
    candidate ∈ self.chainQueries query ↔
      ∃ words, List.Forall₂ (fun word choice => choice ∈ self.choices word) (split query) words ∧
        unwords words ++ ['\n'] = candidate := by
  obtain ⟨chains, same, mem_chains⟩ := genChain_ok (mt List.map_eq_nil_iff.mp worded)
  have flat : (genChain ((split query).map self.choices)).toOption.toList.flatten = chains := by
    rw [same]
    exact List.append_nil chains
  rw [chainQueries, flat, List.mem_map]
  refine exists_congr fun words => and_congr_left fun _ => ?_
  rw [mem_chains, List.forall₂_map_right_iff]
  exact ⟨List.Forall₂.flip, List.Forall₂.flip⟩

theorem mem_layoutQueries {candidate : Query} :
    candidate ∈ layoutQueries query ↔ ∃ before word after, split query = before ++ word :: after ∧
      (candidate = unwords (before ++ switchEnToRu word :: after) ∨
        candidate = unwords (before ++ switchRuToEn word :: after)) := by
  rw [layoutQueries, List.mem_flatMap]
  constructor
  · rintro ⟨⟨word, idx⟩, place, member⟩
    obtain ⟨before, after, split, rfl⟩ := mem_zipIdx_iff_split.mp place
    refine ⟨before, word, after, split, ?_⟩
    simpa [split] using member
  · rintro ⟨before, word, after, split, either⟩
    refine ⟨(word, before.length), mem_zipIdx_iff_split.mpr ⟨before, after, split, rfl⟩, ?_⟩
    simpa [split] using either

theorem mem_joinQueries {candidate : Query} :
    candidate ∈ joinQueries query ↔ ∃ before after, query = before ++ ' ' :: after ∧ candidate = before ++ after := by
  rw [joinQueries, List.mem_flatMap]
  constructor
  · rintro ⟨⟨ch, idx⟩, place, member⟩
    obtain ⟨before, after, split, rfl⟩ := mem_zipIdx_iff_split.mp place
    by_cases space : ch = ' '
    · subst space
      exact ⟨before, after, split, by simpa [split] using member⟩
    · simp [space] at member
  · rintro ⟨before, after, split, rfl⟩
    refine ⟨(' ', before.length), mem_zipIdx_iff_split.mpr ⟨before, after, split, rfl⟩, ?_⟩
    simp [split]

theorem mem_splitQueries {candidate : Query} :
    candidate ∈ splitQueries query ↔ ∃ before after, query = before ++ after ∧ 1 ≤ before.length ∧
      before.length ≤ query.length - 2 ∧ candidate = before ++ ' ' :: after := by
  rw [splitQueries, List.mem_map]
  constructor
  · rintro ⟨i, place, rfl⟩
    rw [List.mem_range'_1] at place
    have length : (query.take i).length = i := List.length_take_of_le (by omega)
    exact ⟨query.take i, query.drop i, (List.take_append_drop i query).symm, by omega, by omega, rfl⟩
  · rintro ⟨before, after, split, first, last, rfl⟩
    refine ⟨before.length, ?_, by simp [split]⟩
    rw [List.mem_range'_1]
    omega

theorem mem_candidates {candidate : Query} (worded : split query ≠ []) :
    candidate ∈ query :: self.corrections query ↔ self.IsCandidate query candidate := by
  rw [List.mem_cons, corrections, List.mem_append, List.mem_append, List.mem_append, mem_chainQueries worded,
    mem_layoutQueries, mem_joinQueries, mem_splitQueries]
  constructor
  · rintro (rfl | (((⟨words, chosen, rfl⟩ | ⟨before, word, after, split, rfl | rfl⟩) | ⟨before, after, split, rfl⟩) |
      ⟨before, after, split, first, last, rfl⟩))
    · exact .itself
    · exact .chain chosen
    · exact .ruLayout split
    · exact .enLayout split
    · exact .join split
    · exact .split split first last
  · intro candidate
    cases candidate with
    | itself => exact .inl rfl
    | chain chosen => exact .inr (.inl (.inl (.inl ⟨_, chosen, rfl⟩)))
    | ruLayout split => exact .inr (.inl (.inl (.inr ⟨_, _, _, split, .inl rfl⟩)))
    | enLayout split => exact .inr (.inl (.inl (.inr ⟨_, _, _, split, .inr rfl⟩)))
    | join split => exact .inr (.inl (.inr ⟨_, _, split, rfl⟩))
    | split split first last => exact .inr (.inr ⟨_, _, split, first, last, rfl⟩)

/-! ## The loops -/

variable (self query)

/-- The lightest of some queries, and of what was there before. -/
def keepLightest (best : Query × ℚ) (queries : List Query) : Query × ℚ := lightest best (queries.map self.weigh)

theorem fixDict_eq (worded : split query ≠ []) :
    self.fixDict query = .ok (self.keepLightest ([], 1000000) (self.chainQueries query)) := by
  obtain ⟨chains, same, -⟩ := genChain_ok (mt List.map_eq_nil_iff.mp worded)
  rw [fixDict, wordChain, chainQueries, keepLightest, lightest, same, List.map_map, List.foldl_map]
  show _ = Except.ok (List.foldl _ _ (chains ++ []))
  rw [List.append_nil]
  rfl

theorem fixLayout_eq : self.fixLayout query = self.keepLightest (self.weigh query) (layoutQueries query) := by
  rw [fixLayout, layoutQueries, keepLightest, lightest, List.map_flatMap, List.foldl_flatMap]
  rfl

theorem fixJoin_eq : self.fixJoin query = self.keepLightest (self.weigh query) (joinQueries query) := by
  rw [fixJoin, joinQueries, keepLightest, lightest, List.map_flatMap, List.foldl_flatMap]
  congr 1
  funext best ⟨ch, idx⟩
  by_cases space : ch = ' '
  · simp [space]
  · simp [space]

theorem fixSplit_eq : self.fixSplit query = self.keepLightest (self.weigh query) (splitQueries query) := by
  rw [fixSplit, splitQueries, keepLightest, lightest, List.map_map, List.foldl_map]
  rfl

theorem lighter_keepLightest {best : Query × ℚ} (light : best.2 ≤ self.getQueryProb query) (queries : List Query) :
    lighter best (self.keepLightest (self.weigh query) queries) = self.keepLightest best queries :=
  lightest_skip light _

theorem keepLightest_le (best : Query × ℚ) (queries : List Query) : (self.keepLightest best queries).2 ≤ best.2 :=
  lightest_le_left best _

theorem keepLightest_append (best : Query × ℚ) (queries more : List Query) :
    self.keepLightest best (queries ++ more) = self.keepLightest (self.keepLightest best queries) more := by
  rw [keepLightest, List.map_append, lightest_append]
  rfl

theorem agree_chains (queries : List Query) :
    AgreeUpTo 3000 (lighter (self.weigh query) (self.keepLightest ([], 1000000) queries))
      (self.keepLightest (self.weigh query) queries) := by
  rw [keepLightest, lighter_lightest]
  exact (agreeUpTo_lighter (by norm_num) (self.weigh query)).lightest _

/-- A pass is one loop over all the candidates. -/
theorem fixAll_eq (worded : split query ≠ []) :
    self.fixAll query = .ok (if (self.keepLightest (self.weigh query) (self.corrections query)).2 > 3000 then query
      else (self.keepLightest (self.weigh query) (self.corrections query)).1) := by
  have start := lighter_le_left (self.weigh query) (self.keepLightest ([], 1000000) (self.chainQueries query))
  have agree := self.agree_chains query (self.chainQueries query)
  rw [fixAll, fixDict_eq self query worded, fixLayout_eq, fixJoin_eq, fixSplit_eq]
  simp only [corrections, keepLightest_append]
  show Except.ok _ = _
  generalize lighter (self.weigh query) (self.keepLightest ([], 1000000) (self.chainQueries query)) = best
    at start agree
  have first := (self.keepLightest_le best (layoutQueries query)).trans start
  have second := (self.keepLightest_le _ (joinQueries query)).trans first
  rw [lighter_keepLightest self query start, lighter_keepLightest self query first,
    lighter_keepLightest self query second]
  have agree' := ((agree.lightest ((layoutQueries query).map self.weigh)).lightest
    ((joinQueries query).map self.weigh)).lightest ((splitQueries query).map self.weigh)
  rcases agree' with same | ⟨heavy, heavy'⟩
  · exact congrArg (fun best : Query × ℚ => Except.ok (if best.2 > 3000 then query else best.1)) same
  · exact congrArg Except.ok ((if_pos heavy).trans (if_pos heavy').symm)

variable {query}

theorem fixAll_first (worded : split query ≠ []) : ∃ found,
    FirstLightest self.getQueryProb (query :: self.corrections query) found ∧
      self.fixAll query = .ok (if self.getQueryProb found > 3000 then query else found) := by
  obtain ⟨found, same, first⟩ := lightest_firstLightest self.getQueryProb query (self.corrections query)
  have kept : self.keepLightest (self.weigh query) (self.corrections query) = (found, self.getQueryProb found) := same
  refine ⟨found, first, ?_⟩
  rw [self.fixAll_eq query worded, kept]

/-- A pass returns a lightest candidate, or the query. -/
theorem fixAll_best (worded : split query ≠ []) : ∃ least result,
    IsLeast { weight | ∃ candidate, self.IsCandidate query candidate ∧ self.getQueryProb candidate = weight } least ∧
      self.fixAll query = .ok result ∧ self.getQueryProb result ≤ self.getQueryProb query ∧
      (least ≤ 3000 → self.IsCandidate query result ∧ self.getQueryProb result = least) ∧
      (3000 < least → result = query) := by
  obtain ⟨found, first, pass⟩ := self.fixAll_first worded
  have chosen : self.IsCandidate query found := (mem_candidates worded).mp first.mem
  refine ⟨self.getQueryProb found, _, ⟨⟨found, chosen, rfl⟩, ?_⟩, pass, ?_, ?_, ?_⟩
  · rintro _ ⟨candidate, member, rfl⟩
    exact first.le ((mem_candidates worded).mpr member)
  · split
    · exact le_rfl
    · exact first.le List.mem_cons_self
  · intro light
    rw [if_neg light.not_gt]
    exact ⟨chosen, rfl⟩
  · intro heavy
    exact if_pos heavy

/-- A query of two words. -/
theorem fixAll_best_two : ∃ self : Spellchecker, self.langModel.unProb.entries = [⟨['a', 'b'], 1⟩] ∧
    ∃ least result,
      IsLeast
        { weight | ∃ candidate, self.IsCandidate ['a', ' ', 'b'] candidate ∧ self.getQueryProb candidate = weight }
        least ∧
      self.fixAll ['a', ' ', 'b'] = .ok result ∧ self.getQueryProb result ≤ self.getQueryProb ['a', ' ', 'b'] ∧
      (least ≤ 3000 → self.IsCandidate ['a', ' ', 'b'] result ∧ self.getQueryProb result = least) ∧
      (3000 < least → result = ['a', ' ', 'b']) :=
  ⟨⟨⟨⟨[⟨['a', 'b'], 1⟩], by simp⟩, ∅⟩, ⟨∅⟩, .newestFirst, Char.toLower⟩, rfl,
    fixAll_best _ (by decide +kernel)⟩

example : (Spellchecker.mk ⟨⟨[⟨['a', 'b'], 1⟩], by simp⟩, ∅⟩ ⟨∅⟩ .newestFirst Char.toLower).fixAll ['a', ' ', 'b'] =
    .ok ['a', 'b'] := by decide +kernel

end Spellchecker
