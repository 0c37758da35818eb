import TsSem02.Library.FirstOfKind
import TsSem02.Spellchecker.Bor

/-! # The choice among the matches

`best_match` goes through the matches in the order of their scores and takes each
word where it first meets it (`choose_eq`).  It should skip the matches that weigh
too much; it stops at the first of them.
-/

namespace Spellchecker.Bor

open FirstOfKind

section Choice

variable (alpha beta maxDiff : ℚ) (found : List Match)

/-- The weight of the match with the best score. -/
def topWeight : ℚ := ((sortMatches alpha beta found).head?.map Match.weight).getD 0

/-- Not more than `max_diff` above it. -/
def Admissible (e : Match) : Prop := ¬ e.weight - topWeight alpha beta found > maxDiff

instance : DecidablePred (Admissible alpha beta maxDiff found) := fun _ => inferInstanceAs (Decidable (¬ _))

/-- The best score among the admissible matches of a word. -/
def IsBestScore (word : Word) (best : ℚ) : Prop :=
  IsLeast
    { total | ∃ e ∈ found, Admissible alpha beta maxDiff found e ∧ e.word = word ∧ score alpha beta e = total } best

def NotWorse (left right : Word) : Prop :=
  ∃ x y, IsBestScore alpha beta maxDiff found left x ∧ IsBestScore alpha beta maxDiff found right y ∧ x ≤ y

/-- What `best_match` is meant to choose. -/
structure Selects (matchNum : Nat) (chosen : List Word) : Prop where
  nodup : chosen.Nodup
  bounded : chosen.length ≤ matchNum
  matched : ∀ word ∈ chosen, ∃ best, IsBestScore alpha beta maxDiff found word best
  ordered : chosen.Pairwise (NotWorse alpha beta maxDiff found)
  omitted : ∀ e ∈ found, e.word ∉ chosen →
    (∀ other ∈ found, other.word = e.word → ¬ Admissible alpha beta maxDiff found other) ∨
      (chosen.length = matchNum ∧ ∀ word ∈ chosen, NotWorse alpha beta maxDiff found word e.word)

/-- The matches in the order of their scores, up to the first that is not admissible. -/
def front : List Match := (sortMatches alpha beta found).takeWhile fun e => Admissible alpha beta maxDiff found e

end Choice

variable {alpha beta maxDiff : ℚ} {found : List Match} {matchNum : Nat}

/-! ## The loop -/

theorem pick_eq (bestWeight : ℚ) (later : List Match) (res : List Word) (room : res.length < matchNum) :
    pick (some matchNum) (some maxDiff) bestWeight later res =
      (res ++ firsts Match.word res (later.takeWhile fun e => ¬ e.weight - bestWeight > maxDiff)).take matchNum := by
  induction later generalizing res with
  | nil =>
    rw [pick, List.takeWhile_nil, firsts, List.append_nil, List.take_of_length_le room.le]
  | cons e later ih =>
    rw [pick, Option.any_some]
    by_cases heavy : e.weight - bestWeight > maxDiff
    · have stops : ¬ decide (¬ e.weight - bestWeight > maxDiff) = true := by
        rw [decide_eq_true_eq]
        exact not_not.mpr heavy
      rw [if_pos (decide_eq_true heavy),
        List.takeWhile_cons_of_neg (p := fun e : Match => decide (¬ e.weight - bestWeight > maxDiff)) stops, firsts,
        List.append_nil, List.take_of_length_le room.le]
    · rw [if_neg (mt of_decide_eq_true heavy),
        List.takeWhile_cons_of_pos (p := fun e : Match => decide (¬ e.weight - bestWeight > maxDiff))
          (decide_eq_true heavy)]
      by_cases known : e.word ∈ res
      · rw [if_pos known, firsts_seen known]
        exact ih res room
      · rw [if_neg known, firsts_new known, List.append_cons res e.word (firsts _ _ _)]
        by_cases full : matchNum = (res ++ [e.word]).length
        · rw [if_pos (congrArg some full), List.take_append_of_le_length full.le, List.take_of_length_le full.ge]
        · rw [if_neg (fun same => full (Option.some.inj same))]
          refine ih _ ?_
          rw [List.length_append, List.length_singleton] at full ⊢
          omega

theorem choose_eq (positive : 0 < matchNum) :
    choose alpha beta (some matchNum) (some maxDiff) found =
      (firsts Match.word [] (front alpha beta maxDiff found)).take matchNum := by
  rw [choose]
  cases sorted : sortMatches alpha beta found with
  | nil => rw [front, sorted, List.takeWhile_nil, firsts, List.take_nil]
  | cons best later =>
    have top : topWeight alpha beta found = best.weight := by rw [topWeight, sorted]; rfl
    rw [front, sorted]
    simp only [Admissible, top]
    exact pick_eq best.weight (best :: later) [] positive

/-! ## The order -/

theorem sortMatches_pairwise (alpha beta : ℚ) (found : List Match) :
    (sortMatches alpha beta found).Pairwise fun left right => score alpha beta left ≤ score alpha beta right := by
  have total : Std.Total fun left right : Match => score alpha beta left ≤ score alpha beta right :=
    ⟨fun left right => le_total _ _⟩
  have trans : IsTrans Match fun left right => score alpha beta left ≤ score alpha beta right :=
    ⟨fun _ _ _ => le_trans⟩
  exact List.pairwise_insertionSort _ found

theorem mem_front {e : Match} (member : e ∈ front alpha beta maxDiff found) :
    e ∈ found ∧ Admissible alpha beta maxDiff found e := by
  refine ⟨(List.mem_insertionSort _).mp (List.takeWhile_subset _ member), ?_⟩
  simpa using List.mem_takeWhile_imp member

theorem score_le_of_front {x y : Match} (first : x ∈ front alpha beta maxDiff found)
    (later : y ∉ front alpha beta maxDiff found) (member : y ∈ found) : score alpha beta x ≤ score alpha beta y := by
  have sorted := sortMatches_pairwise alpha beta found
  have inside : y ∈ sortMatches alpha beta found := (List.mem_insertionSort _).mpr member
  rw [← List.takeWhile_append_dropWhile (p := fun e => Admissible alpha beta maxDiff found e)
    (l := sortMatches alpha beta found)] at sorted inside
  exact (List.pairwise_append.mp sorted).2.2 x first y ((List.mem_append.mp inside).resolve_left later)

theorem exists_bestScore {e : Match} (member : e ∈ found) (admissible : Admissible alpha beta maxDiff found e) :
    ∃ best, IsBestScore alpha beta maxDiff found e.word best := by
  let scores := ((found.filter fun other => Admissible alpha beta maxDiff found other ∧ other.word = e.word).map
    (score alpha beta)).toFinset
  have mem_scores (total : ℚ) : total ∈ scores ↔ ∃ other ∈ found,
      Admissible alpha beta maxDiff found other ∧ other.word = e.word ∧ score alpha beta other = total := by
    simp [scores, and_assoc]
  have some_score : scores.Nonempty := ⟨_, (mem_scores _).mpr ⟨e, member, admissible, rfl, rfl⟩⟩
  refine ⟨scores.min' some_score, (mem_scores _).mp (scores.min'_mem some_score), fun total here => ?_⟩
  exact scores.min'_le total ((mem_scores total).mpr here)

theorem notWorse_of_front {left right : Word} {e : Match} (member : e ∈ found)
    (admissible : Admissible alpha beta maxDiff found e) (same : e.word = right)
    (first : ∃ x ∈ front alpha beta maxDiff found, x.word = left ∧
      ∀ y ∈ front alpha beta maxDiff found, y.word = right → score alpha beta x ≤ score alpha beta y) :
    NotWorse alpha beta maxDiff found left right := by
  subst same
  obtain ⟨x, here, rfl, before⟩ := first
  obtain ⟨inside, light⟩ := mem_front here
  obtain ⟨best, least⟩ := exists_bestScore inside light
  obtain ⟨best', least'⟩ := exists_bestScore member admissible
  refine ⟨best, best', least, least', ?_⟩
  obtain ⟨y, known, -, same, rfl⟩ := least'.1
  refine (least.2 ⟨x, inside, light, rfl, rfl⟩).trans ?_
  by_cases early : y ∈ front alpha beta maxDiff found
  · exact before y early same
  · exact score_le_of_front here early known

/-! ## What is chosen -/

theorem front_pairwise (alpha beta maxDiff : ℚ) (found : List Match) :
    (front alpha beta maxDiff found).Pairwise fun left right => score alpha beta left ≤ score alpha beta right :=
  (sortMatches_pairwise alpha beta found).sublist (List.takeWhile_sublist _)

theorem score_refl (alpha beta : ℚ) :
    Std.Refl fun left right : Match => score alpha beta left ≤ score alpha beta right :=
  ⟨fun _ => le_rfl⟩

theorem firsts_front_pairwise (alpha beta maxDiff : ℚ) (found : List Match) :
    (firsts Match.word [] (front alpha beta maxDiff found)).Pairwise (NotWorse alpha beta maxDiff found) := by
  have refl := score_refl alpha beta
  refine (firsts_pairwise (front_pairwise alpha beta maxDiff found)).imp_of_mem fun {left right} _ later first => ?_
  obtain ⟨-, e, here, same⟩ := mem_firsts.mp later
  obtain ⟨inside, admissible⟩ := mem_front here
  exact notWorse_of_front inside admissible same first

section Omitted

variable {e : Match} (member : e ∈ found) (admissible : Admissible alpha beta maxDiff found e)
  (omitted : e.word ∉ (firsts Match.word [] (front alpha beta maxDiff found)).take matchNum)

include member admissible omitted

theorem notWorse_of_omitted {word : Word}
    (chosen : word ∈ (firsts Match.word [] (front alpha beta maxDiff found)).take matchNum) :
    NotWorse alpha beta maxDiff found word e.word := by
  have refl := score_refl alpha beta
  exact notWorse_of_front member admissible rfl
    (exists_first_of_mem_take (front_pairwise alpha beta maxDiff found) chosen omitted)

/-- An admissible match is omitted only when there is no room for it, or when it is
    not in front. -/
theorem length_of_omitted
    (enough : matchNum ≤ (firsts Match.word [] (front alpha beta maxDiff found)).length ∨
      ∀ e ∈ found, Admissible alpha beta maxDiff found e → ∃ e' ∈ front alpha beta maxDiff found, e'.word = e.word) :
    ((firsts Match.word [] (front alpha beta maxDiff found)).take matchNum).length = matchNum := by
  rw [List.length_take, min_eq_left]
  rcases enough with many | covered
  · exact many
  · by_contra few
    rw [List.take_of_length_le (not_le.mp few).le] at omitted
    exact omitted (mem_firsts.mpr ⟨List.not_mem_nil, covered e member admissible⟩)

end Omitted

theorem selects_choose (positive : 0 < matchNum) :
    Selects alpha beta maxDiff found matchNum (choose alpha beta (some matchNum) (some maxDiff) found) ↔
      matchNum ≤ ((front alpha beta maxDiff found).map Match.word).toFinset.card ∨
        ∀ e ∈ found, Admissible alpha beta maxDiff found e →
          ∃ e' ∈ front alpha beta maxDiff found, e'.word = e.word := by
  have source {word : Word} (member : word ∈ (firsts Match.word [] (front alpha beta maxDiff found)).take matchNum) :
      ∃ e ∈ front alpha beta maxDiff found, e.word = word :=
    (mem_firsts.mp (List.mem_of_mem_take member)).2
  rw [choose_eq positive, ← length_firsts]
  constructor
  · intro selects
    refine or_iff_not_imp_left.mpr fun few e member admissible => ?_
    have short : ((firsts Match.word [] (front alpha beta maxDiff found)).take matchNum).length < matchNum := by
      rw [List.length_take]
      omega
    by_contra missed
    rcases selects.omitted e member (fun chosen => missed (source chosen)) with none_admissible | ⟨full, -⟩
    · exact none_admissible e member rfl admissible
    · exact absurd full short.ne
  · intro enough
    constructor
    case nodup => exact (firsts_nodup _ _ _).sublist (List.take_sublist _ _)
    case bounded => exact List.length_take_le _ _
    case matched =>
      intro word member
      obtain ⟨e, here, rfl⟩ := source member
      obtain ⟨inside, admissible⟩ := mem_front here
      exact exists_bestScore inside admissible
    case ordered => exact (firsts_front_pairwise alpha beta maxDiff found).sublist (List.take_sublist _ _)
    case omitted =>
      intro e member left
      by_cases light : ∃ other ∈ found, other.word = e.word ∧ Admissible alpha beta maxDiff found other
      · obtain ⟨other, inside, same, admissible⟩ := light
        rw [← same] at left ⊢
        exact .inr ⟨length_of_omitted inside admissible left enough,
          fun word chosen => notWorse_of_omitted inside admissible left chosen⟩
      · exact .inl fun other inside same admissible => light ⟨other, inside, same, admissible⟩

/-- The loop stops at the first match that weighs too much, where it should skip it.
    So the choice is right exactly if there are words enough before it, or all of
    them. -/
theorem selects_iff_front (bor : Bor) (word : Word) (alpha beta maxWeight maxDiff : ℚ) (positive : 0 < matchNum) :
    Selects alpha beta maxDiff (unSearch bor.errModel maxWeight word bor.root 0) matchNum
        (bestMatch bor word alpha beta maxWeight (some matchNum) (some maxDiff)) ↔
      matchNum ≤
          ((front alpha beta maxDiff (unSearch bor.errModel maxWeight word bor.root 0)).map Match.word).toFinset.card ∨
        ∀ e ∈ unSearch bor.errModel maxWeight word bor.root 0,
          Admissible alpha beta maxDiff (unSearch bor.errModel maxWeight word bor.root 0) e →
            ∃ e' ∈ front alpha beta maxDiff (unSearch bor.errModel maxWeight word bor.root 0), e'.word = e.word :=
  selects_choose positive

/-- Two words, both in front. -/
theorem selects_iff_front_two : ∃ bor : Bor,
    bestMatch bor ['a'] 1 1 6 (some 8) (some 3) = [['a'], ['c']] ∧
      Selects 1 1 3 (unSearch bor.errModel 6 ['a'] bor.root 0) 8 (bestMatch bor ['a'] 1 1 6 (some 8) (some 3)) := by
  refine ⟨(new ⟨⟨[⟨['a'], 1⟩, ⟨['c'], 10⟩], by simp⟩, ∅⟩
    ⟨⟨[⟨'a', ⟨[⟨'c', 1⟩], by simp⟩⟩], by simp⟩⟩).fit .newestFirst, by decide +kernel, ?_⟩
  exact (selects_iff_front _ ['a'] 1 1 6 3 (by decide)).mpr (.inr (by decide +kernel))

/-- Between two admissible matches there may be one that is not. -/
theorem omits_admissible : ¬ ∀ (order : ChildOrder) (langModel : LanguageModel) (errModel : ErrorModel),
    (∀ word ∈ langModel.unProb, word ≠ []) → errModel.NonNegative →
      ∀ (word : Word) (alpha beta maxWeight maxDiff : ℚ) (matchNum : Nat),
        0 ≤ alpha → 0 ≤ beta → 0 ≤ maxDiff → 1 ≤ matchNum →
          Selects alpha beta maxDiff (unSearch errModel maxWeight word ((new langModel errModel).fit order).root 0)
            matchNum
            (bestMatch ((new langModel errModel).fit order) word alpha beta maxWeight (some matchNum)
              (some maxDiff)) := by
  intro always
  have selects := always .newestFirst ⟨⟨[⟨['a'], 1⟩, ⟨['b'], 0⟩, ⟨['c'], 10⟩], by simp⟩, ∅⟩
    ⟨⟨[⟨'a', ⟨[⟨'b', 4⟩, ⟨'c', 1⟩], by simp⟩⟩], by simp⟩⟩ ?_ ?_ ['a'] 1 1 6 3 8 (by decide) (by decide) (by decide)
    (by decide)
  · rcases selects.omitted ⟨['c'], 10, 1⟩ (by decide +kernel) (by decide +kernel) with heavy | ⟨full, -⟩
    · exact heavy ⟨['c'], 10, 1⟩ (by decide +kernel) rfl (by decide +kernel)
    · exact absurd full (by decide +kernel)
  · show ∀ word ∈ [['a'], ['b'], ['c']], word ≠ []
    decide
  · simp [ErrorModel.NonNegative]

end Spellchecker.Bor
