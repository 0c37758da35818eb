import TsSem02.Library.EditScript
import TsSem02.Spellchecker.Trie

/-! # The search and the edit distance

A match is a path through the trie together with an edit script from the query to
the string of the path (`mem_unSearch`).  Where the query ends the search stops, so
no script ends in an insertion.
-/

namespace Spellchecker

open EditScript (Between Settled distance)

/-- The weights of the three kinds of errors; a change into itself is none. -/
def ErrorModel.weights (model : ErrorModel) : EditScript.Weights Char ℚ where
  change source target := if target ≠ source then model.getUnProb target source else 0
  insert target := model.getUnProb target '_'
  delete source := model.getUnProb '_' source

theorem ErrorModel.weights_change (model : ErrorModel) (source target : Char) :
    model.weights.change source target = if target ≠ source then model.getUnProb target source else 0 := rfl

theorem ErrorModel.weight_nonneg {model : ErrorModel} (nonneg : model.NonNegative)
    (script : List (EditScript.Edit Char)) : 0 ≤ EditScript.weight model.weights script := by
  refine EditScript.weight_nonneg (fun source target => ?_) (fun target => ?_) (fun source => ?_) script
  · rw [weights_change]
    split
    · exact getUnProb_nonneg nonneg _ _
    · exact le_refl 0
  · exact getUnProb_nonneg nonneg _ _
  · exact getUnProb_nonneg nonneg _ _

namespace Bor

variable {errModel : ErrorModel} {maxWeight weight : ℚ} {query rest string : Word} {ch : Char} {node : Node}
  {found : Match}

/-! ## One call -/

theorem unSearch_of_gt (heavy : weight > maxWeight) : unSearch errModel maxWeight query node weight = [] := by
  rw [unSearch.eq_def, if_pos heavy]

theorem mem_unSearch_nil (within : weight ≤ maxWeight) :
    found ∈ unSearch errModel maxWeight [] node weight ↔
      node.word = found.word ∧ node.prob = some found.prob ∧ found.weight = weight := by
  obtain ⟨word, prob, total⟩ := found
  rw [unSearch, if_neg (not_lt.mpr within)]
  cases known : node.prob with
  | none => simp
  | some value => simp [eq_comm]

theorem changed_weight (child : Char) :
    (if child ≠ ch then weight + errModel.getUnProb child ch else weight) =
      weight + errModel.weights.change ch child := by
  rw [ErrorModel.weights_change]
  split
  · rfl
  · exact (add_zero weight).symm

theorem mem_unSearch_cons (within : weight ≤ maxWeight) :
    found ∈ unSearch errModel maxWeight (ch :: rest) node weight ↔
      (∃ child sub, (child, sub) ∈ node.children ∧
        found ∈ unSearch errModel maxWeight rest sub (weight + errModel.weights.change ch child)) ∨
      (∃ child sub, (child, sub) ∈ node.children ∧
        found ∈ unSearch errModel maxWeight (ch :: rest) sub (weight + errModel.weights.insert child)) ∨
      found ∈ unSearch errModel maxWeight rest node (weight + errModel.weights.delete ch) := by
  rw [unSearch, if_neg (not_lt.mpr within)]
  simp only [changed_weight, List.mem_append, List.mem_flatMap, List.mem_attach, true_and, Subtype.exists, Prod.exists,
    exists_prop, or_assoc]
  rfl

/-! ## Paths and scripts -/

theorem script_of_mem (distinct : node.Distinct) (member : found ∈ unSearch errModel maxWeight query node weight) :
    ∃ string script, node.look string = some (found.word, some found.prob) ∧ Between query string script ∧
      Settled script ∧ found.weight = weight + EditScript.weight errModel.weights script ∧
      found.weight ≤ maxWeight := by
  induction query, node, weight using unSearch.induct errModel maxWeight with
  | case1 query node weight heavy =>
    rw [unSearch_of_gt heavy] at member
    cases member
  | case2 node weight within prob ends =>
    obtain ⟨word, prob, total⟩ := (mem_unSearch_nil (not_lt.mp within)).mp member
    refine ⟨[], [], ?_, EditScript.between_nil.mpr ⟨rfl, rfl⟩, EditScript.settled_nil, ?_, ?_⟩
    · rw [Node.look_nil, word, prob]
    · rw [total, EditScript.weight_nil, add_zero]
    · rw [total]
      exact not_lt.mp within
  | case3 node weight within inner =>
    obtain ⟨-, prob, -⟩ := (mem_unSearch_nil (not_lt.mp within)).mp member
    rw [inner] at prob
    cases prob
  | case4 node weight within ch rest changed inserted deleted =>
    rcases (mem_unSearch_cons (not_lt.mp within)).mp member with
      ⟨child, sub, inside, member⟩ | ⟨child, sub, inside, member⟩ | member
    · rw [← changed_weight] at member
      obtain ⟨string, script, seen, between, settled, total, within⟩ :=
        changed child sub inside (distinct.of_mem inside) member
      refine ⟨child :: string, .change ch child :: script, ?_,
        EditScript.between_change.mpr ⟨rest, string, rfl, rfl, between⟩,
        EditScript.settled_cons.mpr ⟨settled, fun _ _ => nofun⟩, ?_, within⟩
      · rw [Node.look_cons_of_mem distinct inside]
        exact seen
      · rw [total, EditScript.weight_cons, ← add_assoc]
        exact congrArg (· + _) (changed_weight child)
    · obtain ⟨string, script, seen, between, settled, total, within⟩ :=
        inserted child sub inside (distinct.of_mem inside) member
      have nonempty : script ≠ [] := by
        rintro rfl
        exact List.cons_ne_nil _ _ (EditScript.between_nil.mp between).1
      refine ⟨child :: string, .insert child :: script, ?_,
        EditScript.between_insert.mpr ⟨string, rfl, between⟩,
        EditScript.settled_cons.mpr ⟨settled, fun empty => absurd empty nonempty⟩, ?_, within⟩
      · rw [Node.look_cons_of_mem distinct inside]
        exact seen
      · rw [total, EditScript.weight_cons, ← add_assoc]
        rfl
    · obtain ⟨string, script, seen, between, settled, total, within⟩ := deleted distinct member
      refine ⟨string, .delete ch :: script, seen,
        EditScript.between_delete.mpr ⟨rest, rfl, between⟩,
        EditScript.settled_cons.mpr ⟨settled, fun _ _ => nofun⟩, ?_, within⟩
      rw [total, EditScript.weight_cons, ← add_assoc]
      rfl

/-- By induction on the script: a part of it never weighs more than the whole, so
    the search is not cut off before its end. -/
theorem mem_of_script {script : List (EditScript.Edit Char)} (nonneg : errModel.NonNegative)
    (distinct : node.Distinct) (seen : node.look string = some (found.word, some found.prob))
    (between : Between query string script) (settled : Settled script)
    (total : found.weight = weight + EditScript.weight errModel.weights script) (light : found.weight ≤ maxWeight) :
    found ∈ unSearch errModel maxWeight query node weight := by
  have within : weight ≤ maxWeight := by
    have part := ErrorModel.weight_nonneg nonneg script
    linarith
  induction script generalizing query string node weight with
  | nil =>
    obtain ⟨rfl, rfl⟩ := EditScript.between_nil.mp between
    rw [Node.look_nil, Option.some.injEq, Prod.mk.injEq] at seen
    rw [EditScript.weight_nil, add_zero] at total
    exact (mem_unSearch_nil within).mpr ⟨seen.1, seen.2, total⟩
  | cons edit script ih =>
    have part := ErrorModel.weight_nonneg nonneg script
    obtain ⟨settled', last⟩ := EditScript.settled_cons.mp settled
    rw [EditScript.weight_cons, ← add_assoc] at total
    have within' : weight + edit.weight errModel.weights ≤ maxWeight := by linarith
    cases edit with
    | change ch child =>
      obtain ⟨rest, string, rfl, rfl, between'⟩ := EditScript.between_change.mp between
      obtain ⟨sub, inside, seen'⟩ := Node.exists_child_of_look distinct seen
      refine (mem_unSearch_cons within).mpr (.inl ⟨child, sub, inside, ?_⟩)
      exact ih (distinct.of_mem inside) seen' between' settled' total within'
    | insert child =>
      obtain ⟨string, rfl, between'⟩ := EditScript.between_insert.mp between
      obtain ⟨sub, inside, seen'⟩ := Node.exists_child_of_look distinct seen
      cases query with
      | nil => exact absurd rfl (last (settled'.eq_nil between'.1) child)
      | cons ch rest =>
        refine (mem_unSearch_cons within).mpr (.inr (.inl ⟨child, sub, inside, ?_⟩))
        exact ih (distinct.of_mem inside) seen' between' settled' total within'
    | delete ch =>
      obtain ⟨rest, rfl, between'⟩ := EditScript.between_delete.mp between
      refine (mem_unSearch_cons within).mpr (.inr (.inr ?_))
      exact ih distinct seen between' settled' total within'

/-! ## The dictionary -/

section Fit

variable {langModel : LanguageModel} (order : ChildOrder)

/-- The matches are the words of the dictionary, with their probabilities and the
    weights of the scripts that lead to them. -/
theorem mem_unSearch_fit (nonempty : ∀ word ∈ langModel.unProb, word ≠ []) (nonneg : errModel.NonNegative) :
    found ∈ unSearch errModel maxWeight query ((new langModel errModel).fit order).root 0 ↔
      langModel.unProb.lookup found.word = some found.prob ∧ found.weight ≤ maxWeight ∧
        ∃ script, Between query found.word script ∧ Settled script ∧
          EditScript.weight errModel.weights script = found.weight := by
  have showed := shows_fit order errModel nonempty
  generalize ((new langModel errModel).fit order).root = root at showed
  constructor
  · intro member
    obtain ⟨string, script, seen, between, settled, total, light⟩ := script_of_mem showed.distinct member
    have same : found.word = string := showed.word _ _ _ seen
    refine ⟨?_, light, script, by rwa [same], settled, by rw [total, zero_add]⟩
    rw [same]
    exact AList.mem_lookup_iff.mpr ((showed.prob _ _ _ seen _).mp rfl)
  · rintro ⟨known, light, script, between, settled, total⟩
    have entry : ⟨found.word, found.prob⟩ ∈ langModel.unProb.entries := AList.mem_lookup_iff.mp known
    have reached := (showed.reached found.word).mpr (.inr ⟨_, entry, List.prefix_rfl⟩)
    obtain ⟨⟨word, prob⟩, seen⟩ := Option.isSome_iff_exists.mp reached
    obtain rfl := showed.word _ _ _ seen
    rw [(showed.prob _ _ _ seen _).mpr entry] at seen
    exact mem_of_script nonneg showed.distinct seen between settled (by rw [total, zero_add]) light

/-- The weights at which the search finds a word. -/
def foundWeights (errModel : ErrorModel) (maxWeight : ℚ) (query : Word) (root : Node) (word : Word) : Set ℚ :=
  { weight | ∃ found ∈ unSearch errModel maxWeight query root 0, found.word = word ∧ found.weight = weight }

/-- The search finds a word exactly if it is near enough, and then at its distance. -/
def FindsDistance (errModel : ErrorModel) (maxWeight : ℚ) (query : Word) (root : Node) (word : Word) : Prop :=
  ((∃ found ∈ unSearch errModel maxWeight query root 0, found.word = word) ↔
    distance errModel.weights query word ≤ maxWeight) ∧
  ((∃ found ∈ unSearch errModel maxWeight query root 0, found.word = word) →
    IsLeast (foundWeights errModel maxWeight query root word) (distance errModel.weights query word))

theorem mem_foundWeights (nonempty : ∀ word ∈ langModel.unProb, word ≠ []) (nonneg : errModel.NonNegative)
    {word : Word} (known : word ∈ langModel.unProb) :
    weight ∈ foundWeights errModel maxWeight query ((new langModel errModel).fit order).root word ↔
      weight ≤ maxWeight ∧ ∃ script, Between query word script ∧ Settled script ∧
        EditScript.weight errModel.weights script = weight := by
  constructor
  · rintro ⟨found, member, rfl, rfl⟩
    exact ((mem_unSearch_fit order nonempty nonneg).mp member).2
  · rintro ⟨light, script, between, settled, total⟩
    obtain ⟨prob, entry⟩ := Option.isSome_iff_exists.mp (AList.lookup_isSome.mpr known)
    exact ⟨⟨word, prob, weight⟩,
      (mem_unSearch_fit order nonempty nonneg).mpr ⟨entry, light, script, between, settled, total⟩, rfl, rfl⟩

/-- The search looks no further where the query ends.  So it misses a word, or finds
    it at more than its distance, if every cheapest script ends in an insertion. -/
theorem finds_iff_settled (errModel : ErrorModel) (nonempty : ∀ word ∈ langModel.unProb, word ≠ [])
    (nonneg : errModel.NonNegative) (maxWeight : ℚ) (query : Word) {word : Word} (known : word ∈ langModel.unProb) :
    FindsDistance errModel maxWeight query ((new langModel errModel).fit order).root word ↔
      maxWeight < distance errModel.weights query word ∨
        ∃ script, Between query word script ∧ Settled script ∧
          EditScript.weight errModel.weights script = distance errModel.weights query word := by
  have weights (weight : ℚ) : weight ∈ foundWeights errModel maxWeight query _ word ↔ _ :=
    mem_foundWeights order nonempty nonneg known
  rw [FindsDistance]
  generalize ((new langModel errModel).fit order).root = root at weights
  have light {weight : ℚ} (member : weight ∈ foundWeights errModel maxWeight query root word) :
      distance errModel.weights query word ≤ weight := by
    obtain ⟨-, script, between, -, rfl⟩ := (weights weight).mp member
    exact EditScript.distance_le errModel.weights between
  constructor
  · rintro ⟨finds, least⟩
    by_cases near : distance errModel.weights query word ≤ maxWeight
    · exact .inr ((weights _).mp (least (finds.mpr near)).1).2
    · exact .inl (not_le.mp near)
  · intro condition
    have attained (near : distance errModel.weights query word ≤ maxWeight) :
        distance errModel.weights query word ∈ foundWeights errModel maxWeight query root word :=
      (weights _).mpr ⟨near, condition.resolve_left (not_lt.mpr near)⟩
    have near (finds : ∃ found ∈ unSearch errModel maxWeight query root 0, found.word = word) :
        distance errModel.weights query word ≤ maxWeight := by
      obtain ⟨found, member, same⟩ := finds
      have here : found.weight ∈ foundWeights errModel maxWeight query root word := ⟨found, member, same, rfl⟩
      exact (light here).trans ((weights _).mp here).1
    refine ⟨⟨near, fun near => ?_⟩, fun finds => ⟨attained (near finds), fun weight member => light member⟩⟩
    obtain ⟨found, member, same, -⟩ := attained near
    exact ⟨found, member, same⟩

/-- An insertion in front. -/
theorem finds_iff_settled_front : ∃ langModel : LanguageModel, ∃ errModel : ErrorModel,
    langModel.unProb.entries = [⟨['a', 'b'], 1⟩] ∧ errModel.getUnProb 'a' '_' = 1 ∧
    FindsDistance errModel 6 ['b'] ((new langModel errModel).fit .newestFirst).root ['a', 'b'] := by
  refine ⟨⟨⟨[⟨['a', 'b'], 1⟩], by simp⟩, ∅⟩, ⟨⟨[⟨'_', ⟨[⟨'a', 1⟩], by simp⟩⟩], by simp⟩⟩, rfl, rfl, ?_⟩
  refine (finds_iff_settled .newestFirst _ ?_ ?_ 6 ['b'] (List.mem_singleton_self _)).mpr
    (.inr ⟨[.insert 'a', .change 'b' 'b'], ⟨rfl, rfl⟩, fun element => by simp, by decide +kernel⟩)
  · show ∀ word ∈ [['a', 'b']], word ≠ []
    decide
  · simp [ErrorModel.NonNegative]

/-- An insertion at the end, of weight 1, is not found. -/
theorem misses_ending : ¬ ∀ (order : ChildOrder) (langModel : LanguageModel) (errModel : ErrorModel),
    (∀ word ∈ langModel.unProb, word ≠ []) → errModel.NonNegative →
      ∀ (maxWeight : ℚ) (query word : Word), word ∈ langModel.unProb →
        FindsDistance errModel maxWeight query ((new langModel errModel).fit order).root word := by
  intro always
  have finds := always .newestFirst ⟨⟨[⟨['a', 'b'], 1⟩], by simp⟩, ∅⟩
    ⟨⟨[⟨'_', ⟨[⟨'b', 1⟩], by simp⟩⟩], by simp⟩⟩ ?_ ?_ 6 ['a'] ['a', 'b'] (List.mem_singleton_self _)
  · obtain ⟨found, member, -⟩ := finds.1.mpr (by decide +kernel)
    have nothing : unSearch ⟨⟨[⟨'_', ⟨[⟨'b', 1⟩], by simp⟩⟩], by simp⟩⟩ 6 ['a']
        ((new ⟨⟨[⟨['a', 'b'], 1⟩], by simp⟩, ∅⟩ ⟨⟨[⟨'_', ⟨[⟨'b', 1⟩], by simp⟩⟩], by simp⟩⟩).fit
          .newestFirst).root 0 = [] := by
      decide +kernel
    rw [nothing] at member
    cases member
  · show ∀ word ∈ [['a', 'b']], word ≠ []
    decide
  · simp [ErrorModel.NonNegative]

end Fit

end Bor

end Spellchecker
