import TsSem02.Spellchecker.Bor

/-! # The trie holds the dictionary

What a node of the trie says, its word and its probability, is seen along the
strings that lead to it (`look`).  Storing a word changes what is seen along the
prefixes of the word and nothing else (`look_store`), so after `fit` the trie shows
the dictionary (`fit_exact`).
-/

namespace Spellchecker

open Association

namespace Node

variable {node child : Node} {order : ChildOrder} {ch other : Char} {string whole before rest : Word} {prob : ℚ}
  {idx : Nat}

/-- The node a string leads to. -/
def reach : Word → Node → Option Node
  | [], node => some node
  | ch :: string, node => (node.child ch).bind (reach string)

/-- The word and the probability of the node a string leads to. -/
def look (node : Node) (string : Word) : Option (Word × Option ℚ) :=
  (node.reach string).map fun node => (node.word, node.prob)

/-- No node has two children for one character. -/
inductive Distinct : Node → Prop where
  | mk {word : Word} {children : List (Char × Node)} {prob : Option ℚ} : (children.map Prod.fst).Nodup →
      (∀ entry ∈ children, Distinct entry.2) → Distinct (mk word children prob)

theorem Distinct.keys (distinct : Distinct node) : (node.children.map Prod.fst).Nodup := by
  cases distinct with
  | mk keys _ => exact keys

theorem child_eq_some_iff (distinct : Distinct node) : node.child ch = some child ↔ (ch, child) ∈ node.children :=
  lookup_eq_some_iff_mem distinct.keys

theorem Distinct.of_mem (distinct : Distinct node) (inside : (ch, child) ∈ node.children) : Distinct child := by
  cases distinct with
  | mk keys below => exact below _ inside

theorem new_distinct (word : Word) : Distinct (new word) := .mk List.nodup_nil fun _ member => nomatch member

theorem setProb_distinct (distinct : Distinct node) : Distinct (node.setProb prob) := by
  cases distinct with
  | mk keys below => exact .mk keys below

@[simp] theorem look_nil : node.look [] = some (node.word, node.prob) := rfl

theorem look_cons : node.look (ch :: string) = (node.child ch).bind fun child => child.look string := by
  rw [look, reach]
  cases node.child ch with
  | none => rfl
  | some child => rfl

theorem look_cons_of_mem (distinct : Distinct node) (inside : (ch, child) ∈ node.children) :
    node.look (ch :: string) = child.look string := by
  rw [look_cons, (child_eq_some_iff distinct).mpr inside]
  rfl

theorem exists_child_of_look (distinct : Distinct node) {seen : Word × Option ℚ}
    (looked : node.look (ch :: string) = some seen) :
    ∃ child, (ch, child) ∈ node.children ∧ child.look string = some seen := by
  obtain ⟨child, found, looked⟩ := Option.bind_eq_some_iff.mp (look_cons.symm.trans looked)
  exact ⟨child, (child_eq_some_iff distinct).mp found, looked⟩

@[simp] theorem look_new_cons {word : Word} : (new word).look (ch :: string) = none := rfl

@[simp] theorem look_setProb_cons : (node.setProb prob).look (ch :: string) = node.look (ch :: string) := rfl

/-! ## One child -/

@[simp] theorem setChild_word : (node.setChild order ch child).word = node.word := by
  rw [setChild]
  split <;> rfl

@[simp] theorem setChild_prob : (node.setChild order ch child).prob = node.prob := by
  rw [setChild]
  split <;> rfl

theorem child_setChild (distinct : Distinct node) :
    (node.setChild order ch child).child other = if other = ch then some child else node.child other := by
  have keys := distinct.keys
  rw [setChild, Node.child, Node.child]
  split
  · next present =>
    split
    · next same => rw [same]; exact lookup_replace_self present
    · next different => exact lookup_replace_of_ne different child node.children
  · next absent =>
    have more : (((ch, child) :: node.children).map Prod.fst).Nodup := List.nodup_cons.mpr ⟨absent, keys⟩
    refine (lookup_perm more (order.perm _) other).trans ?_
    rw [List.lookup_cons]
    split
    · next same => rw [if_pos (beq_iff_eq.mp same)]
    · next different => rw [if_neg (beq_eq_false_iff_ne.mp different)]

theorem setChild_distinct (distinct : Distinct node) (below : Distinct child) :
    Distinct (node.setChild order ch child) := by
  cases distinct with
  | mk keys all =>
    rw [setChild]
    split
    · refine .mk (by rw [keys_replace]; exact keys) fun entry member => ?_
      obtain ⟨entry', member', rfl⟩ := List.mem_map.mp member
      split
      · exact below
      · exact all entry' member'
    · next absent =>
      refine .mk ((((order.perm _).map Prod.fst).nodup_iff).mpr (List.nodup_cons.mpr ⟨absent, keys⟩)) ?_
      intro entry member
      rcases List.mem_cons.mp ((order.perm _).mem_iff.mp member) with rfl | member
      · exact below
      · exact all entry member

/-! ## One word -/

/-- All words below a node are the strings that lead to them, behind the string
    that leads to the node. -/
def Labelled (node : Node) (before : Word) : Prop :=
  ∀ string word prob, node.look string = some (word, prob) → word = before ++ string

theorem look_enter (labelled : Labelled node before) (split : whole = before ++ ch :: rest)
    (idx_eq : idx = before.length) (string : Word) :
    (node.enter whole prob idx ch).look string =
      if string = [] then
        some (before ++ [ch], if rest = [] then some prob else (node.look [ch]).bind Prod.snd)
      else node.look (ch :: string) := by
  have start : whole.take (idx + 1) = before ++ [ch] := by
    rw [split, idx_eq, List.append_cons, List.take_left' (by simp)]
  have ends (word : Word) (same : word = before ++ [ch]) : word = whole ↔ rest = [] := by
    rw [same, split]
    simp [eq_comm]
  rw [enter, start]
  cases found : node.child ch with
  | none =>
    have unknown (string : Word) : node.look (ch :: string) = none := by rw [look_cons, found]; rfl
    rw [Option.getD_none, if_congr (ends (new (before ++ [ch])).word rfl) rfl rfl]
    cases string with
    | nil =>
      rw [if_pos rfl, unknown]
      split <;> rfl
    | cons next string =>
      rw [if_neg (List.cons_ne_nil _ _), unknown]
      split <;> rfl
  | some child =>
    have known (string : Word) : node.look (ch :: string) = child.look string := by rw [look_cons, found]; rfl
    have label : child.word = before ++ [ch] := labelled [ch] child.word child.prob ((known []).trans look_nil)
    rw [Option.getD_some, if_congr (ends child.word label) rfl rfl]
    cases string with
    | nil =>
      rw [if_pos rfl, known, look_nil, ← label]
      split <;> rfl
    | cons next string =>
      rw [if_neg (List.cons_ne_nil _ _), known]
      split
      · rw [look_setProb_cons]
      · rfl

theorem enter_distinct (distinct : Distinct node) : Distinct (node.enter whole prob idx ch) := by
  have child : Distinct ((node.child ch).getD (new (whole.take (idx + 1)))) := by
    cases found : node.child ch with
    | none => exact new_distinct _
    | some child => exact distinct.of_mem ((child_eq_some_iff distinct).mp found)
  rw [enter]
  split
  · exact setProb_distinct child
  · exact child

theorem enter_labelled (labelled : Labelled node before) (split : whole = before ++ ch :: rest)
    (idx_eq : idx = before.length) : Labelled (node.enter whole prob idx ch) (before ++ [ch]) := by
  intro string word value seen
  rw [look_enter labelled split idx_eq] at seen
  split at seen
  · next empty =>
    cases seen
    rw [empty, List.append_nil]
  · rw [labelled _ _ _ seen, ← List.append_cons]

theorem store_distinct (distinct : Distinct node) : Distinct (store order whole prob idx rest node) := by
  induction rest generalizing idx node with
  | nil => exact distinct
  | cons ch rest ih => exact setChild_distinct distinct (ih (enter_distinct distinct))

/-- By induction on what is left of the word: storing it makes its prefixes lead to
    nodes, and gives the last of these the probability. -/
theorem look_store (distinct : Distinct node) (labelled : Labelled node before) (split : whole = before ++ rest)
    (idx_eq : idx = before.length) (string : Word) :
    (store order whole prob idx rest node).look string =
      if string ≠ [] ∧ string <+: rest then
        some (before ++ string, if string = rest then some prob else (node.look string).bind Prod.snd)
      else node.look string := by
  induction rest generalizing idx node before string with
  | nil =>
    rw [if_neg (fun ⟨nonempty, isPrefix⟩ => nonempty (List.prefix_nil.mp isPrefix)), store]
  | cons ch rest ih =>
    rw [store]
    cases string with
    | nil => rw [if_neg (fun ⟨nonempty, _⟩ => nonempty rfl), look_nil, look_nil, setChild_word, setChild_prob]
    | cons other string =>
      rw [look_cons, child_setChild distinct]
      by_cases same : other = ch
      · subst same
        rw [if_pos rfl, Option.bind_some,
          ih (enter_distinct distinct) (enter_labelled labelled split idx_eq) (by rw [split, ← List.append_cons])
            (by simp [idx_eq]),
          look_enter labelled split idx_eq]
        -- below the first character the question is the same, for what is left of both
        have prefixes : string <+: rest ↔ other :: string ≠ [] ∧ other :: string <+: other :: rest := by simp
        cases string with
        | nil =>
          rw [if_neg (fun ⟨nonempty, _⟩ => nonempty rfl), if_pos rfl, if_pos (prefixes.mp List.nil_prefix)]
          simp [eq_comm]
        | cons next string =>
          rw [if_neg (List.cons_ne_nil _ _)]
          by_cases inside : next :: string <+: rest
          · have stored : next :: string ≠ [] ∧ next :: string <+: rest := ⟨List.cons_ne_nil _ _, inside⟩
            rw [if_pos stored, if_pos (prefixes.mp inside)]
            simp
          · have skipped : ¬ (next :: string ≠ [] ∧ next :: string <+: rest) := fun stored => inside stored.2
            rw [if_neg skipped, if_neg (mt prefixes.mpr inside)]
      · rw [if_neg same, if_neg (fun ⟨_, isPrefix⟩ => same (List.cons_prefix_cons.mp isPrefix).1), look_cons]

end Node

/-! ## The dictionary -/

/-- The trie shows these words, with these probabilities, and nothing else. -/
structure Shows (entries : List (Sigma fun _ : Word => ℚ)) (root : Node) : Prop where
  distinct : root.Distinct
  word : ∀ string word prob, root.look string = some (word, prob) → word = string
  prob : ∀ string word prob, root.look string = some (word, prob) →
    ∀ value, prob = some value ↔ ⟨string, value⟩ ∈ entries
  reached : ∀ string, (root.look string).isSome ↔ string = [] ∨ ∃ entry ∈ entries, string <+: entry.1

theorem shows_new : Shows [] (.new []) where
  distinct := Node.new_distinct []
  word string word prob seen := by
    cases string with
    | nil => cases seen; rfl
    | cons ch string => cases seen
  prob string word prob seen := by
    cases string with
    | nil => cases seen; simp [Node.new, Node.prob]
    | cons ch string => cases seen
  reached string := by
    cases string with
    | nil => simp
    | cons ch string => simp

variable {entries : List (Sigma fun _ : Word => ℚ)} {root : Node} {word string : Word} {prob value : ℚ}

theorem Shows.bind_prob (showed : Shows entries root) :
    (root.look string).bind Prod.snd = some value ↔ ⟨string, value⟩ ∈ entries := by
  cases seen : root.look string with
  | some pair => exact showed.prob string pair.1 pair.2 seen value
  | none =>
    refine ⟨nofun, fun member => ?_⟩
    have reached := (showed.reached string).mpr (.inr ⟨_, member, List.prefix_rfl⟩)
    rw [seen] at reached
    cases reached

theorem mem_stored (fresh : ∀ entry ∈ entries, entry.1 ≠ word) :
    ⟨string, value⟩ ∈ entries ++ [⟨word, prob⟩] ↔
      if string = word then value = prob else ⟨string, value⟩ ∈ entries := by
  rw [List.mem_append, List.mem_singleton]
  split
  · next same =>
    subst same
    have absent : ⟨string, value⟩ ∉ entries := fun member => fresh _ member rfl
    simp [absent]
  · next different => simp [different]

theorem Shows.store (showed : Shows entries root) (order : ChildOrder) (nonempty : word ≠ [])
    (fresh : ∀ entry ∈ entries, entry.1 ≠ word) :
    Shows (entries ++ [⟨word, prob⟩]) (root.store order word prob 0 word) := by
  have labelled : root.Labelled [] := fun string word prob seen => showed.word string word prob seen
  have look (string : Word) : (root.store order word prob 0 word).look string =
      if string ≠ [] ∧ string <+: word then
        some (string, if string = word then some prob else (root.look string).bind Prod.snd)
      else root.look string :=
    Node.look_store showed.distinct labelled rfl rfl string
  constructor
  case distinct => exact Node.store_distinct showed.distinct
  case word =>
    intro string word' prob' seen
    rw [look] at seen
    split at seen
    · cases seen; rfl
    · exact showed.word string word' prob' seen
  case prob =>
    intro string word' prob' seen value
    rw [look] at seen
    rw [mem_stored fresh]
    split at seen
    · cases seen
      split
      · simp [eq_comm]
      · exact showed.bind_prob
    · next skipped =>
      have different : string ≠ word := by
        rintro rfl
        exact skipped ⟨nonempty, List.prefix_rfl⟩
      rw [if_neg different]
      exact showed.prob string word' prob' seen value
  case reached =>
    intro string
    rw [look]
    simp only [List.mem_append, List.mem_singleton, or_and_right, exists_or, exists_eq_left]
    split
    · next stored => simp [stored.2]
    · next skipped =>
      rw [showed.reached]
      constructor
      · rintro (empty | known)
        · exact .inl empty
        · exact .inr (.inl known)
      · rintro (empty | known | isPrefix)
        · exact .inl empty
        · exact .inr known
        · by_contra fresh
          exact skipped ⟨fun empty => fresh (.inl empty), isPrefix⟩

theorem Shows.foldl (showed : Shows entries root) (order : ChildOrder) (later : List (Sigma fun _ : Word => ℚ))
    (distinct : ((entries ++ later).map Sigma.fst).Nodup) (nonempty : ∀ entry ∈ later, entry.1 ≠ []) :
    Shows (entries ++ later)
      (later.foldl (fun root entry => root.store order entry.1 entry.2 0 entry.1) root) := by
  induction later generalizing entries root with
  | nil => rwa [List.append_nil]
  | cons entry later ih =>
    have fresh : ∀ earlier ∈ entries, earlier.1 ≠ entry.1 := by
      intro earlier member same
      rw [List.map_append, List.map_cons] at distinct
      exact (List.nodup_append.mp distinct).2.2 _ (List.mem_map_of_mem member) _ List.mem_cons_self same
    have stored : Shows (entries ++ [entry]) (root.store order entry.1 entry.2 0 entry.1) :=
      showed.store order (nonempty entry List.mem_cons_self) fresh
    rw [List.append_cons] at distinct ⊢
    exact ih stored distinct fun other member => nonempty other (List.mem_cons_of_mem _ member)

section Fit

variable {langModel : LanguageModel}

theorem shows_fit (order : ChildOrder) (errModel : ErrorModel) (nonempty : ∀ word ∈ langModel.unProb, word ≠ []) :
    Shows langModel.unProb.entries ((Bor.new langModel errModel).fit order).root :=
  shows_new.foldl order langModel.unProb.entries langModel.unProb.nodupKeys
    fun entry member => nonempty entry.1 (List.mem_keys_of_mem member)

/-- Every node of the trie has the string that leads to it as its word and the
    probability of this word, if it is in the dictionary; and the strings that lead
    to nodes are the prefixes of words, and the empty one. -/
theorem fit_exact (order : ChildOrder) (errModel : ErrorModel) (nonempty : ∀ word ∈ langModel.unProb, word ≠ [])
    (string : Word) :
    (∀ node, ((Bor.new langModel errModel).fit order).root.reach string = some node →
      node.word = string ∧ node.prob = langModel.unProb.lookup string) ∧
    ((((Bor.new langModel errModel).fit order).root.reach string).isSome ↔
      string = [] ∨ ∃ word ∈ langModel.unProb, string <+: word) := by
  have showed := shows_fit order errModel nonempty
  generalize ((Bor.new langModel errModel).fit order).root = root at showed
  constructor
  · intro node reached
    have seen : root.look string = some (node.word, node.prob) := by rw [Node.look, reached]; rfl
    refine ⟨showed.word _ _ _ seen, ?_⟩
    ext value
    exact (showed.prob _ _ _ seen value).trans AList.mem_lookup_iff.symm
  · have reached := showed.reached string
    rw [Node.look, Option.isSome_map] at reached
    refine reached.trans (or_congr_right ?_)
    constructor
    · rintro ⟨entry, member, isPrefix⟩
      exact ⟨entry.1, List.mem_keys_of_mem member, isPrefix⟩
    · rintro ⟨word, member, isPrefix⟩
      obtain ⟨value, member⟩ := List.exists_of_mem_keys member
      exact ⟨_, member, isPrefix⟩

/-- A word that is a prefix of another. -/
theorem fit_exact_prefix : ∃ langModel : LanguageModel,
    langModel.unProb.entries = [⟨['a', 'b'], 2⟩, ⟨['a'], 1⟩] ∧
    (∀ node, ((Bor.new langModel ⟨∅⟩).fit .newestFirst).root.reach ['a'] = some node →
      node.word = ['a'] ∧ node.prob = langModel.unProb.lookup ['a']) ∧
    ((((Bor.new langModel ⟨∅⟩).fit .newestFirst).root.reach ['a']).isSome ↔
      ['a'] = [] ∨ ∃ word ∈ langModel.unProb, ['a'] <+: word) := by
  refine ⟨⟨⟨[⟨['a', 'b'], 2⟩, ⟨['a'], 1⟩], by simp⟩, ∅⟩, rfl, fit_exact .newestFirst ⟨∅⟩ ?_ ['a']⟩
  show ∀ word ∈ [['a', 'b'], ['a']], word ≠ []
  decide

/-- The empty string leads to the root even when there are no words. -/
theorem root_of_empty : ¬ ∀ (order : ChildOrder) (langModel : LanguageModel) (errModel : ErrorModel),
    (∀ word ∈ langModel.unProb, word ≠ []) → ∀ string,
      ((((Bor.new langModel errModel).fit order).root.reach string).isSome ↔
        ∃ word ∈ langModel.unProb, string <+: word) := by
  intro always
  obtain ⟨word, member, -⟩ :=
    (always .newestFirst ⟨∅, ∅⟩ ⟨∅⟩ (fun word member => absurd member (AList.notMem_empty word)) []).mp rfl
  exact AList.notMem_empty word member

end Fit

end Spellchecker
