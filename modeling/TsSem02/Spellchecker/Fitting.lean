import TsSem02.Library.Tally
import TsSem02.Spellchecker.Search

/-! # How the language model is fitted

`LanguageModel.fit`: the loop over the lines counts words and adjacent words, and
then every count becomes a weight.
-/

namespace Spellchecker

open Dictionary Tally

/-- What the object holds while the lines are read. -/
structure Counts where
  unProb : Dict Word ℕ
  binProb : Dict Word (Dict Word ℕ)
  unCount : ℕ
  binCount : Dict Word ℕ

namespace Counts

def empty : Counts where
  unProb := ∅
  binProb := ∅
  unCount := 0
  binCount := ∅

/-- `unicode.isspace` -/
def isSpace (ch : Char) : Bool :=
  (9 ≤ ch.toNat && ch.toNat ≤ 13) || (0x1C ≤ ch.toNat && ch.toNat ≤ 0x20) || (0x2000 ≤ ch.toNat && ch.toNat ≤ 0x200A) ||
    ch.toNat ∈ [0x85, 0xA0, 0x1680, 0x180E, 0x2028, 0x2029, 0x202F, 0x205F, 0x3000]

def strip (string : Query) : Query := (string.dropWhile isSpace).rdropWhile isSpace

/-- The words of `line.split('\t')[-1].lower().strip()` -/
def lineWords (lower : Char → Char) (line : Query) : List Word :=
  split (strip (((line.splitOnP (· = '\t')).getLast?.getD []).map lower))

def addWord (counts : Counts) (word : Word) : Counts :=
  { counts with unProb := increment counts.unProb word, unCount := counts.unCount + 1 }

/-- `words[i - 1]` is followed by `words[i]`. -/
def addPair (counts : Counts) (pair : Word × Word) : Counts :=
  { counts.addWord pair.2 with
    binProb := counts.binProb.insert pair.1 (increment ((counts.binProb.lookup pair.1).getD ∅) pair.2)
    binCount := increment counts.binCount pair.1 }

def addLine (lower : Char → Char) (counts : Counts) (line : Query) : Counts :=
  match lineWords lower line with
  | [] => counts
  | first :: words => ((first :: words).zip words).foldl addPair (counts.addWord first)

/-- The loop over the lines of the file. -/
def read (lower : Char → Char) (lines : List Query) : Counts := lines.foldl (addLine lower) empty

variable {Weight : Type} [AddGroup Weight] (log : ℕ → Weight)

/-- `self.un_prob`, after the last loops. -/
def unWeights (counts : Counts) : Dict Word Weight :=
  mapValues (fun _ count => -(log count - log counts.unCount)) counts.unProb

/-- `self.bin_prob`, after the last loops. -/
def binWeights (counts : Counts) : Dict Word (Dict Word Weight) :=
  mapValues (fun firstWord row => mapValues
    (fun _ count => -(log count - log ((counts.binCount.lookup firstWord).getD 0))) row) counts.binProb

end Counts

/-- `fit`; `log` is what `np.log` returns for a count. -/
def LanguageModel.fit (log : ℕ → ℚ) (lower : Char → Char) (lines : List Query) : LanguageModel where
  unProb := (Counts.read lower lines).unWeights log
  binProb := (Counts.read lower lines).binWeights log

/-! ## What the loop counts -/

section Counting

variable (lower : Char → Char)

def trainingWords (lines : List Query) : List Word := lines.flatMap (Counts.lineWords lower)

def trainingPairs (lines : List Query) : List (Word × Word) :=
  lines.flatMap fun line => (Counts.lineWords lower line).zip (Counts.lineWords lower line).tail

def followers (pairs : List (Word × Word)) (firstWord : Word) : List Word :=
  (pairs.filter (·.1 = firstWord)).map (·.2)

/-- What has been counted when `words` and `pairs` have been met. -/
structure Counted (counts : Counts) (words : List Word) (pairs : List (Word × Word)) : Prop where
  unProb : counts.unProb = tally words
  unCount : counts.unCount = words.length
  binProb : ∀ firstWord, counts.binProb.lookup firstWord =
    if firstWord ∈ pairs.map (·.1) then some (tally (followers pairs firstWord)) else none
  binCount : counts.binCount = tally (pairs.map (·.1))

variable {counts : Counts} {words : List Word} {pairs : List (Word × Word)}

theorem Counted.addWord (counted : Counted counts words pairs) (word : Word) :
    Counted (counts.addWord word) (words ++ [word]) pairs where
  unProb := by
    rw [tally_append_singleton, ← counted.unProb]
    rfl
  unCount := by
    rw [List.length_append, ← counted.unCount]
    rfl
  binProb := counted.binProb
  binCount := counted.binCount

theorem mem_followers {firstWord word : Word} : word ∈ followers pairs firstWord ↔ (firstWord, word) ∈ pairs := by
  simp [followers]

theorem followers_append (firstWord : Word) (pair : Word × Word) :
    followers (pairs ++ [pair]) firstWord =
      followers pairs firstWord ++ (if pair.1 = firstWord then [pair.2] else []) := by
  rw [followers, List.filter_append, List.map_append, followers]
  by_cases same : pair.1 = firstWord <;> simp [same]

theorem followers_eq_nil {firstWord : Word} (absent : firstWord ∉ pairs.map (·.1)) :
    followers pairs firstWord = [] := by
  rw [followers, List.map_eq_nil_iff, List.filter_eq_nil_iff]
  intro pair member same
  exact absent (List.mem_map.mpr ⟨pair, member, by simpa using same⟩)

theorem Counted.row (counted : Counted counts words pairs) (firstWord : Word) :
    (counts.binProb.lookup firstWord).getD ∅ = tally (followers pairs firstWord) := by
  rw [counted.binProb]
  split
  · rfl
  · rw [followers_eq_nil ‹_›]
    rfl

theorem Counted.addPair (counted : Counted counts words pairs) (pair : Word × Word) :
    Counted (counts.addPair pair) (words ++ [pair.2]) (pairs ++ [pair]) where
  unProb := (counted.addWord pair.2).unProb
  unCount := (counted.addWord pair.2).unCount
  binProb firstWord := by
    rw [List.map_append, List.map_singleton, followers_append]
    by_cases same : firstWord = pair.1
    · subst same
      rw [if_pos rfl, if_pos (List.mem_append_right _ List.mem_cons_self), tally_append_singleton]
      exact (AList.lookup_insert _).trans (by rw [counted.row])
    · have member : firstWord ∈ pairs.map (·.1) ++ [pair.1] ↔ firstWord ∈ pairs.map (·.1) := by simp [same]
      rw [if_neg (Ne.symm same), List.append_nil]
      simp only [member]
      exact (AList.lookup_insert_ne same).trans (counted.binProb firstWord)
  binCount := by
    rw [List.map_append, List.map_singleton, tally_append_singleton, ← counted.binCount]
    rfl

theorem Counted.addPairs (counted : Counted counts words pairs) (more : List (Word × Word)) :
    Counted (more.foldl Counts.addPair counts) (words ++ more.map (·.2)) (pairs ++ more) := by
  induction more generalizing counts words pairs with
  | nil => simpa using counted
  | cons pair more ih => simpa using ih (counted.addPair pair)

theorem Counted.addLine (counted : Counted counts words pairs) (line : Query) :
    Counted (counts.addLine lower line) (words ++ Counts.lineWords lower line)
      (pairs ++ (Counts.lineWords lower line).zip (Counts.lineWords lower line).tail) := by
  unfold Counts.addLine
  cases Counts.lineWords lower line with
  | nil => simpa using counted
  | cons first rest =>
    have added := (counted.addWord first).addPairs ((first :: rest).zip rest)
    -- the loop counts the second word of every pair, so only the first word of the line is counted before it
    rw [List.map_snd_zip (by simp)] at added
    simpa using added

theorem counted_read (lines : List Query) :
    Counted (Counts.read lower lines) (trainingWords lower lines) (trainingPairs lower lines) := by
  have later : ∀ (lines : List Query) {counts : Counts} {words : List Word} {pairs : List (Word × Word)},
      Counted counts words pairs → Counted (lines.foldl (Counts.addLine lower) counts)
        (words ++ trainingWords lower lines) (pairs ++ trainingPairs lower lines) := by
    intro lines
    induction lines with
    | nil =>
      intro counts words pairs counted
      simpa [trainingWords, trainingPairs] using counted
    | cons line lines ih =>
      intro counts words pairs counted
      simpa [trainingWords, trainingPairs] using ih (counted.addLine lower line)
  have initially : Counted Counts.empty [] [] := ⟨rfl, rfl, fun _ => rfl, rfl⟩
  exact later lines initially

end Counting

/-! ## What the fitted weights are -/

section Weights

variable {lower : Char → Char} {lines : List Query} {Weight : Type} [AddGroup Weight] {log : ℕ → Weight}

theorem lookup_unWeights (word : Word) : ((Counts.read lower lines).unWeights log).lookup word =
    if word ∈ trainingWords lower lines then
      some (-(log (occurrences (trainingWords lower lines) word) - log (trainingWords lower lines).length))
    else none := by
  have counted := counted_read lower lines
  rw [Counts.unWeights, lookup_mapValues, counted.unProb, counted.unCount, lookup_tally]
  split <;> rfl

theorem lookup_binCount (firstWord : Word) :
    ((Counts.read lower lines).binCount.lookup firstWord).getD 0 =
      (followers (trainingPairs lower lines) firstWord).length := by
  rw [(counted_read lower lines).binCount, getD_lookup_tally, occurrences_map, followers, List.length_map]

theorem lookup_binWeights (firstWord : Word) :
    ((Counts.read lower lines).binWeights log).lookup firstWord =
      if firstWord ∈ (trainingPairs lower lines).map (·.1) then
        some (mapValues (fun _ count => -(log count - log (followers (trainingPairs lower lines) firstWord).length))
          (tally (followers (trainingPairs lower lines) firstWord)))
      else none := by
  rw [Counts.binWeights, lookup_mapValues, (counted_read lower lines).binProb, lookup_binCount]
  split <;> rfl

end Weights

/-! ## The most likely weights -/

section Likelihood

variable {pairs : List (Word × Word)}

theorem sum_followers (f : Word × Word → ℝ) {firsts : Finset Word} (covers : ∀ pair ∈ pairs, pair.1 ∈ firsts) :
    (pairs.map f).sum = ∑ firstWord ∈ firsts, ((followers pairs firstWord).map fun word => f (firstWord, word)).sum := by
  induction pairs with
  | nil => simp [followers]
  | cons pair pairs ih =>
    have here := covers pair List.mem_cons_self
    have rest := ih fun other member => covers other (List.mem_cons_of_mem pair member)
    have each : ∀ firstWord, ((followers (pair :: pairs) firstWord).map fun word => f (firstWord, word)).sum =
        (if pair.1 = firstWord then f pair else 0) +
          ((followers pairs firstWord).map fun word => f (firstWord, word)).sum := by
      intro firstWord
      by_cases same : pair.1 = firstWord
      · subst same
        simp [followers]
      · simp [followers, same]
    rw [List.map_cons, List.sum_cons, rest, Finset.sum_congr rfl fun firstWord _ => each firstWord,
      Finset.sum_add_distrib, Finset.sum_ite_eq, if_pos here]

/-- `np.log`, exactly. -/
noncomputable def ln (count : ℕ) : ℝ := Real.log count

variable {lower : Char → Char} {lines : List Query}

theorem unWeights_ln : (Counts.read lower lines).unWeights ln =
    mapValues (fun _ count => weight count (trainingWords lower lines).length) (tally (trainingWords lower lines)) := by
  have counted := counted_read lower lines
  rw [Counts.unWeights, counted.unProb, counted.unCount]
  rfl

theorem getD_unWeights {word : Word} (member : word ∈ trainingWords lower lines) (unseen : ℝ) :
    (((Counts.read lower lines).unWeights ln).lookup word).getD unseen =
      weight (occurrences (trainingWords lower lines) word) (trainingWords lower lines).length := by
  rw [lookup_unWeights, if_pos member]
  rfl

theorem getD_binWeights {pair : Word × Word} (member : pair ∈ trainingPairs lower lines) (unseen : ℝ) :
    ((((Counts.read lower lines).binWeights ln).lookup pair.1).bind (·.lookup pair.2)).getD unseen =
      weight (occurrences (followers (trainingPairs lower lines) pair.1) pair.2)
        (followers (trainingPairs lower lines) pair.1).length := by
  have first : pair.1 ∈ (trainingPairs lower lines).map (·.1) := List.mem_map_of_mem member
  rw [lookup_binWeights, if_pos first, Option.bind_some, lookup_mapValues, lookup_tally,
    if_pos (mem_followers.mpr member)]
  rfl

theorem binWeights_row {row : Sigma fun _ : Word => Dict Word ℝ}
    (member : row ∈ ((Counts.read lower lines).binWeights ln).entries) :
    (row.2.entries.map fun entry => Real.exp (-entry.2)).sum = 1 := by
  have found := AList.mem_lookup_iff.mpr member
  rw [lookup_binWeights] at found
  split at found
  · rename_i follows
    rw [← Option.some.inj found]
    apply sum_exp_weights
    obtain ⟨pair, there, first⟩ := List.mem_map.mp follows
    rw [← first]
    exact List.ne_nil_of_mem (mem_followers.mpr there)
  · cases found

theorem pairs_likelihood (pairs : List (Word × Word)) (q : Word → Word → ℝ)
    (positive : ∀ pair ∈ pairs, 0 < q pair.1 pair.2)
    (total : ∀ firstWord, ∑ word ∈ (followers pairs firstWord).toFinset, q firstWord word ≤ 1) :
    (pairs.map fun pair =>
        weight (occurrences (followers pairs pair.1) pair.2) (followers pairs pair.1).length).sum ≤
      (pairs.map fun pair => -Real.log (q pair.1 pair.2)).sum := by
  have covers : ∀ pair ∈ pairs, pair.1 ∈ (pairs.map (·.1)).toFinset :=
    fun pair member => List.mem_toFinset.mpr (List.mem_map_of_mem member)
  have left := sum_followers (fun pair =>
    weight (occurrences (followers pairs pair.1) pair.2) (followers pairs pair.1).length) covers
  have right := sum_followers (fun pair => -Real.log (q pair.1 pair.2)) covers
  rw [left, right]
  apply Finset.sum_le_sum
  intro firstWord _
  have each : ∀ word ∈ followers pairs firstWord, 0 < q firstWord word :=
    fun word member => positive (firstWord, word) (mem_followers.mp member)
  exact likelihood_le (followers pairs firstWord) (q firstWord) each (total firstWord)

/-- The fitted weights are those under which the training lines are most likely: they
    are minus the logarithms of probabilities, which add up to one over the words and
    over the words that follow a word; and no other probabilities give the words, or
    the pairs of adjacent words, of the lines a smaller total weight. -/
theorem fit_likelihood (lower : Char → Char) (lines : List Query) :
    let counts := Counts.read lower lines
    let words := trainingWords lower lines
    let pairs := trainingPairs lower lines
    (words ≠ [] → ((counts.unWeights ln).entries.map fun entry => Real.exp (-entry.2)).sum = 1) ∧
      (∀ row ∈ (counts.binWeights ln).entries, (row.2.entries.map fun entry => Real.exp (-entry.2)).sum = 1) ∧
      (∀ p : Word → ℝ, (∀ word ∈ words, 0 < p word) → ∑ word ∈ words.toFinset, p word ≤ 1 →
        (words.map fun word => ((counts.unWeights ln).lookup word).getD 100).sum ≤
          (words.map fun word => -Real.log (p word)).sum) ∧
      ∀ q : Word → Word → ℝ, (∀ pair ∈ pairs, 0 < q pair.1 pair.2) →
        (∀ firstWord, ∑ word ∈ (followers pairs firstWord).toFinset, q firstWord word ≤ 1) →
        (pairs.map fun pair => (((counts.binWeights ln).lookup pair.1).bind (·.lookup pair.2)).getD 100).sum ≤
          (pairs.map fun pair => -Real.log (q pair.1 pair.2)).sum := by
  refine ⟨fun some => ?_, fun row member => binWeights_row member, fun p positive total => ?_,
    fun q positive total => ?_⟩
  · rw [unWeights_ln]
    exact sum_exp_weights some
  · -- every word that is looked up was counted, so the weight of unseen words plays no part
    rw [List.map_congr_left fun word member => getD_unWeights member 100]
    exact likelihood_le _ p positive total
  · rw [List.map_congr_left fun pair member => getD_binWeights member 100]
    exact pairs_likelihood _ q positive total

end Likelihood

/-! ## From the lines to the search -/

section Training

variable {lower : Char → Char} {lines : List Query} {log : ℕ → ℚ}

theorem nonempty_of_mem_split {string : Query} {word : Word} (member : word ∈ split string) : word ≠ [] := by
  rw [split, List.mem_filter] at member
  simpa using member.2

theorem nonempty_of_mem_trainingWords {word : Word} (member : word ∈ trainingWords lower lines) : word ≠ [] := by
  obtain ⟨line, -, inside⟩ := List.mem_flatMap.mp member
  exact nonempty_of_mem_split inside

theorem mem_fit {word : Word} : word ∈ (LanguageModel.fit log lower lines).unProb ↔ word ∈ trainingWords lower lines := by
  rw [← AList.lookup_isSome, LanguageModel.fit, lookup_unWeights]
  split <;> simp_all

theorem lookup_fit {word : Word} {prob : ℚ} : (LanguageModel.fit log lower lines).unProb.lookup word = some prob ↔
    word ∈ trainingWords lower lines ∧
      prob = -(log (occurrences (trainingWords lower lines) word) - log (trainingWords lower lines).length) := by
  rw [LanguageModel.fit, lookup_unWeights]
  split
  · rename_i member
    simp [member, eq_comm]
  · rename_i absent
    simp [absent]

/-- What a search finds in the trie of a fitted model: the words of the training lines
    that some settled script within the bound leads to, with minus the logarithm of
    their frequency. -/
theorem finds_trained (log : ℕ → ℚ) (lower : Char → Char) (lines : List Query) (order : ChildOrder)
    {errModel : ErrorModel} (nonneg : errModel.NonNegative) (maxWeight : ℚ) (query : Word) (found : Match) :
    found ∈ Bor.unSearch errModel maxWeight query
        ((Bor.new (LanguageModel.fit log lower lines) errModel).fit order).root 0 ↔
      (found.word ∈ trainingWords lower lines ∧ found.prob =
        -(log (occurrences (trainingWords lower lines) found.word) - log (trainingWords lower lines).length)) ∧
      found.weight ≤ maxWeight ∧ ∃ script, EditScript.Between query found.word script ∧ EditScript.Settled script ∧
        EditScript.weight errModel.weights script = found.weight := by
  have nonempty : ∀ word ∈ (LanguageModel.fit log lower lines).unProb, word ≠ [] :=
    fun word member => nonempty_of_mem_trainingWords (mem_fit.mp member)
  rw [Bor.mem_unSearch_fit order nonempty nonneg, lookup_fit]

/-- A word of one line, a mistyped letter in the query. -/
theorem finds_trained_mistyped : (⟨['a', 'b'], 0, 100⟩ : Match) ∈ Bor.unSearch ⟨∅⟩ 100 ['a', 'c']
    ((Bor.new (LanguageModel.fit (fun _ => 0) id ["ab\n".toList]) ⟨∅⟩).fit .newestFirst).root 0 := by
  refine (finds_trained _ _ _ _ (by simp [ErrorModel.NonNegative]) _ _ _).mpr ⟨⟨?_, ?_⟩, ?_, ?_⟩
  · decide +kernel
  · decide +kernel
  · decide +kernel
  · exact ⟨[.change 'a' 'a', .change 'c' 'b'], ⟨rfl, rfl⟩, fun element => by simp, by decide +kernel⟩

end Training

end Spellchecker
