import TsSem02.Library.RunningMinimum
import TsSem02.Spellchecker.Bor

/-! # The spellchecker

`spellchecker.py`: one pass of corrections (`fixAll`), and the loop that is meant to
repeat it (`fixQuery`).  Every kind of correction keeps the lightest query it has
met and its weight.
-/

structure Spellchecker where
  langModel : Spellchecker.LanguageModel
  errModel : Spellchecker.ErrorModel
  order : Spellchecker.ChildOrder
  lower : Char → Char

namespace Spellchecker

open RunningMinimum (lighter)

inductive PythonError where
  | indexError
deriving DecidableEq

variable (self : Spellchecker)

def bor : Bor := (Bor.new self.langModel self.errModel).fit self.order

def getQueryProb (query : Query) : ℚ := self.langModel.getQueryProb self.lower query

/-- A query and its weight, `q0, w0`. -/
def weigh (query : Query) : Query × ℚ := (query, self.getQueryProb query)

/-- `' '.join(words)` -/
def unwords (words : List Word) : Query := [' '].intercalate words

/-- All chains that take one word of each list. -/
def genChain : List (List Word) → Except PythonError (List (List Word))
  | [] => .error .indexError  -- `matches[0]`
  | [choices] => .ok (choices.map fun word => [word])
  | choices :: rest => do
    let chains ← genChain rest
    return choices.flatMap fun word => chains.map fun query => word :: query

def wordChain (choices : List (List Word)) : Except PythonError (Query × ℚ) := do
  let chains ← genChain choices
  return chains.foldl (fun best query => lighter best (self.weigh (unwords query ++ ['\n']))) ([], 1000000)

/-- `best_match` with the arguments it is called with. -/
def choices (word : Word) : List Word := self.bor.bestMatch word 1 1 6 (some 8) (some 3)

def fixDict (query : Query) : Except PythonError (Query × ℚ) := self.wordChain ((split query).map self.choices)

def fixLayout (query : Query) : Query × ℚ :=
  let words := split query
  words.zipIdx.foldl (fun best (word, idx) =>
    let ruQuery := unwords (words.take idx ++ [switchEnToRu word] ++ words.drop (idx + 1))
    let enQuery := unwords (words.take idx ++ [switchRuToEn word] ++ words.drop (idx + 1))
    lighter (lighter best (self.weigh ruQuery)) (self.weigh enQuery)) (self.weigh query)

def fixJoin (query : Query) : Query × ℚ :=
  query.zipIdx.foldl (fun best (ch, idx) =>
    if ch ≠ ' ' then best
    else lighter best (self.weigh (query.take idx ++ query.drop (idx + 1)))) (self.weigh query)

def fixSplit (query : Query) : Query × ℚ :=
  (List.range' 1 (query.length - 1 - 1)).foldl (fun best i =>
    lighter best (self.weigh (query.take i ++ ' ' :: query.drop i))) (self.weigh query)

def fixAll (query : Query) : Except PythonError Query := do
  let best := self.weigh query
  let best := lighter best (← self.fixDict query)
  let best := lighter best (self.fixLayout query)
  let best := lighter best (self.fixJoin query)
  let best := lighter best (self.fixSplit query)
  return if best.2 > 3000 then query else best.1

/-- The loop of `fix_query`, cut off after some rounds; it corrects the query it was
    given, not the one it has got. -/
def fixLoop (query : Query) : Nat → Option Query → Query → Option (Except PythonError Query)
  | 0, _, _ => none
  | fuel + 1, oldQuery, newQuery =>
    if oldQuery ≠ some newQuery then
      match self.fixAll query with
      | .ok corrected => fixLoop query fuel (some newQuery) corrected
      | .error error => some (.error error)
    else some (.ok newQuery)

def fixQuery (fuel : Nat) (query : Query) : Option (Except PythonError Query) :=
  if (split query).length = 0 then some (.ok query) else self.fixLoop query fuel none query

end Spellchecker
