import TsSem02.Library.Association
import TsSem02.Spellchecker.Models

/-! # The trie of the dictionary

`Bor.py`: a trie of nodes that know their own word, the search for all words
within a weight of a given one, and the choice among what it finds.
-/

namespace Spellchecker

/-- `Node`; the children are in the order in which their dictionary is iterated. -/
inductive Node where
  | mk (word : Word) (children : List (Char × Node)) (prob : Option ℚ)

/-- How a new key changes the order in which a dictionary of children is iterated. -/
structure ChildOrder where
  arrange : List (Char × Node) → List (Char × Node)
  perm : ∀ children, (arrange children).Perm children

def ChildOrder.newestFirst : ChildOrder := ⟨id, fun _ => .refl _⟩

namespace Node

def word : Node → Word
  | mk word _ _ => word

def children : Node → List (Char × Node)
  | mk _ children _ => children

def prob : Node → Option ℚ
  | mk _ _ prob => prob

def new (word : Word) : Node := mk word [] none

def setProb (node : Node) (prob : ℚ) : Node := mk node.word node.children (some prob)

/-- `node.children[ch]`, if there is one. -/
def child (node : Node) (ch : Char) : Option Node := node.children.lookup ch

/-- The node with a child replaced, or with a new one. -/
def setChild (node : Node) (order : ChildOrder) (ch : Char) (child : Node) : Node :=
  if ch ∈ node.children.map Prod.fst then
    mk node.word (Association.replace ch child node.children) node.prob
  else mk node.word (order.arrange ((ch, child) :: node.children)) node.prob

/-- The child the loop of `fit` comes to next, and its probability if the word ends
    there. -/
def enter (node : Node) (whole : Word) (prob : ℚ) (idx : Nat) (ch : Char) : Node :=
  let child := (node.child ch).getD (new (whole.take (idx + 1)))
  if child.word = whole then child.setProb prob else child

/-- The loop of `fit` over the characters of a word, from position `idx` on. -/
def store (order : ChildOrder) (whole : Word) (prob : ℚ) : Nat → Word → Node → Node
  | _, [], node => node
  | idx, ch :: rest, node =>
    node.setChild order ch (store order whole prob (idx + 1) rest (node.enter whole prob idx ch))

theorem sizeOf_child {node child : Node} {ch : Char} (member : (ch, child) ∈ node.children) :
    sizeOf child < sizeOf node := by
  obtain ⟨word, children, prob⟩ := node
  have entry := List.sizeOf_lt_of_mem member
  simp only [Node.children, Prod.mk.sizeOf_spec, mk.sizeOf_spec] at entry ⊢
  omega

end Node

/-- What the search finds: a word, its probability and the weight of the errors. -/
structure Match where
  word : Word
  prob : ℚ
  weight : ℚ
deriving DecidableEq

structure Bor where
  root : Node
  langModel : LanguageModel
  errModel : ErrorModel

namespace Bor

def new (langModel : LanguageModel) (errModel : ErrorModel) : Bor := ⟨.new [], langModel, errModel⟩

def fit (order : ChildOrder) (bor : Bor) : Bor :=
  { bor with
    root := bor.langModel.unProb.entries.foldl (fun root entry => root.store order entry.1 entry.2 0 entry.1) bor.root }

def unSearch (errModel : ErrorModel) (maxWeight : ℚ) (word : Word) (node : Node) (weight : ℚ) : List Match :=
  if weight > maxWeight then []
  else
    match word with
    | [] =>
      match node.prob with
      | some prob => [⟨node.word, prob, weight⟩]
      | none => []
    | ch :: rest =>
      -- change
      (node.children.attach.flatMap fun ⟨(child, sub), _member⟩ =>
        unSearch errModel maxWeight rest sub
          (if child ≠ ch then weight + errModel.getUnProb child ch else weight)) ++
      -- insert
      (node.children.attach.flatMap fun ⟨(child, sub), _member⟩ =>
        unSearch errModel maxWeight (ch :: rest) sub (weight + errModel.getUnProb child '_')) ++
      -- delete
      unSearch errModel maxWeight rest node (weight + errModel.getUnProb '_' ch)
termination_by word.length + sizeOf node
decreasing_by
  · have smaller := Node.sizeOf_child _member
    simp only [List.length_cons]
    omega
  · have smaller := Node.sizeOf_child _member
    simp only [List.length_cons]
    omega
  · simp only [List.length_cons]
    omega

/-- `alpha * tup[1] + beta * tup[2]` -/
def score (alpha beta : ℚ) (found : Match) : ℚ := alpha * found.prob + beta * found.weight

/-- `matches.sort`; like Python's, the sort is stable. -/
def sortMatches (alpha beta : ℚ) (found : List Match) : List Match :=
  found.insertionSort fun left right => score alpha beta left ≤ score alpha beta right

/-- The loop of `best_match` over the sorted matches. -/
def pick (matchNum : Option Nat) (maxDiff : Option ℚ) (bestWeight : ℚ) : List Match → List Word → List Word
  | [], res => res
  | e :: later, res =>
    if maxDiff.any fun maxDiff => e.weight - bestWeight > maxDiff then res  -- `break`
    else if e.word ∈ res then pick matchNum maxDiff bestWeight later res
    else if matchNum = some (res ++ [e.word]).length then res ++ [e.word]
    else pick matchNum maxDiff bestWeight later (res ++ [e.word])

/-- `best_match` behind the search. -/
def choose (alpha beta : ℚ) (matchNum : Option Nat) (maxDiff : Option ℚ) (found : List Match) : List Word :=
  match sortMatches alpha beta found with
  | [] => []
  | best :: later => pick matchNum maxDiff best.weight (best :: later) []

def bestMatch (bor : Bor) (word : Word) (alpha beta maxWeight : ℚ) (matchNum : Option Nat) (maxDiff : Option ℚ) :
    List Word :=
  choose alpha beta matchNum maxDiff (unSearch bor.errModel maxWeight word bor.root 0)

end Bor

end Spellchecker
