import Mathlib

/-! # The models of the spellchecker

`LanguageModel.py`, `ErrorModel.py` and `utils.py`.  Strings are lists of
characters, weights are exact.  `unicode.lower` maps one character after another,
and its table is a parameter.
-/

namespace Spellchecker

abbrev Word := List Char
abbrev Query := List Char

/-- A dictionary of Python, in the order in which it is iterated. -/
abbrev Dict (Key Value : Type) := AList fun _ : Key => Value

/-! ## `utils.py` -/

/-- `[A-Za-zА-Яа-я0-9]` -/
def isWordChar (ch : Char) : Bool :=
  ('A' ≤ ch && ch ≤ 'Z') || ('a' ≤ ch && ch ≤ 'z') || ('А' ≤ ch && ch ≤ 'Я') || ('а' ≤ ch && ch ≤ 'я') ||
    ('0' ≤ ch && ch ≤ '9')

/-- `re.findall` of the longest runs of such characters. -/
def split (string : Query) : List Word := (string.splitOnP fun ch => !isWordChar ch).filter (· ≠ [])

def enKeyboard : List Char :=
  "qwertyuiop[]asdfghjkl;'zxcvbnm,./QWERTYUIOP\x7b\x7dASDFGHJKL:\"ZXCVBNM<>?|@#$^&`~".toList

def ruKeyboard : List Char :=
  "йцукенгшщзхъфывапролджэячсмитьбю.ЙЦУКЕНГШЩЗХЪФЫВАПРОЛДЖЭЯЧСМИТЬБЮ,/\"№;:?ёЁ".toList

/-- `string.translate` with the table that maps each key of a keyboard to the key in
    the same place of another; the last of several entries for a key counts. -/
def translate (source target : List Char) (string : Word) : Word :=
  string.map fun ch => ((source.zip target).reverse.lookup ch).getD ch

def switchRuToEn (string : Word) : Word := translate ruKeyboard enKeyboard string
def switchEnToRu (string : Word) : Word := translate enKeyboard ruKeyboard string

/-! ## `LanguageModel.py` -/

structure LanguageModel where
  unProb : Dict Word ℚ
  binProb : Dict Word (Dict Word ℚ)

namespace LanguageModel

variable (model : LanguageModel) (lower : Char → Char)

def getUnProb (word : Word) : ℚ := (model.unProb.lookup (word.map lower)).getD 100

def getBinProp (firstWord secondWord : Word) : ℚ :=
  match model.binProb.lookup (firstWord.map lower) with
  | some row => (row.lookup (secondWord.map lower)).getD 100
  | none => 100

def getQueryProb (query : Query) : ℚ :=
  match split (query.map lower) with
  | [] => 0
  | first :: words =>
    ((first :: words).zip words).foldl (fun prob pair => prob + model.getBinProp lower pair.1 pair.2)
      (model.getUnProb lower first)

end LanguageModel

/-! ## `ErrorModel.py` -/

structure ErrorModel where
  unProb : Dict Char (Dict Char ℚ)

namespace ErrorModel

/-- `get_un_prob`, for strings of length 1. -/
def getUnProb (model : ErrorModel) (orig fix : Char) : ℚ :=
  match model.unProb.lookup fix with
  | some row => (row.lookup orig).getD 100
  | none => 100

def NonNegative (model : ErrorModel) : Prop :=
  ∀ row ∈ model.unProb.entries, ∀ entry ∈ row.2.entries, 0 ≤ entry.2

theorem getUnProb_nonneg {model : ErrorModel} (nonneg : model.NonNegative) (orig fix : Char) :
    0 ≤ model.getUnProb orig fix := by
  rw [getUnProb]
  split
  · next row found =>
    cases weight : row.lookup orig with
    | none => norm_num
    | some weight =>
      have here := nonneg ⟨fix, row⟩ (AList.mem_lookup_iff.mp found) ⟨orig, _⟩ (AList.mem_lookup_iff.mp weight)
      exact here
  · norm_num

end ErrorModel

end Spellchecker
