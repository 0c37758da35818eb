import TsSem02.Library.LruOrder
import TsSem02.Execute.Retrieval

/-! # Reading the response to a get

A client that takes the length in each `VALUE` line at its word reads the blocks
of a response back one by one (`readBlock_item`), whatever bytes the values have.
So it learns from the whole response which of the keys it asked for are there and
with which values (`decode_get`).
-/

namespace Afina.Execute

open Program Backend LruCache Protocol Runs

/-! ## The reader -/

/-- The input behind `literal`. -/
def expect (literal input : Bytes) : Option Bytes :=
  if literal <+: input then some (input.drop literal.length) else none

/-- The field in front of the first `stop`, and what is behind that. -/
def upTo (stop : UInt8) (input : Bytes) : Option (Bytes × Bytes) :=
  if stop ∈ input then some (input.takeWhile (· != stop), (input.dropWhile (· != stop)).tail) else none

def readDecimal (field : Bytes) : Option Nat :=
  if field ≠ [] ∧ field.all isDigit then some (decimalValue field) else none

def readExactly (count : Nat) (input : Bytes) : Option (Bytes × Bytes) :=
  if count ≤ input.length then some (input.take count, input.drop count) else none

/-- `VALUE <key> 0 <count>`, `count` bytes, and their line breaks. -/
def readBlock (input : Bytes) : Option ((Bytes × Bytes) × Bytes) := do
  let input ← expect (ascii "VALUE ") input
  let (key, input) ← upTo space input
  let input ← expect (ascii "0 ") input
  let (field, input) ← upTo cr input
  let input ← expect [lf] input
  let count ← readDecimal field
  let (value, input) ← readExactly count input
  let input ← expect crlf input
  return ((key, value), input)

/-- Blocks up to the line `END`, behind which there is nothing; a block has at
    least one byte, so `fuel` is never short when it is the length of the input. -/
def readBlocks : Nat → Bytes → Option (List (Bytes × Bytes))
  | 0, _ => none
  | fuel + 1, input =>
    if input = ascii "END" ++ crlf then some []
    else do
      let (block, input) ← readBlock input
      let blocks ← readBlocks fuel input
      return block :: blocks

def readResponse (input : Bytes) : Option (List (Bytes × Bytes)) := readBlocks input.length input

/-! ## Each step undoes what the command wrote -/

section Reader

variable {stop : UInt8} {field key value rest : Bytes}

@[simp] theorem expect_append (literal rest : Bytes) : expect literal (literal ++ rest) = some rest := by
  simp [expect]

theorem upTo_append (inside : stop ∉ field) : upTo stop (field ++ stop :: rest) = some (field, rest) := by
  have front : ∀ c ∈ field, (c != stop) = true := by
    intro c member
    rw [bne_iff_ne]
    exact fun same => inside (same ▸ member)
  rw [upTo, if_pos (by simp), List.takeWhile_append_of_pos front, List.dropWhile_append_of_pos front]
  simp

@[simp] theorem readDecimal_decimal (n : Nat) : readDecimal (decimal n) = some n := by
  have digits := decimal_digits n
  rw [readDecimal, if_pos ⟨digits.1, List.all_eq_true.mpr digits.2⟩, decimalValue_decimal]

@[simp] theorem readExactly_append (value rest : Bytes) :
    readExactly value.length (value ++ rest) = some (value, rest) := by
  simp [readExactly]

theorem Get.item_layout (key value : Bytes) : Get.item key value = ascii "VALUE " ++ (key ++ space ::
    (ascii "0 " ++ (decimal value.length ++ cr :: ([lf] ++ (value ++ crlf))))) := by
  simp only [Get.item, List.append_assoc]
  rfl

theorem readBlock_item (noSpace : space ∉ key) :
    readBlock (Get.item key value ++ rest) = some ((key, value), rest) := by
  have noCr : cr ∉ decimal value.length := (decimal_digits _).inside (by decide)
  have layout : Get.item key value ++ rest = ascii "VALUE " ++ (key ++ space ::
      (ascii "0 " ++ (decimal value.length ++ cr :: ([lf] ++ (value ++ (crlf ++ rest)))))) := by
    rw [Get.item_layout]
    simp only [List.append_assoc, List.cons_append]
  rw [layout]
  simp only [readBlock, expect_append, upTo_append noSpace, upTo_append noCr, readDecimal_decimal,
    readExactly_append, Option.bind_eq_bind, Option.bind_some]
  rfl

theorem item_ne_end : Get.item key value ++ rest ≠ ascii "END" ++ crlf := by
  intro same
  rw [Get.item_layout, List.append_assoc] at same
  cases (List.cons.inj same).1

theorem readBlocks_blocks {maxSize : Nat} {cache : ByteCache maxSize} {keys : List Bytes} {fuel : Nat}
    (spaceless : ∀ key ∈ keys, space ∉ key)
    (enough : (Get.blocks cache keys ++ (ascii "END" ++ crlf)).length ≤ fuel) :
    readBlocks fuel (Get.blocks cache keys ++ (ascii "END" ++ crlf)) =
      some (keys.filterMap fun key => (cache.lookup key).map (key, ·)) := by
  induction keys generalizing fuel with
  | nil =>
    cases fuel with
    | zero => exact absurd enough (by simp [Get.blocks, ascii])
    | succ fuel =>
      show readBlocks (fuel + 1) (ascii "END" ++ crlf) = some []
      rw [readBlocks]
      exact if_pos rfl
  | cons key keys ih =>
    have later := fun other member => spaceless other (List.mem_cons_of_mem key member)
    cases found : cache.lookup key with
    | none =>
      have skips : Get.blocks cache (key :: keys) = Get.blocks cache keys := by
        rw [Get.blocks, List.flatMap_cons, found]
        rfl
      rw [skips] at enough ⊢
      rw [ih later enough, List.filterMap_cons, found]
      rfl
    | some value =>
      have begins : Get.blocks cache (key :: keys) = Get.item key value ++ Get.blocks cache keys := by
        rw [Get.blocks, List.flatMap_cons, found]
        rfl
      rw [begins, List.append_assoc] at enough ⊢
      have long : 1 ≤ (Get.item key value).length := by simp [Get.item, crlf, ascii]
      rw [List.length_append] at enough
      cases fuel with
      | zero => omega
      | succ fuel =>
        have rest := @ih fuel later (by omega)
        rw [readBlocks, if_neg item_ne_end, readBlock_item (spaceless key List.mem_cons_self)]
        simp only [Option.bind_eq_bind, Option.bind_some, rest]
        rw [List.filterMap_cons, found]
        rfl

end Reader

/-! ## The response as a whole -/

section Response

variable {maxSize : Nat} {s s' : SimpleLRU} {cache : ByteCache maxSize} {keys : List Bytes}

theorem freeSize_eq (refines : Refines s cache) : s.freeSize + total entrySize cache.entries = maxSize := by
  obtain ⟨items, represents, entries⟩ := refines.represents
  have accounted := represents.accounted
  rw [itemsSize, refines.maxSize_eq] at accounted
  rw [entries]
  exact accounted

theorem perm_foldl_touch (cache : ByteCache maxSize) (keys : List Bytes) :
    (keys.foldl Cache.touch cache).entries.Perm cache.entries := by
  induction keys generalizing cache with
  | nil => exact List.Perm.refl _
  | cons key keys ih => exact (ih (cache.touch key)).trans (Cache.perm_touch cache key)

/-- The response to a get says which of its keys are present, with their values,
    in the order and as often as they were asked for; of the store, only the
    order of the entries changes: each key that is found goes to the front. -/
theorem decode_get (args : Bytes) (bounded : maxSize < 2 ^ 63) (reachable : Reachable maxSize s)
    (spaceless : ∀ key ∈ keys, space ∉ key) :
    ∃ result s', executeOn (.get keys) args s = .ok (result, s') ∧
      readResponse (result ++ crlf) = some (keys.filterMap fun key => (s.valueOf key).map (key, ·)) ∧
      (∃ cache : ByteCache maxSize, Holds s cache.entries ∧
        Holds s' (keys.foldl Cache.touch cache).entries ∧
        (keys.foldl Cache.touch cache).entries.Perm cache.entries) ∧
      (∀ key, s'.valueOf key = s.valueOf key) ∧ s'.freeSize = s.freeSize := by
  obtain ⟨cache, refines⟩ := reachable.refines bounded
  obtain ⟨s', ran, refines'⟩ := Get.items_touch refines keys [] []
  have perm := perm_foldl_touch cache keys
  refine ⟨_, s', ran, ?_, ⟨cache, refines.holds, refines'.holds, perm⟩, ?_, ?_⟩
  · rw [List.nil_append, List.append_assoc, readResponse, readBlocks_blocks spaceless (Nat.le_refl _)]
    simp only [refines.valueOf_eq]
  · intro key
    rw [refines'.valueOf_eq, refines.valueOf_eq, Cache.lookup_foldl_touch]
  · have before := freeSize_eq refines
    have after := freeSize_eq refines'
    rw [total_perm entrySize perm] at after
    omega

/-- A value that looks like the end of a response, asked for twice. -/
theorem decode_get_end : ∃ s, ∃ result s',
    runs Storage.call [.put [1] (ascii "END\r\n"), .put [2] []] (SimpleLRU.fresh 1024) =
        .ok ([.flag true, .flag true], s) ∧
      executeOn (.get [[1], [3], [1]]) [] s = .ok (result, s') ∧
      readResponse (result ++ crlf) =
        some ([[1], [3], [1]].filterMap fun key => (s.valueOf key).map (key, ·)) ∧
      (∃ cache : ByteCache 1024, Holds s cache.entries ∧
        Holds s' ([[1], [3], [1]].foldl Cache.touch cache).entries ∧
        ([[1], [3], [1]].foldl Cache.touch cache).entries.Perm cache.entries) ∧
      (∀ key, s'.valueOf key = s.valueOf key) ∧ s'.freeSize = s.freeSize := by
  have reached : ∃ s, runs Storage.call [.put [1] (ascii "END\r\n"), .put [2] []]
      (SimpleLRU.fresh 1024) = .ok ([.flag true, .flag true], s) := ⟨_, rfl⟩
  obtain ⟨s, ran⟩ := reached
  obtain ⟨result, s', executed, decoded⟩ :=
    @decode_get 1024 s [[1], [3], [1]] [] (by decide) ⟨_, _, ran⟩ (by decide)
  exact ⟨s, result, s', ran, executed, decoded⟩

end Response

end Afina.Execute
