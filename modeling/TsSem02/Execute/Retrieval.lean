import TsSem02.Execute.Acknowledgement
import TsSem02.Protocol.Encoding

/-! # What an answer says about a value

A `VALUE` block can be read back: only a `Get` that found the value under the key
answers with it (`lookup_of_answer`).
-/

namespace Afina.Execute

open Program Backend LruCache Protocol

/-- The keys a `Get` asks for have no space. -/
def Spaceless : Command → Prop
  | .get keys => ∀ key ∈ keys, space ∉ key
  | _ => True

/-- The response that has one value. -/
def valueResponse (key value : Bytes) : Bytes := Get.item key value ++ ascii "END" ++ crlf

section Get

variable {maxSize : Nat}

def Get.blocks (cache : ByteCache maxSize) (keys : List Bytes) : Bytes :=
  keys.flatMap fun key => (cache.lookup key).elim [] (Get.item key)

theorem Get.blocks_congr {cache cache' : ByteCache maxSize}
    (same : ∀ other, cache'.lookup other = cache.lookup other) (keys : List Bytes) :
    Get.blocks cache' keys = Get.blocks cache keys := by
  simp only [Get.blocks, same]

theorem Get.items_touch {s : SimpleLRU} {cache : ByteCache maxSize} (refines : Refines s cache)
    (keys : List Bytes) (value outStream : Bytes) :
    ∃ s', (Get.items keys value outStream).execute Storage.call s =
        .ok (outStream ++ Get.blocks cache keys ++ ascii "END", s') ∧
      Refines s' (keys.foldl Cache.touch cache) := by
  induction keys generalizing s cache value outStream with
  | nil => exact ⟨s, by simp [Get.items, Get.blocks], refines⟩
  | cons key keys ih =>
    obtain ⟨s₁, called, refines₁⟩ := call_get refines key
    have touched := Cache.lookup_touch cache key
    rw [Get.items, perform_bind, execute_step_of_ok called]
    cases found : cache.lookup key with
    | none =>
      obtain ⟨s', ran, refines'⟩ := ih refines₁ value outStream
      refine ⟨s', ?_, refines'⟩
      rw [Get.blocks_congr touched] at ran
      show (Get.items keys value outStream).execute Storage.call s₁ = _
      rw [ran, Get.blocks, Get.blocks, List.flatMap_cons, found]
      rfl
    | some stored =>
      obtain ⟨s', ran, refines'⟩ := ih refines₁ stored (outStream ++ Get.item key stored)
      refine ⟨s', ?_, refines'⟩
      rw [Get.blocks_congr touched] at ran
      show (Get.items keys stored (outStream ++ Get.item key stored)).execute Storage.call s₁ = _
      rw [ran, Get.blocks, Get.blocks, List.flatMap_cons, found, List.append_assoc outStream]
      rfl

theorem Get.execute_items {s : SimpleLRU} {cache : ByteCache maxSize} (refines : Refines s cache)
    (keys : List Bytes) (value outStream : Bytes) :
    ∃ s' cache', (Get.items keys value outStream).execute Storage.call s =
        .ok (outStream ++ Get.blocks cache keys ++ ascii "END", s') ∧
      Refines s' (cache' : ByteCache maxSize) ∧ ∀ other, cache'.lookup other = cache.lookup other := by
  obtain ⟨s', ran, refines'⟩ := Get.items_touch refines keys value outStream
  exact ⟨s', _, ran, refines', Cache.lookup_foldl_touch cache keys⟩

theorem append_separator_inj {separator : UInt8} {left left' right right' : Bytes}
    (notLeft : separator ∉ left) (notLeft' : separator ∉ left')
    (same : left ++ separator :: right = left' ++ separator :: right') : left = left' ∧ right = right' := by
  induction left generalizing left' with
  | nil =>
    cases left' with
    | nil => exact ⟨rfl, (List.cons.inj same).2⟩
    | cons c left' =>
      have first := (List.cons.inj same).1
      rw [first] at notLeft'
      exact absurd List.mem_cons_self notLeft'
  | cons c left ih =>
    cases left' with
    | nil =>
      have first := (List.cons.inj same).1
      rw [first] at notLeft
      exact absurd List.mem_cons_self notLeft
    | cons c' left' =>
      obtain ⟨first, rest⟩ := List.cons.inj same
      obtain ⟨sameLeft, sameRight⟩ := ih (fun member => notLeft (List.mem_cons_of_mem c member))
        (fun member => notLeft' (List.mem_cons_of_mem c' member)) rest
      exact ⟨by rw [first, sameLeft], sameRight⟩

theorem Get.item_inj {key key' value value' rest : Bytes} (noSpace : space ∉ key) (noSpace' : space ∉ key')
    (same : Get.item key value ++ rest = Get.item key' value') : key = key' ∧ value = value' := by
  have noCr : ∀ n, cr ∉ decimal n := fun n => (decimal_digits n).inside (by decide)
  have layout : ∀ key value : Bytes, Get.item key value =
      ascii "VALUE " ++ (key ++ space :: (ascii "0 " ++ (decimal value.length ++ cr :: lf :: (value ++ crlf)))) := by
    intro key value
    simp only [Get.item, List.append_assoc]
    rfl
  rw [layout, layout, List.append_assoc, List.append_cancel_left_eq, List.append_assoc,
    List.cons_append, List.append_assoc, List.append_assoc, List.cons_append] at same
  obtain ⟨sameKey, sameRest⟩ := append_separator_inj noSpace noSpace' same
  rw [List.append_cancel_left_eq] at sameRest
  obtain ⟨sameLength, sameData⟩ := append_separator_inj (noCr _) (noCr _) sameRest
  have sameValue : value ++ crlf ++ rest = value' ++ crlf := (List.cons.inj sameData).2
  rw [List.append_assoc] at sameValue
  exact ⟨sameKey, (List.append_inj sameValue (decimal_inj sameLength)).1⟩

/-- The blocks of a `Get` are one block only if that value was found. -/
theorem Get.lookup_of_blocks {cache : ByteCache maxSize} {keys : List Bytes} {key value : Bytes}
    (spaceless : ∀ key ∈ keys, space ∉ key) (noSpace : space ∉ key)
    (same : Get.blocks cache keys = Get.item key value) : cache.lookup key = some value := by
  induction keys with
  | nil => cases same
  | cons first keys ih =>
    rw [Get.blocks, List.flatMap_cons] at same
    cases found : cache.lookup first with
    | none =>
      rw [found] at same
      exact ih (fun key member => spaceless key (List.mem_cons_of_mem _ member)) same
    | some stored =>
      rw [found] at same
      obtain ⟨rfl, rfl⟩ := Get.item_inj (spaceless first List.mem_cons_self) noSpace same
      exact found

end Get

section Answers

variable {maxSize : Nat} {s s' : SimpleLRU} {cache : ByteCache maxSize} {command : Command}
  {key value args result : Bytes}

/-- A read and a write that may follow answer one of two words. -/
theorem answer_of_readThenWrite {call : StorageCall} {write : StorageReply → StorageCall}
    {stored notStored : Bytes} (ran : (step call fun reply => if reply.ok
      then step (write reply) fun _ => done stored else done notStored : StorageProgram).execute
        Storage.call s = .ok (result, s')) : result = stored ∨ result = notStored := by
  obtain ⟨reply, s₁, -, ran⟩ := execute_step_ok.mp ran
  split at ran
  · obtain ⟨_, _, -, ended⟩ := execute_step_ok.mp ran
    cases ended
    exact .inl rfl
  · cases ran
    exact .inr rfl

theorem answer_of_stores (stores : Stores command key) (ran : executeOn command args s = .ok (result, s')) :
    result = ascii "STORED" ∨ result = ascii "NOT_STORED" := by
  cases stores with
  | set command => exact .inl ((executeOn_set args).mp ran).1.symm
  | add command =>
    obtain ⟨reply, s₁, -, ended⟩ := execute_step_ok.mp ran
    cases ended
    cases reply.ok
    · exact .inr rfl
    · exact .inl rfl
  | append command => exact answer_of_readThenWrite ran
  | replace command => exact answer_of_readThenWrite ran

theorem ne_valueResponse {word : Bytes} (other : (word ++ crlf).head? ≠ some 86) :
    word ++ crlf ≠ valueResponse key value := by
  intro same
  rw [same] at other
  exact other rfl

theorem lookup_of_answer (refines : Refines s cache) (spaceless : Spaceless command)
    (noSpace : space ∉ key) (ran : executeOn command args s = .ok (result, s'))
    (answers : result ++ crlf = valueResponse key value) : cache.lookup key = some value := by
  have notStores : ∀ stored, ¬ Stores command stored := by
    intro stored stores
    cases answer_of_stores stores ran with
    | inl word => exact ne_valueResponse (by rw [word]; decide) answers
    | inr word => exact ne_valueResponse (by rw [word]; decide) answers
  cases command with
  | set command => exact absurd (.set command) (notStores _)
  | add command => exact absurd (.add command) (notStores _)
  | append command => exact absurd (.append command) (notStores _)
  | replace command => exact absurd (.replace command) (notStores _)
  | get keys =>
    obtain ⟨_, _, executed, -⟩ := Get.execute_items refines keys [] []
    have same : executeOn (.get keys) args s = _ := executed
    rw [ran] at same
    cases same
    rw [valueResponse, List.append_cancel_right_eq, List.nil_append, List.append_cancel_right_eq] at answers
    exact Get.lookup_of_blocks spaceless noSpace answers
  | stats =>
    cases ran
    exact absurd answers (ne_valueResponse (by decide))

end Answers

end Afina.Execute
