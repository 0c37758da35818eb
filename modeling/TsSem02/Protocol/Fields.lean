import TsSem02.Protocol.Parser

/-! # The fields of a command line

Every state but the last reads one field, up to a byte that ends it.  For each
field: which bytes may stand in it, and what the parser has gathered from them
afterwards.
-/

namespace Afina.Protocol

open CInt Execute

namespace Parser

def steps (parser : Parser) (input : Bytes) : Except ParseError Parser := input.foldlM step parser

@[simp] theorem steps_nil (parser : Parser) : parser.steps [] = .ok parser := rfl

theorem steps_cons (parser : Parser) (c : UInt8) (input : Bytes) :
    parser.steps (c :: input) = (parser.step c >>= fun next => next.steps input) := by
  simp only [steps, List.foldlM_cons]

theorem steps_cons_ok {parser parser' : Parser} {c : UInt8} {input : Bytes} :
    parser.steps (c :: input) = .ok parser' ↔
      ∃ next, parser.step c = .ok next ∧ next.steps input = .ok parser' := by
  rw [steps_cons]
  cases stepped : parser.step c with
  | error error =>
    constructor
    · intro ended
      cases ended
    · rintro ⟨next, same, _⟩
      cases same
  | ok next =>
    constructor
    · intro ended
      exact ⟨next, rfl, ended⟩
    · rintro ⟨_, same, ended⟩
      cases same
      exact ended

theorem steps_append_ok {parser parser' : Parser} {left right : Bytes} :
    parser.steps (left ++ right) = .ok parser' ↔
      ∃ middle, parser.steps left = .ok middle ∧ middle.steps right = .ok parser' := by
  induction left generalizing parser with
  | nil => simp
  | cons c left ih =>
    simp only [List.cons_append, steps_cons_ok, ih]
    constructor
    · rintro ⟨next, stepped, middle, first, second⟩
      exact ⟨middle, ⟨next, stepped, first⟩, second⟩
    · rintro ⟨middle, ⟨next, stepped, first⟩, second⟩
      exact ⟨next, stepped, middle, first, second⟩

/-! ## A whole input -/

section Parse

/-- The outcome of parsing one more byte in front. -/
def later : Parser × ParseOutcome → Parser × ParseOutcome
  | (parser, .returned parsed) => (parser, .returned (parsed + 1))
  | (parser, .threw error pos) => (parser, .threw error (pos + 1))

theorem parseFrom_succ (parser : Parser) (pos : Nat) (input : Bytes) :
    parser.parseFrom (pos + 1) input = later (parser.parseFrom pos input) := by
  induction input generalizing parser pos with
  | nil => rfl
  | cons c input ih =>
    simp only [parseFrom]
    split
    · rfl
    · cases parser.step c with
      | error error => rfl
      | ok next => exact ih next (pos + 1)

variable {parser next : Parser} {c : UInt8} {error : ParseError} {input : Bytes} {pos : Nat}

theorem parseFrom_complete (complete : parser.parseComplete = true) :
    parser.parseFrom pos input = (parser, .returned pos) := by
  cases input with
  | nil => rfl
  | cons c input => rw [parseFrom, if_pos complete]

theorem parseFrom_cons_error (incomplete : parser.parseComplete = false) (stepped : parser.step c = .error error) :
    parser.parseFrom pos (c :: input) = (parser, .threw error pos) := by
  rw [parseFrom, if_neg (Bool.eq_false_iff.mp incomplete), stepped]

theorem parseFrom_cons_ok (incomplete : parser.parseComplete = false) (stepped : parser.step c = .ok next) :
    parser.parseFrom pos (c :: input) = next.parseFrom (pos + 1) input := by
  rw [parseFrom, if_neg (Bool.eq_false_iff.mp incomplete), stepped]

theorem parse_cons_error (incomplete : parser.parseComplete = false)
    (stepped : parser.step c = .error error) :
    parser.parse (c :: input) = (parser, .threw error 0) :=
  parseFrom_cons_error incomplete stepped

theorem parse_cons_ok (incomplete : parser.parseComplete = false)
    (stepped : parser.step c = .ok next) :
    parser.parse (c :: input) = later (next.parse input) := by
  have rest : next.parseFrom 1 input = later (next.parse input) := parseFrom_succ next 0 input
  rw [← rest]
  exact parseFrom_cons_ok incomplete stepped

theorem parse_complete (complete : parser.parseComplete = true) :
    parser.parse input = (parser, .returned 0) := by
  cases input with
  | nil => rfl
  | cons c input =>
    simp only [parse, parseFrom, complete]
    rfl

theorem parsed_pos {parser' : Parser} {parsed : Nat} (incomplete : parser.parseComplete = false)
    (parses : parser.parse (c :: input) = (parser', .returned parsed)) : 0 < parsed := by
  cases stepped : parser.step c with
  | error error =>
    rw [parse_cons_error incomplete stepped] at parses
    cases parses
  | ok next =>
    rw [parse_cons_ok incomplete stepped] at parses
    cases parsesRest : next.parse input with
    | mk parser'' outcome =>
      rw [parsesRest] at parses
      cases outcome with
      | returned parsed => cases parses; exact Nat.succ_pos _
      | threw error pos => cases parses

end Parse

/-! ## One byte -/

section Step

variable {parser : Parser} {c : UInt8}

theorem step_name (state : parser.state = .sName) (inside : ¬ (c = space ∨ c = cr)) :
    parser.step c = .ok { parser with name := parser.name ++ [c] } := by
  simp only [step, state, if_neg inside]
  rfl

theorem step_key (state : parser.state = .spKey) (inside : c ≠ space) :
    parser.step c = .ok { parser with curKey := parser.curKey ++ [c] } := by
  simp only [step, state, if_neg inside]
  rfl

theorem step_sgKey (state : parser.state = .sgKey) (inside : c ≠ cr) :
    parser.step c = .ok (if c = space
      then { parser with keys := parser.keys ++ [parser.curKey], curKey := [] }
      else { parser with curKey := parser.curKey ++ [c] }) := by
  simp only [step, state, if_neg inside]
  split
  · rw [← state]
    rfl
  · rfl

theorem step_flags (state : parser.state = .spFlags) (inside : c ≠ space) :
    parser.step c = if isDigit c then
      if shiftIn parser.flags c < parser.flags then .error .flagsOverflow
      else .ok { parser with flags := shiftIn parser.flags c } else .ok parser := by
  simp only [step, state, if_neg inside]
  rfl

theorem step_exprTimeStart (state : parser.state = .spExprTimeStart)
    (inside : ¬ (c = minus ∨ isDigit c)) : parser.step c = .ok parser := by
  simp only [not_or] at inside
  simp only [step, state, if_neg inside.1, if_neg inside.2]
  rfl

theorem step_exprTime (state : parser.state = .spExprTime) (inside : c ≠ space) :
    parser.step c = if isDigit c then parser.addExprtime c else .ok parser := by
  simp only [step, state, if_neg inside]
  rfl

theorem step_bytes (state : parser.state = .spBytes) (inside : c ≠ cr) :
    parser.step c = if isDigit c then
      if shiftIn parser.bytes c < parser.bytes then .error .bytesOverflow
      else .ok { parser with bytes := shiftIn parser.bytes c } else .ok parser := by
  simp only [step, state, if_neg inside]
  rfl

theorem step_endName (state : parser.state = .sName) (ends : c = space ∨ c = cr) :
    parser.step c = if parser.name ∈ storageNames then .ok { parser with state := .spKey }
      else if parser.name ∈ retrievalNames then .ok { parser with state := .sgKey }
      else if parser.name = ascii "stats" then .ok { parser with state := .sLF }
      else .error (.unknownCommandName parser.name) := by
  simp only [step, state, if_pos ends]
  rfl

theorem step_endKey (state : parser.state = .spKey) : parser.step space =
    .ok { parser with state := .spFlags, keys := parser.keys ++ [parser.curKey] } := by
  simp only [step, state]
  rfl

/-- The check for a missing key comes after a key was pushed. -/
theorem step_endSgKey (state : parser.state = .sgKey) : parser.step cr =
    .ok { parser with keys := parser.keys ++ [parser.curKey], curKey := [], state := .sLF } := by
  have pushed : (parser.keys ++ [parser.curKey]).length ≠ 0 := by simp
  simp only [step, state, if_neg pushed]
  rfl

theorem step_endFlags (state : parser.state = .spFlags) :
    parser.step space = .ok { parser with negative := false, state := .spExprTimeStart } := by
  simp only [step, state]
  rfl

theorem step_minus (state : parser.state = .spExprTimeStart) :
    parser.step minus = .ok { parser with negative := true, state := .spExprTime } := by
  simp only [step, state]
  rfl

theorem step_firstDigit (state : parser.state = .spExprTimeStart) (numeric : isDigit c) :
    parser.step c = .ok { parser with exprtime := digit c, state := .spExprTime } := by
  -- the minus sign is asked for first
  have other : c ≠ minus := by
    intro same
    rw [same] at numeric
    cases numeric
  simp only [step, state, if_neg other, if_pos numeric]
  rfl

theorem step_endExprTime (state : parser.state = .spExprTime) :
    parser.step space = .ok { parser with state := .spBytes } := by
  simp only [step, state]
  rfl

theorem step_endBytes (state : parser.state = .spBytes) :
    parser.step cr = .ok { parser with state := .sLF } := by
  simp only [step, state]
  rfl

theorem step_sLF (state : parser.state = .sLF) : parser.step c =
    if c = lf then .ok { parser with parseComplete := true } else .error (.invalidChar c) := by
  simp only [step, state]
  rfl

theorem addExprtime_ok {parser' : Parser} (added : parser.addExprtime c = .ok parser') :
    ∃ et, parser' = { parser with exprtime := et } := by
  simp only [addExprtime] at added
  split at added <;> split at added <;> cases added
  · exact ⟨_, rfl⟩
  · exact ⟨_, rfl⟩

end Step

/-- The bytes that end the field read in a state. -/
def stops : State → UInt8 → Prop
  | .sName, c => c = space ∨ c = cr
  | .spKey, c | .spFlags, c | .spExprTime, c => c = space
  | .spExprTimeStart, c => c = minus ∨ isDigit c
  | .spBytes, c | .sgKey, c => c = cr
  | .sLF, _ | .sCR, _ => True

/-- The states in which a number is read, and the one behind each. -/
inductive Numeric : State → State → Prop
  | flags : Numeric .spFlags .spExprTimeStart
  | exprTimeStart : Numeric .spExprTimeStart .spExprTime
  | exprTime : Numeric .spExprTime .spBytes
  | bytes : Numeric .spBytes .sLF

/-- All that a byte can do to the parser unless it makes it throw. -/
inductive Takes (parser : Parser) (c : UInt8) : Parser → Prop
  | name : parser.state = .sName → ¬ (c = space ∨ c = cr) →
      Takes parser c { parser with name := parser.name ++ [c] }
  | endName (state : State) : parser.state = .sName → c = space ∨ c = cr →
      parser.name ∈ storageNames ∧ state = .spKey ∨ parser.name ∉ storageNames ∧
        (parser.name ∈ retrievalNames ∧ state = .sgKey ∨ parser.name = ascii "stats" ∧ state = .sLF) →
      Takes parser c { parser with state := state }
  | key : parser.state = .spKey ∨ parser.state = .sgKey ∧ c ≠ cr → c ≠ space →
      Takes parser c { parser with curKey := parser.curKey ++ [c] }
  | endKey : parser.state = .spKey → c = space →
      Takes parser c { parser with state := .spFlags, keys := parser.keys ++ [parser.curKey] }
  | nextKey (state : State) : parser.state = .sgKey → c = space ∧ state = .sgKey ∨ c = cr ∧ state = .sLF →
      Takes parser c { parser with keys := parser.keys ++ [parser.curKey], curKey := [], state := state }
  | number (flags : Nat) (exprtime : Int) (bytes : Nat) (behind : State) : Numeric parser.state behind →
      ¬ stops parser.state c →
      Takes parser c { parser with flags := flags, exprtime := exprtime, bytes := bytes }
  | endNumber (negative : Bool) (exprtime : Int) (behind : State) : Numeric parser.state behind →
      stops parser.state c →
      Takes parser c { parser with negative := negative, exprtime := exprtime, state := behind }
  | lineFeed : parser.state = .sLF → c = lf → Takes parser c { parser with parseComplete := true }

theorem step_takes {parser next : Parser} {c : UInt8} (stepped : parser.step c = .ok next) :
    Takes parser c next := by
  obtain ⟨state, name, keys, flags, exprtime, bytes, negative, curKey, parseComplete⟩ := parser
  cases state with
  | sName =>
    by_cases ends : c = space ∨ c = cr
    · rw [step_endName rfl ends] at stepped
      split at stepped
      · next storage => cases stepped; exact .endName _ rfl ends (.inl ⟨storage, rfl⟩)
      · next notStorage =>
        split at stepped
        · next retrieval => cases stepped; exact .endName _ rfl ends (.inr ⟨notStorage, .inl ⟨retrieval, rfl⟩⟩)
        · split at stepped
          · next stats => cases stepped; exact .endName _ rfl ends (.inr ⟨notStorage, .inr ⟨stats, rfl⟩⟩)
          · cases stepped
    · rw [step_name rfl ends] at stepped
      cases stepped
      exact .name rfl ends
  | spKey =>
    by_cases ends : c = space
    · rw [ends, step_endKey rfl] at stepped
      cases stepped
      exact .endKey rfl ends
    · rw [step_key rfl ends] at stepped
      cases stepped
      exact .key (.inl rfl) ends
  | sgKey =>
    by_cases ends : c = cr
    · rw [ends, step_endSgKey rfl] at stepped
      cases stepped
      exact .nextKey _ rfl (.inr ⟨ends, rfl⟩)
    · rw [step_sgKey rfl ends] at stepped
      split at stepped
      · next isSpace => cases stepped; exact .nextKey _ rfl (.inl ⟨isSpace, rfl⟩)
      · next inside => cases stepped; exact .key (.inr ⟨rfl, ends⟩) inside
  | spFlags =>
    by_cases ends : c = space
    · rw [ends, step_endFlags rfl] at stepped
      cases stepped
      exact .endNumber _ _ _ .flags ends
    · rw [step_flags rfl ends] at stepped
      repeat' split at stepped
      all_goals cases stepped
      -- whether or not the byte is a digit, the field goes on
      all_goals exact .number _ _ _ _ .flags ends
  | spExprTimeStart =>
    by_cases ends : c = minus ∨ isDigit c
    · cases ends with
      | inl isMinus =>
        rw [isMinus, step_minus rfl] at stepped
        cases stepped
        exact .endNumber _ _ _ .exprTimeStart (.inl isMinus)
      | inr numeric =>
        rw [step_firstDigit rfl numeric] at stepped
        cases stepped
        exact .endNumber _ _ _ .exprTimeStart (.inr numeric)
    · rw [step_exprTimeStart rfl ends] at stepped
      cases stepped
      exact .number _ _ _ _ .exprTimeStart ends
  | spExprTime =>
    by_cases ends : c = space
    · rw [ends, step_endExprTime rfl] at stepped
      cases stepped
      exact .endNumber _ _ _ .exprTime ends
    · rw [step_exprTime rfl ends] at stepped
      split at stepped
      · obtain ⟨et, rfl⟩ := addExprtime_ok stepped
        exact .number _ _ _ _ .exprTime ends
      · cases stepped
        exact .number _ _ _ _ .exprTime ends
  | spBytes =>
    by_cases ends : c = cr
    · rw [ends, step_endBytes rfl] at stepped
      cases stepped
      exact .endNumber _ _ _ .bytes ends
    · rw [step_bytes rfl ends] at stepped
      repeat' split at stepped
      all_goals cases stepped
      all_goals exact .number _ _ _ _ .bytes ends
  | sLF =>
    rw [step_sLF rfl] at stepped
    split at stepped
    · next isLf => cases stepped; exact .lineFeed rfl isLf
    · cases stepped
  | sCR => cases stepped

theorem step_stays {parser next : Parser} {c : UInt8} (inside : ¬ stops parser.state c)
    (stepped : parser.step c = .ok next) :
    next.state = parser.state ∧ next.parseComplete = parser.parseComplete := by
  cases step_takes stepped with
  | name | key | number => exact ⟨rfl, rfl⟩
  | endName state here ends => rw [here] at inside; exact absurd ends inside
  | endKey here ends => rw [here] at inside; exact absurd ends inside
  | nextKey state here ends =>
    rw [here] at inside
    obtain ⟨-, rfl⟩ := ends.resolve_right fun ended => inside ended.1
    exact ⟨here.symm, rfl⟩
  | endNumber negative exprtime behind _ ends => exact absurd ends inside
  | lineFeed here => rw [here] at inside; exact absurd trivial inside

theorem step_incomplete {parser next : Parser} {c : UInt8} (state : parser.state ≠ .sLF)
    (stepped : parser.step c = .ok next) : next.parseComplete = parser.parseComplete := by
  cases step_takes stepped with
  | lineFeed here => exact absurd here state
  | _ => rfl

theorem step_completes {parser next : Parser} {c : UInt8} (incomplete : parser.parseComplete = false)
    (stepped : parser.step c = .ok next) (complete : next.parseComplete = true) :
    next.state = .sLF := by
  by_cases state : parser.state = .sLF
  · rw [step_sLF state] at stepped
    split at stepped
    · cases stepped
      exact state
    · cases stepped
  · rw [step_incomplete state stepped, incomplete] at complete
    cases complete

theorem step_complete {parser next : Parser} {c : UInt8} (complete : parser.parseComplete = true)
    (stepped : parser.step c = .ok next) : next.parseComplete = true := by
  by_cases state : parser.state = .sLF
  · rw [step_sLF state] at stepped
    split at stepped
    · cases stepped; rfl
    · cases stepped
  · rw [step_incomplete state stepped, complete]

theorem Numeric.began {state behind : State} (numeric : Numeric state behind) :
    (state ≠ .sName ∧ state ≠ .spKey) ∧ behind ≠ .sName := by
  cases numeric <;> simp

theorem step_leaves_start {parser next : Parser} {c : UInt8} (stepped : parser.step c = .ok next) :
    next.reset ≠ next := by
  have left : next.state ≠ .sName ∨ next.name ≠ [] := by
    cases step_takes stepped with
    | name => exact .inr (by simp)
    | endName state _ _ known =>
      left
      rcases known with ⟨-, rfl⟩ | ⟨-, ⟨-, rfl⟩ | ⟨-, rfl⟩⟩ <;> simp
    | key here => exact .inl (by rcases here with here | ⟨here, -⟩ <;> simp [here])
    | endKey => exact .inl (by simp)
    | nextKey state _ ends => exact .inl (by rcases ends with ⟨-, rfl⟩ | ⟨-, rfl⟩ <;> simp)
    | number _ _ _ _ numeric => exact .inl numeric.began.1.1
    | endNumber _ _ _ numeric => exact .inl numeric.began.2
    | lineFeed here => exact .inl (by simp [here])
  intro fresh
  cases left with
  | inl state => exact state (congrArg Parser.state fresh).symm
  | inr name => exact name (congrArg Parser.name fresh).symm

/-! ## The keys -/

/-- What holds of the keys in every state of the parser. -/
structure Keyed (parser : Parser) : Prop where
  keys : ∀ key ∈ parser.keys, space ∉ key
  curKey : space ∉ parser.curKey
  stored : parser.state ≠ .sName → parser.state ≠ .spKey → parser.name ∈ storageNames →
    parser.keys ≠ []

theorem reset_keyed (parser : Parser) : parser.reset.Keyed where
  keys := by simp [reset]
  curKey := by simp [reset]
  stored started := absurd rfl started

section Keyed

variable {parser next : Parser} {c : UInt8}

theorem Keyed.of_eq (keyed : parser.Keyed) (name : next.name = parser.name)
    (keys : next.keys = parser.keys) (curKey : next.curKey = parser.curKey)
    (began : parser.state ≠ .sName ∧ parser.state ≠ .spKey) : next.Keyed where
  keys := by rw [keys]; exact keyed.keys
  curKey := by rw [curKey]; exact keyed.curKey
  stored _ _ storage := by
    rw [name] at storage
    rw [keys]
    exact keyed.stored began.1 began.2 storage

theorem Keyed.push (keyed : parser.Keyed) : ∀ key ∈ parser.keys ++ [parser.curKey], space ∉ key := by
  intro key member
  cases List.mem_append.mp member with
  | inl old => exact keyed.keys key old
  | inr new =>
    rw [List.mem_singleton.mp new]
    exact keyed.curKey

theorem Keyed.extend (keyed : parser.Keyed) (inside : c ≠ space) : space ∉ parser.curKey ++ [c] := by
  simp [keyed.curKey, Ne.symm inside]

theorem step_keyed (keyed : parser.Keyed) (stepped : parser.step c = .ok next) : next.Keyed := by
  cases step_takes stepped with
  | name here => exact ⟨keyed.keys, keyed.curKey, fun other => absurd here other⟩
  | endName state _ _ known =>
    refine ⟨keyed.keys, keyed.curKey, fun _ notKey storage => ?_⟩
    cases known with
    | inl known => exact absurd known.2 notKey
    | inr known => exact absurd storage known.1
  | key here inside =>
    refine ⟨keyed.keys, keyed.extend inside, fun started notKey => ?_⟩
    exact keyed.stored started notKey
  | endKey => exact ⟨keyed.push, keyed.curKey, fun _ _ _ => by simp⟩
  | nextKey => exact ⟨keyed.push, by simp, fun _ _ _ => by simp⟩
  | number _ _ _ _ numeric => exact keyed.of_eq rfl rfl rfl numeric.began.1
  | endNumber _ _ _ numeric => exact keyed.of_eq rfl rfl rfl numeric.began.1
  | lineFeed here => exact keyed.of_eq rfl rfl rfl (by simp [here])

theorem build_defined (keyed : parser.Keyed) : parser.build.2 ≠ .undefined := by
  have inserts : ∀ make, parser.state = .sLF → parser.name ∈ storageNames →
      parser.insertCommand make ≠ .undefined := by
    intro make state storage built
    simp only [insertCommand] at built
    split at built
    · next empty => exact keyed.stored (by simp [state]) (by simp [state]) storage empty
    · cases built
  intro built
  simp only [build] at built
  split at built
  · cases built
  · next state =>
    have inState : parser.state = .sLF := Decidable.not_not.mp state
    simp only at built
    split at built
    · next name => exact inserts _ inState (by rw [name]; decide) built
    · split at built
      · next name => exact inserts _ inState (by rw [name]; decide) built
      · split at built
        · next name => exact inserts _ inState (by rw [name]; decide) built
        · split at built
          · cases built
          · split at built <;> cases built

end Keyed

/-! ## Whole fields -/

section Steps

variable {parser parser' : Parser} {field : Bytes}

theorem steps_complete (complete : parser.parseComplete = true)
    (ran : parser.steps field = .ok parser') : parser'.parseComplete = true := by
  induction field generalizing parser with
  | nil => cases ran; exact complete
  | cons c field ih =>
    obtain ⟨next, stepped, ranRest⟩ := steps_cons_ok.mp ran
    exact ih (step_complete complete stepped) ranRest

theorem steps_name (state : parser.state = .sName)
    (inside : ∀ c ∈ field, ¬ (c = space ∨ c = cr)) :
    parser.steps field = .ok { parser with name := parser.name ++ field } := by
  induction field generalizing parser with
  | nil => simp
  | cons c field ih =>
    apply steps_cons_ok.mpr
    refine ⟨_, step_name state (inside c List.mem_cons_self), ?_⟩
    have rest : { parser with name := parser.name ++ [c] }.steps field = _ :=
      ih state fun c member => inside c (List.mem_cons_of_mem _ member)
    rw [rest]
    simp

theorem steps_key (state : parser.state = .spKey) (inside : space ∉ field) :
    parser.steps field = .ok { parser with curKey := parser.curKey ++ field } := by
  induction field generalizing parser with
  | nil => simp
  | cons c field ih =>
    obtain ⟨other, inside⟩ := List.ne_and_not_mem_of_not_mem_cons inside
    apply steps_cons_ok.mpr
    refine ⟨_, step_key state (Ne.symm other), ?_⟩
    have rest : { parser with curKey := parser.curKey ++ [c] }.steps field = _ := ih state inside
    rw [rest]
    simp

theorem steps_sgKey (state : parser.state = .sgKey) (noSpace : space ∉ field) (noCr : cr ∉ field) :
    parser.steps field = .ok { parser with curKey := parser.curKey ++ field } := by
  induction field generalizing parser with
  | nil => simp
  | cons c field ih =>
    obtain ⟨notSpace, noSpace⟩ := List.ne_and_not_mem_of_not_mem_cons noSpace
    obtain ⟨notCr, noCr⟩ := List.ne_and_not_mem_of_not_mem_cons noCr
    apply steps_cons_ok.mpr
    refine ⟨_, step_sgKey state (Ne.symm notCr), ?_⟩
    have rest : { parser with curKey := parser.curKey ++ [c] }.steps field = _ :=
      ih state noSpace noCr
    rw [if_neg (Ne.symm notSpace), rest]
    simp

theorem steps_sgKeys (state : parser.state = .sgKey) (inside : cr ∉ field) :
    ∃ keys curKey, parser.steps field = .ok { parser with keys := keys, curKey := curKey } := by
  induction field generalizing parser with
  | nil => exact ⟨_, _, rfl⟩
  | cons c field ih =>
    obtain ⟨other, inside⟩ := List.ne_and_not_mem_of_not_mem_cons inside
    have stepped := step_sgKey state (Ne.symm other)
    by_cases isSpace : c = space
    · rw [if_pos isSpace] at stepped
      obtain ⟨keys, curKey, ran⟩ : ∃ keys curKey,
          { parser with keys := parser.keys ++ [parser.curKey], curKey := [] }.steps field =
            .ok { parser with keys := keys, curKey := curKey } :=
        @ih { parser with keys := parser.keys ++ [parser.curKey], curKey := [] } state inside
      exact ⟨keys, curKey, steps_cons_ok.mpr ⟨_, stepped, ran⟩⟩
    · rw [if_neg isSpace] at stepped
      obtain ⟨keys, curKey, ran⟩ : ∃ keys curKey,
          { parser with curKey := parser.curKey ++ [c] }.steps field =
            .ok { parser with keys := keys, curKey := curKey } :=
        @ih { parser with curKey := parser.curKey ++ [c] } state inside
      exact ⟨keys, curKey, steps_cons_ok.mpr ⟨_, stepped, ran⟩⟩

theorem steps_exprTimeStart (state : parser.state = .spExprTimeStart)
    (inside : ∀ c ∈ field, ¬ (c = minus ∨ isDigit c)) : parser.steps field = .ok parser := by
  induction field with
  | nil => rfl
  | cons c field ih =>
    apply steps_cons_ok.mpr
    exact ⟨parser, step_exprTimeStart state (inside c List.mem_cons_self),
      ih fun c member => inside c (List.mem_cons_of_mem _ member)⟩

end Steps

/-! ## Numbers -/

/-- The unsigned number the digits of `field` make, after those read before. -/
def readNumber (number : Nat) (field : Bytes) : Nat := (field.filter isDigit).foldl shiftIn number

/-- No digit of `field` makes the number smaller, in 32 bits. -/
def NeverDrops : Nat → Bytes → Prop
  | _, [] => True
  | number, c :: field =>
    if isDigit c then number ≤ shiftIn number c ∧ NeverDrops (shiftIn number c) field
    else NeverDrops number field

def digitSum (field : Bytes) : Nat := ((field.filter isDigit).map digit).sum

def signed (negative : Bool) (n : Nat) : Int := if negative then -n else n

/-- An expiration time of 32 bits on the side of its sign. -/
def TimeInRange (negative : Bool) (time : Int) : Prop :=
  if negative then -2 ^ 31 ≤ time ∧ time ≤ 0 else 0 ≤ time ∧ time < 2 ^ 31

theorem digit_le {c : UInt8} (isDigit : isDigit c = true) : digit c ≤ 9 := by
  simp only [Protocol.isDigit, Bool.and_eq_true, decide_eq_true_eq] at isDigit
  have upper : c.toNat ≤ 57 := isDigit.2
  unfold digit
  omega

section Numbers

variable {parser parser' : Parser} {field : Bytes} {number : Nat} {c : UInt8}

theorem neverDrops_digit (numeric : isDigit c) : NeverDrops number (c :: field) ↔
    number ≤ shiftIn number c ∧ NeverDrops (shiftIn number c) field := by
  rw [NeverDrops, if_pos numeric]

theorem neverDrops_other (other : ¬ isDigit c) :
    NeverDrops number (c :: field) ↔ NeverDrops number field := by
  rw [NeverDrops, if_neg other]

theorem readNumber_digit (numeric : isDigit c) :
    readNumber number (c :: field) = readNumber (shiftIn number c) field := by
  rw [readNumber, List.filter_cons_of_pos numeric]
  rfl

theorem readNumber_other (other : ¬ isDigit c) :
    readNumber number (c :: field) = readNumber number field := by
  rw [readNumber, List.filter_cons_of_neg other]
  rfl

theorem steps_number {state : State} {stop : UInt8} {error : ParseError} (number : Parser → Nat)
    (update : Parser → Nat → Parser)
    (stepped : ∀ parser c, parser.state = state → c ≠ stop → parser.step c = if isDigit c then
      if shiftIn (number parser) c < number parser then .error error
      else .ok (update parser (shiftIn (number parser) c)) else .ok parser)
    (keeps : ∀ parser n, (update parser n).state = parser.state)
    (reads : ∀ parser n, number (update parser n) = n)
    (forgets : ∀ parser m n, update (update parser m) n = update parser n)
    (same : ∀ parser, update parser (number parser) = parser)
    (inState : parser.state = state) (inside : stop ∉ field) :
    parser.steps field = .ok parser' ↔ NeverDrops (number parser) field ∧
      parser' = update parser (readNumber (number parser) field) := by
  induction field generalizing parser with
  | nil => simp [NeverDrops, readNumber, same, eq_comm]
  | cons c field ih =>
    obtain ⟨other, inside⟩ := List.ne_and_not_mem_of_not_mem_cons inside
    rw [steps_cons, stepped parser c inState (Ne.symm other)]
    by_cases numeric : isDigit c
    · rw [if_pos numeric, neverDrops_digit numeric, readNumber_digit numeric]
      by_cases drops : shiftIn (number parser) c < number parser
      · rw [if_pos drops]
        constructor
        · intro ran
          cases ran
        · rintro ⟨⟨keeps, _⟩, _⟩
          exact absurd keeps (Nat.not_le.mpr drops)
      · have rest := @ih (update parser (shiftIn (number parser) c))
          ((keeps _ _).trans inState) inside
        rw [reads, forgets] at rest
        rw [if_neg drops, and_iff_right (Nat.not_lt.mp drops)]
        exact rest
    · rw [if_neg numeric, neverDrops_other numeric, readNumber_other numeric]
      exact ih inState inside

theorem steps_flags (state : parser.state = .spFlags) (inside : space ∉ field) :
    parser.steps field = .ok parser' ↔ NeverDrops parser.flags field ∧
      parser' = { parser with flags := readNumber parser.flags field } :=
  steps_number flags (fun parser n => { parser with flags := n })
    (fun _ _ state inside => step_flags state inside) (fun _ _ => rfl) (fun _ _ => rfl)
    (fun _ _ _ => rfl) (fun _ => rfl) state inside

theorem steps_bytes (state : parser.state = .spBytes) (inside : cr ∉ field) :
    parser.steps field = .ok parser' ↔ NeverDrops parser.bytes field ∧
      parser' = { parser with bytes := readNumber parser.bytes field } :=
  steps_number bytes (fun parser n => { parser with bytes := n })
    (fun _ _ state inside => step_bytes state inside) (fun _ _ => rfl) (fun _ _ => rfl)
    (fun _ _ _ => rfl) (fun _ => rfl) state inside

/-- The addition throws exactly when it leaves the range of its sign. -/
theorem addExprtime_iff (range : TimeInRange parser.negative parser.exprtime) (numeric : isDigit c) :
    parser.addExprtime c = .ok parser' ↔
      TimeInRange parser.negative (parser.exprtime + signed parser.negative (digit c)) ∧
        parser' = { parser with
          exprtime := parser.exprtime + signed parser.negative (digit c) } := by
  have bound := digit_le numeric
  cases sign : parser.negative with
  | true =>
    simp only [TimeInRange, sign, if_true] at range
    simp only [addExprtime, sign, signed, TimeInRange, if_true, ← Int.sub_eq_add_neg]
    by_cases within : -2 ^ 31 ≤ parser.exprtime - digit c
    · have kept : toSigned 32 (parser.exprtime - digit c) = parser.exprtime - digit c :=
        toSigned_of_inRange within (by omega)
      rw [kept, if_neg (by omega)]
      constructor
      · intro added
        cases added
        exact ⟨⟨within, by omega⟩, rfl⟩
      · rintro ⟨_, same⟩
        rw [same]
        rfl
    · have wrapped : toSigned 32 (parser.exprtime - digit c) =
          parser.exprtime - digit c + 2 * 2 ^ 31 := toSigned_of_below (by omega) (by omega)
      rw [wrapped, if_pos (by omega)]
      constructor
      · intro added
        cases added
      · rintro ⟨⟨lower, _⟩, _⟩
        exact absurd lower within
  | false =>
    simp only [TimeInRange, sign, Bool.false_eq_true, if_false] at range
    simp only [addExprtime, sign, signed, TimeInRange, Bool.false_eq_true, if_false]
    by_cases within : parser.exprtime + digit c < 2 ^ 31
    · have kept : toSigned 32 (parser.exprtime + digit c) = parser.exprtime + digit c :=
        toSigned_of_inRange (by omega) within
      rw [kept, if_neg (by omega)]
      constructor
      · intro added
        cases added
        exact ⟨⟨by omega, within⟩, rfl⟩
      · rintro ⟨_, same⟩
        rw [same]
        rfl
    · have wrapped : toSigned 32 (parser.exprtime + digit c) =
          parser.exprtime + digit c - 2 * 2 ^ 31 := toSigned_of_above (by omega) (by omega)
      rw [wrapped, if_pos (by omega)]
      constructor
      · intro added
        cases added
      · rintro ⟨⟨_, upper⟩, _⟩
        exact absurd upper within

theorem digitSum_digit (numeric : isDigit c) :
    digitSum (c :: field) = digit c + digitSum field := by
  rw [digitSum, List.filter_cons_of_pos numeric, List.map_cons, List.sum_cons, digitSum]

theorem digitSum_other (other : ¬ isDigit c) : digitSum (c :: field) = digitSum field := by
  rw [digitSum, List.filter_cons_of_neg other, digitSum]

theorem signed_add (negative : Bool) (m n : Nat) :
    signed negative (m + n) = signed negative m + signed negative n := by
  cases negative with
  | true => simp only [signed, if_true]; omega
  | false => simp [signed]

theorem TimeInRange.of_add {negative : Bool} {time : Int} {m n : Nat}
    (range : TimeInRange negative time)
    (rangeSum : TimeInRange negative (time + signed negative m + signed negative n)) :
    TimeInRange negative (time + signed negative m) := by
  cases negative with
  | true =>
    simp only [TimeInRange, signed, if_true] at range rangeSum ⊢
    omega
  | false =>
    simp only [TimeInRange, signed, Bool.false_eq_true, if_false] at range rangeSum ⊢
    omega

theorem steps_exprTime (state : parser.state = .spExprTime) (inside : space ∉ field)
    (range : TimeInRange parser.negative parser.exprtime) :
    parser.steps field = .ok parser' ↔
      TimeInRange parser.negative (parser.exprtime + signed parser.negative (digitSum field)) ∧
        parser' = { parser with
          exprtime := parser.exprtime + signed parser.negative (digitSum field) } := by
  induction field generalizing parser with
  | nil =>
    have noDigits : signed parser.negative (digitSum []) = 0 := by
      cases parser.negative <;> rfl
    simp only [noDigits, Int.add_zero, range, true_and, steps_nil, Except.ok.injEq]
    exact eq_comm
  | cons c field ih =>
    obtain ⟨other, inside⟩ := List.ne_and_not_mem_of_not_mem_cons inside
    have stepped := step_exprTime state (Ne.symm other)
    by_cases numeric : isDigit c
    · rw [if_pos numeric] at stepped
      rw [digitSum_digit numeric, signed_add, ← Int.add_assoc, steps_cons_ok]
      constructor
      · rintro ⟨next, added, ran⟩
        rw [stepped, addExprtime_iff range numeric] at added
        obtain ⟨rangeNext, rfl⟩ := added
        exact (@ih { parser with
          exprtime := parser.exprtime + signed parser.negative (digit c) } state inside rangeNext).mp ran
      · rintro ⟨rangeSum, same⟩
        have rangeNext := range.of_add rangeSum
        refine ⟨_, stepped.trans ((addExprtime_iff range numeric).mpr ⟨rangeNext, rfl⟩), ?_⟩
        exact (@ih { parser with
          exprtime := parser.exprtime + signed parser.negative (digit c) } state inside rangeNext).mpr
          ⟨rangeSum, same⟩
    · rw [if_neg numeric] at stepped
      rw [digitSum_other numeric, steps_cons, stepped]
      exact ih state inside range

end Numbers

end Parser

end Afina.Protocol
