import TsSem02.Protocol.Acceptance

/-! # A command line in pieces

The connection hands its input to `Parse` as it comes, one chunk after another.
How the input is cut makes no difference (`parseChunks_eq`), so what is known of one
call is known of any sequence of calls.

The second half is about `Build`, which goes by the state and the name alone.
It agrees with `Parse` on whether there is a command, except for a line that
lacks nothing but its line feed, and for the two names `Parse` takes and `Build`
does not know (`buildMatches_iff`).
-/

namespace Afina.Protocol

open CInt Execute Protocol.Parser

namespace Parser

/-- `Parse` called with one chunk after another until it throws.  The count, and
    the position of an error, is that in all of the input. -/
def parseChunksFrom (parser : Parser) (total : Nat) : List Bytes → Parser × ParseOutcome
  | [] => (parser, .returned total)
  | chunk :: chunks =>
    match parser.parse chunk with
    | (parser, .returned parsed) => parser.parseChunksFrom (total + parsed) chunks
    | (parser, .threw error pos) => (parser, .threw error (total + pos))

def parseChunks (parser : Parser) (chunks : List Bytes) : Parser × ParseOutcome :=
  parser.parseChunksFrom 0 chunks

/-! ## One call for many -/

section Feed

variable {parser next : Parser} {input left right : Bytes} {error : ParseError} {pos parsed total : Nat}

theorem parseFrom_returned (total : Nat) (parses : parser.parse input = (next, .returned parsed)) :
    parser.parseFrom total input = (next, .returned (total + parsed)) := by
  induction total with
  | zero => rw [Nat.zero_add]; exact parses
  | succ total ih => rw [parseFrom_succ, ih, later, Nat.succ_add_eq_add_succ]; rfl

theorem parseFrom_threw (total : Nat) (parses : parser.parse input = (next, .threw error pos)) :
    parser.parseFrom total input = (next, .threw error (total + pos)) := by
  induction total with
  | zero => rw [Nat.zero_add]; exact parses
  | succ total ih => rw [parseFrom_succ, ih, later, Nat.succ_add_eq_add_succ]; rfl

theorem parseFrom_append_returned (parses : parser.parseFrom pos left = (next, .returned parsed)) :
    parser.parseFrom pos (left ++ right) = next.parseFrom parsed right := by
  induction left generalizing parser pos with
  | nil => cases parses; rfl
  | cons c left ih =>
    cases complete : parser.parseComplete with
    | true =>
      rw [parseFrom_complete complete] at parses
      cases parses
      rw [parseFrom_complete complete, parseFrom_complete complete]
    | false =>
      cases stepped : parser.step c with
      | error error =>
        rw [parseFrom_cons_error complete stepped] at parses
        cases parses
      | ok middle =>
        rw [parseFrom_cons_ok complete stepped] at parses
        rw [List.cons_append, parseFrom_cons_ok complete stepped]
        exact ih parses

theorem parseFrom_append_threw (parses : parser.parseFrom pos left = (next, .threw error total)) :
    parser.parseFrom pos (left ++ right) = (next, .threw error total) := by
  induction left generalizing parser pos with
  | nil => cases parses
  | cons c left ih =>
    cases complete : parser.parseComplete with
    | true =>
      rw [parseFrom_complete complete] at parses
      cases parses
    | false =>
      rw [List.cons_append]
      cases stepped : parser.step c with
      | error error =>
        rw [parseFrom_cons_error complete stepped] at parses ⊢
        exact parses
      | ok middle =>
        rw [parseFrom_cons_ok complete stepped] at parses ⊢
        exact ih parses

theorem parseChunksFrom_eq (chunks : List Bytes) :
    parser.parseChunksFrom total chunks = parser.parseFrom total chunks.flatten := by
  induction chunks generalizing parser total with
  | nil => rfl
  | cons chunk chunks ih =>
    rw [List.flatten_cons, parseChunksFrom]
    split
    · next next parsed parses =>
      rw [ih, parseFrom_append_returned (parseFrom_returned total parses)]
    · next next error pos parses =>
      rw [parseFrom_append_threw (parseFrom_threw total parses)]

/-- However the input is cut, it is parsed as if it came in one piece. -/
theorem parseChunks_eq (parser : Parser) (chunks : List Bytes) :
    parser.parseChunks chunks = parser.parse chunks.flatten :=
  parseChunksFrom_eq chunks

theorem parseFrom_steps (pos : Nat) (ran : parser.steps input = .ok next)
    (incomplete : next.parseComplete = false) :
    parser.parseFrom pos input = (next, .returned (pos + input.length)) := by
  induction input generalizing parser pos with
  | nil => cases ran; rfl
  | cons c input ih =>
    have notYet : parser.parseComplete ≠ true := by
      intro complete
      rw [steps_complete complete ran] at incomplete
      cases incomplete
    obtain ⟨middle, stepped, ranRest⟩ := steps_cons_ok.mp ran
    rw [parseFrom_cons_ok (Bool.eq_false_iff.mpr notYet) stepped, List.length_cons, Nat.add_comm input.length, ← Nat.add_assoc]
    exact ih (pos + 1) ranRest

theorem parse_line {body : Bytes} (rest : Bytes) (ran : parser.steps body = .ok next)
    (state : next.state = .sLF) (incomplete : next.parseComplete = false) :
    parser.parse (body ++ lf :: rest) =
      ({ next with parseComplete := true }, .returned (body.length + 1)) := by
  have toBody := parseFrom_steps 0 ran incomplete
  have stepped : next.step lf = .ok { next with parseComplete := true } := by
    rw [step_sLF state, if_pos rfl]
  rw [Nat.zero_add] at toBody
  rw [parse, parseFrom_append_returned toBody, parseFrom_cons_ok incomplete stepped]
  exact parseFrom_complete rfl

theorem parseFrom_rejects {field : Bytes} (pos : Nat) (incomplete : parser.parseComplete = false)
    (inside : ∀ c ∈ field, ¬ stops parser.state c) (failed : parser.steps field = .error error) :
    ∃ last pos', parser.parseFrom pos field = (last, .threw error pos') := by
  induction field generalizing parser pos with
  | nil => cases failed
  | cons c field ih =>
    rw [steps_cons] at failed
    cases stepped : parser.step c with
    | error thrown =>
      rw [stepped] at failed
      cases failed
      exact ⟨parser, pos, parseFrom_cons_error incomplete stepped⟩
    | ok middle =>
      rw [stepped] at failed
      obtain ⟨state, sameFlag⟩ := step_stays (inside c List.mem_cons_self) stepped
      rw [parseFrom_cons_ok incomplete stepped]
      refine ih (pos + 1) (sameFlag.trans incomplete) (fun d member => ?_) failed
      rw [state]
      exact inside d (List.mem_cons_of_mem c member)

theorem parseFrom_threw_incomplete (parses : parser.parseFrom pos input = (next, .threw error total)) :
    next.parseComplete = false := by
  induction input generalizing parser pos with
  | nil => cases parses
  | cons c input ih =>
    cases complete : parser.parseComplete with
    | true =>
      rw [parseFrom_complete complete] at parses
      cases parses
    | false =>
      cases stepped : parser.step c with
      | error thrown =>
        rw [parseFrom_cons_error complete stepped] at parses
        cases parses
        exact complete
      | ok middle =>
        rw [parseFrom_cons_ok complete stepped] at parses
        exact ih parses

theorem parseFrom_completes (incomplete : parser.parseComplete = false)
    (parses : parser.parseFrom pos input = (next, .returned parsed))
    (complete : next.parseComplete = true) : next.state = .sLF := by
  induction input generalizing parser pos with
  | nil =>
    cases parses
    rw [incomplete] at complete
    cases complete
  | cons c input ih =>
    cases stepped : parser.step c with
    | error thrown =>
      rw [parseFrom_cons_error incomplete stepped] at parses
      cases parses
    | ok middle =>
      rw [parseFrom_cons_ok incomplete stepped] at parses
      by_cases ends : middle.parseComplete = true
      · rw [parseFrom_complete ends] at parses
        cases parses
        exact step_completes incomplete stepped complete
      · exact ih (Bool.eq_false_iff.mpr ends) parses

theorem parse_rejects {front field : Bytes} (rest : Bytes) (ran : parser.steps front = .ok next)
    (incomplete : next.parseComplete = false) (inside : ∀ c ∈ field, ¬ stops next.state c)
    (failed : ∀ last, next.steps field ≠ .ok last) :
    ∃ last error pos, parser.parse (front ++ (field ++ rest)) = (last, .threw error pos) := by
  cases result : next.steps field with
  | ok last => exact absurd result (failed last)
  | error error =>
    obtain ⟨last, pos, threw⟩ := parseFrom_rejects (0 + front.length) incomplete inside result
    refine ⟨last, error, pos, ?_⟩
    rw [parse, parseFrom_append_returned (parseFrom_steps 0 ran incomplete)]
    exact parseFrom_append_threw threw

theorem parseFrom_front (parses : parser.parseFrom pos input = (next, .returned parsed)) :
    ∃ front rest, input = front ++ rest ∧ parsed = pos + front.length ∧ parser.steps front = .ok next ∧
      parser.parseFrom pos front = (next, .returned parsed) ∧
      (rest = [] ∨ next.parseComplete = true) := by
  induction input generalizing parser pos with
  | nil => cases parses; exact ⟨[], [], rfl, rfl, rfl, rfl, .inl rfl⟩
  | cons c input ih =>
    cases complete : parser.parseComplete with
    | true =>
      rw [parseFrom_complete complete] at parses
      cases parses
      exact ⟨[], c :: input, rfl, rfl, rfl, rfl, .inr complete⟩
    | false =>
      cases stepped : parser.step c with
      | error error =>
        rw [parseFrom_cons_error complete stepped] at parses
        cases parses
      | ok middle =>
        rw [parseFrom_cons_ok complete stepped] at parses
        obtain ⟨front, rest, rfl, count, ran, alone, ends⟩ := ih parses
        refine ⟨c :: front, rest, rfl, ?_, steps_cons_ok.mpr ⟨middle, stepped, ran⟩, ?_, ends⟩
        · rw [count, List.length_cons]
          omega
        · rw [parseFrom_cons_ok complete stepped]
          exact alone

end Feed

end Parser

/-! ## What a connection may build -/

/-- The names `Parse` takes and `Build` does not know. -/
def unsupportedNames : List Bytes := [ascii "prepend", ascii "gets"]

/-- The bytes in front of the first blank or carriage return. -/
def commandName (input : Bytes) : Bytes := input.takeWhile fun c => !(c == space || c == cr)

/-- The name as it stands in the input, in every state of the parser. -/
structure Named (parser : Parser) (input : Bytes) : Prop where
  name : parser.name = commandName input
  started : parser.state = .sName ↔ ∀ c ∈ input, ¬ (c = space ∨ c = cr)
  known : parser.state ≠ .sName →
    parser.name ∈ storageNames ∨ parser.name ∈ retrievalNames ∨ parser.name = ascii "stats"

section Named

variable {parser next : Parser} {input rest : Bytes} {c : UInt8}

theorem commandName_cons_ends (ends : c = space ∨ c = cr) : commandName (c :: input) = [] := by
  apply List.takeWhile_cons_of_neg
  rcases ends with rfl | rfl <;> decide

theorem commandName_cons (inside : ¬ (c = space ∨ c = cr)) :
    commandName (c :: input) = c :: commandName input := by
  apply List.takeWhile_cons_of_pos
  simpa using inside

theorem commandName_of_inside (inside : ∀ c ∈ input, ¬ (c = space ∨ c = cr)) :
    commandName (input ++ rest) = input ++ commandName rest := by
  apply List.takeWhile_append_of_pos
  intro c member
  simpa using inside c member

theorem commandName_append (ended : ¬ ∀ c ∈ input, ¬ (c = space ∨ c = cr)) :
    commandName (input ++ rest) = commandName input := by
  induction input with
  | nil => exact absurd (fun c member => absurd member List.not_mem_nil) ended
  | cons c input ih =>
    by_cases ends : c = space ∨ c = cr
    · rw [List.cons_append, commandName_cons_ends ends, commandName_cons_ends ends]
    · have endedLater : ¬ ∀ c ∈ input, ¬ (c = space ∨ c = cr) := by
        intro all
        exact ended (List.forall_mem_cons.mpr ⟨ends, all⟩)
      rw [List.cons_append, commandName_cons ends, commandName_cons ends, ih endedLater]

theorem reset_named (parser : Parser) : Named parser.reset [] where
  name := rfl
  started := by simp [reset]
  known started := absurd rfl started

theorem step_started (state : parser.state ≠ .sName) (stepped : parser.step c = .ok next) :
    next.name = parser.name ∧ next.state ≠ .sName := by
  cases step_takes stepped with
  | name here => exact absurd here state
  | endName _ here => exact absurd here state
  | endKey => exact ⟨rfl, by simp⟩
  | nextKey _ _ ends => exact ⟨rfl, by rcases ends with ⟨-, rfl⟩ | ⟨-, rfl⟩ <;> simp⟩
  | endNumber _ _ _ numeric => exact ⟨rfl, numeric.began.2⟩
  | key | number | lineFeed => exact ⟨rfl, state⟩

theorem step_named (named : Named parser input) (stepped : parser.step c = .ok next) :
    Named next (input ++ [c]) := by
  by_cases state : parser.state = .sName
  · have inside := named.started.mp state
    have soFar : commandName (input ++ [c]) = parser.name ++ commandName [c] := by
      have alone := @commandName_of_inside input [] inside
      rw [List.append_nil] at alone
      rw [commandName_of_inside inside, named.name, alone, List.append_assoc]
      rfl
    by_cases ends : c = space ∨ c = cr
    · -- the name is over, and one of the names it may be
      rw [step_endName state ends] at stepped
      rw [commandName_cons_ends ends, List.append_nil] at soFar
      have separated : ¬ ∀ d ∈ input ++ [c], ¬ (d = space ∨ d = cr) := by
        intro all
        exact all c (by simp) ends
      split at stepped
      · next storage =>
        cases stepped
        exact ⟨soFar.symm, iff_of_false (by simp) separated, fun _ => .inl storage⟩
      · split at stepped
        · next retrieval =>
          cases stepped
          exact ⟨soFar.symm, iff_of_false (by simp) separated, fun _ => .inr (.inl retrieval)⟩
        · split at stepped
          · next stats =>
            cases stepped
            exact ⟨soFar.symm, iff_of_false (by simp) separated, fun _ => .inr (.inr stats)⟩
          · cases stepped
    · rw [step_name state ends] at stepped
      rw [commandName_cons ends] at soFar
      cases stepped
      refine ⟨soFar.symm, iff_of_true state ?_, fun started => absurd state started⟩
      intro d member
      cases List.mem_append.mp member with
      | inl old => exact inside d old
      | inr new =>
        rw [List.mem_singleton.mp new]
        exact ends
  · obtain ⟨sameName, started⟩ := step_started state stepped
    have ended := mt named.started.mpr state
    refine ⟨?_, iff_of_false started ?_, fun _ => ?_⟩
    · rw [sameName, named.name, commandName_append ended]
    · exact fun all => ended fun d member => all d (List.mem_append_left [c] member)
    · rw [sameName]
      exact named.known state

theorem steps_named (named : Named parser input) (ran : parser.steps rest = .ok next) :
    Named next (input ++ rest) := by
  induction rest generalizing parser input with
  | nil => cases ran; rw [List.append_nil]; exact named
  | cons c rest ih =>
    obtain ⟨middle, stepped, ranRest⟩ := steps_cons_ok.mp ran
    rw [List.append_cons]
    exact ih (step_named named stepped) ranRest

theorem steps_keyed (keyed : parser.Keyed) (ran : parser.steps input = .ok next) : next.Keyed := by
  induction input generalizing parser with
  | nil => cases ran; exact keyed
  | cons c input ih =>
    obtain ⟨middle, stepped, ranRest⟩ := steps_cons_ok.mp ran
    exact ih (step_keyed keyed stepped) ranRest

theorem build_nothing_iff : parser.build.2 = .nothing ↔ parser.state ≠ .sLF := by
  constructor
  · intro built state
    simp only [build, state, ne_eq, not_true, if_false, insertCommand] at built
    repeat' split at built
    all_goals cases built
  · intro state
    rw [build, if_pos state]

/-- Of the names `Parse` takes, `Build` does not know two. -/
theorem build_command_iff (keyed : parser.Keyed) (named : Named parser input) (state : parser.state = .sLF) :
    (∃ command, parser.build.2 = .command command) ↔ parser.name ∉ unsupportedNames := by
  have inserts : ∀ make, parser.name ∈ storageNames →
      ∃ command, parser.insertCommand make = .command command := by
    intro make storage
    have nonempty := keyed.stored (by simp [state]) (by simp [state]) storage
    obtain ⟨key, keys, split⟩ := List.exists_cons_of_ne_nil nonempty
    exact ⟨_, by rw [insertCommand, split]⟩
  have known := named.known (by simp [state])
  simp only [build, state, ne_eq, not_true, if_false]
  by_cases supported : parser.name ∈ unsupportedNames
  · -- the last branch of `Build`
    refine iff_of_false ?_ (not_not_intro supported)
    have others : ∀ name ∈ unsupportedNames, name ≠ ascii "set" ∧ name ≠ ascii "add" ∧
        name ≠ ascii "append" ∧ name ≠ ascii "get" ∧ name ≠ ascii "stats" := by decide
    obtain ⟨notSet, notAdd, notAppend, notGet, notStats⟩ := others _ supported
    rw [if_neg notSet, if_neg notAdd, if_neg notAppend, if_neg notGet, if_neg notStats]
    rintro ⟨command, built⟩
    cases built
  · refine iff_of_true ?_ supported
    simp only [storageNames, retrievalNames, unsupportedNames, List.mem_cons, List.not_mem_nil,
      or_false, not_or] at known supported inserts
    split
    · next set => exact inserts _ (.inl set)
    · split
      · next add => exact inserts _ (.inr (.inl add))
      · split
        · next append => exact inserts _ (.inr (.inr (.inl append)))
        · split
          · exact ⟨_, rfl⟩
          · split
            · exact ⟨_, rfl⟩
            · next notSet notAdd notAppend notGet notStats =>
              simp_all

end Named

/-- What `Parse` has reported and what `Build` gives agree. -/
structure BuildMatches (parser : Parser) : Prop where
  command : (∃ command, parser.build.2 = .command command) ↔ parser.parseComplete = true
  nothing : parser.parseComplete = false → parser.build.2 = .nothing

section BuildMatches

variable {parser next : Parser} {body rest : Bytes} {chunks : List Bytes} {total : Nat}

theorem tolerated_iff_reaches (parser : Parser) (body : Bytes) :
    Tolerated (body ++ [lf]) ↔ Reaches parser.reset body := by
  rw [← accepts_iff_tolerated parser, accepts_iff_reaches rfl]
  constructor
  · rintro ⟨other, same, reaches⟩
    rw [List.append_cancel_right same]
    exact reaches
  · exact fun reaches => ⟨body, rfl, reaches⟩

theorem parse_tolerated {line : Bytes} (tolerated : Tolerated line) (parser : Parser) (rest : Bytes) :
    ∃ last body, line = body ++ [lf] ∧ parser.reset.steps body = .ok last ∧ last.state = .sLF ∧
      last.parseComplete = false ∧ parser.reset.parse (line ++ rest) =
        ({ last with parseComplete := true }, .returned line.length) := by
  have accepted := (accepts_iff_tolerated parser line).mpr tolerated
  obtain ⟨body, rfl, last, ran, state, incomplete⟩ := (accepts_iff_reaches rfl).mp accepted
  refine ⟨last, body, rfl, ran, state, incomplete, ?_⟩
  rw [List.append_assoc, List.length_append]
  exact parse_line rest ran state incomplete

/-- `Parse` has returned true exactly if the input begins with a line. -/
theorem complete_iff {input : Bytes} (parses : parser.reset.parse input = (next, .returned total)) :
    next.parseComplete = true ↔ ∃ line rest, input = line ++ rest ∧ Tolerated line := by
  constructor
  · intro complete
    obtain ⟨front, rest, rfl, count, ran, alone, ends⟩ := parseFrom_front parses
    refine ⟨front, rest, rfl, (accepts_iff_tolerated parser front).mp ⟨next, ?_, complete⟩⟩
    rw [Nat.zero_add] at count
    rw [← count]
    exact alone
  · rintro ⟨line, rest, rfl, tolerated⟩
    obtain ⟨last, body, _, _, _, _, parsesLine⟩ := parse_tolerated tolerated parser rest
    rw [parsesLine] at parses
    cases parses
    rfl

/-- `Build` and `Parse` agree unless the input lacks just its line feed, or
    begins with a line of a name `Build` does not know. -/
theorem buildMatches_iff (fed : parser.reset.parseChunks chunks = (next, .returned total)) :
    BuildMatches next ↔ ¬ Tolerated (chunks.flatten ++ [lf]) ∧
      ¬ (commandName chunks.flatten ∈ unsupportedNames ∧
        ∃ line rest, chunks.flatten = line ++ rest ∧ Tolerated line) := by
  rw [parseChunks_eq] at fed
  by_cases complete : next.parseComplete = true
  · obtain ⟨line, rest, split, tolerated⟩ := (complete_iff fed).mp complete
    rw [split] at fed ⊢
    obtain ⟨last, body, rfl, ran, state, incomplete, parsesLine⟩ := parse_tolerated tolerated parser rest
    rw [parsesLine] at fed
    cases fed
    have named := steps_named (reset_named parser) ran
    rw [List.nil_append] at named
    have ended := mt named.started.mpr (by rw [state]; decide)
    have sameName : commandName (body ++ [lf] ++ rest) = last.name := by
      rw [List.append_assoc, commandName_append ended, named.name]
    have built := build_command_iff (steps_keyed (reset_keyed parser) ran) named state
    have notWaiting : ¬ Tolerated (body ++ [lf] ++ rest ++ [lf]) := by
      rw [tolerated_iff_reaches parser]
      rintro ⟨waiting, ranAll, _, incompleteAll⟩
      have returned := parseFrom_steps 0 ranAll incompleteAll
      have completed := (complete_iff returned).mpr ⟨body ++ [lf], rest, rfl, tolerated⟩
      rw [incompleteAll] at completed
      cases completed
    rw [sameName]
    constructor
    · intro builds
      exact ⟨notWaiting, fun unsupported => built.mp (builds.command.mpr rfl) unsupported.1⟩
    · rintro ⟨_, supported⟩
      have builds := built.mpr fun unsupported =>
        supported ⟨unsupported, body ++ [lf], rest, rfl, tolerated⟩
      exact ⟨iff_of_true builds rfl, fun isFalse => by cases isFalse⟩
  · have noLine := mt (complete_iff fed).mpr complete
    have isFalse := Bool.eq_false_iff.mpr complete
    obtain ⟨front, rest, split, _, ran, _, ends⟩ := parseFrom_front fed
    have all : rest = [] := ends.resolve_right complete
    rw [all, List.append_nil] at split
    rw [tolerated_iff_reaches parser]
    constructor
    · intro builds
      have state := build_nothing_iff.mp (builds.nothing isFalse)
      refine ⟨?_, fun unsupported => noLine unsupported.2⟩
      rintro ⟨waiting, ranAll, inState, _⟩
      rw [split, ran] at ranAll
      cases ranAll
      exact state inState
    · rintro ⟨notWaiting, _⟩
      have state : next.state ≠ .sLF := by
        intro inState
        exact notWaiting ⟨next, by rw [split]; exact ran, inState, isFalse⟩
      have nothing := build_nothing_iff.mpr state
      refine ⟨iff_of_false ?_ complete, fun _ => nothing⟩
      rintro ⟨command, built⟩
      rw [nothing] at built
      cases built

/-- A whole line that comes in two pieces. -/
theorem buildMatches_iff_get :
    BuildMatches (parseChunks (reset ⟨.sCR, [], [], 0, 0, 0, false, [], false⟩)
      [ascii "get k\r", ascii "\n"]).1 ↔
      ¬ Tolerated (ascii "get k\r\n" ++ [lf]) ∧
        ¬ (commandName (ascii "get k\r\n") ∈ unsupportedNames ∧
          ∃ line rest, ascii "get k\r\n" = line ++ rest ∧ Tolerated line) :=
  @buildMatches_iff ⟨.sCR, [], [], 0, 0, 0, false, [], false⟩ _ [ascii "get k\r", ascii "\n"] 7 rfl

/-- Before its line feed, a `stats` line is a command for `Build` already. -/
theorem stats_before_lf : ¬ ∀ (parser next : Parser) (chunks : List Bytes) (total : Nat),
    parser.reset.parseChunks chunks = (next, .returned total) → BuildMatches next := by
  intro always
  have builds := always ⟨.sCR, [], [], 0, 0, 0, false, [], false⟩ _ [ascii "stats "] 6 rfl
  cases builds.command.mp ⟨.stats, rfl⟩

end BuildMatches

end Afina.Protocol
