import TsSem02.Network.Session
import TsSem02.Protocol.Fields

/-! # The command loop, byte by byte

`feed` is the machine that a connection is when it looks at one byte at a time.
Draining a buffer is feeding its bytes one after another (`settle_drain`), so
the borders of the buffers do not matter.
-/

namespace Afina.Network

open Protocol Execute Parser

namespace Session

variable {Store : Type}

/-- An interrupted pass, seen from the byte that caused it. -/
def settle {α : Type} : Except (Interrupt Store) α → Except (Session Store × Reason) α
  | .error i => .error ({ i.session with consumed := i.session.consumed + i.ahead }, i.reason)
  | .ok a => .ok a

@[simp] theorem settle_ok {α : Type} (a : α) :
    settle (.ok a : Except (Interrupt Store) α) = .ok a := rfl

@[simp] theorem settle_error {α : Type} (i : Interrupt Store) :
    settle (.error i : Except (Interrupt Store) α) =
      .error ({ i.session with consumed := i.session.consumed + i.ahead }, i.reason) := rfl

def outcome : Session Store × Option Reason → Except (Session Store × Reason) (Session Store)
  | (s, none) => .ok s
  | (s, some reason) => .error (s, reason)

/-- One byte for the parser. -/
def feedParser (s : Session Store) (parser : Parser) : Session Store :=
  { s.hand 1 with parser := parser, consumed := s.consumed + 1 }

/-- One byte for the argument. -/
def feedArgument (s : Session Store) (c : UInt8) : Session Store :=
  { s.hand 1 with
    argumentForCommand := s.argumentForCommand ++ [c]
    argRemains := s.argRemains - 1
    consumed := s.consumed + 1 }

variable [Storage Store]

/-- The connection receives one byte. -/
def feed (deliver : Deliver Store) (s : Session Store) (c : UInt8) :
    Except (Session Store × Reason) (Session Store) :=
  match s.commandToExecute with
  | some _ => outcome (runCommand deliver (s.feedArgument c))
  | none =>
    match s.parser.step c with
    | .error error => .error (s.hand 1, .parse error)
    | .ok parser =>
      match ({ s.hand 1 with parser := parser } : Session Store).buildCommand with
      | (s, some reason) => .error (s, reason)
      | (s, none) => outcome (runCommand deliver { s with consumed := s.consumed + 1 })

def feedAll (deliver : Deliver Store) (s : Session Store) (bytes : Bytes) :
    Except (Session Store × Reason) (Session Store) := bytes.foldlM (feed deliver) s

omit [Storage Store] in
/-- Between two passes: a command waits for its argument, or a line is incomplete. -/
structure Ready (s : Session Store) : Prop where
  incomplete : s.commandToExecute = none → s.parser.parseComplete = false
  waits : ∀ command, s.commandToExecute = some command → 0 < s.argRemains

/-- A delivery that is not interrupted adds the response and starts a new line. -/
def Responds (deliver : Deliver Store) : Prop :=
  ∀ s response s', deliver s response = (s', none) → s' = s.respond response

omit [Storage Store] in
theorem respond_ready (s : Session Store) (response : Bytes) : (s.respond response).Ready where
  incomplete _ := rfl
  waits _ same := by cases same

/-! ## The parts of a pass -/

section Parts

variable {s : Session Store} {c : UInt8} {rest : Bytes} {parser : Parser}

omit [Storage Store] in
theorem buildCommand_of_incomplete (incomplete : s.parser.parseComplete = false) :
    s.buildCommand = (s, none) := by
  simp [buildCommand, incomplete]

omit [Storage Store] in
theorem buildCommand_consumed (s : Session Store) (n : Nat) :
    ({ s with consumed := n } : Session Store).buildCommand =
      ({ s.buildCommand.1 with consumed := n }, s.buildCommand.2) := by
  simp only [buildCommand]
  split
  · split <;> rfl
  · rfl

omit [Storage Store] in
theorem hand_succ (s : Session Store) (n : Nat) :
    s.handed ++ List.range' s.consumed (n + 1) =
      (s.handed ++ List.range' s.consumed 1) ++ List.range' (s.consumed + 1) n := by
  rw [List.append_assoc, Nat.add_comm n 1, ← List.range'_append_1]

/-- What `Build` leaves as it is: all but the command and the bytes to wait for. -/
structure BuildKeeps (s t : Session Store) : Prop where
  parser : t.parser = s.parser
  storage : t.storage = s.storage
  executed : t.executed = s.executed
  responses : t.responses = s.responses
  consumed : t.consumed = s.consumed
  handed : t.handed = s.handed

omit [Storage Store] in
theorem buildCommand_keeps (s : Session Store) : BuildKeeps s s.buildCommand.1 := by
  simp only [buildCommand]
  split
  · split <;> exact ⟨rfl, rfl, rfl, rfl, rfl, rfl⟩
  · exact ⟨rfl, rfl, rfl, rfl, rfl, rfl⟩

omit [Storage Store] in
theorem BuildKeeps.of_eq {t : Session Store} {reason : Option Reason} (builds : s.buildCommand = (t, reason)) :
    BuildKeeps s t := by
  have kept := buildCommand_keeps s
  rw [builds] at kept
  exact kept

omit [Storage Store] in
/-- The first byte of a line that goes on can be parsed on its own. -/
theorem parseCommand_cons {d : UInt8} (incomplete : parser.parseComplete = false)
    (parses : s.parser.parse (c :: d :: rest) = later (parser.parse (d :: rest))) :
    settle (s.parseCommand (c :: d :: rest)) =
      settle ((s.feedParser parser).parseCommand (d :: rest)) := by
  cases parsesRest : parser.parse (d :: rest) with
  | mk parser' outcome =>
    rw [parsesRest] at parses
    cases outcome with
    | threw error pos =>
      simp only [later] at parses
      simp only [parseCommand, parses, feedParser, parsesRest, settle_error, hand, hand_succ s (pos + 1)]
      rw [Nat.add_assoc, Nat.add_comm 1 pos]
    | returned parsed =>
      have positive := parsed_pos incomplete parsesRest
      simp only [later] at parses
      have place : ({ s.hand (parsed + 1) with parser := parser' } : Session Store) =
          { ({ (s.feedParser parser).hand parsed with parser := parser' } : Session Store) with
            consumed := s.consumed } := by
        simp only [feedParser, hand, hand_succ s parsed]
      have parsesNext : (s.feedParser parser).parser.parse (d :: rest) =
        (parser', .returned parsed) := parsesRest
      have consumed : ({ (s.feedParser parser).hand parsed with parser := parser' } :
          Session Store).buildCommand.1.consumed = s.consumed + 1 := (buildCommand_keeps _).consumed
      simp only [parseCommand, parses, parsesNext]
      rw [place, buildCommand_consumed]
      generalize Session.buildCommand { (s.feedParser parser).hand parsed with parser := parser' } =
        built at consumed
      obtain ⟨t, reason⟩ := built
      simp only at consumed
      cases reason with
      | some reason =>
        have byte : s.consumed + (parsed + 1 - 1) = s.consumed + 1 + (parsed - 1) := by omega
        simp only [settle_error, consumed, byte]
      | none =>
        have byte : s.consumed + (parsed + 1) = s.consumed + 1 + parsed := by omega
        have progress : ¬ parsed + 1 = 0 := Nat.succ_ne_zero parsed
        have progressNext : ¬ parsed = 0 := Nat.ne_of_gt positive
        simp only [progress, progressNext, if_false, settle_ok, consumed, byte, List.drop_succ_cons]

end Parts

/-! ## A pass -/

omit [Storage Store] in
theorem settle_bind {α β : Type} (x : Except (Interrupt Store) α)
    (next : α → Except (Interrupt Store) β) :
    settle (x >>= next) = (settle x >>= fun a => settle (next a)) := by
  cases x <;> rfl

section Pass

variable {deliver : Deliver Store} {s s' : Session Store} {c : UInt8} {rest : Bytes}

omit [Storage Store] in
theorem fillArgument_zero (filled : s.argRemains = 0) : s.fillArgument rest = (s, rest) := by
  simp [fillArgument, filled]

omit [Storage Store] in
theorem fillArgument_nil (s : Session Store) : s.fillArgument [] = (s, []) := by
  simp [fillArgument, hand]

omit [Storage Store] in
theorem fillArgument_last {command : Command} (waiting : s.commandToExecute = some command)
    (missing : 0 < s.argRemains) (last : s.argRemains = 1 ∨ rest = []) :
    s.fillArgument (c :: rest) = (s.feedArgument c, rest) := by
  have one : min s.argRemains (c :: rest).length = 1 := by
    cases last with
    | inl one => simp [one]
    | inr empty =>
      rw [empty]
      simp only [List.length_singleton]
      omega
  simp only [fillArgument, waiting, Option.isSome_some, missing, and_self, if_true, one]
  rfl

omit [Storage Store] in
theorem fillArgument_cons {command : Command} (waiting : s.commandToExecute = some command)
    (missing : 1 < s.argRemains) :
    s.fillArgument (c :: rest) = (s.feedArgument c).fillArgument rest := by
  have more : 0 < s.argRemains := Nat.lt_of_succ_lt missing
  have stillMore : 0 < s.argRemains - 1 := Nat.sub_pos_of_lt missing
  have read : min s.argRemains (rest.length + 1) = min (s.argRemains - 1) rest.length + 1 := by omega
  simp only [fillArgument, feedArgument, hand, waiting, Option.isSome_some, more, stillMore,
    and_self, if_true, List.length_cons, read]
  have remains : s.argRemains - (min (s.argRemains - 1) rest.length + 1) =
    s.argRemains - 1 - min (s.argRemains - 1) rest.length := by omega
  have place : s.consumed + (min (s.argRemains - 1) rest.length + 1) =
    s.consumed + 1 + min (s.argRemains - 1) rest.length := by omega
  rw [remains, place, hand_succ]
  simp [List.take_succ_cons]

inductive Ran (deliver : Deliver Store) (s : Session Store) : Session Store × Option Reason → Prop
  | waits : (∀ command, s.commandToExecute = some command → 0 < s.argRemains) → Ran deliver s (s, none)
  | faults (command : Command) (fault : Fault) : s.commandToExecute = some command →
      (command.execute s.argumentForCommand).execute Storage.call s.storage = .error fault →
      Ran deliver s
        ({ s with executed := s.executed ++ [(command, s.argumentForCommand)] }, some (.fault fault))
  | answers (command : Command) (result : Bytes) (storage : Store)
      (delivered : Session Store × Option Reason) : s.commandToExecute = some command →
      (command.execute s.argumentForCommand).execute Storage.call s.storage = .ok (result, storage) →
      deliver { s with executed := s.executed ++ [(command, s.argumentForCommand)], storage := storage }
        (result ++ crlf) = delivered → Ran deliver s delivered

theorem runCommand_ran (deliver : Deliver Store) (s : Session Store) : Ran deliver s (s.runCommand deliver) := by
  simp only [runCommand]
  split
  · next waiting => exact .waits fun command same => by rw [waiting] at same; cases same
  · next command waiting =>
    split
    · split
      · next fault failed => exact .faults command fault waiting failed
      · next result storage executed => exact .answers command result storage _ waiting executed rfl
    · next missing => exact .waits fun _ _ => Nat.pos_of_ne_zero missing

theorem runCommand_none (waiting : s.commandToExecute = none) : s.runCommand deliver = (s, none) := by
  simp only [runCommand, waiting]

theorem runCommand_missing (missing : 0 < s.argRemains) : s.runCommand deliver = (s, none) := by
  simp only [runCommand]
  split
  · rfl
  · rw [if_neg (Nat.ne_of_gt missing)]

/-- The second half of a pass: fill the argument and run the command. -/
def fill (deliver : Deliver Store) (t : Session Store × Bytes) :
    Except (Session Store × Reason) (Session Store × Bytes) :=
  (outcome ((t.1.fillArgument t.2).1.runCommand deliver)).map (·, (t.1.fillArgument t.2).2)

theorem settle_run (t : Session Store × Bytes) :
    settle (match (t.1.fillArgument t.2).1.runCommand deliver with
      | (s', some reason) => .error ⟨s', (t.1.fillArgument t.2).2, reason, 0⟩
      | (s', none) => .ok (s', (t.1.fillArgument t.2).2)) = fill deliver t := by
  simp only [fill]
  rcases (t.1.fillArgument t.2).1.runCommand deliver with ⟨t', _ | reason⟩
  · rfl
  · rfl

theorem fill_nothing (nothing : s.fillArgument rest = (s, rest)) :
    fill deliver (s, rest) = (outcome (s.runCommand deliver)).map (·, rest) := by
  simp only [fill, nothing]

theorem pass_some {command : Command} (waiting : s.commandToExecute = some command) :
    settle (s.pass deliver rest) = fill deliver (s, rest) := by
  simp only [pass, waiting]
  exact settle_run (s, rest)

end Pass

section Feed

variable {deliver : Deliver Store} {s s' : Session Store} {c : UInt8} {rest : Bytes}

omit [Storage Store] in
theorem insertCommand_ne_nothing (parser : Parser) (make : InsertCommand → Command) :
    parser.insertCommand make ≠ .nothing := by
  intro built
  simp only [insertCommand] at built
  split at built <;> cases built

omit [Storage Store] in
theorem build_ne_nothing {parser : Parser} (state : parser.state = .sLF) :
    parser.build.2 ≠ .nothing := by
  intro built
  simp only [build, state, ne_eq, not_true_eq_false, if_false] at built
  split at built
  · exact insertCommand_ne_nothing _ _ built
  · split at built
    · exact insertCommand_ne_nothing _ _ built
    · split at built
      · exact insertCommand_ne_nothing _ _ built
      · split at built
        · cases built
        · split at built <;> cases built

omit [Storage Store] in
theorem buildCommand_complete (state : s.parser.state = .sLF) (complete : s.parser.parseComplete = true)
    (builds : s.buildCommand = (s', none)) : s'.commandToExecute ≠ none := by
  have something := build_ne_nothing state
  simp only [buildCommand, complete, if_true] at builds
  cases built : s.parser.build with
  | mk bodySize result =>
    rw [built] at builds something
    cases result with
    | nothing => exact absurd rfl something
    | command command => cases builds; simp
    | threw error => cases builds
    | undefined => cases builds

theorem runCommand_ready (responds : Responds deliver)
    (incomplete : s.commandToExecute = none → s.parser.parseComplete = false)
    (ran : s.runCommand deliver = (s', none)) : s'.Ready := by
  have did := runCommand_ran deliver s
  rw [ran] at did
  cases did with
  | waits waits => exact ⟨incomplete, waits⟩
  | answers _ _ _ _ _ _ delivered =>
    rw [responds _ _ _ delivered]
    exact respond_ready _ _

omit [Storage Store] in
theorem outcome_ok {o : Session Store × Option Reason} :
    outcome o = .ok s' ↔ o = (s', none) := by
  rcases o with ⟨t, _ | reason⟩
  · constructor
    · intro same; cases same; rfl
    · intro same; cases same; rfl
  · constructor
    · intro same; cases same
    · intro same; cases same

inductive Fed (deliver : Deliver Store) (s : Session Store) (c : UInt8) :
    Except (Session Store × Reason) (Session Store) → Prop
  | argument (command : Command) (result : Except (Session Store × Reason) (Session Store)) :
      s.commandToExecute = some command →
      outcome ((s.feedArgument c).runCommand deliver) = result → Fed deliver s c result
  | throws (error : ParseError) : s.commandToExecute = none → s.parser.step c = .error error →
      Fed deliver s c (.error (s.hand 1, .parse error))
  | rejects (parser : Parser) (t : Session Store) (reason : Reason) : s.commandToExecute = none →
      s.parser.step c = .ok parser →
      ({ s.hand 1 with parser := parser } : Session Store).buildCommand = (t, some reason) →
      Fed deliver s c (.error (t, reason))
  | parses (parser : Parser) (t : Session Store) (result : Except (Session Store × Reason) (Session Store)) :
      s.commandToExecute = none → s.parser.step c = .ok parser →
      ({ s.hand 1 with parser := parser } : Session Store).buildCommand = (t, none) →
      outcome (runCommand deliver { t with consumed := t.consumed + 1 }) = result → Fed deliver s c result

theorem feed_fed (deliver : Deliver Store) (s : Session Store) (c : UInt8) :
    Fed deliver s c (s.feed deliver c) := by
  simp only [feed]
  split
  · next command waiting => exact .argument command _ waiting rfl
  · next waiting =>
    split
    · next error failed => exact .throws error waiting failed
    · next parser stepped =>
      split
      · next t reason builds => exact .rejects parser t reason waiting stepped builds
      · next t builds => exact .parses parser t _ waiting stepped builds rfl

theorem feed_ready (responds : Responds deliver) (ready : s.Ready)
    (fed : s.feed deliver c = .ok s') : s'.Ready := by
  have did := feed_fed deliver s c
  rw [fed] at did
  cases did with
  | argument command _ waiting ran =>
    apply runCommand_ready responds _ (outcome_ok.mp ran)
    intro nothing
    rw [show (s.feedArgument c).commandToExecute = s.commandToExecute from rfl, waiting] at nothing
    cases nothing
  | parses parser t _ waiting stepped builds ran =>
    apply runCommand_ready responds _ (outcome_ok.mp ran)
    intro nothing
    cases complete : parser.parseComplete with
    | false =>
      rw [buildCommand_of_incomplete complete] at builds
      cases builds
      exact complete
    | true =>
      have state := step_completes (ready.incomplete waiting) stepped complete
      have made : t.commandToExecute ≠ none := buildCommand_complete state complete builds
      exact absurd nothing made

theorem pass_none (waiting : s.commandToExecute = none) :
    settle (s.pass deliver rest) = (settle (s.parseCommand rest) >>= fill deliver) := by
  simp only [pass, waiting, Option.isNone_none, if_true]
  rw [settle_bind]
  cases settle (s.parseCommand rest) with
  | error i => rfl
  | ok t => exact settle_run t

omit [Storage Store] in
theorem parseCommand_last {parser : Parser} (parses : s.parser.parse (c :: rest) = (parser, .returned 1)) :
    s.parseCommand (c :: rest) =
      match ({ s.hand 1 with parser := parser } : Session Store).buildCommand with
      | (t, some reason) => .error ⟨t, c :: rest, reason, 0⟩
      | (t, none) => .ok ({ t with consumed := t.consumed + 1 }, rest) := by
  simp only [parseCommand, parses]
  rcases ({ s.hand 1 with parser := parser } : Session Store).buildCommand with ⟨t, _ | reason⟩
  · rfl
  · rfl

theorem feed_incomplete {parser : Parser} (waiting : s.commandToExecute = none)
    (stepped : s.parser.step c = .ok parser) (incomplete : parser.parseComplete = false) :
    s.feed deliver c = .ok (s.feedParser parser) := by
  have noCommand : ({ s.hand 1 with parser := parser } : Session Store).buildCommand =
      ({ s.hand 1 with parser := parser }, none) := buildCommand_of_incomplete incomplete
  have idle : runCommand deliver (s.feedParser parser) = (s.feedParser parser, none) :=
    runCommand_none waiting
  simp only [feed, waiting, stepped, noCommand]
  show outcome (runCommand deliver (s.feedParser parser)) = _
  rw [idle]
  rfl

/-- A pass either takes one byte only, or does to the rest what the connection
    does that has taken the first byte already. -/
theorem pass_cons (ready : s.Ready) :
    settle (s.pass deliver (c :: rest)) = (s.feed deliver c).map (·, rest) ∨
    (∃ s', s.feed deliver c = .ok s' ∧ rest ≠ [] ∧
      settle (s.pass deliver (c :: rest)) = settle (s'.pass deliver rest)) := by
  cases waiting : s.commandToExecute with
  | some command =>
    have missing := ready.waits command waiting
    have fed : s.feed deliver c = outcome ((s.feedArgument c).runCommand deliver) := by
      simp only [feed, waiting]
    rw [pass_some waiting]
    by_cases last : s.argRemains = 1 ∨ rest = []
    · left
      simp only [fill, fillArgument_last waiting missing last, fed]
    · right
      have notLast : 1 < s.argRemains ∧ rest ≠ [] := by
        simp only [not_or] at last
        exact ⟨by omega, last.2⟩
      have stillMissing : 0 < (s.feedArgument c).argRemains := Nat.sub_pos_of_lt notLast.1
      refine ⟨s.feedArgument c, ?_, notLast.2, ?_⟩
      · rw [fed, runCommand_missing stillMissing]
        rfl
      · have waitingStill : (s.feedArgument c).commandToExecute = some command := waiting
        rw [pass_some waitingStill]
        simp only [fill, fillArgument_cons waiting notLast.1]
  | none =>
    have incomplete := ready.incomplete waiting
    rw [pass_none waiting]
    cases stepped : s.parser.step c with
    | error error =>
      left
      simp only [parseCommand, parse_cons_error incomplete stepped, feed, waiting, stepped]
      rfl
    | ok parser =>
      have parses := @parse_cons_ok s.parser parser c rest incomplete stepped
      have fed : s.feed deliver c =
          match ({ s.hand 1 with parser := parser } : Session Store).buildCommand with
          | (t, some reason) => .error (t, reason)
          | (t, none) => outcome (runCommand deliver { t with consumed := t.consumed + 1 }) := by
        simp only [feed, waiting, stepped]
      cases complete : parser.parseComplete with
      | true =>
        -- the line ends here; its argument may begin in the same pass
        rw [parse_complete complete] at parses
        rw [parseCommand_last parses, fed]
        cases builds : ({ s.hand 1 with parser := parser } : Session Store).buildCommand with
        | mk t reason =>
          cases reason with
          | some reason => left; rfl
          | none =>
            have state := step_completes incomplete stepped complete
            have made : t.commandToExecute ≠ none := buildCommand_complete state complete builds
            obtain ⟨command, waits⟩ := Option.ne_none_iff_exists'.mp made
            simp only [settle_ok]
            generalize next : ({ t with consumed := t.consumed + 1 } : Session Store) = built
            have waitsNow : built.commandToExecute = some command := by rw [← next]; exact waits
            by_cases alone : built.argRemains = 0 ∨ rest = []
            · left
              have nothing : built.fillArgument rest = (built, rest) := by
                cases alone with
                | inl zero => exact fillArgument_zero zero
                | inr empty =>
                  rw [empty]
                  exact fillArgument_nil _
              exact fill_nothing nothing
            · right
              simp only [not_or] at alone
              have missing : 0 < built.argRemains := Nat.pos_of_ne_zero alone.1
              refine ⟨built, ?_, alone.2, ?_⟩
              · rw [runCommand_missing missing]
                rfl
              · rw [pass_some waitsNow]
                rfl
      | false =>
        have noCommand : ({ s.hand 1 with parser := parser } : Session Store).buildCommand =
            ({ s.hand 1 with parser := parser }, none) := buildCommand_of_incomplete complete
        have waitingStill : (s.feedParser parser).commandToExecute = none := waiting
        have idle : runCommand deliver (s.feedParser parser) = (s.feedParser parser, none) :=
          runCommand_none waitingStill
        have fedParser := @feed_incomplete Store _ deliver s c parser waiting stepped complete
        cases rest with
        | nil =>
          left
          rw [parseCommand_last parses, noCommand, fedParser]
          show fill deliver (s.feedParser parser, []) = _
          rw [fill_nothing (fillArgument_nil _), idle]
          rfl
        | cons d rest =>
          right
          refine ⟨s.feedParser parser, fedParser, List.cons_ne_nil d rest, ?_⟩
          rw [pass_none waitingStill, parseCommand_cons complete parses]

/-! ## Many bytes -/

theorem feedAll_cons (s : Session Store) (c : UInt8) (bytes : Bytes) :
    s.feedAll deliver (c :: bytes) = (s.feed deliver c >>= fun s' => s'.feedAll deliver bytes) :=
  List.foldlM_cons

theorem feedAll_append (s : Session Store) (left right : Bytes) :
    s.feedAll deliver (left ++ right) =
      (s.feedAll deliver left >>= fun s' => s'.feedAll deliver right) :=
  List.foldlM_append

theorem feedAll_ready (responds : Responds deliver) {bytes : Bytes} (ready : s.Ready)
    (fed : s.feedAll deliver bytes = .ok s') : s'.Ready := by
  induction bytes generalizing s with
  | nil => cases fed; exact ready
  | cons c bytes ih =>
    rw [feedAll_cons] at fed
    cases took : s.feed deliver c with
    | error e => rw [took] at fed; cases fed
    | ok t =>
      rw [took] at fed
      exact ih (feed_ready responds ready took) fed

/-- Draining a buffer takes its bytes one after another. -/
theorem settle_drain (responds : Responds deliver) {buffer : Bytes} {fuel : Nat} (ready : s.Ready)
    (enough : buffer.length ≤ fuel) :
    settle (drain deliver fuel s buffer) = s.feedAll deliver buffer := by
  induction buffer generalizing s fuel with
  | nil => simp only [drain, settle_ok]; rfl
  | cons c rest ih =>
    cases fuel with
    | zero => cases enough
    | succ fuel =>
      have enoughRest : rest.length ≤ fuel := Nat.le_of_succ_le_succ enough
      rw [feedAll_cons]
      simp only [drain]
      rw [settle_bind]
      cases pass_cons ready with
      | inl one =>
        rw [one]
        cases took : s.feed deliver c with
        | error e => rfl
        | ok s' => exact ih (feed_ready responds ready took) enoughRest
      | inr more =>
        obtain ⟨s', took, remains, same⟩ := more
        obtain ⟨d, rest', rfl⟩ := List.exists_cons_of_ne_nil remains
        rw [same, took]
        have next := ih (feed_ready responds ready took) (Nat.le_succ_of_le enoughRest)
        simp only [drain] at next
        rw [settle_bind] at next
        exact next

omit [Storage Store] in
theorem outcome_error {o : Session Store × Option Reason} {reason : Reason} :
    outcome o = .error (s', reason) ↔ o = (s', some reason) := by
  rcases o with ⟨t, _ | reason'⟩
  · constructor
    · intro same; cases same
    · intro same; cases same
  · constructor
    · intro same; cases same; rfl
    · intro same; cases same; rfl

/-- A delivery does not complain about the parser. -/
def Unstuck (deliver : Deliver Store) : Prop :=
  ∀ s response s', deliver s response ≠ (s', some .stuck)

theorem runCommand_unstuck (unstuck : Unstuck deliver) :
    s.runCommand deliver ≠ (s', some .stuck) := by
  intro ran
  have did := runCommand_ran deliver s
  rw [ran] at did
  cases did with
  | answers _ _ _ _ _ _ delivered => exact unstuck _ _ _ delivered

omit [Storage Store] in
theorem buildCommand_unstuck : s.buildCommand ≠ (s', some .stuck) := by
  intro built
  simp only [buildCommand] at built
  split at built
  · split at built <;> cases built
  · cases built

theorem feed_unstuck (unstuck : Unstuck deliver) : s.feed deliver c ≠ .error (s', .stuck) := by
  intro fed
  have did := feed_fed deliver s c
  rw [fed] at did
  cases did with
  | argument _ _ _ ran => exact runCommand_unstuck unstuck (outcome_error.mp ran)
  | rejects _ _ _ _ _ builds => exact buildCommand_unstuck builds
  | parses _ _ _ _ _ _ ran => exact runCommand_unstuck unstuck (outcome_error.mp ran)

theorem feedAll_unstuck (unstuck : Unstuck deliver) {bytes : Bytes} :
    s.feedAll deliver bytes ≠ .error (s', .stuck) := by
  intro fed
  induction bytes generalizing s with
  | nil => cases fed
  | cons c bytes ih =>
    rw [feedAll_cons] at fed
    cases took : s.feed deliver c with
    | error e =>
      rw [took] at fed
      cases fed
      exact feed_unstuck unstuck took
    | ok t =>
      rw [took] at fed
      exact ih fed

end Feed

end Session

end Afina.Network
