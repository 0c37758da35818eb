import TsSem02.Network.Framing

/-! # One connection after another

`OnRun` of `STblocking` uses one parser, one argument buffer, one pending command
and one `arg_remains` for all connections.  `Reset` leaves the parser's `negative`
alone, and nothing clears `arg_remains`; both are written before they are read.

* `plan_alike` — what the bytes of a connection ask for does not depend on what is
  left of the connections before it;
* `feedAll_replays` — a connection does what its bytes ask for, as far as the
  storage goes along;
* `same_stream_iff` — so two connections that receive the same bytes execute the
  same commands if and only if their storages fail alike.
-/

namespace Afina

open Protocol Execute

/-! ## Parsers that agree -/

namespace Protocol.Parser

/-- The sign of a time is about to be read or used. -/
def readsSign (parser : Parser) : Prop :=
  parser.state = .spExprTimeStart ∨ parser.state = .spExprTime

/-- The parsers differ in `negative` at most, and only where it is written before
    it is read. -/
inductive Alike (p : Parser) : Parser → Prop
  | same : Alike p p
  | sign (negative : Bool) : ¬ p.readsSign → Alike p { p with negative := negative }

theorem reset_alike (p q : Parser) : p.reset.Alike q.reset :=
  .sign q.negative (by simp [readsSign, reset])

inductive Steps : Except ParseError Parser → Except ParseError Parser → Prop
  | error (error : ParseError) : Steps (.error error) (.error error)
  | ok (p q : Parser) : p.Alike q → Steps (.ok p) (.ok q)

theorem step_alike {p q : Parser} (alike : p.Alike q) (c : UInt8) : Steps (p.step c) (q.step c) := by
  cases alike with
  | same =>
    cases p.step c with
    | error error => exact .error error
    | ok next => exact .ok next next .same
  | sign negative outside =>
    have kept : ∀ next : Parser, ¬ next.readsSign →
        Steps (.ok next) (.ok { next with negative := negative }) :=
      fun next outside => .ok _ _ (.sign negative outside)
    obtain ⟨state, name, keys, flags, exprtime, bytes, negative', curKey, parseComplete⟩ := p
    cases state with
    | spExprTimeStart => exact absurd (.inl rfl) outside
    | spExprTime => exact absurd (.inr rfl) outside
    | spFlags =>
      simp only [step]
      split
      · exact .ok _ _ .same  -- here the sign is set
      · split
        · split
          · exact .error _
          · exact kept _ (by simp [readsSign])
        · exact kept _ (by simp [readsSign])
    -- these states neither read nor write the sign, and lead to none that reads it
    | sCR | sLF | sName | spKey | sgKey | spBytes =>
      simp only [step]
      repeat' split
      all_goals first
        | exact .error _
        | exact kept _ (by simp [readsSign])

theorem build_alike {p q : Parser} (alike : p.Alike q) :
    q.build = p.build ∧ q.parseComplete = p.parseComplete := by
  cases alike <;> exact ⟨rfl, rfl⟩

end Protocol.Parser

namespace Network

open Parser Session

namespace Session

variable {Store Store' : Type}

/-! ## A byte, but for the storage -/

/-- Take a byte for the parser or for the argument. -/
def takeByte (s : Session Store) (c : UInt8) : Except (Session Store × Reason) (Session Store) :=
  match s.commandToExecute with
  | some _ => .ok (s.feedArgument c)
  | none =>
    match s.parser.step c with
    | .error error => .error (s.hand 1, .parse error)
    | .ok parser =>
      match ({ s.hand 1 with parser := parser } : Session Store).buildCommand with
      | (s, some reason) => .error (s, reason)
      | (s, none) => .ok { s with consumed := s.consumed + 1 }

/-- The command to be executed now, with its argument. -/
def due (s : Session Store) : Option (Command × Bytes) :=
  match s.commandToExecute with
  | none => none
  | some command => if s.argRemains = 0 then some (command, s.argumentForCommand) else none

section Storage

variable [Storage Store] {s : Session Store} {deliver : Deliver Store}

theorem feed_eq (s : Session Store) (c : UInt8) :
    s.feed deliver c = (s.takeByte c >>= fun t => outcome (t.runCommand deliver)) := by
  simp only [feed, takeByte]
  cases s.commandToExecute with
  | some command => rfl
  | none =>
    cases s.parser.step c with
    | error error => rfl
    | ok parser =>
      dsimp only
      cases ({ s.hand 1 with parser := parser } : Session Store).buildCommand with
      | mk t reason => cases reason <;> rfl

theorem runCommand_of_due_none (nothing : s.due = none) : s.runCommand deliver = (s, none) := by
  simp only [due] at nothing
  simp only [runCommand]
  cases waiting : s.commandToExecute with
  | none => rfl
  | some command =>
    rw [waiting] at nothing
    by_cases filled : s.argRemains = 0
    · simp [filled] at nothing
    · simp [filled]

theorem runCommand_of_due {command : Command} {argument : Bytes} (now : s.due = some (command, argument)) :
    s.runCommand deliver =
      match (command.execute argument).execute Storage.call s.storage with
      | .error fault => ({ s with executed := s.executed ++ [(command, argument)] }, some (.fault fault))
      | .ok (result, storage) =>
        deliver { s with executed := s.executed ++ [(command, argument)], storage := storage }
          (result ++ crlf) := by
  simp only [due] at now
  cases waiting : s.commandToExecute with
  | none =>
    rw [waiting] at now
    cases now
  | some command' =>
    rw [waiting] at now
    dsimp only at now
    by_cases filled : s.argRemains = 0
    · rw [if_pos filled] at now
      cases now
      unfold runCommand
      rewrite [waiting]
      dsimp only
      rewrite [if_pos filled]
      rfl
    · rw [if_neg filled] at now
      cases now

end Storage

/-! ## Sessions that agree -/

/-- What the sessions go by is the same; `arg_remains` only where there is a
    command. -/
structure Alike (s : Session Store) (t : Session Store') : Prop where
  parser : s.parser.Alike t.parser
  command : t.commandToExecute = s.commandToExecute
  remains : s.commandToExecute ≠ none → t.argRemains = s.argRemains
  argument : t.argumentForCommand = s.argumentForCommand
  sent : t.responses.length = s.responses.length
  consumed : t.consumed = s.consumed

inductive Admits : Except (Session Store × Reason) (Session Store) →
    Except (Session Store' × Reason) (Session Store') → Prop
  | error (s : Session Store) (t : Session Store') (reason : Reason) : t.consumed = s.consumed →
    Admits (.error (s, reason)) (.error (t, reason))
  | ok (s : Session Store) (t : Session Store') : Alike s t → Admits (.ok s) (.ok t)

section Alike

variable {s : Session Store} {t : Session Store'}

theorem start_alike (p q : Parser) (n m : Nat) (storage : Store) (storage' : Store') :
    Alike (Session.start p n storage) (Session.start q m storage') where
  parser := reset_alike p q
  command := rfl
  remains pending := absurd rfl pending
  argument := rfl
  sent := rfl
  consumed := rfl

theorem respond_alike (alike : Alike s t) (response response' : Bytes) :
    Alike (s.respond response) (t.respond response') where
  parser := reset_alike s.parser t.parser
  command := rfl
  remains pending := absurd rfl pending
  argument := rfl
  sent := by simp [respond, next, alike.sent]
  consumed := alike.consumed

theorem due_alike (alike : Alike s t) : t.due = s.due := by
  simp only [due, alike.command, alike.argument]
  cases waiting : s.commandToExecute with
  | none => rfl
  | some command =>
    have remains := alike.remains (by simp [waiting])
    simp only [remains]

/-- `Build` writes `arg_remains` whenever it makes a command. -/
theorem buildCommand_alike (alike : Alike s t) :
    (∃ reason, s.buildCommand.2 = some reason ∧ t.buildCommand.2 = some reason) ∨
      (s.buildCommand.2 = none ∧ t.buildCommand.2 = none ∧ Alike s.buildCommand.1 t.buildCommand.1) := by
  obtain ⟨parser, command, remains, argument, sent, consumed⟩ := alike
  obtain ⟨builds, complete⟩ := build_alike parser
  simp only [buildCommand, complete, builds]
  split
  · by_cases state : s.parser.state = .sLF
    · obtain ⟨built, same⟩ : ∃ built, s.parser.build = (some s.parser.bytes, built) := by
        exact ⟨_, by rw [build, if_neg (not_not_intro state)]⟩
      rw [same]
      cases built with
      | nothing =>
        exact .inr ⟨rfl, rfl, parser, rfl, fun pending => absurd rfl pending, argument, sent, consumed⟩
      | command new => exact .inr ⟨rfl, rfl, parser, rfl, fun _ => rfl, argument, sent, consumed⟩
      | threw error => exact .inl ⟨_, rfl, rfl⟩
      | undefined => exact .inl ⟨_, rfl, rfl⟩
    · rw [build, if_pos state]
      exact .inr ⟨rfl, rfl, parser, rfl, fun pending => absurd rfl pending, argument, sent, consumed⟩
  · exact .inr ⟨rfl, rfl, parser, command, remains, argument, sent, consumed⟩

theorem takeByte_alike (alike : Alike s t) (c : UInt8) : Admits (s.takeByte c) (t.takeByte c) := by
  simp only [takeByte, alike.command]
  cases waiting : s.commandToExecute with
  | some command =>
    have remains := alike.remains (by simp [waiting])
    refine .ok _ _ ⟨alike.parser, alike.command, fun _ => ?_, ?_, alike.sent, ?_⟩
    · simp only [feedArgument, remains]
    · simp only [feedArgument, alike.argument]
    · simp only [feedArgument, alike.consumed]
  | none =>
    have steps := step_alike alike.parser c
    generalize s.parser.step c = left at steps
    generalize t.parser.step c = right at steps
    cases steps with
    | error error => exact .error _ _ _ alike.consumed
    | ok p q parsers =>
      have inside : Alike ({ s.hand 1 with parser := p } : Session Store)
          ({ t.hand 1 with parser := q } : Session Store') :=
        ⟨parsers, alike.command, alike.remains, alike.argument, alike.sent, alike.consumed⟩
      have place := (buildCommand_keeps ({ s.hand 1 with parser := p } : Session Store)).consumed
      have place' := (buildCommand_keeps ({ t.hand 1 with parser := q } : Session Store')).consumed
      have builds := buildCommand_alike inside
      dsimp only
      generalize ({ s.hand 1 with parser := p } : Session Store).buildCommand = left at builds place
      generalize ({ t.hand 1 with parser := q } : Session Store').buildCommand = right at builds place'
      obtain ⟨u, reason⟩ := left
      obtain ⟨v, reason'⟩ := right
      rcases builds with ⟨reason, rfl, rfl⟩ | ⟨rfl, rfl, built⟩
      · exact .error _ _ _ (place'.trans (alike.consumed.trans place.symm))
      · refine .ok _ _ ⟨built.parser, built.command, built.remains, built.argument, built.sent, ?_⟩
        exact congrArg (· + 1) built.consumed

end Alike

end Session

namespace STblocking

variable {Store Store' : Type}

/-! ## What the bytes ask for -/

structure Due where
  command : Command
  argument : Bytes
  place : Nat  -- bytes of the stream up to there
  sent : Bool  -- whether its response can be sent
deriving DecidableEq, Repr

/-- The commands in the bytes, and what ends the connection besides the storage. -/
structure Plan where
  commands : List Due
  stop : Option (Reason × Nat)
deriving DecidableEq, Repr

def plan (sends : Nat → Bool) (s : Session Store) : Bytes → Plan
  | [] => ⟨[], none⟩
  | c :: bytes =>
    match s.takeByte c with
    | .error (t, reason) => ⟨[], some (reason, t.consumed)⟩
    | .ok t =>
      match t.due with
      | none => plan sends t bytes
      | some (command, argument) =>
        if sends t.responses.length then
          let later := plan sends (t.respond []) bytes
          ⟨⟨command, argument, t.consumed, true⟩ :: later.commands, later.stop⟩
        else ⟨[⟨command, argument, t.consumed, false⟩], some (.send, t.consumed)⟩

section Equations

variable {sends : Nat → Bool} {s t : Session Store} {c : UInt8} {bytes : Bytes}

theorem plan_of_error {reason : Reason} (admits : s.takeByte c = .error (t, reason)) :
    plan sends s (c :: bytes) = ⟨[], some (reason, t.consumed)⟩ := by
  rw [plan, admits]

theorem plan_of_none (admits : s.takeByte c = .ok t) (nothing : t.due = none) :
    plan sends s (c :: bytes) = plan sends t bytes := by
  rw [plan, admits]
  dsimp only
  rw [nothing]

theorem plan_of_sent {command : Command} {argument : Bytes} (admits : s.takeByte c = .ok t)
    (now : t.due = some (command, argument)) (sent : sends t.responses.length = true) :
    plan sends s (c :: bytes) =
      ⟨⟨command, argument, t.consumed, true⟩ :: (plan sends (t.respond []) bytes).commands,
        (plan sends (t.respond []) bytes).stop⟩ := by
  rw [plan, admits]
  dsimp only
  rw [now]
  dsimp only
  rw [if_pos sent]

theorem plan_of_unsent {command : Command} {argument : Bytes} (admits : s.takeByte c = .ok t)
    (now : t.due = some (command, argument)) (unsent : ¬ sends t.responses.length = true) :
    plan sends s (c :: bytes) =
      ⟨[⟨command, argument, t.consumed, false⟩], some (.send, t.consumed)⟩ := by
  rw [plan, admits]
  dsimp only
  rw [now]
  dsimp only
  rw [if_neg unsent]

end Equations

/-- What is left of the connections before it makes no difference to what the
    bytes of a connection ask for. -/
theorem plan_alike {s : Session Store} {t : Session Store'} (alike : Alike s t) (sends : Nat → Bool)
    (bytes : Bytes) : plan sends t bytes = plan sends s bytes := by
  induction bytes generalizing s t with
  | nil => rfl
  | cons c bytes ih =>
    have admits := takeByte_alike alike c
    simp only [plan]
    generalize s.takeByte c = left at admits
    generalize t.takeByte c = right at admits
    cases admits with
    | error u v reason place =>
      dsimp only
      rw [place]
    | ok u v inside =>
      dsimp only
      rw [due_alike inside, inside.sent, inside.consumed, ih (respond_alike inside [] []), ih inside]

/-! ## What the storage makes of it -/

/-- What a connection has done, and why it has ended, if it has. -/
structure Replayed (Store : Type) where
  executed : List (Command × Bytes)
  responses : List Bytes
  storage : Store
  stop : Option (Reason × Nat)

section Replay

variable [Storage Store]

def replay (stop : Option (Reason × Nat)) (storage : Store) : List Due → Replayed Store
  | [] => ⟨[], [], storage, stop⟩
  | due :: dues =>
    match (due.command.execute due.argument).execute Storage.call storage with
    | .error fault => ⟨[(due.command, due.argument)], [], storage, some (.fault fault, due.place)⟩
    | .ok (result, storage) =>
      let later := replay stop storage dues
      ⟨(due.command, due.argument) :: later.executed,
        if due.sent then (result ++ crlf) :: later.responses else later.responses,
        later.storage, later.stop⟩

def done : Except (Session Store × Reason) (Session Store) → Replayed Store
  | .ok s => ⟨s.executed, s.responses, s.storage, none⟩
  | .error (s, reason) => ⟨s.executed, s.responses, s.storage, some (reason, s.consumed)⟩

omit [Storage Store] in
/-- What has been done before comes first. -/
def Replayed.after (r : Replayed Store) (s : Session Store) : Replayed Store :=
  ⟨s.executed ++ r.executed, s.responses ++ r.responses, r.storage, r.stop⟩

theorem replay_error {stop : Option (Reason × Nat)} {storage : Store} {due : Due} {dues : List Due}
    {fault : Fault} (fails : (due.command.execute due.argument).execute Storage.call storage = .error fault) :
    replay stop storage (due :: dues) =
      ⟨[(due.command, due.argument)], [], storage, some (.fault fault, due.place)⟩ := by
  rw [replay, fails]

theorem replay_ok {stop : Option (Reason × Nat)} {storage after : Store} {due : Due} {dues : List Due}
    {result : Bytes}
    (executes : (due.command.execute due.argument).execute Storage.call storage = .ok (result, after)) :
    replay stop storage (due :: dues) =
      ⟨(due.command, due.argument) :: (replay stop after dues).executed,
        if due.sent then (result ++ crlf) :: (replay stop after dues).responses
          else (replay stop after dues).responses,
        (replay stop after dues).storage, (replay stop after dues).stop⟩ := by
  rw [replay, executes]

omit [Storage Store] in
theorem takeByte_keeps (s : Session Store) (c : UInt8) : (final (s.takeByte c)).storage = s.storage ∧
    (final (s.takeByte c)).executed = s.executed ∧ (final (s.takeByte c)).responses = s.responses := by
  simp only [takeByte]
  split
  · exact ⟨rfl, rfl, rfl⟩
  · split
    · exact ⟨rfl, rfl, rfl⟩
    · next parser stepped =>
      have kept := buildCommand_keeps ({ s.hand 1 with parser := parser } : Session Store)
      split
      · next builds =>
        rw [builds] at kept
        exact ⟨kept.storage, kept.executed, kept.responses⟩
      · next builds =>
        rw [builds] at kept
        exact ⟨kept.storage, kept.executed, kept.responses⟩

theorem feedAll_replays (sends : Nat → Bool) (s : Session Store) (bytes : Bytes) :
    done (s.feedAll (deliver sends) bytes) =
      (replay (plan sends s bytes).stop s.storage (plan sends s bytes).commands).after s := by
  induction bytes generalizing s with
  | nil =>
    show done (.ok s) = _
    simp [done, plan, replay, Replayed.after]
  | cons c bytes ih =>
    obtain ⟨storage, executed, responses⟩ := takeByte_keeps s c
    rw [feedAll_cons, feed_eq]
    cases admits : s.takeByte c with
    | error stopped =>
      obtain ⟨t, reason⟩ := stopped
      rw [admits] at storage executed responses
      show done (.error (t, reason)) = _
      rw [plan_of_error admits]
      simp only [done, replay, Replayed.after, List.append_nil]
      have executed : t.executed = s.executed := executed
      have responses : t.responses = s.responses := responses
      have storage : t.storage = s.storage := storage
      rw [executed, responses, storage]
    | ok t =>
      rw [admits] at storage executed responses
      have storage : t.storage = s.storage := storage
      have after : ∀ r : Replayed Store, r.after s = r.after t := by
        intro r
        rw [Replayed.after, ← executed, ← responses]
        rfl
      show done (outcome (t.runCommand (deliver sends)) >>= fun u => u.feedAll (deliver sends) bytes) = _
      rw [after, ← storage]
      cases now : t.due with
      | none =>
        rw [runCommand_of_due_none now, plan_of_none admits now]
        exact ih t
      | some due =>
        obtain ⟨command, argument⟩ := due
        rw [runCommand_of_due now]
        cases executes : (command.execute argument).execute Storage.call t.storage with
        | error fault =>
          -- the storage ends it all, whether or not the response could be sent
          by_cases sent : sends t.responses.length = true
          · rw [plan_of_sent admits now sent, replay_error executes, Replayed.after, List.append_nil]
            rfl
          · rw [plan_of_unsent admits now sent, replay_error executes, Replayed.after, List.append_nil]
            rfl
        | ok answer =>
          obtain ⟨result, storage'⟩ := answer
          by_cases sent : sends t.responses.length = true
          · rw [plan_of_sent admits now sent, replay_ok executes]
            have same : Alike t ({ t with
                executed := t.executed ++ [(command, argument)], storage := storage' } : Session Store) :=
              ⟨.same, rfl, fun _ => rfl, rfl, rfl, rfl⟩
            have alike := respond_alike same [] (result ++ crlf)
            have rest := ih (({ t with
                executed := t.executed ++ [(command, argument)], storage := storage' } :
                Session Store).respond (result ++ crlf))
            rw [plan_alike alike] at rest
            dsimp only [deliver]
            rw [if_pos sent]
            refine rest.trans ?_
            simp [Replayed.after, respond, next]
          · rw [plan_of_unsent admits now sent, replay_ok executes]
            dsimp only [deliver]
            rw [if_neg sent]
            simp [outcome, done, replay, Replayed.after]
            rfl

/-- The first command on which the storage runs into undefined behaviour. -/
def faultOf (storage : Store) : List (Command × Bytes) → Option (Nat × Fault)
  | [] => none
  | (command, argument) :: commands =>
    match (command.execute argument).execute Storage.call storage with
    | .error fault => some (0, fault)
    | .ok (_, storage) => (faultOf storage commands).map fun (i, fault) => (i + 1, fault)

def Due.request (due : Due) : Command × Bytes := (due.command, due.argument)

theorem replay_nil {stop : Option (Reason × Nat)} {storage : Store} {dues : List Due}
    (nothing : (replay stop storage dues).executed = []) : dues = [] := by
  cases dues with
  | nil => rfl
  | cons due dues =>
    simp only [replay] at nothing
    split at nothing <;> cases nothing

theorem replay_fails_alone {stop : Option (Reason × Nat)} {storage storage' after : Store} {due : Due}
    {dues : List Due} {fault : Fault} {result : Bytes}
    (notFault : ∀ fault place, stop ≠ some (.fault fault, place))
    (fails : (due.command.execute due.argument).execute Storage.call storage = .error fault)
    (executes : (due.command.execute due.argument).execute Storage.call storage' = .ok (result, after)) :
    ¬ ((replay stop storage (due :: dues)).executed = (replay stop storage' (due :: dues)).executed ∧
      (replay stop storage (due :: dues)).stop = (replay stop storage' (due :: dues)).stop) := by
  rw [replay_error fails, replay_ok executes]
  rintro ⟨executed, stops⟩
  obtain ⟨-, rest⟩ := List.cons.inj executed
  have last := replay_nil rest.symm
  subst last
  exact notFault fault due.place stops.symm

theorem faultOf_error {storage : Store} {due : Due} {dues : List Due} {fault : Fault}
    (fails : (due.command.execute due.argument).execute Storage.call storage = .error fault) :
    faultOf storage ((due :: dues).map Due.request) = some (0, fault) := by
  rw [List.map_cons, Due.request, faultOf, fails]

theorem faultOf_ok {storage after : Store} {due : Due} {dues : List Due} {result : Bytes}
    (executes : (due.command.execute due.argument).execute Storage.call storage = .ok (result, after)) :
    faultOf storage ((due :: dues).map Due.request) =
      (faultOf after (dues.map Due.request)).map fun (i, fault) => (i + 1, fault) := by
  rw [List.map_cons, Due.request, faultOf, executes]

/-- Two storages make the same of a stream if and only if they fail alike. -/
theorem replay_same_iff {stop : Option (Reason × Nat)}
    (notFault : ∀ fault place, stop ≠ some (.fault fault, place)) (storage storage' : Store)
    (dues : List Due) :
    ((replay stop storage dues).executed = (replay stop storage' dues).executed ∧
        (replay stop storage dues).stop = (replay stop storage' dues).stop) ↔
      faultOf storage (dues.map Due.request) = faultOf storage' (dues.map Due.request) := by
  have later : ∀ (fault : Fault) (there : Option (Nat × Fault)),
      some (0, fault) ≠ there.map fun (i, fault) => (i + 1, fault) := by
    intro fault there
    cases there <;> simp
  induction dues generalizing storage storage' with
  | nil => exact iff_of_true ⟨rfl, rfl⟩ rfl
  | cons due dues ih =>
    cases first : (due.command.execute due.argument).execute Storage.call storage with
    | error fault =>
      cases second : (due.command.execute due.argument).execute Storage.call storage' with
      | error fault' =>
        rw [replay_error first, replay_error second, faultOf_error first, faultOf_error second]
        simp
      | ok answer =>
        refine iff_of_false (replay_fails_alone notFault first second) ?_
        rw [faultOf_error first, faultOf_ok second]
        exact later fault _
    | ok answer =>
      cases second : (due.command.execute due.argument).execute Storage.call storage' with
      | error fault' =>
        refine iff_of_false (fun same => ?_) ?_
        · exact replay_fails_alone notFault second first ⟨same.1.symm, same.2.symm⟩
        · rw [faultOf_ok first, faultOf_error second]
          exact fun same => later fault' _ same.symm
      | ok answer' =>
        have shift : Function.Injective fun (p : Nat × Fault) => (p.1 + 1, p.2) := by
          rintro ⟨i, fault⟩ ⟨j, fault'⟩ same
          simpa using same
        rw [replay_ok first, replay_ok second, faultOf_ok first, faultOf_ok second]
        refine Iff.trans ?_ ((ih answer.2 answer'.2).trans (Option.map_injective shift).eq_iff.symm)
        simp

end Replay

section Keyed

variable {sends : Nat → Bool} {s t : Session Store} {c : UInt8} {reason : Reason}

theorem due_keyed (keyed : s.parser.Keyed) (admits : s.takeByte c = .ok t) : t.parser.Keyed := by
  simp only [takeByte] at admits
  split at admits
  · cases admits
    exact keyed
  · split at admits
    · cases admits
    · next parser stepped =>
      have kept := buildCommand_keeps ({ s.hand 1 with parser := parser } : Session Store)
      split at admits
      · cases admits
      · next u builds =>
        rw [builds] at kept
        cases admits
        have same : u.parser = parser := kept.parser
        rw [show ({ u with consumed := u.consumed + 1 } : Session Store).parser = u.parser from rfl, same]
        exact step_keyed keyed stepped

theorem takeByte_defined (keyed : s.parser.Keyed) (admits : s.takeByte c = .error (t, reason)) (fault : Fault) :
    reason ≠ .fault fault := by
  rintro rfl
  simp only [takeByte] at admits
  split at admits
  · cases admits
  · split at admits
    · cases admits
    · next parser stepped =>
      have defined := build_defined (step_keyed keyed stepped)
      split at admits
      · next u reason builds =>
        cases admits
        simp only [buildCommand] at builds
        split at builds
        · split at builds
          · cases builds
          · cases builds
          · cases builds
          · next undefined => exact defined undefined
        · cases builds
      · cases admits

theorem plan_stop (keyed : s.parser.Keyed) (bytes : Bytes) (fault : Fault) (place : Nat) :
    (plan sends s bytes).stop ≠ some (.fault fault, place) := by
  induction bytes generalizing s with
  | nil => exact nofun
  | cons c bytes ih =>
    cases admits : s.takeByte c with
    | error stopped =>
      obtain ⟨t, reason⟩ := stopped
      rw [plan_of_error admits]
      intro stops
      cases stops
      exact takeByte_defined keyed admits fault rfl
    | ok t =>
      have keyed := due_keyed keyed admits
      cases now : t.due with
      | none =>
        rw [plan_of_none admits now]
        exact ih keyed
      | some due =>
        by_cases sent : sends t.responses.length = true
        · rw [plan_of_sent admits now sent]
          exact ih (reset_keyed t.parser)
        · rw [plan_of_unsent admits now sent]
          exact nofun

end Keyed

/-! ## The server -/

structure Client where
  sends : Nat → Bool
  reads : List Read
  closes : Bool

/-- What one connection leaves to the next one. -/
structure Server (Store : Type) where
  parser : Parser
  argRemains : Nat
  storage : Store

section Serving

variable [Storage Store]

def serve (server : Server Store) (client : Client) : Served Store :=
  onRun client.sends server.parser server.argRemains server.storage client.reads client.closes

/-- The server after some connections. -/
def serveAll (server : Server Store) (clients : List Client) : Server Store :=
  clients.foldl (fun server client =>
    let served := serve server client
    ⟨served.parser, served.argRemains, served.storage⟩) server

/-- What the bytes of a client ask a server for, be it as it may. -/
def Client.plan (client : Client) : Plan :=
  STblocking.plan client.sends (Session.start ⟨.sName, [], [], 0, 0, 0, false, [], false⟩ 0 ())
    (received client.reads)

/-- The commands in the bytes of a client, with their arguments. -/
def Client.requests (client : Client) : List (Command × Bytes) := client.plan.commands.map Due.request

def Client.replayed (client : Client) (storage : Store) : Replayed Store :=
  replay client.plan.stop storage client.plan.commands

/-- How a connection ends, if its session has been stopped so. -/
def endOf (closes : Bool) : Option (Reason × Nat) → Ended
  | none => if closes then .closed else .readFailed
  | some (reason, byte) => .failed reason byte

omit [Storage Store] in
theorem endOf_inj {closes : Bool} {left right : Option (Reason × Nat)} :
    endOf closes left = endOf closes right ↔ left = right := by
  constructor
  · intro same
    cases left <;> cases right <;> cases closes <;> simp_all [endOf, Prod.ext_iff]
  · rintro rfl
    rfl

omit [Storage Store] in
theorem outcomeOf_eq (closes : Bool) (result : Except (Session Store × Reason) (Session Store)) :
    (outcomeOf closes result).executed = (done result).executed ∧
      (outcomeOf closes result).responses = (done result).responses ∧
      (outcomeOf closes result).ended = endOf closes (done result).stop := by
  cases result <;> exact ⟨rfl, rfl, rfl⟩

/-- A connection is what its bytes ask for, replayed on the storage that it finds. -/
theorem serve_eq (server : Server Store) (client : Client) :
    (serve server client).executed = (client.replayed server.storage).executed ∧
      (serve server client).responses = (client.replayed server.storage).responses ∧
      (serve server client).ended = endOf client.closes (client.replayed server.storage).stop := by
  have same : plan client.sends (Session.start server.parser server.argRemains server.storage)
      (received client.reads) = client.plan :=
    plan_alike (start_alike _ _ _ _ _ _) client.sends (received client.reads)
  have replays : done ((Session.start server.parser server.argRemains server.storage).feedAll
      (deliver client.sends) (received client.reads)) = client.replayed server.storage := by
    rw [feedAll_replays, same]
    rfl
  rw [← replays, serve, onRun_eq]
  exact outcomeOf_eq client.closes _

/-- The next connection executes the same commands and ends in the same way,
    whatever has come before it, exactly when its commands run into the same
    undefined behaviour of the storage, or none; on equal storages it gets the same
    responses, too. -/
theorem same_stream_iff (server : Server Store) (earlier earlier' : List Client) (client : Client) :
    (((serve (serveAll server earlier) client).executed = (serve (serveAll server earlier') client).executed ∧
        (serve (serveAll server earlier) client).ended = (serve (serveAll server earlier') client).ended) ↔
      faultOf (serveAll server earlier).storage client.requests =
        faultOf (serveAll server earlier').storage client.requests) ∧
    ((serveAll server earlier).storage = (serveAll server earlier').storage →
      (serve (serveAll server earlier) client).responses =
        (serve (serveAll server earlier') client).responses) := by
  obtain ⟨executed, responses, ended⟩ := serve_eq (serveAll server earlier) client
  obtain ⟨executed', responses', ended'⟩ := serve_eq (serveAll server earlier') client
  have notFault : ∀ fault place, client.plan.stop ≠ some (.fault fault, place) :=
    plan_stop (reset_keyed _) (received client.reads)
  rw [executed, executed', ended, ended', endOf_inj, responses, responses']
  exact ⟨replay_same_iff notFault _ _ _, fun same => by rw [same]⟩

/-- A connection after one that was cut off inside a command line, and after none. -/
theorem same_stream_cut :
    (((serve (serveAll ⟨⟨.sName, [], [], 0, 0, 0, true, [], false⟩, 7, Backend.SimpleLRU.fresh 1024⟩
          [⟨fun _ => true, [⟨ascii "set k 0 -", by decide⟩], true⟩])
        ⟨fun _ => true, [⟨ascii "get k\r\n", by decide⟩], true⟩).responses =
      (serve (serveAll ⟨⟨.sName, [], [], 0, 0, 0, true, [], false⟩, 7, Backend.SimpleLRU.fresh 1024⟩ [])
        ⟨fun _ => true, [⟨ascii "get k\r\n", by decide⟩], true⟩).responses)) :=
  (same_stream_iff _ _ _ _).2 rfl

/-- A value is replaced by a shorter one that another connection has stored. -/
theorem not_same_stream_shorter : ¬ ∀ (earlier earlier' : List Client) (client : Client),
    (serve (serveAll ⟨⟨.sName, [], [], 0, 0, 0, false, [], false⟩, 0, Backend.SimpleLRU.fresh 1024⟩
        earlier) client).executed =
      (serve (serveAll ⟨⟨.sName, [], [], 0, 0, 0, false, [], false⟩, 0, Backend.SimpleLRU.fresh 1024⟩
        earlier') client).executed ∧
    (serve (serveAll ⟨⟨.sName, [], [], 0, 0, 0, false, [], false⟩, 0, Backend.SimpleLRU.fresh 1024⟩
        earlier) client).ended =
      (serve (serveAll ⟨⟨.sName, [], [], 0, 0, 0, false, [], false⟩, 0, Backend.SimpleLRU.fresh 1024⟩
        earlier') client).ended := by
  intro always
  obtain ⟨executed, -⟩ := always [⟨fun _ => true, [⟨ascii "set k 0 0 2\r\nab\r\n", by decide⟩], true⟩] []
    ⟨fun _ => true, [⟨ascii "set k 0 0 1\r\na\r\nget k\r\n", by decide⟩], true⟩
  exact absurd (congrArg List.length executed) (by decide +kernel)

end Serving

end STblocking

end Network

end Afina
