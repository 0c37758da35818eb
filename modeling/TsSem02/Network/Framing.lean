import TsSem02.Network.STblocking
import TsSem02.Protocol.Encoding

/-! # Request framing

A connection that is idle takes the bytes of a request for that request, runs
its command and is idle again (`feedAll_request`), unless the data block is
empty: the line break behind an empty block is left for the next line.
-/

namespace Afina.Network

open Protocol Execute Parser

namespace Session

variable {Store : Type}

def parsing (s : Session Store) (n : Nat) (parser : Parser) : Session Store :=
  { s.hand n with parser := parser, consumed := s.consumed + n }

def commanded (s : Session Store) (n : Nat) (parser : Parser) (command : Command) (size : Nat) :
    Session Store :=
  { s.parsing n parser with
    commandToExecute := some command
    argRemains := if size > 0 then size + 2 else size }

def argued (s : Session Store) (bytes : Bytes) : Session Store :=
  { s.hand bytes.length with
    argumentForCommand := s.argumentForCommand ++ bytes
    argRemains := s.argRemains - bytes.length
    consumed := s.consumed + bytes.length }

/-- The next byte is the first one of a line. -/
structure Idle (s : Session Store) : Prop where
  command : s.commandToExecute = none
  argument : s.argumentForCommand = []
  parser : s.parser.reset = s.parser

theorem respond_idle (s : Session Store) (response : Bytes) : (s.respond response).Idle :=
  ⟨rfl, rfl, rfl⟩

theorem start_idle (parser : Parser) (argRemains : Nat) (storage : Store) :
    (Session.start parser argRemains storage).Idle :=
  ⟨rfl, rfl, rfl⟩

theorem Idle.ready {s : Session Store} (idle : s.Idle) : s.Ready where
  incomplete _ := by rw [← idle.parser]; rfl
  waits _ same := by rw [idle.command] at same; cases same

theorem Idle.keyed {s : Session Store} (idle : s.Idle) : s.parser.Keyed := by
  rw [← idle.parser]
  exact reset_keyed s.parser

variable [Storage Store]

/-! ## Lines and arguments -/

section Bytes

variable {deliver : Deliver Store} {s : Session Store} {parser : Parser} {command : Command}
  {input bytes rest : Bytes} {size : Nat}

theorem feedAll_cons_of_ok {c : UInt8} {s' : Session Store} (fed : s.feed deliver c = .ok s') :
    s.feedAll deliver (c :: rest) = s'.feedAll deliver rest := by
  rw [feedAll_cons, fed]
  rfl

theorem feedAll_singleton (s : Session Store) (c : UInt8) : s.feedAll deliver [c] = s.feed deliver c := by
  rw [feedAll_cons]
  cases s.feed deliver c <;> rfl

omit [Storage Store] in
theorem argued_argued (s : Session Store) (left right : Bytes) :
    (s.argued left).argued right = s.argued (left ++ right) := by
  simp only [argued, hand, List.length_append, List.append_assoc, List.range'_append_1, Nat.add_assoc,
    Nat.sub_sub]

theorem feedAll_parsing (waiting : s.commandToExecute = none) (ran : s.parser.steps input = .ok parser)
    (incomplete : parser.parseComplete = false) :
    s.feedAll deliver input = .ok (s.parsing input.length parser) := by
  induction input generalizing s with
  | nil =>
    cases ran
    show Except.ok s = _
    simp [parsing, hand]
  | cons c input ih =>
    obtain ⟨next, stepped, ranRest⟩ := steps_cons_ok.mp ran
    have incompleteNext : next.parseComplete = false := by
      cases complete : next.parseComplete with
      | false => rfl
      | true => rw [steps_complete complete ranRest] at incomplete; cases incomplete
    rw [feedAll_cons_of_ok (feed_incomplete waiting stepped incompleteNext)]
    have rest := @ih (s.feedParser next) waiting ranRest
    rw [rest]
    simp only [parsing, feedParser, hand, List.length_cons, hand_succ s input.length]
    rw [Nat.add_assoc, Nat.add_comm 1]

theorem feedAll_line (waiting : s.commandToExecute = none) (ran : s.parser.steps input = .ok parser)
    (state : parser.state = .sLF) (incomplete : parser.parseComplete = false)
    (builds : parser.build = (some size, .command command)) :
    s.feedAll deliver (input ++ [lf]) = outcome (runCommand deliver
      (s.commanded (input.length + 1) { parser with parseComplete := true } command size)) := by
  have stepped : (s.parsing input.length parser).parser.step lf =
      .ok { parser with parseComplete := true } := by
    show parser.step lf = _
    rw [step_sLF state, if_pos rfl]
  have waitingStill : (s.parsing input.length parser).commandToExecute = none := waiting
  have built : ({ (s.parsing input.length parser).hand 1 with
      parser := { parser with parseComplete := true } } : Session Store).buildCommand =
      ({ s.commanded (input.length + 1) { parser with parseComplete := true } command size with
          consumed := s.consumed + input.length }, none) := by
    have buildsNow : Parser.build { parser with parseComplete := true } =
      (some size, .command command) := builds
    simp only [buildCommand, if_true, buildsNow, commanded, parsing, hand, List.append_assoc,
      List.range'_append_1]
    rfl
  rw [feedAll_append, feedAll_parsing waiting ran incomplete]
  show feedAll deliver (s.parsing input.length parser) [lf] = _
  rw [feedAll_singleton]
  simp only [feed, waitingStill, stepped, built]
  rfl

theorem feedAll_arguing (waiting : s.commandToExecute = some command)
    (missing : bytes.length < s.argRemains) : s.feedAll deliver bytes = .ok (s.argued bytes) := by
  induction bytes generalizing s with
  | nil =>
    show Except.ok s = _
    simp [argued, hand]
  | cons c bytes ih =>
    have missingStill : 0 < (s.feedArgument c).argRemains := by
      show 0 < s.argRemains - 1
      rw [List.length_cons] at missing
      omega
    have fed : s.feed deliver c = .ok (s.feedArgument c) := by
      simp only [feed, waiting]
      rw [runCommand_missing missingStill]
      rfl
    have shorter : bytes.length < (s.feedArgument c).argRemains := Nat.lt_sub_of_add_lt missing
    have rest := @ih (s.feedArgument c) waiting shorter
    rw [feedAll_cons_of_ok fed, rest, show s.feedArgument c = s.argued [c] from rfl, argued_argued]
    rfl

theorem feedAll_argument (waiting : s.commandToExecute = some command)
    (exact : bytes.length = s.argRemains) (nonempty : bytes ≠ []) :
    s.feedAll deliver bytes = outcome (runCommand deliver (s.argued bytes)) := by
  obtain ⟨front, last, rfl⟩ : ∃ front last, bytes = front ++ [last] :=
    ⟨_, _, (List.dropLast_append_getLast nonempty).symm⟩
  rw [List.length_append, List.length_singleton] at exact
  have waitingStill : (s.argued front).commandToExecute = some command := waiting
  rw [feedAll_append, feedAll_arguing waiting (by omega)]
  show feedAll deliver (s.argued front) [last] = _
  rw [feedAll_singleton]
  simp only [feed, waitingStill]
  rw [show (s.argued front).feedArgument last = (s.argued front).argued [last] from rfl, argued_argued]

end Bytes

/-! ## Requests -/

abbrev always : Deliver Store := STblocking.deliver fun _ => true

/-- `n` bytes were a command with its argument: it was executed and answered, or
    its execution is undefined. -/
inductive Answers (s : Session Store) (command : Command) (args : Bytes) (n : Nat) :
    Except (Session Store × Reason) (Session Store) → Prop
  | faulted (t : Session Store) (fault : Fault) :
      (command.execute args).execute Storage.call s.storage = .error fault →
      t.executed = s.executed ++ [(command, args)] → t.responses = s.responses →
      Answers s command args n (.error (t, .fault fault))
  | answered (t : Session Store) (result : Bytes) :
      (command.execute args).execute Storage.call s.storage = .ok (result, t.storage) → t.Idle →
      t.executed = s.executed ++ [(command, args)] → t.responses = s.responses ++ [result ++ crlf] →
      t.consumed = s.consumed + n → Answers s command args n (.ok t)

section Requests

variable {s t : Session Store} {command : Command} {request : Request} {args : Bytes} {n : Nat}

theorem runCommand_answers (waiting : t.commandToExecute = some command) (filled : t.argRemains = 0)
    (argument : t.argumentForCommand = args) (storage : t.storage = s.storage)
    (executed : t.executed = s.executed) (responses : t.responses = s.responses)
    (consumed : t.consumed = s.consumed + n) :
    Answers s command args n (outcome (runCommand always t)) := by
  simp only [runCommand, waiting, filled, if_true, argument]
  cases ran : (command.execute args).execute Storage.call t.storage with
  | error fault =>
    rw [storage] at ran
    exact .faulted _ fault ran (by simp only [executed]) responses
  | ok answer =>
    obtain ⟨result, store⟩ := answer
    rw [storage] at ran
    exact .answered _ result ran (respond_idle _ _) (by simp only [respond, next, executed])
      (by simp only [respond, next, responses]) consumed

theorem feedAll_answers (idle : s.Idle) (wellFormed : request.WellFormed) (readable : request.Readable)
    (exact : args.length = request.awaited) :
    Answers s request.parsed args (request.body.length + 1 + args.length)
      (s.feedAll always (request.body ++ lf :: args)) := by
  obtain ⟨parser, ran, state, incomplete, builds⟩ :=
    @Request.gathered s.parser request wellFormed readable
  rw [idle.parser] at ran
  have line := @feedAll_line Store _ always s parser request.parsed request.body request.announced
    idle.command ran state incomplete builds
  generalize ready : s.commanded (request.body.length + 1) { parser with parseComplete := true }
    request.parsed request.announced = t at line
  have waiting : t.commandToExecute = some request.parsed := by rw [← ready]; rfl
  have argument : t.argumentForCommand = [] := by rw [← ready]; exact idle.argument
  have remains : args.length = t.argRemains := by rw [exact, ← ready]; rfl
  have storage : t.storage = s.storage := by rw [← ready]; rfl
  have executed : t.executed = s.executed := by rw [← ready]; rfl
  have responses : t.responses = s.responses := by rw [← ready]; rfl
  have consumed : t.consumed = s.consumed + (request.body.length + 1) := by rw [← ready]; rfl
  rw [List.append_cons, feedAll_append, line]
  cases args with
  | nil =>
    have answers := runCommand_answers waiting remains.symm argument storage executed responses consumed
    cases ran : outcome (runCommand always t) with
    | error e => rw [ran] at answers; exact answers
    | ok s' => rw [ran] at answers; exact answers
  | cons c args =>
    have missing : 0 < t.argRemains := by rw [← remains]; exact Nat.succ_pos _
    rw [runCommand_missing missing]
    show Answers _ _ _ _ (t.feedAll always (c :: args))
    rw [feedAll_argument waiting remains (List.cons_ne_nil c args)]
    have filled : (t.argued (c :: args)).argRemains = 0 := by
      show t.argRemains - (c :: args).length = 0
      omega
    have consumedAll : (t.argued (c :: args)).consumed =
        s.consumed + (request.body.length + 1 + (c :: args).length) := by
      show t.consumed + (c :: args).length = _
      omega
    have argumentAll : (t.argued (c :: args)).argumentForCommand = c :: args := by
      show t.argumentForCommand ++ (c :: args) = _
      rw [argument]
      rfl
    exact runCommand_answers waiting filled argumentAll storage executed responses consumedAll

end Requests

/-! ## Errors -/

section Errors

theorem feedAll_raises {s : Session Store} {input : Bytes}
    {error : ParseError} (rest : Bytes) (waiting : s.commandToExecute = none)
    (incomplete : s.parser.parseComplete = false) (noLf : lf ∉ input)
    (ran : s.parser.steps input = .error error) :
    ∃ t, s.feedAll always (input ++ rest) = .error (t, .parse error) ∧ t.responses = s.responses := by
  induction input generalizing s with
  | nil => cases ran
  | cons c input ih =>
    obtain ⟨other, noLf⟩ := List.ne_and_not_mem_of_not_mem_cons noLf
    rw [List.cons_append, feedAll_cons]
    cases stepped : s.parser.step c with
    | error e =>
      rw [steps_cons, stepped] at ran
      cases ran
      refine ⟨s.hand 1, ?_, rfl⟩
      simp only [feed, waiting, stepped]
      rfl
    | ok next =>
      rw [step_then stepped] at ran
      have incompleteNext : next.parseComplete = false := by
        by_cases state : s.parser.state = .sLF
        · rw [step_sLF state, if_neg (Ne.symm other)] at stepped
          cases stepped
        · rw [step_incomplete state stepped, incomplete]
      rw [feed_incomplete waiting stepped incompleteNext]
      exact @ih (s.feedParser next) waiting incompleteNext noLf ran

/-- The line break of an empty block is taken for a command line. -/
theorem feedAll_crlf {s : Session Store} (idle : s.Idle) (rest : Bytes) :
    ∃ t, s.feedAll always (crlf ++ rest) = .error (t, .parse (.unknownCommandName [])) ∧
      t.responses = s.responses := by
  have raises : s.parser.steps [cr] = .error (.unknownCommandName []) := by
    rw [← idle.parser]
    rfl
  rw [crlf_eq]
  exact feedAll_raises (lf :: rest) idle.command (idle.ready.incomplete idle.command) (by decide) raises

end Errors

/-! ## Progress -/

section Progress

variable {s t : Session Store} {c : UInt8} {bytes : Bytes}

theorem outcome_progress (ran : outcome (runCommand always s) = .ok t)
    (waits : s.commandToExecute = none → s.parser.reset ≠ s.parser) :
    s.executed.length ≤ t.executed.length ∧ (t.Idle → s.executed.length < t.executed.length) := by
  have did := runCommand_ran always s
  rw [outcome_ok.mp ran] at did
  cases did with
  | waits => exact ⟨Nat.le_refl _, fun idle => absurd idle.parser (waits idle.command)⟩
  | answers _ _ _ _ _ _ delivered =>
    cases delivered
    simp only [respond, next, List.length_append, List.length_singleton]
    exact ⟨Nat.le_succ _, fun _ => Nat.lt_succ_self _⟩

theorem feed_progress (fed : s.feed always c = .ok t) :
    s.executed.length ≤ t.executed.length ∧ (t.Idle → s.executed.length < t.executed.length) := by
  have did := feed_fed always s c
  rw [fed] at did
  cases did with
  | argument command _ waiting ran =>
    apply outcome_progress ran
    intro nothing
    rw [show (s.feedArgument c).commandToExecute = s.commandToExecute from rfl, waiting] at nothing
    cases nothing
  | parses parser s' _ _ stepped builds ran =>
    have kept := BuildKeeps.of_eq builds
    have sameExecuted : s'.executed = s.executed := kept.executed
    have sameParser : s'.parser = parser := kept.parser
    rw [← sameExecuted]
    apply outcome_progress ran
    intro _
    show s'.parser.reset ≠ s'.parser
    rw [sameParser]
    exact step_leaves_start stepped

theorem feedAll_progress (fed : s.feedAll always bytes = .ok t) :
    s.executed.length ≤ t.executed.length ∧
      (t.Idle → bytes ≠ [] → s.executed.length < t.executed.length) := by
  induction bytes generalizing s with
  | nil => cases fed; exact ⟨Nat.le_refl _, fun _ nonempty => absurd rfl nonempty⟩
  | cons c bytes ih =>
    rw [feedAll_cons] at fed
    cases took : s.feed always c with
    | error e => rw [took] at fed; cases fed
    | ok s' =>
      rw [took] at fed
      have one := feed_progress took
      have rest := ih fed
      refine ⟨Nat.le_trans one.1 rest.1, fun idle _ => ?_⟩
      cases bytes with
      | nil =>
        cases fed
        exact one.2 idle
      | cons d bytes => exact Nat.lt_of_le_of_lt one.1 (rest.2 idle (List.cons_ne_nil d bytes))

def final : Except (Session Store × Reason) (Session Store) → Session Store
  | .ok s => s
  | .error (s, _) => s

/-- What has been executed and answered stays so. -/
structure Grows (s t : Session Store) : Prop where
  executed : s.executed <+: t.executed
  responses : s.responses <+: t.responses

omit [Storage Store] in
theorem Grows.trans {u : Session Store} (first : Grows s t) (second : Grows t u) : Grows s u :=
  ⟨first.executed.trans second.executed, first.responses.trans second.responses⟩

theorem outcome_grows (s : Session Store) : Grows s (final (outcome (runCommand always s))) := by
  have did := runCommand_ran always s
  generalize runCommand always s = ran at did ⊢
  cases did with
  | waits => exact ⟨List.prefix_refl _, List.prefix_refl _⟩
  | faults => exact ⟨List.prefix_append _ _, List.prefix_refl _⟩
  | answers _ _ _ _ _ _ delivered =>
    rw [← delivered]
    exact ⟨List.prefix_append _ _, List.prefix_append _ _⟩

theorem feed_grows (s : Session Store) (c : UInt8) : Grows s (final (s.feed always c)) := by
  have did := feed_fed always s c
  generalize s.feed always c = result at did ⊢
  cases did with
  | argument _ _ _ ran =>
    have grows := outcome_grows (s.feedArgument c)
    rw [ran] at grows
    exact ⟨grows.executed, grows.responses⟩
  | throws => exact ⟨List.prefix_refl _, List.prefix_refl _⟩
  | rejects parser t reason _ _ builds =>
    have kept := BuildKeeps.of_eq builds
    show Grows s t
    exact ⟨by rw [kept.executed]; exact List.prefix_refl _, by rw [kept.responses]; exact List.prefix_refl _⟩
  | parses parser t _ _ _ builds ran =>
    have kept := BuildKeeps.of_eq builds
    have same : Grows s { t with consumed := t.consumed + 1 } :=
      ⟨by rw [kept.executed]; exact List.prefix_refl _, by rw [kept.responses]; exact List.prefix_refl _⟩
    rw [← ran]
    exact same.trans (outcome_grows _)

theorem feedAll_grows (s : Session Store) (bytes : Bytes) : Grows s (final (s.feedAll always bytes)) := by
  induction bytes generalizing s with
  | nil => exact ⟨List.prefix_refl _, List.prefix_refl _⟩
  | cons c bytes ih =>
    have one := feed_grows s c
    rw [feedAll_cons]
    cases took : s.feed always c with
    | error e => rw [took] at one; exact one
    | ok t =>
      rw [took] at one
      exact one.trans (ih t)

theorem outcome_keyed (keyed : s.parser.Keyed) (ran : outcome (runCommand always s) = .ok t) :
    t.parser.Keyed := by
  have did := runCommand_ran always s
  rw [outcome_ok.mp ran] at did
  cases did with
  | waits => exact keyed
  | answers _ _ _ _ _ _ delivered =>
    cases delivered
    exact reset_keyed s.parser

theorem feed_keyed (keyed : s.parser.Keyed) (fed : s.feed always c = .ok t) : t.parser.Keyed := by
  have did := feed_fed always s c
  rw [fed] at did
  cases did with
  | argument _ _ _ ran => exact outcome_keyed (s := s.feedArgument c) keyed ran
  | parses parser s' _ _ stepped builds ran =>
    have sameParser : s'.parser = parser := (BuildKeeps.of_eq builds).parser
    apply outcome_keyed (s := { s' with consumed := s'.consumed + 1 }) _ ran
    rw [sameParser]
    exact step_keyed keyed stepped

theorem feed_fault {fault : Fault} (keyed : s.parser.Keyed) (fed : s.feed always c = .error (t, .fault fault)) :
    ∃ (program : StorageProgram) (storage : Store), program.execute Storage.call storage = .error fault := by
  have run : ∀ u, outcome (runCommand always u) = .error (t, .fault fault) →
      ∃ (program : StorageProgram) (storage : Store), program.execute Storage.call storage = .error fault := by
    intro u ran
    have did := runCommand_ran always u
    rw [outcome_error.mp ran] at did
    cases did with
    | faults _ _ _ failed => exact ⟨_, _, failed⟩
    | answers _ _ _ _ _ _ delivered => cases delivered
  have did := feed_fed always s c
  rw [fed] at did
  cases did with
  | argument _ _ _ ran => exact run _ ran
  | parses _ _ _ _ _ _ ran => exact run _ ran
  | rejects parser _ _ _ stepped builds =>
    have defined := build_defined (step_keyed keyed stepped)
    simp only [buildCommand] at builds
    split at builds
    · split at builds
      · cases builds
      · cases builds
      · cases builds
      · next undefined => exact absurd undefined defined
    · cases builds

theorem feedAll_fault {fault : Fault} (keyed : s.parser.Keyed)
    (fed : s.feedAll always bytes = .error (t, .fault fault)) :
    ∃ (program : StorageProgram) (storage : Store), program.execute Storage.call storage = .error fault := by
  induction bytes generalizing s with
  | nil => cases fed
  | cons c bytes ih =>
    rw [feedAll_cons] at fed
    cases took : s.feed always c with
    | error e =>
      rw [took] at fed
      cases fed
      exact feed_fault keyed took
    | ok s' =>
      rw [took] at fed
      exact ih (feed_keyed keyed took) fed

end Progress

end Session

/-! ## Framing -/

open Session

def encodeAll (requests : List Request) : Bytes := requests.flatMap Request.encode

/-- What was executed is the command of the request, as far as `view` looks, and
    its argument comes out of the data of the request. -/
def Executes (view : Command → Command) (request : Request) (done : Command × Bytes) : Prop :=
  view done.1 = view request.command ∧ done.2 <:+: request.data

/-- Any connection that has received some of the requests, in any reads, has
    executed just these, and waits for the next request; or a command of theirs
    ran into undefined behaviour. -/
def Frames (view : Command → Command) (requests : List Request) : Prop :=
  ∀ (Store : Type) [Storage Store] (parser : Parser) (argRemains : Nat) (storage : Store) (n : Nat)
    (reads : List Read), received reads = encodeAll (requests.take n) →
    match STblocking.receive (fun _ => true) (Session.start parser argRemains storage) reads with
    | .ok s => List.Forall₂ (Executes view) (requests.take n) s.executed ∧ s.Idle ∧
        s.consumed = (encodeAll (requests.take n)).length
    | .error i => (∃ fault, i.reason = .fault fault) ∧
        ∃ before, before <+: requests.take n ∧ List.Forall₂ (Executes view) before i.session.executed

/-- The data block is not empty, and its length is a number of 32 bits. -/
def Framable : Request → Prop
  | .storage _ _ block => block ≠ [] ∧ block.length < 2 ^ 32
  | _ => True

def OneDigit : Request → Prop
  | .storage _ fields _ => -9 ≤ fields.expire ∧ fields.expire ≤ 9
  | _ => True

/-- A command without its expiration time, which no command looks at. -/
def timeless : Command → Command
  | .set command => .set { command with expire := 0 }
  | .add command => .add { command with expire := 0 }
  | .append command => .append { command with expire := 0 }
  | .replace command => .replace { command with expire := 0 }
  | command => command

/-- `Frames`, byte by byte and from any state. -/
inductive Framed {Store : Type} (view : Command → Command) (s : Session Store) (requests : List Request) :
    Except (Session Store × Reason) (Session Store) → Prop
  | idle (t : Session Store) (done : List (Command × Bytes)) : t.executed = s.executed ++ done →
      List.Forall₂ (Executes view) requests done → t.Idle →
      t.consumed = s.consumed + (encodeAll requests).length → Framed view s requests (.ok t)
  | faulted (t : Session Store) (fault : Fault) (before : List Request) (done : List (Command × Bytes)) :
      t.executed = s.executed ++ done → before <+: requests → List.Forall₂ (Executes view) before done →
      Framed view s requests (.error (t, .fault fault))

theorem Framed.of_error {Store : Type} {view : Command → Command} {s t : Session Store}
    {requests : List Request} {reason : Reason} (framed : Framed view s requests (.error (t, reason))) :
    ∃ fault before done, reason = .fault fault ∧ t.executed = s.executed ++ done ∧
      before <+: requests ∧ List.Forall₂ (Executes view) before done := by
  cases framed with
  | faulted _ fault before done executed isPrefix executes =>
    exact ⟨fault, before, done, rfl, executed, isPrefix, executes⟩

theorem Framed.of_ok {Store : Type} {view : Command → Command} {s t : Session Store}
    {requests : List Request} (framed : Framed view s requests (.ok t)) :
    ∃ done, t.executed = s.executed ++ done ∧ List.Forall₂ (Executes view) requests done ∧ t.Idle ∧
      t.consumed = s.consumed + (encodeAll requests).length := by
  cases framed with
  | idle _ done executed executes idle consumed => exact ⟨done, executed, executes, idle, consumed⟩

def FramesFrom {Store : Type} [Storage Store] (view : Command → Command) (s : Session Store)
    (requests : List Request) : Prop :=
  ∀ n, Framed view s (requests.take n) (s.feedAll always (encodeAll (requests.take n)))

def byteReads (bytes : Bytes) : List Read :=
  bytes.map fun c => ⟨[c], Nat.zero_lt_one, (by decide : 1 ≤ bufferSize)⟩

theorem received_byteReads (bytes : Bytes) : received (byteReads bytes) = bytes := by
  induction bytes with
  | nil => rfl
  | cons c bytes ih => exact congrArg (c :: ·) ih

theorem frames_iff_framesFrom {view : Command → Command} {requests : List Request} :
    Frames view requests ↔ ∀ (Store : Type) [Storage Store] (parser : Parser) (argRemains : Nat)
      (storage : Store), FramesFrom view (Session.start parser argRemains storage) requests := by
  have agree : ∀ (Store : Type) [Storage Store] (parser : Parser) (argRemains : Nat) (storage : Store)
      (reads : List Read), settle (STblocking.receive (fun _ => true)
        (Session.start parser argRemains storage) reads) =
        (Session.start parser argRemains storage).feedAll always (received reads) :=
    fun Store _ parser argRemains storage reads =>
      STblocking.settle_receive (STblocking.start_ready parser argRemains storage) reads
  constructor
  · intro frames Store _ parser argRemains storage n
    have framed := frames Store parser argRemains storage n _ (received_byteReads _)
    have same := agree Store parser argRemains storage (byteReads (encodeAll (requests.take n)))
    rw [received_byteReads] at same
    cases ran : STblocking.receive (fun _ => true) (Session.start parser argRemains storage)
        (byteReads (encodeAll (requests.take n))) with
    | ok t =>
      rw [ran] at same framed
      obtain ⟨executes, idle, consumed⟩ := framed
      rw [← same]
      exact .idle t t.executed rfl executes idle (by rw [consumed]; simp [Session.start])
    | error i =>
      rw [ran] at same framed
      obtain ⟨⟨fault, isFault⟩, before, isPrefix, executes⟩ := framed
      rw [← same, settle_error, isFault]
      exact .faulted _ fault before i.session.executed rfl isPrefix executes
  · intro framesFrom Store _ parser argRemains storage n reads same
    have framed := framesFrom Store parser argRemains storage n
    rw [← same, ← agree] at framed
    cases ran : STblocking.receive (fun _ => true) (Session.start parser argRemains storage) reads with
    | ok t =>
      rw [ran] at framed
      obtain ⟨done, executed, executes, idle, consumed⟩ := framed.of_ok
      have all : t.executed = done := executed
      refine ⟨?_, idle, ?_⟩
      · rw [all]
        exact executes
      · rw [consumed]
        simp [Session.start]
    | error i =>
      rw [ran, settle_error] at framed
      obtain ⟨fault, before, done, isFault, executed, isPrefix, executes⟩ := framed.of_error
      have all : i.session.executed = done := executed
      refine ⟨⟨fault, isFault⟩, before, isPrefix, ?_⟩
      rw [all]
      exact executes

/-! ## The requests that are framed -/

section Frames

variable {Store : Type} [Storage Store] {view : Command → Command} {s : Session Store}

theorem encodeAll_cons (request : Request) (requests : List Request) :
    encodeAll (request :: requests) = request.encode ++ encodeAll requests := rfl

theorem Framable.readable {request : Request} (framable : Framable request) : request.Readable ∧
    request.data.length = request.awaited := by
  cases request with
  | storage verb fields block =>
    obtain ⟨neverDrops, reads⟩ := readNumber_decimal framable.2
    have positive : 0 < block.length := List.length_pos_iff.mpr framable.1
    refine ⟨neverDrops, ?_⟩
    simp only [Request.awaited, Request.announced, reads, Request.data, List.length_append, gt_iff_lt,
      positive, if_true]
    rfl
  | get keys => exact ⟨trivial, rfl⟩
  | stats => exact ⟨trivial, rfl⟩

section Step

variable {request : Request} {requests : List Request} {t : Session Store} {done : Command × Bytes}
  {o : Except (Session Store × Reason) (Session Store)}

omit [Storage Store] in
theorem Framed.cons (executed : t.executed = s.executed ++ [done])
    (consumed : t.consumed = s.consumed + request.encode.length) (executes : Executes view request done)
    (framed : Framed view t requests o) : Framed view s (request :: requests) o := by
  cases framed with
  | idle u more executedMore executesMore idle consumedMore =>
    refine .idle u (done :: more) ?_ (.cons executes executesMore) idle ?_
    · rw [executedMore, executed, List.append_assoc]
      rfl
    · rw [consumedMore, consumed, encodeAll_cons, List.length_append, Nat.add_assoc]
  | faulted u fault before more executedMore isPrefix executesMore =>
    refine .faulted u fault (request :: before) (done :: more) ?_ ?_ (.cons executes executesMore)
    · rw [executedMore, executed, List.append_assoc]
      rfl
    · exact List.cons_prefix_cons.mpr ⟨rfl, isPrefix⟩

omit [Storage Store] in
theorem Framed.tail (executed : t.executed = s.executed ++ [done])
    (consumed : t.consumed = s.consumed + request.encode.length) (grows : Grows t (final o))
    (framed : Framed view s (request :: requests) o) : Framed view t requests o := by
  have keeps : s.executed ++ [done] <+: (final o).executed := by rw [← executed]; exact grows.executed
  have first : ∀ {all}, (final o).executed = s.executed ++ all → ∃ more, all = done :: more := by
    intro all executedAll
    rw [executedAll, List.prefix_append_right_inj] at keeps
    obtain ⟨more, same⟩ := keeps
    exact ⟨more, same.symm⟩
  cases o with
  | ok u =>
    obtain ⟨all, executedAll, executesAll, idle, consumedAll⟩ := framed.of_ok
    obtain ⟨more, rfl⟩ := first executedAll
    cases executesAll with
    | cons _ executesMore =>
      refine .idle u more ?_ executesMore idle ?_
      · rw [executedAll, executed, List.append_assoc]
        rfl
      · rw [consumedAll, consumed, encodeAll_cons, List.length_append, Nat.add_assoc]
  | error e =>
    obtain ⟨u, reason⟩ := e
    obtain ⟨fault, before, all, rfl, executedAll, isPrefix, executesAll⟩ := framed.of_error
    obtain ⟨more, rfl⟩ := first executedAll
    cases executesAll with
    | cons _ executesMore =>
      refine .faulted u fault _ more ?_ (List.cons_prefix_cons.mp isPrefix).2 executesMore
      rw [executedAll, executed, List.append_assoc]
      rfl

end Step

theorem feedAll_encode {request : Request} (idle : s.Idle) (wellFormed : request.WellFormed)
    (framable : Framable request) : Answers s request.parsed request.data request.encode.length
      (s.feedAll always request.encode) := by
  obtain ⟨readable, exact⟩ := framable.readable
  have length : request.encode.length = request.body.length + 1 + request.data.length := by
    simp only [Request.encode, List.length_append, List.length_cons]
    omega
  rw [length]
  exact feedAll_answers idle wellFormed readable exact

theorem framed_of_framable {requests : List Request} (idle : s.Idle)
    (wellFormed : ∀ request ∈ requests, request.WellFormed)
    (sound : ∀ request ∈ requests, Framable request ∧ view request.parsed = view request.command) :
    Framed view s requests (s.feedAll always (encodeAll requests)) := by
  induction requests generalizing s with
  | nil => exact .idle s [] (List.append_nil _).symm .nil idle rfl
  | cons request requests ih =>
    have here := sound request List.mem_cons_self
    have answers := feedAll_encode idle (wellFormed request List.mem_cons_self) here.1
    have executes : Executes view request (request.parsed, request.data) :=
      ⟨here.2, List.infix_refl _⟩
    rw [encodeAll_cons, feedAll_append]
    generalize s.feedAll always request.encode = o at answers
    cases answers with
    | faulted t fault _ executed _ =>
      exact .faulted t fault [request] [_] executed (List.cons_prefix_cons.mpr ⟨rfl, List.nil_prefix⟩)
        (.cons executes .nil)
    | answered t result _ idleNext executed _ consumed =>
      exact .cons executed consumed executes (ih idleNext
        (fun other member => wellFormed other (List.mem_cons_of_mem _ member))
        (fun other member => sound other (List.mem_cons_of_mem _ member)))

end Frames

/-! ## The requests that are not -/

structure Forgetful

instance : Storage Forgetful where
  call _ s := .ok (.flag false, s)

theorem Forgetful.executes (program : StorageProgram) (s : Forgetful) :
    ∃ result, program.execute Storage.call s = .ok (result, s) := by
  induction program with
  | done result => exact ⟨result, rfl⟩
  | step call next ih => exact ih (.flag false)

section Fails

variable {view : Command → Command} {s : Session Forgetful} {request : Request} {requests : List Request}

theorem Forgetful.feedAll_ok {bytes : Bytes} (keyed : s.parser.Keyed)
    (framed : Framed view s requests (s.feedAll always bytes)) :
    ∃ t, s.feedAll always bytes = .ok t := by
  cases fed : s.feedAll always bytes with
  | ok t => exact ⟨t, rfl⟩
  | error e =>
    obtain ⟨t, reason⟩ := e
    rw [fed] at framed
    obtain ⟨fault, -, -, rfl, -⟩ := framed.of_error
    obtain ⟨program, storage, failed⟩ := feedAll_fault keyed fed
    obtain ⟨result, ran⟩ := Forgetful.executes program storage
    rw [ran] at failed
    cases failed

/-- The parser does not take more bytes than there are, and takes all of them
    only from a block that can be framed. -/
theorem awaited_le (verb : Verb) (fields : InsertCommand) (block : Bytes) :
    (Request.storage verb fields block).awaited ≤ block.length + 2 ∧
      (block.length + 2 ≤ (Request.storage verb fields block).awaited →
        Framable (.storage verb fields block)) := by
  rw [Request.awaited, Request.announced]
  by_cases short : block.length < 2 ^ 32
  · rw [(readNumber_decimal short).2]
    refine ⟨by split <;> omega, fun all => ⟨?_, short⟩⟩
    intro empty
    rw [empty] at all
    exact absurd all (by decide)
  · rw [readNumber_decimal_eq]
    have wrapped := Nat.mod_lt block.length (by decide : 0 < 2 ^ 32)
    refine ⟨by split <;> omega, fun all => absurd all ?_⟩
    split <;> omega

theorem sound_of_framed (idle : s.Idle) (wellFormed : request.WellFormed)
    (framed : Framed view s [request] (s.feedAll always request.encode)) :
    Framable request ∧ view request.parsed = view request.command := by
  obtain ⟨u, fed⟩ := Forgetful.feedAll_ok idle.keyed framed
  rw [fed] at framed
  obtain ⟨done, executed, executes, idleEnd, -⟩ := framed.of_ok
  obtain ⟨one, rfl⟩ : ∃ one, done = [one] := List.length_eq_one_iff.mp executes.length_eq.symm
  have readable : request.Readable := by
    by_contra unreadable
    obtain ⟨error, raises⟩ := @Request.not_gathered s.parser request wellFormed unreadable
    rw [idle.parser] at raises
    obtain ⟨t, raised, -⟩ := feedAll_raises (lf :: request.data) idle.command
      (idle.ready.incomplete idle.command) (Request.lf_not_mem_body wellFormed) raises
    rw [Request.encode, raised] at fed
    cases fed
  have answersTo : ∀ args left, request.data = args ++ left → args.length = request.awaited →
      left = [] ∧ one = (request.parsed, args) := by
    intro args left split exact
    have answers := feedAll_answers idle wellFormed readable exact
    rw [Request.encode, split, ← List.cons_append, ← List.append_assoc, feedAll_append] at fed
    generalize s.feedAll always (request.body ++ lf :: args) = o at answers fed
    cases answers with
    | faulted t fault _ _ _ => cases fed
    | answered t result _ idleNext executedNext _ _ =>
      have fed : t.feedAll always left = .ok u := fed
      cases left with
      | nil =>
        cases fed
        rw [executedNext, List.append_cancel_left_eq, List.singleton_inj] at executed
        exact ⟨rfl, executed.symm⟩
      | cons c left =>
        have more := (feedAll_progress fed).2 idleEnd (List.cons_ne_nil c left)
        rw [executed, executedNext, List.length_append, List.length_append] at more
        exact absurd more (Nat.lt_irrefl _)
  have understood : ∀ args, one = (request.parsed, args) → view request.parsed = view request.command := by
    intro args same
    cases executes with
    | cons executes _ =>
      rw [same] at executes
      exact executes.1
  cases request with
  | get keys => exact ⟨trivial, rfl⟩
  | stats => exact ⟨trivial, rfl⟩
  | storage verb fields block =>
    have length : (block ++ crlf).length = block.length + 2 := List.length_append
    obtain ⟨atMost, whole⟩ := awaited_le verb fields block
    have taken := answersTo ((block ++ crlf).take _) ((block ++ crlf).drop _)
      (List.take_append_drop _ _).symm (by rw [List.length_take, length]; exact Nat.min_eq_left atMost)
    have all := List.drop_eq_nil_iff.mp taken.1
    rw [length] at all
    exact ⟨whole all, understood _ taken.2⟩

theorem sound_of_framesFrom (idle : s.Idle) (wellFormed : ∀ request ∈ requests, request.WellFormed)
    (frames : FramesFrom view s requests) :
    ∀ request ∈ requests, Framable request ∧ view request.parsed = view request.command := by
  induction requests generalizing s with
  | nil => intro _ member; cases member
  | cons request requests ih =>
    have one := frames 1
    rw [List.take_succ_cons, List.take_zero, encodeAll_cons] at one
    simp only [encodeAll, List.flatMap_nil, List.append_nil] at one
    have wellFormedHere := wellFormed request List.mem_cons_self
    have sound := sound_of_framed idle wellFormedHere one
    have answers := feedAll_encode idle wellFormedHere sound.1
    cases fed : s.feedAll always request.encode with
    | error e =>
      obtain ⟨u, stays⟩ := Forgetful.feedAll_ok idle.keyed one
      rw [stays] at fed
      cases fed
    | ok t =>
      rw [fed] at answers
      cases answers with
      | answered _ result _ idleNext executed _ consumed =>
        have framesRest : FramesFrom view t requests := by
          intro n
          have more := frames (n + 1)
          rw [List.take_succ_cons, encodeAll_cons, feedAll_append, fed] at more
          exact more.tail executed consumed (feedAll_grows t _)
        intro other member
        cases List.mem_cons.mp member with
        | inl here => rw [here]; exact sound
        | inr later =>
          exact ih idleNext (fun request member => wellFormed request (List.mem_cons_of_mem _ member))
            framesRest other later

end Fails

/-! ## Both directions -/

section Both

variable {view : Command → Command} {requests : List Request}

theorem sound_of_frames (wellFormed : ∀ request ∈ requests, request.WellFormed)
    (frames : Frames view requests) :
    ∀ request ∈ requests, Framable request ∧ view request.parsed = view request.command := by
  have started := frames_iff_framesFrom.mp frames Forgetful ⟨.sName, [], [], 0, 0, 0, false, [], false⟩ 0 ⟨⟩
  exact sound_of_framesFrom (start_idle _ _ _) wellFormed started

theorem frames_of_sound (wellFormed : ∀ request ∈ requests, request.WellFormed)
    (sound : ∀ request ∈ requests, Framable request ∧ view request.parsed = view request.command) :
    Frames view requests := by
  apply frames_iff_framesFrom.mpr
  intro Store _ parser argRemains storage n
  have among : ∀ {request}, request ∈ requests.take n → request ∈ requests := List.mem_of_mem_take
  exact framed_of_framable (start_idle _ _ _) (fun request member => wellFormed request (among member))
    fun request member => sound request (among member)

theorem timeless_parsed (request : Request) : timeless request.parsed = timeless request.command := by
  cases request with
  | storage verb fields block => cases verb <;> rfl
  | get keys => rfl
  | stats => rfl

theorem parsed_eq_iff (request : Request) : request.parsed = request.command ↔ OneDigit request := by
  cases request with
  | storage verb fields block =>
    have injective : ∀ {left right}, verb.command left = verb.command right ↔ left = right := by
      cases verb <;> simp [Verb.command]
    rw [Request.parsed, Request.command, injective, OneDigit, ← digitTime_eq_iff]
    constructor
    · intro same
      exact congrArg InsertCommand.expire same
    · intro same
      rw [same]
  | get keys => exact iff_of_true rfl trivial
  | stats => exact iff_of_true rfl trivial

end Both

/-- Requests are framed exactly when no data block is empty, and their commands
    are understood exactly when the expiration times have one digit besides. -/
theorem frames_iff {requests : List Request} (wellFormed : ∀ request ∈ requests, request.WellFormed) :
    (Frames timeless requests ↔ ∀ request ∈ requests, Framable request) ∧
    (Frames id requests ↔ ∀ request ∈ requests, Framable request ∧ OneDigit request) := by
  have exactly : ∀ view, Frames view requests ↔
      ∀ request ∈ requests, Framable request ∧ view request.parsed = view request.command :=
    fun view => ⟨sound_of_frames wellFormed, frames_of_sound wellFormed⟩
  constructor
  · rw [exactly]
    exact forall₂_congr fun request _ => and_iff_left (timeless_parsed request)
  · rw [exactly]
    exact forall₂_congr fun request _ => and_congr_right fun _ => parsed_eq_iff request

theorem frames_set_get : Frames id
    [.storage .set ⟨ascii "k", 0, 0⟩ (ascii "\r\n"), .get [ascii "k"], .stats] := by
  have key : Key (ascii "k") := by unfold Key; decide
  have wellFormed : ∀ request ∈ [Request.storage .set ⟨ascii "k", 0, 0⟩ (ascii "\r\n"), .get [ascii "k"],
      .stats], request.WellFormed := by
    simp [Request.WellFormed, key]
  apply (frames_iff wellFormed).2.mpr
  simp [Framable, OneDigit, ascii]

/-- The line break of an empty block is read as a command. -/
theorem not_frames_empty : ¬ ∀ requests, (∀ request ∈ requests, request.WellFormed) →
    Frames timeless requests := by
  intro always
  have key : Key (ascii "k") := by unfold Key; decide
  have wellFormed : ∀ request ∈ [Request.storage .set ⟨ascii "k", 0, 0⟩ []], request.WellFormed := by
    simp [Request.WellFormed, key]
  have sound := sound_of_frames wellFormed (always _ wellFormed) _ List.mem_cons_self
  exact sound.1.1 rfl

end Afina.Network
