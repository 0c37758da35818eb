import TsSem02.Network.StoreRefinement
import TsSem02.Library.Interleaving
import TsSem02.Storage.Reachable
import Mathlib.Logic.Relation

/-! # The connections of MTblocking

`ProcessConnection` runs on a thread of the pool, with a parser of its own, and
uses the storage that all connections share.  It looks at `running` once for every
`read`, and goes on as long as a command is pending.

* `processConnection_stops` — a connection is what `STblocking` makes of it, unless
  the server is being stopped: then it ends between two commands;
* `executed_isolated` — whatever the threads do, each one executes commands that
  its own bytes ask for, in this order, and leaves none out.
-/

namespace Afina.Network.MTblocking

open Protocol Execute Session Interleaving

variable {Store : Type}

inductive Ended where
  | closed
  | readFailed
  | stopped  -- bytes were read, but the server does not run any more
  | failed (reason : Reason) (byte : Nat)
deriving DecidableEq, Repr

/-- What `STblocking` calls it. -/
def Ended.of : STblocking.Ended → Ended
  | .closed => .closed
  | .readFailed => .readFailed
  | .failed reason byte => .failed reason byte

structure Served (Store : Type) where
  executed : List (Command × Bytes)
  responses : List Bytes
  storage : Store
  ended : Ended

/-! ## A connection on its own -/

section Alone

variable [Storage Store]

/-- The outer loop; with every successful read comes what `running` is then. -/
def receive (sends : Nat → Bool) (s : Session Store) :
    List (Read × Bool) → Except (Interrupt Store) (Session Store × Bool)
  | [] => .ok (s, false)
  | (bytes, running) :: reads =>
    if running || s.commandToExecute.isSome then
      match s.drain (STblocking.deliver sends) bytes.val.length bytes.val with
      | .ok s => receive sends s reads
      | .error i => if i.reason = .stuck then receive sends i.session reads else .error i
    else .ok (s, true)

omit [Storage Store] in
def finish (s : Session Store) (ended : Ended) : Served Store := ⟨s.executed, s.responses, s.storage, ended⟩

/-- `ProcessConnection`; neither the parser nor `arg_remains` is initialised before. -/
def processConnection (sends : Nat → Bool) (parser : Parser) (argRemains : Nat) (storage : Store)
    (reads : List (Read × Bool)) (closes : Bool) : Served Store :=
  match receive sends (Session.start parser argRemains storage) reads with
  | .ok (s, stopped) => finish s (if stopped then .stopped else if closes then .closed else .readFailed)
  | .error i => finish i.session (.failed i.reason (i.session.consumed + i.ahead))

/-- What the reads are for, as far as the loop gets. -/
inductive Receives (sends : Nat → Bool) (s : Session Store) (reads : List (Read × Bool)) :
    Except (Interrupt Store) (Session Store × Bool) → Prop
  | through (t : Session Store)
      (received : STblocking.receive sends s (reads.map Prod.fst) = .ok t) : Receives sends s reads (.ok (t, false))
  | interrupted (i : Interrupt Store)
      (received : STblocking.receive sends s (reads.map Prod.fst) = .error i) : Receives sends s reads (.error i)
  | stopped (t : Session Store) (taken left : List (Read × Bool)) (bytes : Read)
      (split : reads = taken ++ (bytes, false) :: left)
      (received : STblocking.receive sends s (taken.map Prod.fst) = .ok t)
      (nothing : t.commandToExecute = none) : Receives sends s reads (.ok (t, true))

theorem receive_receives (sends : Nat → Bool) (s : Session Store) (reads : List (Read × Bool)) :
    Receives sends s reads (receive sends s reads) := by
  have later : ∀ {s t : Session Store} {bytes : Read} {running : Bool} {reads : List (Read × Bool)}
      {result : Except (Interrupt Store) (Session Store × Bool)},
      (∀ rest, STblocking.receive sends s (bytes :: rest) = STblocking.receive sends t rest) →
      Receives sends t reads result → Receives sends s ((bytes, running) :: reads) result := by
    intro s t bytes running reads result same receives
    cases receives with
    | through u received => exact .through u ((same _).trans received)
    | interrupted i received => exact .interrupted i ((same _).trans received)
    | stopped u taken left last split received nothing =>
      exact .stopped u ((bytes, running) :: taken) left last (by rw [split]; rfl) ((same _).trans received) nothing
  induction reads generalizing s with
  | nil => exact .through s rfl
  | cons read reads ih =>
    obtain ⟨bytes, running⟩ := read
    simp only [receive]
    split
    · cases drained : s.drain (STblocking.deliver sends) bytes.val.length bytes.val with
      | ok t =>
        apply later _ (ih t)
        intro rest
        simp only [STblocking.receive, drained]
      | error i =>
        dsimp only
        split
        · rename_i stuck
          apply later _ (ih i.session)
          intro rest
          simp only [STblocking.receive, drained, stuck, if_true]
        · rename_i notStuck
          apply Receives.interrupted
          simp only [List.map_cons, STblocking.receive, drained, notStuck, if_false]
    · rename_i stops
      simp only [Bool.or_eq_true, not_or, Bool.not_eq_true, Option.isSome_eq_false_iff,
        Option.isNone_iff_eq_none] at stops
      obtain ⟨rfl, nothing⟩ := stops
      exact .stopped s [] reads bytes rfl rfl nothing

/-- A connection does what the blocking server does with the same reads, or, when
    the server is being stopped, with those up to some point where no command is
    pending: a command whose line has been received is never given up. -/
theorem processConnection_stops (sends : Nat → Bool) (parser : Parser) (argRemains : Nat) (storage : Store)
    (reads : List (Read × Bool)) (closes : Bool) :
    ∃ taken left whole ended, reads = taken ++ left ∧
      STblocking.onRun sends parser argRemains storage (taken.map Prod.fst) closes = whole ∧
      processConnection sends parser argRemains storage reads closes =
        ⟨whole.executed, whole.responses, whole.storage, ended⟩ ∧
      (ended = .of whole.ended ∧ left = [] ∨
        ended = .stopped ∧ (∃ bytes more, left = (bytes, false) :: more) ∧
          ∃ s, STblocking.receive sends (Session.start parser argRemains storage) (taken.map Prod.fst) = .ok s ∧
            s.commandToExecute = none) := by
  have receives := receive_receives sends (Session.start parser argRemains storage) reads
  simp only [processConnection]
  generalize receive sends (Session.start parser argRemains storage) reads = result at receives
  cases receives with
  | through t received =>
    refine ⟨reads, [], _, _, (List.append_nil _).symm, rfl, ?_, .inl ⟨rfl, rfl⟩⟩
    rw [STblocking.onRun, received]
    cases closes <;> rfl
  | interrupted i received =>
    refine ⟨reads, [], _, _, (List.append_nil _).symm, rfl, ?_, .inl ⟨rfl, rfl⟩⟩
    rw [STblocking.onRun, received]
    rfl
  | stopped t taken left bytes split received nothing =>
    refine ⟨taken, (bytes, false) :: left, _, .stopped, split, rfl, ?_, .inr ⟨rfl, ⟨bytes, left, rfl⟩, t, received, nothing⟩⟩
    rw [STblocking.onRun, received]
    rfl

end Alone

/-! ## The threads -/

/-- A thread in `ProcessConnection`. -/
structure Thread where
  session : Session Unit           -- the storage is shared
  program : Option StorageProgram  -- what is left of `Execute`
  buffer : Bytes
  reads : List (Read × Bool)
  sends : Nat → Bool
  closes : Bool
  ended : Option Ended

/-- The threads of the pool, and what they share. -/
structure Threads (ι Store : Type) where
  storage : Store
  threads : ι → Thread

/-- What a connection meets: what is in the memory of its variables, and what the
    system calls do. -/
structure Connection where
  parser : Parser
  argRemains : Nat
  sends : Nat → Bool
  reads : List (Read × Bool)
  closes : Bool

/-- What the bytes of a connection ask for. -/
def Connection.asked (connection : Connection) : List (Command × Bytes) :=
  (STblocking.plan connection.sends (Session.start ⟨.sName, [], [], 0, 0, 0, false, [], false⟩ 0 ())
    (received (connection.reads.map Prod.fst))).commands.map STblocking.Due.request

namespace Thread

def start (connection : Connection) : Thread where
  session := Session.start connection.parser connection.argRemains ()
  program := none
  buffer := []
  reads := connection.reads
  sends := connection.sends
  closes := connection.closes
  ended := none

def ahead (thread : Thread) : Bytes := thread.buffer ++ received (thread.reads.map Prod.fst)

/-- The next byte of the buffer; the passes over a buffer come to the same
    (`settle_drain`). -/
def takeByte (thread : Thread) (c : UInt8) (rest : Bytes) : Thread :=
  match thread.session.takeByte c with
  | .error (t, reason) => { thread with session := t, buffer := rest, ended := some (.failed reason t.consumed) }
  | .ok t =>
    match t.due with
    | none => { thread with session := t, buffer := rest }
    | some (command, argument) =>
      { thread with
        session := { t with executed := t.executed ++ [(command, argument)] }
        program := some (command.execute argument)
        buffer := rest }

/-- `read`, and what is done when the loop ends. -/
def read (thread : Thread) : Thread :=
  match thread.reads with
  | [] => { thread with ended := some (if thread.closes then .closed else .readFailed) }
  | (bytes, running) :: reads =>
    if running || thread.session.commandToExecute.isSome then { thread with buffer := bytes, reads := reads }
    else { thread with ended := some .stopped }

def respond (thread : Thread) (result : Bytes) : Thread :=
  if thread.sends thread.session.responses.length then
    { thread with session := thread.session.respond (result ++ crlf), program := none }
  else { thread with program := none, ended := some (.failed .send thread.session.consumed) }

/-- The thread goes on to the next point where another one may come in between. -/
def advance [Storage Store] (storage : Store) (thread : Thread) : Except (Stop Fault) (Store × Thread) :=
  match thread.ended, thread.program, thread.buffer with
  | some _, _, _ => .error .idle
  | none, some (.step call next), _ =>
    match Storage.call call storage with
    | .error fault => .error (.failed fault)
    | .ok (reply, storage) => .ok (storage, { thread with program := some (next reply) })
  | none, some (.done result), _ => .ok (storage, thread.respond result)
  | none, none, c :: rest => .ok (storage, thread.takeByte c rest)
  | none, none, [] => .ok (storage, thread.read)

/-- What a thread does next, to itself and to the storage. -/
inductive Advances [Storage Store] (storage : Store) (thread : Thread) : Store → Thread → Prop
  | call (op : StorageCall) (rest : StorageReply → StorageProgram) (reply : StorageReply) (storage' : Store)
      (waiting : thread.program = some (.step op rest))
      (called : Storage.call op storage = .ok (reply, storage')) :
      Advances storage thread storage' { thread with program := some (rest reply) }
  | respond (result : Bytes) (waiting : thread.program = some (.done result)) :
      Advances storage thread storage (thread.respond result)
  | takeByte (c : UInt8) (rest : Bytes) (idle : thread.program = none) (buffer : thread.buffer = c :: rest) :
      Advances storage thread storage (thread.takeByte c rest)
  | read (idle : thread.program = none) (buffer : thread.buffer = []) : Advances storage thread storage thread.read

theorem advance_advances [Storage Store] {storage storage' : Store} {thread thread' : Thread}
    (advanced : thread.advance storage = .ok (storage', thread')) :
    thread.ended = none ∧ Advances storage thread storage' thread' := by
  simp only [advance] at advanced
  split at advanced
  · cases advanced
  · rename_i buffer op rest running waiting
    split at advanced
    · cases advanced
    · rename_i reply storage' called
      cases advanced
      exact ⟨running, .call op rest reply storage' waiting called⟩
  · rename_i buffer result running waiting
    cases advanced
    exact ⟨running, .respond result waiting⟩
  · rename_i c rest running idle buffer
    cases advanced
    exact ⟨running, .takeByte c rest idle buffer⟩
  · rename_i running idle buffer
    cases advanced
    exact ⟨running, .read idle buffer⟩

end Thread

namespace Threads

variable {ι : Type}

def start (storage : Store) (connections : ι → Connection) : Threads ι Store :=
  ⟨storage, fun i => .start (connections i)⟩

def step [DecidableEq ι] [Storage Store] (world : Threads ι Store) (i : ι) :
    Except (Stop Fault) (Threads ι Store) := do
  let (storage, thread) ← (world.threads i).advance world.storage
  return ⟨storage, Function.update world.threads i thread⟩

end Threads

/-! ## One thread after another

A thread that has the storage for itself does what `processConnection` says, so
the connections of a server that are served one at a time are among the runs of
its threads.
-/

section Alone

variable [Storage Store]

omit [Storage Store] in
theorem takeByte_storedIn (s : Session Store) (c : UInt8) : (s.storedIn ()).takeByte c =
    match s.takeByte c with
    | .error (t, reason) => .error (t.storedIn (), reason)
    | .ok t => .ok (t.storedIn ()) := by
  have command : (s.storedIn ()).commandToExecute = s.commandToExecute := rfl
  have parser : (s.storedIn ()).parser = s.parser := rfl
  simp only [Session.takeByte, command, parser]
  cases s.commandToExecute with
  | some command => rfl
  | none =>
    cases s.parser.step c with
    | error error => rfl
    | ok next =>
      have builds := buildCommand_storedIn ({ s.hand 1 with parser := next } : Session Store) ()
      dsimp only
      rw [show ({ (s.storedIn ()).hand 1 with parser := next } : Session Unit) =
        ({ s.hand 1 with parser := next } : Session Store).storedIn () from rfl, builds]
      obtain ⟨t, reason⟩ := ({ s.hand 1 with parser := next } : Session Store).buildCommand
      cases reason <;> rfl

namespace Thread

def Reaches : Store × Thread → Store × Thread → Prop :=
  Relation.ReflTransGen fun before after => before.2.advance before.1 = .ok after

def Faults (before : Store × Thread) (fault : Fault) : Prop :=
  ∃ there, Reaches before there ∧ there.2.advance there.1 = .error (.failed fault)

def between (thread : Thread) (s : Session Store) (buffer : Bytes) : Thread :=
  { thread with session := s.storedIn (), program := none, buffer := buffer, ended := none }

/-- What a thread comes to, when a session comes to `result`. -/
inductive Comes (before : Store × Thread) (goal : Session Store → Thread) :
    Except (Session Store × Reason) (Session Store) → Prop
  | ok (t : Session Store) (reaches : Reaches before (t.storage, goal t)) : Comes before goal (.ok t)
  | failed (t : Session Store) (reason : Reason) (thread : Thread) (reaches : Reaches before (t.storage, thread))
      (ended : thread.ended = some (.failed reason t.consumed)) (executed : thread.session.executed = t.executed)
      (responses : thread.session.responses = t.responses) : Comes before goal (.error (t, reason))
  | faulted (t : Session Store) (fault : Fault) (faults : Faults before fault) :
      Comes before goal (.error (t, .fault fault))

variable {thread : Thread} {storage : Store}

theorem Comes.after {before there : Store × Thread} {goal : Session Store → Thread}
    {result : Except (Session Store × Reason) (Session Store)} (reaches : Reaches before there)
    (comes : Comes there goal result) : Comes before goal result := by
  cases comes with
  | ok t more => exact .ok t (reaches.trans more)
  | failed t reason thread more ended executed responses =>
    exact .failed t reason thread (reaches.trans more) ended executed responses
  | faulted t fault faults =>
    obtain ⟨there, more, fails⟩ := faults
    exact .faulted t fault ⟨there, reaches.trans more, fails⟩

theorem reaches_of_execute {program : StorageProgram} {result : Bytes} {storage' : Store}
    (running : thread.ended = none) (waiting : thread.program = some program)
    (executed : program.execute Storage.call storage = .ok (result, storage')) :
    Reaches (storage, thread) (storage', { thread with program := some (.done result) }) := by
  induction program generalizing storage thread with
  | done answer =>
    cases executed
    rw [← waiting]
    exact .refl
  | step op next ih =>
    obtain ⟨reply, after, called, executed⟩ := Program.execute_step_ok.mp executed
    have advances : thread.advance storage = .ok (after, { thread with program := some (next reply) }) := by
      simp only [advance, running, waiting, called]
    -- nobody comes in between, so the next call finds the storage as this one left it
    exact .head advances (ih reply running rfl executed)

theorem faults_of_execute {program : StorageProgram} {fault : Fault} (running : thread.ended = none)
    (waiting : thread.program = some program) (failed : program.execute Storage.call storage = .error fault) :
    Faults (storage, thread) fault := by
  induction program generalizing storage thread with
  | done answer => cases failed
  | step op next ih =>
    cases called : Storage.call op storage with
    | error other =>
      rw [Program.execute_step_of_error called] at failed
      cases failed
      exact ⟨_, .refl, by simp only [advance, running, waiting, called]⟩
    | ok answer =>
      obtain ⟨reply, after⟩ := answer
      rw [Program.execute_step_of_ok called] at failed
      have later : Faults (after, { thread with program := some (next reply) }) fault :=
        ih reply running rfl failed
      obtain ⟨there, reaches, fails⟩ := later
      have advances : thread.advance storage = .ok (after, { thread with program := some (next reply) }) := by
        simp only [advance, running, waiting, called]
      exact ⟨there, .head advances reaches, fails⟩

section Bytes

variable {s t : Session Store} {c : UInt8} {rest result : Bytes}

theorem respond_of_sent (sent : thread.sends thread.session.responses.length = true) :
    thread.respond result =
      { thread with session := thread.session.respond (result ++ crlf), program := none } := if_pos sent

theorem respond_of_unsent (unsent : ¬ thread.sends thread.session.responses.length = true) :
    thread.respond result =
      { thread with program := none, ended := some (.failed .send thread.session.consumed) } := if_neg unsent

omit [Storage Store] in
theorem takeByte_of_error {reason : Reason} (admits : s.takeByte c = .error (t, reason)) :
    (thread.between s (c :: rest)).takeByte c rest =
      { thread.between t rest with ended := some (.failed reason t.consumed) } := by
  simp only [Thread.takeByte, between, takeByte_storedIn, admits]
  rfl

omit [Storage Store] in
theorem takeByte_of_none (admits : s.takeByte c = .ok t) (nothing : t.due = none) :
    (thread.between s (c :: rest)).takeByte c rest = thread.between t rest := by
  have nothing' : (t.storedIn ()).due = none := nothing
  simp only [Thread.takeByte, between, takeByte_storedIn, admits, nothing']

omit [Storage Store] in
theorem takeByte_of_due {command : Command} {argument : Bytes} (admits : s.takeByte c = .ok t)
    (now : t.due = some (command, argument)) :
    (thread.between s (c :: rest)).takeByte c rest =
      { thread.between { t with executed := t.executed ++ [(command, argument)] } rest with
        program := some (command.execute argument) } := by
  have now' : (t.storedIn ()).due = some (command, argument) := now
  simp only [Thread.takeByte, between, takeByte_storedIn, admits, now']
  rfl

theorem comes_feed (thread : Thread) (s : Session Store) (c : UInt8) (rest : Bytes) :
    Comes (s.storage, thread.between s (c :: rest)) (fun t => thread.between t rest)
      (s.feed (STblocking.deliver thread.sends) c) := by
  have takes : ∀ next, (thread.between s (c :: rest)).takeByte c rest = next →
      Reaches (s.storage, thread.between s (c :: rest)) (s.storage, next) := by
    intro next same
    exact .single (congrArg (fun next => Except.ok (s.storage, next)) same)
  have kept := STblocking.takeByte_keeps s c
  rw [feed_eq]
  cases admits : s.takeByte c with
  | error stopped =>
    obtain ⟨t, reason⟩ := stopped
    rw [admits] at kept
    have storage : t.storage = s.storage := kept.1
    have moved := takes _ (takeByte_of_error admits)
    rw [← storage] at moved ⊢
    exact .failed t reason _ moved rfl rfl rfl
  | ok t =>
    rw [admits] at kept
    have storage : t.storage = s.storage := kept.1
    show Comes _ _ (outcome (t.runCommand (STblocking.deliver thread.sends)))
    cases now : t.due with
    | none =>
      rw [runCommand_of_due_none now]
      exact .ok t (storage ▸ takes _ (takeByte_of_none admits now))
    | some due =>
      obtain ⟨command, argument⟩ := due
      rw [runCommand_of_due now]
      have began := takes _ (takeByte_of_due admits now)
      rw [← storage] at began
      cases executes : (command.execute argument).execute Storage.call t.storage with
      | error fault =>
        rw [← storage]
        exact .after began (.faulted _ fault (faults_of_execute rfl rfl executes))
      | ok answer =>
        obtain ⟨result, after⟩ := answer
        have came := began.trans (reaches_of_execute rfl rfl executes)
        rw [← storage]
        dsimp only [STblocking.deliver]
        by_cases sent : thread.sends t.responses.length
        · rw [if_pos sent]
          refine .ok _ (came.tail ?_)
          exact congrArg (fun next => Except.ok (after, next)) (respond_of_sent sent)
        · rw [if_neg sent]
          have stops : Reaches (t.storage, thread.between s (c :: rest)) (after, _) :=
            came.tail (congrArg (fun next => Except.ok (after, next)) (respond_of_unsent sent))
          exact .failed _ _ _ stops rfl rfl rfl

theorem comes_feedAll (thread : Thread) (s : Session Store) (bytes : Bytes) :
    Comes (s.storage, thread.between s bytes) (fun t => thread.between t [])
      (s.feedAll (STblocking.deliver thread.sends) bytes) := by
  induction bytes generalizing s with
  | nil => exact .ok s .refl
  | cons c rest ih =>
    have first := comes_feed thread s c rest
    rw [feedAll_cons]
    generalize s.feed (STblocking.deliver thread.sends) c = o at first
    cases first with
    | ok t reaches => exact .after reaches (ih t)
    | failed t reason there reaches ended executed responses =>
      exact .failed t reason there reaches ended executed responses
    | faulted t fault faults => exact .faulted t fault faults

end Bytes

/-- What a thread comes to that has the storage for itself. -/
inductive Ends (before : Store × Thread) (served : Served Store) : Prop
  | ended (thread : Thread) (reaches : Reaches before (served.storage, thread))
      (ended : thread.ended = some served.ended) (executed : thread.session.executed = served.executed)
      (responses : thread.session.responses = served.responses)
  | faulted (fault : Fault) (byte : Nat) (ended : served.ended = .failed (.fault fault) byte)
      (faults : Faults before fault)

/-- What `processConnection` makes of its loop. -/
def outcomeOf (closes : Bool) : Except (Interrupt Store) (Session Store × Bool) → Served Store
  | .ok (s, stopped) => finish s (if stopped then .stopped else if closes then .closed else .readFailed)
  | .error i => finish i.session (.failed i.reason (i.session.consumed + i.ahead))

theorem Ends.after {before there : Store × Thread} {served : Served Store} (reaches : Reaches before there)
    (ends : Ends there served) : Ends before served := by
  cases ends with
  | ended thread more ended executed responses =>
    exact .ended thread (reaches.trans more) ended executed responses
  | faulted fault byte ended faults =>
    obtain ⟨last, more, fails⟩ := faults
    exact .faulted fault byte ended ⟨last, reaches.trans more, fails⟩

theorem ends_receive (thread : Thread) {s : Session Store} (ready : s.Ready) (reads : List (Read × Bool)) :
    Ends (s.storage, { thread.between s [] with reads := reads })
      (outcomeOf thread.closes (receive thread.sends s reads)) := by
  induction reads generalizing s with
  | nil => exact .ended _ (.single rfl) rfl rfl rfl
  | cons read reads ih =>
    obtain ⟨bytes, running⟩ := read
    have step : ∀ next, Thread.read { thread.between s [] with reads := (bytes, running) :: reads } = next →
        Reaches (s.storage, { thread.between s [] with reads := (bytes, running) :: reads })
          (s.storage, next) := by
      intro next same
      exact .single (congrArg (fun next => Except.ok (s.storage, next)) same)
    simp only [receive]
    by_cases goesOn : running || s.commandToExecute.isSome
    · rw [if_pos goesOn]
      -- the passes over a read are the bytes of it one after another
      have drained : settle (s.drain (STblocking.deliver thread.sends) bytes.val.length bytes.val) = _ :=
        settle_drain STblocking.deliver_responds ready (Nat.le_refl _)
      have comes := comes_feedAll { thread with reads := reads } s bytes.val
      apply Ends.after (step _ (if_pos goesOn))
      rw [← drained] at comes
      cases ran : s.drain (STblocking.deliver thread.sends) bytes.val.length bytes.val with
      | ok t =>
        rw [ran] at comes drained
        have readyNext : t.Ready := feedAll_ready STblocking.deliver_responds ready drained.symm
        cases comes with
        | ok _ reaches => exact .after reaches (ih readyNext)
      | error i =>
        rw [ran] at comes drained
        have notStuck : i.reason ≠ .stuck := by
          intro stuck
          rw [settle_error, stuck] at drained
          exact feedAll_unstuck STblocking.deliver_unstuck drained.symm
        dsimp only
        rw [if_neg notStuck]
        generalize settled : settle (.error i : Except (Interrupt Store) (Session Store)) = o at comes
        cases comes with
        | ok t _ => cases settled
        | failed t reason there reaches ended executed responses =>
          cases settled
          exact .ended there reaches ended executed responses
        | faulted t fault faults =>
          rw [settle_error] at settled
          have reason : i.reason = .fault fault := (Prod.mk.inj (Except.error.inj settled)).2
          refine .faulted fault (i.session.consumed + i.ahead) ?_ faults
          show Ended.failed i.reason _ = _
          rw [reason]
    · rw [if_neg goesOn]
      exact .ended _ (step _ (if_neg goesOn)) rfl rfl rfl

/-- A thread that the others leave alone does what `processConnection` does. -/
theorem ends_processConnection (connection : Connection) (storage : Store) :
    Ends (storage, start connection)
      (processConnection connection.sends connection.parser connection.argRemains storage connection.reads
        connection.closes) :=
  ends_receive (start connection)
    (STblocking.start_ready connection.parser connection.argRemains storage) connection.reads

end Thread

end Alone

/-! ## Isolation -/

namespace Thread

/-- What a thread is still going to execute. -/
def promised (thread : Thread) : List (Command × Bytes) :=
  match thread.ended, thread.program with
  | some _, _ => []
  | none, none => (STblocking.plan thread.sends thread.session thread.ahead).commands.map STblocking.Due.request
  | none, some _ =>
    -- the running command is counted as executed; what comes after it depends on whether its response is sent
    if thread.sends thread.session.responses.length then
      (STblocking.plan thread.sends (thread.session.respond []) thread.ahead).commands.map STblocking.Due.request
    else []

/-- A thread does what its own bytes ask for. -/
structure Keeps (asked : List (Command × Bytes)) (thread : Thread) : Prop where
  executed : thread.ended ≠ some .stopped → thread.session.executed ++ thread.promised = asked
  isPrefix : thread.session.executed <+: asked
  nothing : thread.ended = some .stopped → thread.session.commandToExecute = none

variable {asked : List (Command × Bytes)} {thread : Thread}

theorem keeps_of_eq (same : thread.session.executed ++ thread.promised = asked)
    (runs : thread.ended ≠ some .stopped) : Keeps asked thread where
  executed _ := same
  isPrefix := ⟨_, same⟩
  nothing stopped := absurd stopped runs

theorem keeps_start (connection : Connection) : Keeps connection.asked (start connection) := by
  apply keeps_of_eq _ (by simp [start])
  -- what the parser and `arg_remains` hold at first is overwritten before it is read
  have alike := start_alike ⟨.sName, [], [], 0, 0, 0, false, [], false⟩ connection.parser 0 connection.argRemains () ()
  show [] ++ (STblocking.plan connection.sends (Session.start connection.parser connection.argRemains ())
    (received (connection.reads.map Prod.fst))).commands.map _ = _
  rw [STblocking.plan_alike alike]
  rfl

/-- The plan does not depend on what was executed, and on what was answered. -/
theorem plan_congr (sends : Nat → Bool) (t : Session Unit) (more : List (Command × Bytes))
    (response response' : Bytes) (bytes : Bytes) :
    STblocking.plan sends (({ t with executed := more } : Session Unit).respond response) bytes =
      STblocking.plan sends (t.respond response') bytes := by
  have same : Alike t ({ t with executed := more } : Session Unit) :=
    ⟨.same, rfl, fun _ => rfl, rfl, rfl, rfl⟩
  exact STblocking.plan_alike (respond_alike same response' response) sends bytes

theorem Keeps.takeByte {c : UInt8} {rest : Bytes} (keeps : Keeps asked thread) (running : thread.ended = none)
    (idle : thread.program = none) (buffer : thread.buffer = c :: rest) : Keeps asked (thread.takeByte c rest) := by
  have same := keeps.executed (by simp [running])
  have ahead : thread.ahead = c :: (rest ++ received (thread.reads.map Prod.fst)) := by
    rw [Thread.ahead, buffer]
    rfl
  have kept := (STblocking.takeByte_keeps thread.session c).2.1
  simp only [promised, running, idle, ahead] at same
  simp only [Thread.takeByte]
  cases admits : thread.session.takeByte c with
  | error stopped =>
    obtain ⟨t, reason⟩ := stopped
    rw [admits] at kept
    rw [STblocking.plan_of_error admits, ← kept] at same
    exact keeps_of_eq same (by simp)
  | ok t =>
    rw [admits] at kept
    have kept : t.executed = thread.session.executed := kept
    dsimp only
    cases now : t.due with
    | none =>
      rw [STblocking.plan_of_none admits now, ← kept] at same
      refine keeps_of_eq ?_ (by simp [running])
      simp only [promised, running, idle]
      exact same
    | some due =>
      obtain ⟨command, argument⟩ := due
      refine keeps_of_eq ?_ (by simp [running])
      simp only [promised, running]
      by_cases sent : thread.sends t.responses.length = true
      · rw [STblocking.plan_of_sent admits now sent, ← kept] at same
        rw [if_pos sent, plan_congr, List.append_assoc]
        exact same
      · rw [STblocking.plan_of_unsent admits now sent, ← kept] at same
        rw [if_neg sent, List.append_nil]
        exact same

theorem Keeps.read (keeps : Keeps asked thread) (running : thread.ended = none) (idle : thread.program = none)
    (buffer : thread.buffer = []) : Keeps asked thread.read := by
  have same := keeps.executed (by simp [running])
  simp only [promised, running, idle, ahead, buffer, List.nil_append] at same
  unfold Thread.read
  split
  · rename_i empty
    rw [empty] at same
    exact keeps_of_eq same (by cases thread.closes <;> simp)
  · rename_i bytes goesOn reads more
    rw [more] at same
    split
    · refine keeps_of_eq ?_ (by simp [running])
      simp only [promised, running, idle, ahead]
      exact same
    · -- the server is being stopped: no command waits for its argument here
      rename_i stops
      simp only [Bool.or_eq_true, not_or, Option.not_isSome_iff_eq_none] at stops
      exact ⟨fun notStopped => absurd rfl notStopped, keeps.isPrefix, fun _ => stops.2⟩

theorem Keeps.respond {result : Bytes} (keeps : Keeps asked thread) (running : thread.ended = none)
    (waiting : thread.program = some (.done result)) : Keeps asked (thread.respond result) := by
  have same := keeps.executed (by simp [running])
  simp only [promised, running, waiting, ahead] at same
  unfold Thread.respond
  split
  · rename_i sent
    rw [if_pos sent] at same
    refine keeps_of_eq ?_ (by simp [running])
    simp only [promised, running, ahead]
    have alike : Alike (thread.session.respond []) (thread.session.respond (result ++ crlf)) :=
      respond_alike ⟨.same, rfl, fun _ => rfl, rfl, rfl, rfl⟩ _ _
    rw [STblocking.plan_alike alike]
    exact same
  · rename_i unsent
    rw [if_neg unsent] at same
    exact keeps_of_eq same (by simp)

theorem Keeps.proceed {program next : StorageProgram} (keeps : Keeps asked thread) (running : thread.ended = none)
    (waiting : thread.program = some program) : Keeps asked { thread with program := some next } := by
  have same := keeps.executed (by simp [running])
  simp only [promised, running, waiting] at same
  refine keeps_of_eq ?_ (by simp [running])
  simp only [promised, running]
  exact same

theorem Keeps.advances [Storage Store] {storage storage' : Store} {thread' : Thread} (keeps : Keeps asked thread)
    (running : thread.ended = none) (advances : Advances storage thread storage' thread') : Keeps asked thread' := by
  cases advances with
  | call op rest reply _ waiting _ => exact keeps.proceed running waiting
  | respond result waiting => exact keeps.respond running waiting
  | takeByte c rest idle buffer => exact keeps.takeByte running idle buffer
  | read idle buffer => exact keeps.read running idle buffer

end Thread

namespace Threads

variable {ι : Type} [DecidableEq ι] [Storage Store] {world next : Threads ι Store} {i : ι}

/-- What holds of all threads, and of the storage that started as `first`. -/
structure Sound (first : Store) (connections : ι → Connection) (world : Threads ι Store) : Prop where
  keeps : ∀ i, (world.threads i).Keeps (connections i).asked
  called : ∃ ops replies, Runs.runs Storage.call ops first = .ok (replies, world.storage)

theorem Sound.step {first : Store} {connections : ι → Connection} (sound : Sound first connections world)
    (stepped : world.step i = .ok next) : Sound first connections next := by
  simp only [Threads.step] at stepped
  cases advanced : (world.threads i).advance world.storage with
  | error stop =>
    rw [advanced] at stepped
    cases stepped
  | ok after =>
    obtain ⟨storage, thread⟩ := after
    rw [advanced] at stepped
    cases stepped
    obtain ⟨running, advances⟩ := Thread.advance_advances advanced
    constructor
    · intro j
      by_cases same : j = i
      · subst same
        simp only [Function.update_self]
        exact (sound.keeps j).advances running advances
      · simp only [Function.update_of_ne same]
        exact sound.keeps j
    · obtain ⟨ops, replies, ran⟩ := sound.called
      cases advances with
      | call op rest reply storage waiting called =>
        refine ⟨ops ++ [op], replies ++ [reply], Runs.runs_append.mpr ⟨_, replies, [reply], ran, ?_, rfl⟩⟩
        exact Runs.runs_cons_ok.mpr ⟨reply, storage, [], called, rfl, rfl⟩
      | respond | takeByte | read => exact ⟨ops, replies, ran⟩

theorem sound_of_runs {first : Store} {connections : ι → Connection} {schedule : List ι}
    {reached : Threads ι Store} (sound : Sound first connections world)
    (ran : schedule.foldlM step world = .ok reached) : Sound first connections reached := by
  induction schedule generalizing world with
  | nil =>
    cases ran
    exact sound
  | cons i schedule ih =>
    obtain ⟨next, stepped, ranOn⟩ := foldlM_cons_ok.mp ran
    exact ih (sound.step stepped) ranOn

end Threads

/-- Whatever the threads of a server do, and in whatever order, each one executes
    the commands that its own bytes ask for, in their order and all of them, unless
    the server is being stopped, when it has no command pending; and the storage they
    share stays well formed. -/
theorem executed_isolated {ι : Type} [DecidableEq ι] {maxSize : Nat} (bounded : maxSize < 2 ^ 63)
    (connections : ι → Connection) {schedule : List ι} {reached : Threads ι Backend.SimpleLRU}
    (ran : schedule.foldlM Threads.step (Threads.start (Backend.SimpleLRU.fresh maxSize) connections) =
      .ok reached) :
    (∀ i, (reached.threads i).session.executed <+: (connections i).asked ∧
      ((reached.threads i).ended.isSome →
        (reached.threads i).session.executed = (connections i).asked ∨
          (reached.threads i).ended = some .stopped ∧ (reached.threads i).session.commandToExecute = none)) ∧
    reached.storage.maxSize = maxSize ∧ ∃ chain, Backend.WellFormed reached.storage chain := by
  have sound : Threads.Sound (Backend.SimpleLRU.fresh maxSize) connections reached :=
    Threads.sound_of_runs ⟨fun i => Thread.keeps_start (connections i), [], [], rfl⟩ ran
  refine ⟨fun i => ⟨(sound.keeps i).isPrefix, fun ended => ?_⟩, ?_⟩
  · by_cases stopped : (reached.threads i).ended = some .stopped
    · exact .inr ⟨stopped, (sound.keeps i).nothing stopped⟩
    · have same := (sound.keeps i).executed stopped
      obtain ⟨how, isEnded⟩ := Option.isSome_iff_exists.mp ended
      simp only [Thread.promised, isEnded, List.append_nil] at same
      exact .inl same
  · obtain ⟨ops, replies, called⟩ := sound.called
    obtain ⟨cache, refines⟩ := Backend.Reachable.refines bounded ⟨ops, replies, called⟩
    obtain ⟨items, represents, -⟩ := refines.represents
    exact ⟨refines.maxSize_eq, _, represents.wellFormed⟩

/-- The storage sees the `get` of one connection after the line of the `set` of the
    other one was received, and before that was executed. -/
theorem executed_isolated_two :
    let connections : Bool → Connection := fun i =>
      ⟨⟨.sName, [], [], 0, 0, 0, false, [], false⟩, 7, fun _ => true,
        [(⟨if i then ascii "set k 0 0 1\r\na\r\n" else ascii "get k\r\n", by cases i <;> decide⟩, true)], true⟩
    ∃ reached : Threads Bool Backend.SimpleLRU,
      (reached.threads true).session.executed <+: (connections true).asked ∧
      (reached.threads true).session.responses = [ascii "STORED\r\n"] ∧
      (reached.threads false).session.responses = [ascii "END\r\n"] := by
  intro connections
  obtain ⟨reached, ran, responses⟩ := Runs.exists_ok_of_check (p := fun reached =>
      (reached.threads true).session.responses = [ascii "STORED\r\n"] ∧
      (reached.threads false).session.responses = [ascii "END\r\n"])
    (by decide +kernel :
      (((List.replicate 14 true ++ List.replicate 10 false ++ List.replicate 5 true).foldlM Threads.step
        (Threads.start (Backend.SimpleLRU.fresh 1024) connections)).toOption.map _).getD false = true)
  have responses := of_decide_eq_true responses
  exact ⟨reached, (executed_isolated (by decide) connections ran).1 true |>.1, responses⟩

end Afina.Network.MTblocking
