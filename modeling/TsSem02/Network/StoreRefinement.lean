import TsSem02.Network.Successive
import TsSem02.Network.EventLoop
import TsSem02.Storage.CacheStore

/-! # The store behind a connection

A connection only sees its store through the replies to its calls.  Over two
stores in lockstep it executes the same commands, sends the same bytes and ends
the same way, whatever it receives (`onRun_agree`); in particular over a
`SimpleLRU` and over the abstract cache it refines.
-/

namespace Afina.Network

open Protocol Execute Lockstep

namespace Session

variable {Store Store' : Type}

def storedIn (s : Session Store) (storage : Store') : Session Store' where
  parser := s.parser
  argRemains := s.argRemains
  argumentForCommand := s.argumentForCommand
  commandToExecute := s.commandToExecute
  storage := storage
  executed := s.executed
  responses := s.responses
  consumed := s.consumed
  handed := s.handed

/-- Two connections that differ in their stores only, and these are related. -/
def Twin (Related : Store → Store' → Prop) (s : Session Store) (t : Session Store') : Prop :=
  ∃ storage, Related s.storage storage ∧ t = s.storedIn storage

structure TwinInterrupt (Related : Store → Store' → Prop) (i : Interrupt Store) (j : Interrupt Store') :
    Prop where
  session : i.session.Twin Related j.session
  buffer : i.buffer = j.buffer
  reason : i.reason = j.reason
  ahead : i.ahead = j.ahead

/-- What is done with a response does not depend on the store. -/
def Oblivious (Related : Store → Store' → Prop) (deliver : Deliver Store) (deliver' : Deliver Store') : Prop :=
  ∀ s t response, s.Twin Related t →
    (deliver s response).1.Twin Related (deliver' t response).1 ∧
      (deliver s response).2 = (deliver' t response).2

variable {Related : Store → Store' → Prop} {s : Session Store} {t : Session Store'}

theorem Twin.storage (twin : s.Twin Related t) : Related s.storage t.storage := by
  obtain ⟨storage, related, rfl⟩ := twin
  exact related

theorem Twin.fields (twin : s.Twin Related t) : t.commandToExecute = s.commandToExecute ∧
    t.argRemains = s.argRemains ∧ t.argumentForCommand = s.argumentForCommand := by
  obtain ⟨storage, related, rfl⟩ := twin
  exact ⟨rfl, rfl, rfl⟩

theorem buildCommand_storedIn (s : Session Store) (storage : Store') :
    (s.storedIn storage).buildCommand = (s.buildCommand.1.storedIn storage, s.buildCommand.2) := by
  have parser : (s.storedIn storage).parser = s.parser := rfl
  cases complete : s.parser.parseComplete with
  | false =>
    rw [buildCommand_of_incomplete complete]
    exact buildCommand_of_incomplete complete
  | true =>
    cases builds : s.parser.build with
    | mk size built =>
      simp only [buildCommand, parser, complete, builds, if_true]
      cases built <;> rfl

theorem buildCommand_twin (twin : s.Twin Related t) :
    s.buildCommand.1.Twin Related t.buildCommand.1 ∧ s.buildCommand.2 = t.buildCommand.2 := by
  obtain ⟨storage, related, rfl⟩ := twin
  rw [buildCommand_storedIn]
  refine ⟨⟨storage, ?_, rfl⟩, rfl⟩
  rw [(buildCommand_keeps s).storage]
  exact related

/-- What is left of a buffer, besides the connection. -/
def TwinRest (Related : Store → Store' → Prop) (p : Session Store × Bytes) (q : Session Store' × Bytes) : Prop :=
  p.1.Twin Related q.1 ∧ p.2 = q.2

theorem parseCommand_twin (twin : s.Twin Related t) (buffer : Bytes) :
    Agree (TwinInterrupt Related) (TwinRest Related) (s.parseCommand buffer) (t.parseCommand buffer) := by
  obtain ⟨storage, related, rfl⟩ := twin
  have parser : (s.storedIn storage).parser = s.parser := rfl
  simp only [parseCommand, parser]
  obtain ⟨next, outcome⟩ := s.parser.parse buffer
  cases outcome with
  | threw error pos => exact .error ⟨⟨storage, related, rfl⟩, rfl, rfl, rfl⟩
  | returned parsed =>
    have parsedTwin : Twin Related { s.hand parsed with parser := next }
        { (s.storedIn storage).hand parsed with parser := next } := ⟨storage, related, rfl⟩
    have built := buildCommand_twin parsedTwin
    dsimp only
    generalize buildCommand { s.hand parsed with parser := next } = left at built
    generalize buildCommand { (s.storedIn storage).hand parsed with parser := next } = right at built
    obtain ⟨s', reason⟩ := left
    obtain ⟨t', reason'⟩ := right
    obtain ⟨twin, rfl⟩ := built
    cases reason with
    | some reason => exact .error ⟨twin, rfl, rfl, rfl⟩
    | none =>
      dsimp only
      split
      · exact .error ⟨twin, rfl, rfl, rfl⟩
      · obtain ⟨storage', related', rfl⟩ := twin
        exact .ok ⟨⟨storage', related', rfl⟩, rfl⟩

theorem fillArgument_twin (twin : s.Twin Related t) (buffer : Bytes) :
    TwinRest Related (s.fillArgument buffer) (t.fillArgument buffer) := by
  obtain ⟨storage, related, rfl⟩ := twin
  by_cases waits : s.commandToExecute.isSome ∧ s.argRemains > 0
  · have waitsToo : (s.storedIn storage).commandToExecute.isSome ∧ (s.storedIn storage).argRemains > 0 := waits
    rw [fillArgument, fillArgument, if_pos waits, if_pos waitsToo]
    exact ⟨⟨storage, related, rfl⟩, rfl⟩
  · have waitsNot : ¬ ((s.storedIn storage).commandToExecute.isSome ∧ (s.storedIn storage).argRemains > 0) := waits
    rw [fillArgument, fillArgument, if_neg waits, if_neg waitsNot]
    exact ⟨⟨storage, related, rfl⟩, rfl⟩

variable [Storage Store] [Storage Store'] {deliver : Deliver Store} {deliver' : Deliver Store'}

/-- The calls of two stores keep them related. -/
abbrev StoresInStep (Related : Store → Store' → Prop) : Prop :=
  InStep Related (@Storage.call Store _) (@Storage.call Store' _)

theorem runCommand_twin (inStep : StoresInStep Related) (oblivious : Oblivious Related deliver deliver')
    (twin : s.Twin Related t) :
    (runCommand deliver s).1.Twin Related (runCommand deliver' t).1 ∧
      (runCommand deliver s).2 = (runCommand deliver' t).2 := by
  obtain ⟨command, argRemains, argument⟩ := twin.fields
  cases waiting : s.commandToExecute with
  | none =>
    rw [runCommand_none waiting, runCommand_none (command.trans waiting)]
    exact ⟨twin, rfl⟩
  | some task =>
    by_cases filled : s.argRemains = 0
    · have agree := execute_agree inStep twin.storage (task.execute s.argumentForCommand)
      simp only [runCommand, waiting, command.trans waiting, filled, argRemains.trans filled, if_true, argument]
      generalize (task.execute s.argumentForCommand).execute Storage.call s.storage = ran at agree
      generalize (task.execute s.argumentForCommand).execute Storage.call t.storage = ran' at agree
      obtain ⟨storage, related, rfl⟩ := twin
      cases agree with
      | error same =>
        cases same
        exact ⟨⟨storage, related, rfl⟩, rfl⟩
      | @ok answer answer' same =>
        obtain ⟨result, after⟩ := answer
        obtain ⟨result', after'⟩ := answer'
        obtain ⟨rfl, relatedAfter⟩ := same
        exact oblivious _ _ _ ⟨after', relatedAfter, rfl⟩
    · have missing := Nat.pos_of_ne_zero filled
      rw [runCommand_missing missing, runCommand_missing (argRemains ▸ missing)]
      exact ⟨twin, rfl⟩

/-- What a pass ends with, when the last part of it has come to `ran`. -/
def passed {Store : Type} (rest : Bytes) (ran : Session Store × Option Reason) :
    Except (Interrupt Store) (Session Store × Bytes) :=
  ran.2.elim (.ok (ran.1, rest)) fun reason => .error ⟨ran.1, rest, reason, 0⟩

omit [Storage Store'] in
theorem pass_eq (s : Session Store) (buffer : Bytes) : s.pass deliver buffer =
    ((if s.commandToExecute.isNone then s.parseCommand buffer else .ok (s, buffer)) >>= fun p =>
      passed (p.1.fillArgument p.2).2 (runCommand deliver (p.1.fillArgument p.2).1)) := by
  simp only [pass]
  cases s.commandToExecute with
  | none =>
    simp only [Option.isNone_none, if_true]
    cases s.parseCommand buffer with
    | error i => rfl
    | ok p =>
      simp only [bind, Except.bind]
      generalize runCommand deliver (p.1.fillArgument p.2).1 = ran
      obtain ⟨t, reason⟩ := ran
      cases reason <;> rfl
  | some command =>
    simp only [Option.isNone_some, Bool.false_eq_true, if_false, bind, Except.bind]
    generalize runCommand deliver (s.fillArgument buffer).1 = ran
    obtain ⟨t, reason⟩ := ran
    cases reason <;> rfl

theorem pass_twin (inStep : StoresInStep Related) (oblivious : Oblivious Related deliver deliver')
    (twin : s.Twin Related t) (buffer : Bytes) :
    Agree (TwinInterrupt Related) (TwinRest Related) (s.pass deliver buffer) (t.pass deliver' buffer) := by
  have parsed : Agree (TwinInterrupt Related) (TwinRest Related)
      (if s.commandToExecute.isNone then s.parseCommand buffer else .ok (s, buffer))
      (if t.commandToExecute.isNone then t.parseCommand buffer else .ok (t, buffer)) := by
    rw [twin.fields.1]
    split
    · exact parseCommand_twin twin buffer
    · exact .ok ⟨twin, rfl⟩
  rw [pass_eq, pass_eq]
  apply parsed.bind
  rintro ⟨s, rest⟩ ⟨t, rest'⟩ ⟨twin, rfl⟩
  have filled := fillArgument_twin twin rest
  have ran := runCommand_twin inStep oblivious filled.1
  dsimp only
  rw [← filled.2]
  generalize runCommand deliver (s.fillArgument rest).1 = left at ran
  generalize runCommand deliver' (t.fillArgument rest).1 = right at ran
  obtain ⟨s', reason⟩ := left
  obtain ⟨t', reason'⟩ := right
  obtain ⟨twin', rfl⟩ := ran
  cases reason with
  | some reason => exact .error ⟨twin', rfl, rfl, rfl⟩
  | none => exact .ok ⟨twin', rfl⟩

theorem drain_twin (inStep : StoresInStep Related) (oblivious : Oblivious Related deliver deliver')
    (twin : s.Twin Related t) (fuel : Nat) (buffer : Bytes) :
    Agree (TwinInterrupt Related) (Twin Related) (s.drain deliver fuel buffer)
      (t.drain deliver' fuel buffer) := by
  induction fuel generalizing s t buffer with
  | zero =>
    cases buffer with
    | nil => exact .ok twin
    | cons c buffer => exact .error ⟨twin, rfl, rfl, rfl⟩
  | succ fuel ih =>
    cases buffer with
    | nil => exact .ok twin
    | cons c buffer =>
      apply (pass_twin inStep oblivious twin (c :: buffer)).bind
      rintro ⟨s, rest⟩ ⟨t, rest'⟩ ⟨twin, rfl⟩
      exact ih twin rest

end Session

namespace STblocking

open Session

variable {Store Store' : Type} {Related : Store → Store' → Prop}

theorem deliver_oblivious (sends : Nat → Bool) :
    Oblivious Related (deliver sends : Deliver Store) (deliver sends) := by
  rintro s t response ⟨storage, related, rfl⟩
  have same : (s.storedIn storage).responses = s.responses := rfl
  simp only [deliver, same]
  split
  · exact ⟨⟨storage, related, rfl⟩, rfl⟩
  · exact ⟨⟨storage, related, rfl⟩, rfl⟩

/-- What is left of two connections that a client cannot tell apart. -/
structure TwinServed (Related : Store → Store' → Prop) (left : Served Store) (right : Served Store') : Prop where
  executed : left.executed = right.executed
  responses : left.responses = right.responses
  ended : left.ended = right.ended
  parser : left.parser = right.parser
  argRemains : left.argRemains = right.argRemains
  storage : Related left.storage right.storage

theorem finish_twin {s : Session Store} {t : Session Store'} (twin : s.Twin Related t) (ended : Ended) :
    TwinServed Related (finish s ended) (finish t ended) := by
  obtain ⟨storage, related, rfl⟩ := twin
  exact ⟨rfl, rfl, rfl, rfl, rfl, related⟩

variable [Storage Store] [Storage Store']

theorem receive_twin (inStep : StoresInStep Related) (sends : Nat → Bool) {s : Session Store}
    {t : Session Store'} (twin : s.Twin Related t) (reads : List Read) :
    Agree (TwinInterrupt Related) (Twin Related) (receive sends s reads) (receive sends t reads) := by
  induction reads generalizing s t with
  | nil => exact .ok twin
  | cons bytes reads ih =>
    have drained := drain_twin inStep (deliver_oblivious sends) twin bytes.val.length bytes.val
    simp only [receive]
    generalize s.drain (deliver sends) bytes.val.length bytes.val = left at drained
    generalize t.drain (deliver sends) bytes.val.length bytes.val = right at drained
    cases drained with
    | ok twin => exact ih twin
    | @error i j interrupted =>
      dsimp only
      rw [← interrupted.reason]
      split
      · exact ih interrupted.session
      · exact .error interrupted

theorem onRun_twin (inStep : StoresInStep Related) (sends : Nat → Bool) (parser : Parser) (argRemains : Nat)
    {storage : Store} {storage' : Store'} (related : Related storage storage') (reads : List Read)
    (closes : Bool) :
    TwinServed Related (onRun sends parser argRemains storage reads closes)
      (onRun sends parser argRemains storage' reads closes) := by
  have started : Twin Related (Session.start parser argRemains storage)
      (Session.start parser argRemains storage') := ⟨storage', related, rfl⟩
  have received := receive_twin inStep sends started reads
  simp only [onRun]
  generalize receive sends (Session.start parser argRemains storage) reads = left at received
  generalize receive sends (Session.start parser argRemains storage') reads = right at received
  cases received with
  | ok twin => exact finish_twin twin _
  | @error i j interrupted =>
    dsimp only
    rw [← interrupted.ahead, ← interrupted.reason]
    obtain ⟨storage, related, same⟩ := interrupted.session
    rw [same]
    exact finish_twin ⟨storage, related, rfl⟩ _

/-- What the server does with one client after another, until it crashes. -/
def servedAll (server : Server Store) : List Client → List (Served Store)
  | [] => []
  | client :: clients =>
    let served := serve server client
    served :: match served.ended with
      | .failed (.fault _) _ => []
      | _ => servedAll ⟨served.parser, served.argRemains, served.storage⟩ clients

theorem servedAll_twin (inStep : StoresInStep Related) (parser : Parser) (argRemains : Nat)
    {storage : Store} {storage' : Store'} (related : Related storage storage') (clients : List Client) :
    List.Forall₂ (TwinServed Related) (servedAll ⟨parser, argRemains, storage⟩ clients)
      (servedAll ⟨parser, argRemains, storage'⟩ clients) := by
  induction clients generalizing parser argRemains storage storage' with
  | nil => exact .nil
  | cons client clients ih =>
    have twin := onRun_twin inStep client.sends parser argRemains related client.reads client.closes
    simp only [servedAll, serve]
    apply List.Forall₂.cons twin
    rw [← twin.ended, ← twin.parser, ← twin.argRemains]
    split
    · exact .nil
    · exact ih _ _ twin.storage

/-- Whatever the clients send, a server over a memory answers as one over the cache
    that it starts as. -/
theorem servedAll_refines {maxSize : Nat} (bounded : maxSize < 2 ^ 63) (parser : Parser) (argRemains : Nat)
    (clients : List Client) :
    List.Forall₂ (TwinServed (@Backend.Refines maxSize))
      (servedAll ⟨parser, argRemains, Backend.SimpleLRU.fresh maxSize⟩ clients)
      (servedAll ⟨parser, argRemains, (LruCache.Cache.empty : Backend.ByteCache maxSize)⟩ clients) :=
  servedAll_twin Backend.refines_inStep parser argRemains (Backend.refines_fresh bounded) clients

/-- Two clients, of which the second one makes the server crash. -/
theorem servedAll_refines_two :
    let parser : Parser := ⟨.sName, [], [], 0, 0, 0, false, [], false⟩
    let clients : List Client :=
      [⟨fun _ => true, [⟨ascii "set k 0 0 2\r\nab\r\nget", by decide⟩], true⟩,
        ⟨fun _ => true, [⟨ascii "get k\r\nset k 0 0 1\r\na\r\n", by decide⟩], true⟩]
    List.Forall₂ (TwinServed (@Backend.Refines 1024))
      (servedAll ⟨parser, 0, Backend.SimpleLRU.fresh 1024⟩ clients)
      (servedAll ⟨parser, 0, (LruCache.Cache.empty : Backend.ByteCache 1024)⟩ clients) :=
  servedAll_refines (by decide) _ _ _

end STblocking

/-! ## The event loop -/

namespace STnonblock

open Session Nonblock

variable {Store Store' : Type} {Related : Store → Store' → Prop}

theorem deliver_oblivious (run : Nat → Bool) :
    Oblivious Related (deliver run : Deliver Store) (deliver run) := by
  rintro s t response ⟨storage, related, rfl⟩
  exact ⟨⟨storage, related, rfl⟩, rfl⟩

structure TwinConnection (Related : Store → Store' → Prop) (c : Connection Store) (d : Connection Store') :
    Prop where
  session : c.session.Twin Related d.session
  buffer : c.buffer = d.buffer
  crashed : c.crashed = d.crashed

structure TwinNonblock (Related : Store → Store' → Prop) (c : Nonblock.Connection Store)
    (d : Nonblock.Connection Store') : Prop where
  reading : TwinConnection Related c.reading d.reading
  dataStart : c.dataStart = d.dataStart
  events : c.events = d.events
  alive : c.alive = d.alive

section Calls

variable {c : Nonblock.Connection Store} {d : Nonblock.Connection Store'}

theorem TwinNonblock.responses (twin : TwinNonblock Related c d) : c.responses = d.responses := by
  obtain ⟨storage, -, same⟩ := twin.reading.session
  rw [Nonblock.Connection.responses, Nonblock.Connection.responses, same]
  rfl

theorem TwinNonblock.idle_eq (twin : TwinNonblock Related c d) :
    EventLoop.idle c = EventLoop.idle d := by
  have command := twin.reading.session.fields.1
  rw [EventLoop.idle, EventLoop.idle, twin.responses, command]

theorem TwinNonblock.setOutgoing (twin : TwinNonblock Related c d) (o : Outgoing) :
    TwinNonblock Related (c.setOutgoing o) (d.setOutgoing o) := by
  obtain ⟨storage, related, same⟩ := twin.reading.session
  refine ⟨⟨⟨storage, related, ?_⟩, twin.reading.buffer, twin.reading.crashed⟩, rfl, twin.events, twin.alive⟩
  simp only [Nonblock.Connection.setOutgoing, same]
  rfl

theorem TwinNonblock.awaitWrite (twin : TwinNonblock Related c d) (run : Bool) :
    TwinNonblock Related (c.awaitWrite run) (d.awaitWrite run) :=
  ⟨twin.reading, twin.dataStart, rfl, twin.alive⟩

theorem TwinNonblock.close (twin : TwinNonblock Related c d) : TwinNonblock Related c.close d.close :=
  ⟨twin.reading, twin.dataStart, twin.events, rfl⟩

abbrev TwinCalls (Related : Store → Store' → Prop) :
    Except Halt (Traffic × Nonblock.Connection Store) → Except Halt (Traffic × Nonblock.Connection Store') → Prop :=
  Agree Eq fun p q => p.1 = q.1 ∧ TwinNonblock Related p.2 q.2

/-- What `DoWrite` does after `writev` has accepted some bytes. -/
def wroteOut {Store : Type} (run : Bool) (c : Nonblock.Connection Store) (traffic : Traffic) :
    Except Halt (Traffic × Nonblock.Connection Store) :=
  if c.responses = [] then
    if run then .ok (traffic, { c with events := .rd }) else .ok (traffic, c.close)
  else .ok (traffic, c.awaitWrite run)

theorem wroteOut_twin (twin : TwinNonblock Related c d) (run : Bool) (traffic : Traffic) :
    TwinCalls Related (wroteOut run c traffic) (wroteOut run d traffic) := by
  simp only [wroteOut]
  rw [twin.responses]
  split
  · split
    · exact .ok ⟨rfl, ⟨twin.reading, twin.dataStart, rfl, twin.alive⟩⟩
    · exact .ok ⟨rfl, twin.close⟩
  · exact .ok ⟨rfl, twin.awaitWrite run⟩

theorem doWrite_twin (twin : TwinNonblock Related c d) (run : Bool) (result : Writev) :
    TwinCalls Related (c.doWrite run result) (d.doWrite run result) := by
  have outgoing : c.outgoing = d.outgoing := by
    rw [Nonblock.Connection.outgoing, twin.responses, twin.dataStart]
    rfl
  have advanced : ∀ count, TwinNonblock Related (c.setOutgoing (c.outgoing.advance count))
      (d.setOutgoing (d.outgoing.advance count)) := by
    intro count
    rw [outgoing]
    exact twin.setOutgoing _
  simp only [Nonblock.Connection.doWrite]
  rw [twin.responses]
  split
  · exact .error rfl
  · cases result with
    | failed again =>
      dsimp only
      split
      · exact .ok ⟨rfl, twin.awaitWrite run⟩
      · exact .ok ⟨rfl, twin.close⟩
    | wrote count =>
      cases count with
      | zero => exact .ok ⟨rfl, twin.awaitWrite run⟩
      | succ count =>
        have next := advanced (count + 1)
        show TwinCalls Related
          (if c.outgoing.iovecs.flatten.length < count + 1 then .error .inadmissible
            else wroteOut run (c.setOutgoing (c.outgoing.advance (count + 1)))
              ⟨[], c.outgoing.iovecs.flatten.take (count + 1)⟩)
          (if d.outgoing.iovecs.flatten.length < count + 1 then .error .inadmissible
            else wroteOut run (d.setOutgoing (d.outgoing.advance (count + 1)))
              ⟨[], d.outgoing.iovecs.flatten.take (count + 1)⟩)
        rw [outgoing] at next ⊢
        split
        · exact .error rfl
        · exact wroteOut_twin next run _

end Calls

section Reads

variable [Storage Store] [Storage Store'] {deliver : Deliver Store} {deliver' : Deliver Store'}
  {c : Connection Store} {d : Connection Store'}

theorem receive_twin (inStep : StoresInStep Related) (oblivious : Oblivious Related deliver deliver')
    (twin : TwinConnection Related c d) (bytes : Bytes) :
    TwinConnection Related (Nonblock.Connection.receive deliver c bytes).1
        (Nonblock.Connection.receive deliver' d bytes).1 ∧
      (Nonblock.Connection.receive deliver c bytes).2 = (Nonblock.Connection.receive deliver' d bytes).2 := by
  have drained := drain_twin inStep oblivious twin.session ((c.buffer ++ bytes).length + 1) (c.buffer ++ bytes)
  simp only [Nonblock.Connection.receive, ← twin.buffer]
  generalize c.session.drain deliver ((c.buffer ++ bytes).length + 1) (c.buffer ++ bytes) = left at drained
  generalize d.session.drain deliver' ((c.buffer ++ bytes).length + 1) (c.buffer ++ bytes) = right at drained
  cases drained with
  | ok session => exact ⟨⟨session, rfl, twin.crashed⟩, rfl⟩
  | @error i j interrupted =>
    have kept : TwinConnection Related { c with session := i.session, buffer := i.buffer }
        { d with session := j.session, buffer := j.buffer } :=
      ⟨interrupted.session, interrupted.buffer, twin.crashed⟩
    dsimp only
    rw [← interrupted.reason]
    split
    · exact ⟨kept, rfl⟩
    · exact ⟨kept, rfl⟩

theorem readAll_twin (inStep : StoresInStep Related) (oblivious : Oblivious Related deliver deliver')
    (twin : TwinConnection Related c d) (reads : List Bytes) :
    Option.Rel (fun p q => TwinConnection Related p.1 q.1 ∧ p.2 = q.2)
      (Nonblock.Connection.readAll deliver c reads) (Nonblock.Connection.readAll deliver' d reads) := by
  induction reads generalizing c d with
  | nil => exact .some ⟨twin, rfl⟩
  | cons bytes reads ih =>
    have received := receive_twin inStep oblivious twin bytes
    have room : c.room = d.room := by rw [Connection.room, twin.buffer]; rfl
    simp only [Nonblock.Connection.readAll, room]
    split
    · exact .none
    · generalize Nonblock.Connection.receive deliver c bytes = left at received
      generalize Nonblock.Connection.receive deliver' d bytes = right at received
      obtain ⟨c, reason⟩ := left
      obtain ⟨d, reason'⟩ := right
      obtain ⟨twin, rfl⟩ := received
      cases reason with
      | none => exact ih twin
      | some reason =>
        dsimp only
        split
        · exact .some ⟨twin, rfl⟩
        · exact .none

theorem doRead_twin (inStep : StoresInStep Related) (oblivious : Oblivious Related deliver deliver')
    {c : Nonblock.Connection Store} {d : Nonblock.Connection Store'} (twin : TwinNonblock Related c d)
    (reads : List Bytes) :
    Agree Eq (TwinNonblock Related) (c.doRead deliver reads) (d.doRead deliver' reads) := by
  have read := readAll_twin inStep oblivious twin.reading reads
  simp only [Nonblock.Connection.doRead]
  generalize Nonblock.Connection.readAll deliver c.reading reads = left at read
  generalize Nonblock.Connection.readAll deliver' d.reading reads = right at read
  cases read with
  | none => exact .error rfl
  | @some p q same =>
    obtain ⟨reading, reason⟩ := p
    obtain ⟨reading', reason'⟩ := q
    obtain ⟨twinReading, rfl⟩ := same
    have kept : TwinNonblock Related { c with reading := reading } { d with reading := reading' } :=
      ⟨twinReading, twin.dataStart, twin.events, twin.alive⟩
    have responses : reading.session.responses = reading'.session.responses := kept.responses
    cases reason with
    | none =>
      dsimp only
      rw [responses]
      exact .ok ⟨twinReading, twin.dataStart, rfl, twin.alive⟩
    | some reason =>
      cases reason with
      | shutdown => exact .ok ⟨twinReading, twin.dataStart, rfl, twin.alive⟩
      | fault fault => exact .error rfl
      | parse | build | stuck | send => exact .ok kept

end Reads

/-! ### The loop -/

namespace EventLoop

/-- Two servers that differ in their stores only. -/
structure TwinLoop (Related : Store → Store' → Prop) (s : EventLoop Store) (t : EventLoop Store') : Prop where
  run : s.run = t.run
  nmod : s.nmod = t.nmod
  conns : List.Forall₂ (fun p q => p.1 = q.1 ∧ TwinNonblock (fun _ _ => True) p.2 q.2) s.conns t.conns
  storage : Related s.storage t.storage

/-- The same removals, and twins after them. -/
def TwinLogged (Related : Store → Store' → Prop) (left : Logged Store) (right : Logged Store') : Prop :=
  left.1 = right.1 ∧ Agree Eq (TwinLoop Related) left.2 right.2

section Twins

variable {s : EventLoop Store} {t : EventLoop Store'}

theorem twin_ok (twin : TwinLoop Related s t) (removals : List Removal) :
    TwinLogged Related (removals, .ok s) (removals, .ok t) := ⟨rfl, .ok twin⟩

theorem twin_error (stop : Stop) (removals : List Removal) :
    TwinLogged Related (removals, .error stop) (removals, .error stop) := ⟨rfl, .error rfl⟩

theorem twin_andThen {first : Logged Store} {first' : Logged Store'} {next : EventLoop Store → Logged Store}
    {next' : EventLoop Store' → Logged Store'} (twin : TwinLogged Related first first')
    (twinOn : ∀ s t, TwinLoop Related s t → TwinLogged Related (next s) (next' t)) :
    TwinLogged Related (andThen first next) (andThen first' next') := by
  obtain ⟨removals, result⟩ := first
  obtain ⟨removals', result'⟩ := first'
  obtain ⟨rfl, agree⟩ := twin
  cases agree with
  | error same =>
    cases same
    exact twin_error _ _
  | @ok s t twin =>
    obtain ⟨removed, agreeOn⟩ := twinOn s t twin
    exact ⟨congrArg (removals ++ ·) removed, agreeOn⟩

theorem lookup_twin (twin : TwinLoop Related s t) (pc : Nat) :
    Option.Rel (TwinNonblock fun _ _ => True) (s.conns.lookup pc) (t.conns.lookup pc) := by
  have conns := twin.conns
  generalize s.conns = left at conns ⊢
  generalize t.conns = right at conns ⊢
  induction conns with
  | nil => exact .none
  | @cons p q ps qs same _ ih =>
    obtain ⟨here, connection⟩ := same
    rw [List.lookup_cons, List.lookup_cons, ← here]
    split
    · exact .some connection
    · exact ih

theorem lookup_twin_isSome (twin : TwinLoop Related s t) (pc : Nat) :
    (s.conns.lookup pc).isSome = (t.conns.lookup pc).isSome := by
  have found := lookup_twin twin pc
  generalize s.conns.lookup pc = left at found
  generalize t.conns.lookup pc = right at found
  cases found <;> rfl

theorem insert_twin (twin : TwinLoop Related s t) (pc : Nat) {c : Nonblock.Connection Store}
    {d : Nonblock.Connection Store'} (connection : TwinNonblock (fun _ _ => True) c d) :
    TwinLoop Related (s.insert pc c) (t.insert pc d) := by
  refine ⟨twin.run, twin.nmod, ?_, twin.storage⟩
  simp only [insert]
  have conns := twin.conns
  generalize s.conns = left at conns ⊢
  generalize t.conns = right at conns ⊢
  induction conns with
  | nil => exact .cons ⟨rfl, connection⟩ .nil
  | @cons p q ps qs same rest ih =>
    simp only [List.orderedInsert_cons, same.1]
    split
    · exact .cons ⟨rfl, connection⟩ (.cons same rest)
    · exact .cons same ih

theorem deleteConnection_twin (twin : TwinLoop Related s t) (pc : Nat) :
    TwinLoop Related (s.deleteConnection pc) (t.deleteConnection pc) := by
  refine ⟨twin.run, twin.nmod, ?_, twin.storage⟩
  simp only [deleteConnection]
  have conns := twin.conns
  generalize s.conns = left at conns ⊢
  generalize t.conns = right at conns ⊢
  induction conns with
  | nil => exact .nil
  | @cons p q ps qs same rest ih =>
    simp only [List.filter_cons, same.1]
    split
    · exact .cons same ih
    · exact ih

theorem update_twin (twin : TwinLoop Related s t) (pc : Nat) {c : Nonblock.Connection Store}
    {d : Nonblock.Connection Store'} (connection : TwinNonblock (fun _ _ => True) c d) :
    TwinLoop Related (s.update pc c) (t.update pc d) := by
  refine ⟨twin.run, twin.nmod, ?_, twin.storage⟩
  simp only [update]
  have conns := twin.conns
  generalize s.conns = left at conns ⊢
  generalize t.conns = right at conns ⊢
  induction conns with
  | nil => exact .nil
  | @cons p q ps qs same rest ih =>
    simp only [List.map_cons, same.1]
    apply List.Forall₂.cons _ ih
    split
    · exact ⟨rfl, connection⟩
    · exact same

theorem onNewConnection_twin (twin : TwinLoop Related s t) (accepts : List (Option Accept)) :
    TwinLogged Related (s.onNewConnection accepts) (t.onNewConnection accepts) := by
  induction accepts generalizing s t with
  | nil => exact twin_ok twin []
  | cons accept accepts ih =>
    cases accept with
    | none => exact twin_error _ _
    | some accept =>
      have free := lookup_twin_isSome twin accept.pc
      have inserted := insert_twin twin accept.pc
        (c := .start accept.parser accept.argRemains s.storage)
        (d := .start accept.parser accept.argRemains t.storage)
        ⟨⟨⟨t.storage, trivial, rfl⟩, rfl, rfl⟩, rfl, rfl, rfl⟩
      simp only [onNewConnection, free]
      split
      · exact twin_error _ _
      · split
        · apply twin_andThen _ fun s t twin => ih twin
          rw [inserted.run]
          exact twin_ok (deleteConnection_twin inserted _) _
        · exact ih inserted

theorem settle_twin (twin : TwinLoop Related s t) (report : Report) (oldMask : Mask)
    {c : Nonblock.Connection Store} {d : Nonblock.Connection Store'}
    (connection : TwinNonblock (fun _ _ => True) c d) :
    TwinLogged Related (settle s report oldMask c) (settle t report oldMask d) := by
  simp only [settle]
  rw [connection.alive, connection.events, twin.run]
  split
  · exact twin_ok (deleteConnection_twin twin _) _
  · split
    · exact twin_ok (deleteConnection_twin twin _) _
    · exact twin_ok (update_twin twin _ connection) _

theorem sweep_twin (twin : TwinLoop Related s t) : TwinLogged Related s.sweep t.sweep := by
  have found : Option.Rel (fun p q => p.1 = q.1) (s.conns.find? fun entry => idle entry.2)
      (t.conns.find? fun entry => idle entry.2) := by
    have conns := twin.conns
    generalize s.conns = left at conns ⊢
    generalize t.conns = right at conns ⊢
    induction conns with
    | nil => exact .none
    | @cons p q ps qs same _ ih =>
      rw [List.find?_cons, List.find?_cons, same.2.idle_eq]
      split
      · exact .some same.1
      · exact ih
  simp only [sweep]
  rw [twin.run]
  generalize (s.conns.find? fun entry => idle entry.2) = left at found
  generalize (t.conns.find? fun entry => idle entry.2) = right at found
  cases found with
  | none => exact twin_ok twin []
  | @some p q same =>
    obtain ⟨pc, c⟩ := p
    obtain ⟨pc', d⟩ := q
    cases same
    exact twin_error _ _

end Twins

section Handling

variable [Storage Store] [Storage Store'] {s : EventLoop Store} {t : EventLoop Store'}

theorem call_twin (inStep : StoresInStep Related) {c : Nonblock.Connection Store}
    {d : Nonblock.Connection Store'} (twin : TwinNonblock Related c d) (run : Bool) (report : Report) :
    Agree Eq (TwinNonblock Related) (call run c report) (call run d report) := by
  have writes : ∀ c d, TwinNonblock Related c d →
      Agree Eq (TwinNonblock Related) (writeOut run c report) (writeOut run d report) := by
    intro c d twin
    simp only [writeOut]
    split
    · have wrote := doWrite_twin twin run report.writev
      generalize c.doWrite run report.writev = left at wrote
      generalize d.doWrite run report.writev = right at wrote
      cases wrote with
      | error same => exact .error same
      | ok same => exact .ok same.2
    · exact .ok twin
  have reads : Agree Eq (TwinNonblock Related) (readIn run c report) (readIn run d report) := by
    simp only [readIn]
    split
    · have oblivious : Oblivious Related (Server.stNonblock.deliver fun _ => run : Deliver Store)
          (Server.stNonblock.deliver fun _ => run) := deliver_oblivious _
      exact doRead_twin inStep oblivious twin report.reads
    · exact .ok twin
  simp only [call]
  split
  · exact .ok twin.close
  · split
    · exact .ok twin.close
    · generalize readIn run c report = left at reads
      generalize readIn run d report = right at reads
      cases reads with
      | error same => exact .error same
      | ok twin => exact writes _ _ twin

theorem onConnection_twin (inStep : StoresInStep Related) (twin : TwinLoop Related s t) (report : Report) :
    TwinLogged Related (s.onConnection report) (t.onConnection report) := by
  have found := lookup_twin twin report.pc
  obtain ⟨run, nmod, conns, storage⟩ := s
  obtain ⟨run', nmod', conns', storage'⟩ := t
  obtain ⟨rfl, rfl, twinConns, related⟩ := twin
  simp only [onConnection] at found ⊢
  generalize conns.lookup report.pc = left at found
  generalize conns'.lookup report.pc = right at found
  cases found with
  | none => exact twin_error _ _
  | @some c d connection =>
    dsimp only
    rw [connection.events]
    split
    · exact twin_error _ _
    · -- the connections are looked up with the storage of the server
      have current : TwinNonblock Related (withStorage c storage) (withStorage d storage') := by
        obtain ⟨stale, -, same⟩ := connection.reading.session
        refine ⟨⟨⟨storage', related, ?_⟩, connection.reading.buffer, connection.reading.crashed⟩,
          connection.dataStart, connection.events, connection.alive⟩
        simp only [withStorage, same]
        rfl
      have called := call_twin inStep current run report
      generalize call run (withStorage c storage) report = left at called
      generalize call run (withStorage d storage') report = right at called
      cases called with
      | error same =>
        cases same
        exact twin_error _ _
      | @ok next next' twinNext =>
        have forgets : TwinNonblock (fun _ _ => True) next next' := by
          obtain ⟨after, -, same⟩ := twinNext.reading.session
          exact ⟨⟨⟨after, trivial, same⟩, twinNext.reading.buffer, twinNext.reading.crashed⟩,
            twinNext.dataStart, twinNext.events, twinNext.alive⟩
        have stored : TwinLoop Related ⟨run, nmod, conns, next.reading.session.storage⟩
            ⟨run, nmod, conns', next'.reading.session.storage⟩ :=
          ⟨rfl, rfl, twinConns, twinNext.reading.session.storage⟩
        exact settle_twin stored report _ forgets

theorem onEvents_twin (inStep : StoresInStep Related) (twin : TwinLoop Related s t) (events : List Event) :
    TwinLogged Related (s.onEvents events) (t.onEvents events) := by
  induction events generalizing s t with
  | nil => exact twin_ok twin []
  | cons event events ih =>
    refine twin_andThen ?_ fun s t twin => ih twin
    cases event with
    | stop ctlFails =>
      cases ctlFails with
      | true => exact twin_error _ _
      | false => exact ⟨rfl, .ok ⟨rfl, twin.nmod, twin.conns, twin.storage⟩⟩
    | accept accepts => exact onNewConnection_twin twin accepts
    | connection report => exact onConnection_twin inStep twin report

theorem step_twin (inStep : StoresInStep Related) (twin : TwinLoop Related s t) (events : List Event) :
    Agree Eq (SameReply (TwinLoop Related)) (step events s) (step events t) := by
  have goes : s.goesOn = t.goesOn := by
    have empty : s.conns.isEmpty = t.conns.isEmpty := by
      have conns := twin.conns
      generalize s.conns = left at conns
      generalize t.conns = right at conns
      cases conns <;> rfl
    rw [goesOn, goesOn, twin.run, twin.nmod, empty]
  have may : s.mayReturn events = t.mayReturn events := by
    simp only [mayReturn, lookup_twin_isSome twin]
  have rounds : TwinLogged Related (s.round events) (t.round events) := by
    simp only [round, goes, may]
    split
    · exact twin_error _ _
    · split
      · exact twin_error _ _
      · apply twin_andThen _ fun s t twin => sweep_twin twin
        have begun : TwinLoop Related { s with nmod := events.length } { t with nmod := events.length } :=
          ⟨twin.run, rfl, twin.conns, twin.storage⟩
        exact onEvents_twin inStep begun events
  simp only [step]
  generalize s.round events = left at rounds
  generalize t.round events = right at rounds
  obtain ⟨removals, result⟩ := left
  obtain ⟨removals', result'⟩ := right
  obtain ⟨rfl, agree⟩ := rounds
  cases agree with
  | error same =>
    cases same
    exact .error rfl
  | ok twin => exact .ok ⟨rfl, twin⟩

end Handling

/-- Over a memory and over the cache it starts as, the event loop removes the same
    connections, ends alike and leaves the same to be written; and so it does from any
    two states with the same connections and a memory that refines the cache. -/
theorem runs_refine {maxSize : Nat} (bounded : maxSize < 2 ^ 63) (batches : List (List Event)) :
    Agree Eq (SameReply (TwinLoop (@Backend.Refines maxSize)))
        (Runs.runs step batches (start (Backend.SimpleLRU.fresh maxSize)))
        (Runs.runs step batches (start (LruCache.Cache.empty : Backend.ByteCache maxSize))) ∧
      ∀ s t, TwinLoop (@Backend.Refines maxSize) s t →
        Agree Eq (SameReply (TwinLoop (@Backend.Refines maxSize))) (Runs.runs step batches s)
          (Runs.runs step batches t) := by
  have started : TwinLoop (@Backend.Refines maxSize) (start (Backend.SimpleLRU.fresh maxSize))
      (start LruCache.Cache.empty) := ⟨rfl, rfl, .nil, Backend.refines_fresh bounded⟩
  have any : ∀ s t, TwinLoop (@Backend.Refines maxSize) s t →
      Agree Eq (SameReply (TwinLoop (@Backend.Refines maxSize))) (Runs.runs step batches s)
        (Runs.runs step batches t) :=
    fun s t twins => runs_agree (fun events _ _ twin => step_twin Backend.refines_inStep twin events) twins batches
  exact ⟨any _ _ started, any⟩

/-- A connection with a response to be written is read from and written to, and the
    server is stopped. -/
theorem runs_refine_two :
    let reading : Report := ⟨1, false, false, false, true, false,
      [ascii "set k 0 0 2\r\nab\r\nget"], .failed true, false⟩
    let writing : Report := ⟨1, false, false, false, false, true, [], .wrote 3, false⟩
    let batches : List (List Event) := [[.connection reading], [.connection writing, .stop false]]
    let connection {Store : Type} (storage : Store) : Nonblock.Connection Store :=
      { (Nonblock.Connection.start ⟨.sName, [], [], 0, 0, 0, false, [], false⟩ 0 storage).setOutgoing
          ⟨[ascii "END\r\n"], 0⟩ with
        events := .rdwr }
    Agree Eq (SameReply (TwinLoop (@Backend.Refines 1024)))
      (Runs.runs step batches ⟨true, 0, [(1, connection (Backend.SimpleLRU.fresh 1024))], Backend.SimpleLRU.fresh 1024⟩)
      (Runs.runs step batches ⟨true, 0, [(1, connection (LruCache.Cache.empty : Backend.ByteCache 1024))],
        LruCache.Cache.empty⟩) := by
  refine (runs_refine (by decide) _).2 _ _ ⟨rfl, rfl, ?_, Backend.refines_fresh (by decide)⟩
  exact .cons ⟨rfl, ⟨⟨⟨LruCache.Cache.empty, trivial, rfl⟩, rfl, rfl⟩, rfl, rfl, rfl⟩⟩ .nil

end EventLoop

end STnonblock

end Afina.Network
