import TsSem02.Network.STnonblock
import TsSem02.Network.Outgoing

/-! # A connection under epoll

`Connection` of the two non-blocking servers with all that `Start`, `DoRead`,
`DoWrite`, `OnError` and `OnClose` read and write.  The servers share these
functions, up to what `DoRead` leaves behind when the server is being stopped:
that is the parameter `deliver`.

* `stream_intact` — the socket has accepted a prefix of all responses, and the
  rest of them is pending;
* `scheduled_iff` — the connection waits for EPOLLOUT exactly while it has
  responses, unless a `DoRead` throws after its first response.
-/

namespace Afina.Network

open Protocol Execute Session

/-- Whether the exception handler of `DoRead` is for it. -/
def Reason.caught : Reason → Bool
  | parse _ | build _ | stuck | send => true
  | shutdown | fault _ => false

namespace MTnonblock

/-- Keep the response for `DoWrite`; a server that is being stopped does not
    prepare for the next command. -/
def deliver {Store : Type} (run : Nat → Bool) : Deliver Store := fun s response =>
  if run s.responses.length then (s.respond response, none)
  else ({ s with responses := s.responses ++ [response] }, some .shutdown)

end MTnonblock

namespace Nonblock

open Runs

/-- `_event.events` -/
inductive Mask where
  | rd    -- `MASK_EPOLLRD`
  | wr    -- `MASK_EPOLLWR`
  | rdwr  -- `MASK_EPOLLRDWR`
deriving DecidableEq, Repr

def Mask.epollin : Mask → Bool
  | wr => false
  | rd | rdwr => true

def Mask.epollout : Mask → Bool
  | rd => false
  | wr | rdwr => true

/-- A connection; its vector `responses` is the one of the session. -/
structure Connection (Store : Type) where
  reading : STnonblock.Connection Store
  dataStart : Int
  events : Mask
  alive : Bool

inductive Halt where
  | inadmissible  -- `read` or `writev` returns more than it was asked for
  | assertion     -- `assert(responses.size() > 0)`
  | fault (fault : Fault)
deriving DecidableEq, Repr

/-- What a call adds to the responses, and what it gets rid of. -/
structure Traffic where
  pushed : List Bytes
  accepted : Bytes
deriving DecidableEq, Repr

/-- A call, with what the system calls return and `server->run` says meanwhile.
    What the storage replies is up to the store of the session: it may be one
    that other connections use in between. -/
inductive Call where
  | doRead (run : Nat → Bool) (reads : List Bytes)
  | doWrite (run : Bool) (result : Writev)
  | onError
  | onClose

namespace Connection

variable {Store : Type}

def start (parser : Parser) (argRemains : Nat) (storage : Store) : Connection Store where
  reading := STnonblock.Connection.start parser argRemains storage
  dataStart := 0
  events := .rd
  alive := true

def responses (c : Connection Store) : List Bytes := c.reading.session.responses

def outgoing (c : Connection Store) : Outgoing := ⟨c.responses, c.dataStart⟩

def setOutgoing (c : Connection Store) (o : Outgoing) : Connection Store :=
  { c with
    reading := { c.reading with session := { c.reading.session with responses := o.responses } }
    dataStart := o.dataStart }

/-- `OnError` and `OnClose` -/
def close (c : Connection Store) : Connection Store := { c with alive := false }

/-- The interest in a connection that has responses. -/
def awaitWrite (c : Connection Store) (run : Bool) : Connection Store :=
  { c with events := if run then .rdwr else .wr }

def doWrite (c : Connection Store) (run : Bool) (result : Writev) :
    Except Halt (Traffic × Connection Store) :=
  if c.responses = [] then .error .assertion
  else match result with
  | .failed again =>
    if again then .ok (⟨[], []⟩, c.awaitWrite run) else .ok (⟨[], []⟩, c.close)
  | .wrote 0 => .ok (⟨[], []⟩, c.awaitWrite run)
  | .wrote count =>
    let offered := c.outgoing.iovecs.flatten
    if offered.length < count then .error .inadmissible
    else
      let c := c.setOutgoing (c.outgoing.advance count)
      let traffic : Traffic := ⟨[], offered.take count⟩
      if c.responses = [] then
        if run then .ok (traffic, { c with events := .rd }) else .ok (traffic, c.close)
      else .ok (traffic, c.awaitWrite run)

variable [Storage Store]

/-- What is done with the bytes of one `read`, and what ends the call, if
    something does; only the command that a stopped server has left behind is
    executed without taking a byte. -/
def receive (deliver : Deliver Store) (c : STnonblock.Connection Store) (bytes : Bytes) :
    STnonblock.Connection Store × Option Reason :=
  match c.session.drain deliver ((c.buffer ++ bytes).length + 1) (c.buffer ++ bytes) with
  | .ok s => ({ c with session := s, buffer := [] }, none)
  | .error i =>
    match i.reason with
    | .stuck => ({ c with session := i.session, buffer := i.buffer }, none)
    | reason => ({ c with session := i.session, buffer := i.buffer }, some reason)

/-- The loop over the calls of `read` that succeed. -/
def readAll (deliver : Deliver Store) (c : STnonblock.Connection Store) (reads : List Bytes) :
    Option (STnonblock.Connection Store × Option Reason) :=
  match reads with
  | [] => some (c, none)
  | bytes :: reads =>
    -- `read` returns a positive count, and no more than there is room for
    if bytes = [] ∨ c.room < bytes.length then none
    else match receive deliver c bytes with
    | (c, none) => readAll deliver c reads
    -- nothing is read after a `return` or a throw
    | (c, some reason) => if reads = [] then some (c, some reason) else none

/-- `DoRead`, without what it pushes. -/
def doRead (deliver : Deliver Store) (c : Connection Store) (reads : List Bytes) :
    Except Halt (Connection Store) :=
  match readAll deliver c.reading reads with
  | none => .error .inadmissible
  | some (reading, none) =>
    .ok { c with
      reading := reading
      events := if reading.session.responses = [] then .rd else .rdwr }
  | some (reading, some .shutdown) => .ok { c with reading := reading, events := .wr }
  | some (_, some (.fault fault)) => .error (.fault fault)
  | some (reading, some _) => .ok { c with reading := reading }  -- the exception handler

def step (deliver : (Nat → Bool) → Deliver Store) (call : Call) (c : Connection Store) :
    Except Halt (Traffic × Connection Store) :=
  match call with
  | .doRead run reads =>
    match c.doRead (deliver run) reads with
    | .error halt => .error halt
    | .ok next => .ok (⟨next.responses.drop c.responses.length, []⟩, next)
  | .doWrite run result => c.doWrite run result
  | .onError | .onClose => .ok (⟨[], []⟩, c.close)

end Connection

/-! ## What a session pushes -/

/-- The responses have grown by some that are not empty. -/
def Pushed {Store : Type} (s t : Session Store) : Prop :=
  ∃ more, t.responses = s.responses ++ more ∧ ∀ response ∈ more, response ≠ []

/-- A response is kept, and only a server that is being stopped ends the call. -/
structure Keeps {Store : Type} (deliver : Deliver Store) : Prop where
  responses : ∀ s response, (deliver s response).1.responses = s.responses ++ [response]
  reason : ∀ s response, (deliver s response).2 = none ∨ (deliver s response).2 = some .shutdown

theorem keeps_stNonblock {Store : Type} (run : Nat → Bool) :
    Keeps (STnonblock.deliver run : Deliver Store) where
  responses _ _ := rfl
  reason s _ := by
    by_cases running : run s.responses.length <;> simp [STnonblock.deliver, running]

theorem keeps_mtNonblock {Store : Type} (run : Nat → Bool) :
    Keeps (MTnonblock.deliver run : Deliver Store) where
  responses s _ := by
    by_cases running : run s.responses.length <;> simp [MTnonblock.deliver, running, respond, next]
  reason s _ := by
    by_cases running : run s.responses.length <;> simp [MTnonblock.deliver, running]

section Pushing

variable {Store : Type} [Storage Store] {deliver : Deliver Store} {s t : Session Store}
  {bytes rest : Bytes} {i : Interrupt Store}

omit [Storage Store] in
theorem Pushed.refl (s : Session Store) : Pushed s s := ⟨[], by simp⟩

omit [Storage Store] in
theorem Pushed.of_eq (same : t.responses = s.responses) : Pushed s t := ⟨[], by simp [same]⟩

omit [Storage Store] in
theorem Pushed.trans {u : Session Store} (first : Pushed s t) (second : Pushed t u) : Pushed s u := by
  obtain ⟨more, grown, nonempty⟩ := first
  obtain ⟨more', grown', nonempty'⟩ := second
  refine ⟨more ++ more', by rw [grown', grown, List.append_assoc], fun response member => ?_⟩
  rcases List.mem_append.mp member with old | new
  · exact nonempty response old
  · exact nonempty' response new

/-- Where a part of a call ends: after a response, when the server is stopped. -/
structure Ends (s : Session Store) (reason : Reason) (t : Session Store) : Prop where
  pushed : Pushed s t
  shutdown : reason = .shutdown → t.responses ≠ []

theorem runCommand_pushes (keeps : Keeps deliver) (s : Session Store) :
    Pushed s (s.runCommand deliver).1 ∧
      ∀ reason, (s.runCommand deliver).2 = some reason → Ends s reason (s.runCommand deliver).1 := by
  have did := runCommand_ran deliver s
  generalize s.runCommand deliver = ran at did ⊢
  cases did with
  | waits => exact ⟨.refl s, fun reason none => by cases none⟩
  | faults =>
    refine ⟨.of_eq rfl, fun reason failed => ⟨.of_eq rfl, ?_⟩⟩
    rintro rfl
    cases failed
  | answers _ result _ _ _ _ delivered =>
    rw [← delivered]
    have grown := keeps.responses
    have pushed : ∀ u : Session Store, u.responses = s.responses →
        Pushed s (deliver u (result ++ crlf)).1 := by
      intro u same
      refine ⟨[result ++ crlf], by rw [grown, same], fun response member => ?_⟩
      rw [List.mem_singleton.mp member]
      -- a response ends in CRLF
      exact List.append_ne_nil_of_right_ne_nil result (by decide)
    refine ⟨pushed _ rfl, fun reason _ => ⟨pushed _ rfl, fun _ => ?_⟩⟩
    rw [grown]
    simp

omit [Storage Store] in
theorem parseCommand_ok (parsed : s.parseCommand bytes = .ok (t, rest)) :
    t.responses = s.responses := by
  simp only [parseCommand] at parsed
  split at parsed
  · cases parsed
  · next parser n returned =>
    have kept := (buildCommand_keeps ({ s.hand n with parser := parser } : Session Store)).responses
    split at parsed
    · cases parsed
    · next u builds =>
      rw [builds] at kept
      split at parsed
      · cases parsed
      · cases parsed
        exact kept

omit [Storage Store] in
theorem parseCommand_error (failed : s.parseCommand bytes = .error i) :
    i.session.responses = s.responses ∧ i.reason ≠ .shutdown := by
  simp only [parseCommand] at failed
  split at failed
  · cases failed
    exact ⟨rfl, by simp⟩
  · next parser n returned =>
    have kept := (buildCommand_keeps ({ s.hand n with parser := parser } : Session Store)).responses
    split at failed
    · next u reason builds =>
      rw [builds] at kept
      cases failed
      refine ⟨kept, ?_⟩
      rintro rfl
      simp only [buildCommand] at builds
      split at builds
      · split at builds <;> cases builds
      · cases builds
    · next u builds =>
      rw [builds] at kept
      split at failed
      · cases failed
        exact ⟨kept, by simp⟩
      · cases failed

omit [Storage Store] in
theorem fillArgument_responses (s : Session Store) (bytes : Bytes) :
    (s.fillArgument bytes).1.responses = s.responses := by
  simp only [fillArgument]
  split <;> rfl

structure Pushes (s : Session Store) (result : Except (Session Store × Reason) (Session Store × Bytes)) :
    Prop where
  ok : ∀ t rest, result = .ok (t, rest) → Pushed s t
  error : ∀ t reason, result = .error (t, reason) → Ends s reason t

theorem fill_pushes (keeps : Keeps deliver) (s : Session Store) (bytes : Bytes) :
    Pushes s (fill deliver (s, bytes)) := by
  obtain ⟨pushed, ends⟩ := runCommand_pushes keeps (s.fillArgument bytes).1
  have same := Pushed.of_eq (fillArgument_responses s bytes)
  unfold fill
  constructor
  · intro t rest filled
    cases ran : outcome ((s.fillArgument bytes).1.runCommand deliver) with
    | error stopped => simp [ran, Except.map] at filled
    | ok u =>
      simp only [ran, Except.map] at filled
      cases filled
      rw [outcome_ok.mp ran] at pushed
      exact same.trans pushed
  · intro t reason filled
    cases ran : outcome ((s.fillArgument bytes).1.runCommand deliver) with
    | ok u => simp [ran, Except.map] at filled
    | error stopped =>
      simp only [ran, Except.map] at filled
      cases filled
      rw [outcome_error.mp ran] at ends
      have ended := ends reason rfl
      exact ⟨same.trans ended.pushed, ended.shutdown⟩

theorem pass_pushes (keeps : Keeps deliver) (s : Session Store) (bytes : Bytes) :
    Pushes s (settle (s.pass deliver bytes)) := by
  cases waiting : s.commandToExecute with
  | some command =>
    rw [pass_some waiting]
    exact fill_pushes keeps s bytes
  | none =>
    rw [pass_none waiting]
    cases parsed : s.parseCommand bytes with
    | error i =>
      obtain ⟨kept, reason⟩ := parseCommand_error parsed
      constructor
      · intro t rest passed
        cases passed
      · intro t reason' failed
        cases failed
        exact ⟨.of_eq kept, fun shutdown => absurd shutdown reason⟩
    | ok u =>
      obtain ⟨u, rest⟩ := u
      have same : Pushed s u := .of_eq (parseCommand_ok parsed)
      have filled := fill_pushes keeps u rest
      constructor
      · intro t rest' passed
        exact same.trans (filled.ok t rest' passed)
      · intro t reason failed
        have ended := filled.error t reason failed
        exact ⟨same.trans ended.pushed, ended.shutdown⟩

theorem drain_pushes (keeps : Keeps deliver) (fuel : Nat) (s : Session Store) (bytes : Bytes) :
    (∀ t, settle (s.drain deliver fuel bytes) = .ok t → Pushed s t) ∧
      ∀ t reason, settle (s.drain deliver fuel bytes) = .error (t, reason) → Ends s reason t := by
  induction fuel generalizing s bytes with
  | zero =>
    cases bytes with
    | nil =>
      constructor
      · intro t same
        cases same
        exact .refl s
      · intro t reason failed
        cases failed
    | cons b bytes =>
      refine ⟨fun t same => (by cases same), fun t reason failed => ?_⟩
      cases failed
      exact ⟨.of_eq rfl, fun shutdown => by cases shutdown⟩
  | succ fuel ih =>
    cases bytes with
    | nil =>
      constructor
      · intro t same
        cases same
        exact .refl s
      · intro t reason failed
        cases failed
    | cons b bytes =>
      have pushes := pass_pushes keeps s (b :: bytes)
      have unfolded : settle (s.drain deliver (fuel + 1) (b :: bytes)) =
          (settle (s.pass deliver (b :: bytes)) >>= fun u => settle (u.1.drain deliver fuel u.2)) :=
        settle_bind _ _
      rw [unfolded]
      cases passed : settle (s.pass deliver (b :: bytes)) with
      | error stopped =>
        refine ⟨fun t same => (by cases same), fun t reason failed => ?_⟩
        cases failed
        exact pushes.error t reason passed
      | ok u =>
        have first := pushes.ok u.1 u.2 passed
        obtain ⟨okRest, errorRest⟩ := ih u.1 u.2
        refine ⟨fun t same => first.trans (okRest t same), fun t reason failed => ?_⟩
        have ended := errorRest t reason failed
        exact ⟨first.trans ended.pushed, ended.shutdown⟩

end Pushing

/-! ## What a call pushes -/

section Reading

variable {Store : Type} [Storage Store] {deliver : Deliver Store} {c d : STnonblock.Connection Store}
  {bytes : Bytes} {reads : List Bytes} {reason : Reason}

theorem receive_ok {s : Session Store}
    (drained : c.session.drain deliver ((c.buffer ++ bytes).length + 1) (c.buffer ++ bytes) = .ok s) :
    Connection.receive deliver c bytes = ({ c with session := s, buffer := [] }, none) := by
  rw [Connection.receive, drained]

theorem receive_error {i : Interrupt Store}
    (drained : c.session.drain deliver ((c.buffer ++ bytes).length + 1) (c.buffer ++ bytes) = .error i) :
    Connection.receive deliver c bytes =
      ({ c with session := i.session, buffer := i.buffer },
        if i.reason = .stuck then none else some i.reason) := by
  rw [Connection.receive, drained]
  cases reason : i.reason <;> simp [reason]

theorem receive_pushes (keeps : Keeps deliver) (c : STnonblock.Connection Store) (bytes : Bytes) :
    Pushed c.session (Connection.receive deliver c bytes).1.session ∧
      ∀ reason, (Connection.receive deliver c bytes).2 = some reason →
        Ends c.session reason (Connection.receive deliver c bytes).1.session := by
  obtain ⟨ok, error⟩ :=
    drain_pushes keeps ((c.buffer ++ bytes).length + 1) c.session (c.buffer ++ bytes)
  cases drained : c.session.drain deliver ((c.buffer ++ bytes).length + 1) (c.buffer ++ bytes) with
  | ok s =>
    rw [drained] at ok
    rw [receive_ok drained]
    exact ⟨ok s rfl, fun reason none => by cases none⟩
  | error i =>
    rw [drained] at error
    obtain ⟨pushed, shutdown⟩ := error _ i.reason rfl
    rw [receive_error drained]
    refine ⟨pushed, fun reason is => ?_⟩
    split at is
    · cases is
    · cases is
      exact ⟨pushed, shutdown⟩

theorem readAll_pushes (keeps : Keeps deliver) (reads : List Bytes)
    (read : Connection.readAll deliver c reads = some (d, end?)) :
    Pushed c.session d.session ∧ ∀ reason, end? = some reason → Ends c.session reason d.session := by
  induction reads generalizing c with
  | nil =>
    cases read
    exact ⟨.refl _, fun reason none => by cases none⟩
  | cons bytes reads ih =>
    obtain ⟨pushed, ends⟩ := receive_pushes keeps c bytes
    rw [Connection.readAll] at read
    split at read
    · cases read
    · split at read
      · next next received =>
        rw [received] at pushed
        obtain ⟨pushedRest, endsRest⟩ := ih read
        refine ⟨pushed.trans pushedRest, fun reason is => ?_⟩
        have ended := endsRest reason is
        exact ⟨pushed.trans ended.pushed, ended.shutdown⟩
      · next next reason received =>
        rw [received] at pushed ends
        split at read
        · cases read
          exact ⟨pushed, fun reason' is => by cases is; exact ends reason rfl⟩
        · cases read

inductive Reads (deliver : Deliver Store) (c : Connection Store) (reads : List Bytes)
    (next : Connection Store) : Prop
  | drained (reading : STnonblock.Connection Store) :
    Connection.readAll deliver c.reading reads = some (reading, none) →
    next = { c with
      reading := reading, events := if reading.session.responses = [] then .rd else .rdwr } →
    Reads deliver c reads next
  | shutdown (reading : STnonblock.Connection Store) :
    Connection.readAll deliver c.reading reads = some (reading, some .shutdown) →
    next = { c with reading := reading, events := .wr } → Reads deliver c reads next
  | caught (reading : STnonblock.Connection Store) (reason : Reason) :
    Connection.readAll deliver c.reading reads = some (reading, some reason) →
    reason.caught = true → next = { c with reading := reading } → Reads deliver c reads next

theorem doRead_cases {c next : Connection Store} (called : c.doRead deliver reads = .ok next) :
    Reads deliver c reads next := by
  rw [Connection.doRead] at called
  split at called
  · cases called
  · next reading read =>
    cases called
    exact .drained reading read rfl
  · next reading read =>
    cases called
    exact .shutdown reading read rfl
  · cases called
  · next reading reason notShutdown notFault read =>
    cases called
    refine .caught reading reason read ?_ rfl
    cases reason with
    | shutdown => exact absurd rfl notShutdown
    | fault fault => exact absurd rfl (notFault fault)
    | parse | build | stuck | send => rfl

theorem doRead_pushes (keeps : Keeps deliver) {c next : Connection Store}
    (called : c.doRead deliver reads = .ok next) :
    Pushed c.reading.session next.reading.session ∧ next.dataStart = c.dataStart ∧
      next.alive = c.alive := by
  cases doRead_cases called with
  | drained reading read same =>
    subst same
    exact ⟨(readAll_pushes keeps reads read).1, rfl, rfl⟩
  | shutdown reading read same =>
    subst same
    exact ⟨(readAll_pushes keeps reads read).1, rfl, rfl⟩
  | caught reading reason read thrown same =>
    subst same
    exact ⟨(readAll_pushes keeps reads read).1, rfl, rfl⟩

end Reading

/-! ## What `DoWrite` can do -/

inductive Writes {Store : Type} (c : Connection Store) (run : Bool) :
    Writev → Traffic → Connection Store → Prop
  | failed : Writes c run (.failed false) ⟨[], []⟩ c.close
  | again (result : Writev) : Writes c run result ⟨[], []⟩ (c.awaitWrite run)
  | drained (count : Nat) : 0 < count → count ≤ c.outgoing.iovecs.flatten.length →
    (c.outgoing.advance count).responses = [] →
    Writes c run (.wrote count) ⟨[], c.outgoing.iovecs.flatten.take count⟩
      (if run then { c.setOutgoing (c.outgoing.advance count) with events := .rd }
        else (c.setOutgoing (c.outgoing.advance count)).close)
  | wrote (count : Nat) : 0 < count → count ≤ c.outgoing.iovecs.flatten.length →
    (c.outgoing.advance count).responses ≠ [] →
    Writes c run (.wrote count) ⟨[], c.outgoing.iovecs.flatten.take count⟩
      ((c.setOutgoing (c.outgoing.advance count)).awaitWrite run)

section Writing

variable {Store : Type} {c next : Connection Store} {run : Bool} {result : Writev} {traffic : Traffic}

theorem doWrite_cases (called : c.doWrite run result = .ok (traffic, next)) :
    c.responses ≠ [] ∧ Writes c run result traffic next := by
  unfold Connection.doWrite at called
  split at called
  · cases called
  · next waiting =>
    refine ⟨waiting, ?_⟩
    split at called
    · next again =>
      cases again with
      | true =>
        cases called
        exact .again _
      | false =>
        cases called
        exact .failed
    · cases called
      exact .again _
    · next count positive =>
      have positive : 0 < count := Nat.pos_of_ne_zero positive
      dsimp only at called
      split at called
      · cases called
      · next admissible =>
        have admissible := Nat.le_of_not_lt admissible
        split at called
        · next drained =>
          have done : Writes c run (.wrote count) _ _ := .drained count positive admissible drained
          cases run with
          | true => cases called; exact done
          | false => cases called; exact done
        · next more =>
          cases called
          exact .wrote count positive admissible more

@[simp] theorem responses_close (c : Connection Store) : c.close.responses = c.responses := rfl

@[simp] theorem outgoing_close (c : Connection Store) : c.close.outgoing = c.outgoing := rfl

@[simp] theorem responses_setOutgoing (c : Connection Store) (o : Outgoing) :
    (c.setOutgoing o).responses = o.responses := rfl

@[simp] theorem outgoing_setOutgoing (c : Connection Store) (o : Outgoing) :
    (c.setOutgoing o).outgoing = o := rfl

theorem doWrite_outgoing (sound : c.outgoing.Sound) (bounded : c.outgoing.pending.length < 2 ^ 31)
    (called : c.doWrite run result = .ok (traffic, next)) :
    c.outgoing.pending = traffic.accepted ++ next.outgoing.pending ∧ next.outgoing.Sound ∧
      next.responses <:+ c.responses ∧ traffic.pushed = [] := by
  obtain ⟨waiting, writes⟩ := doWrite_cases called
  -- what happens to the vector is the same whether or not it gets empty
  have moved : ∀ count ≤ c.outgoing.iovecs.flatten.length,
      c.outgoing.pending =
          c.outgoing.iovecs.flatten.take count ++ (c.outgoing.advance count).pending ∧
        (c.outgoing.advance count).Sound ∧
        (c.outgoing.advance count).responses <:+ c.responses := by
    intro count offered
    obtain ⟨rest, pending⟩ := Outgoing.iovecs_isPrefix sound
    have accepted : count ≤ c.outgoing.pending.length := by
      rw [← pending, List.length_append]
      omega
    refine ⟨?_, Outgoing.advance_sound sound waiting bounded accepted, ?_⟩
    · rw [Outgoing.advance_pending sound waiting bounded accepted, ← pending,
        List.drop_append_of_le_length offered, ← List.append_assoc, List.take_append_drop]
    · rw [Outgoing.advance_eq sound waiting bounded accepted]
      exact Chunks.advance_suffix _ _
  cases writes with
  | failed => exact ⟨rfl, sound, List.suffix_rfl, rfl⟩
  | again => exact ⟨rfl, sound, List.suffix_rfl, rfl⟩
  | drained count positive offered drained =>
    obtain ⟨pending, soundNext, suffix⟩ := moved count offered
    cases run with
    | true => exact ⟨pending, soundNext, suffix, rfl⟩
    | false => exact ⟨pending, soundNext, suffix, rfl⟩
  | wrote count positive offered more =>
    obtain ⟨pending, soundNext, suffix⟩ := moved count offered
    exact ⟨pending, soundNext, suffix, rfl⟩

end Writing

/-! ## Both servers -/

inductive Server where
  | stNonblock
  | mtNonblock
deriving DecidableEq, Repr

/-- What the server does with a response while it executes commands. -/
def Server.deliver {Store : Type} : Server → (Nat → Bool) → Deliver Store
  | stNonblock, run => STnonblock.deliver run
  | mtNonblock, run => MTnonblock.deliver run

theorem Server.keeps {Store : Type} (server : Server) (run : Nat → Bool) :
    Keeps (server.deliver run : Deliver Store) := by
  cases server with
  | stNonblock => exact keeps_stNonblock run
  | mtNonblock => exact keeps_mtNonblock run

section Streams

variable {Store : Type} [Storage Store] {server : Server} {c next : Connection Store} {call : Call}
  {traffic : Traffic} {earlier : List Traffic}

/-- The responses so far, split into what was accepted and what is pending. -/
structure Intact (earlier : List Traffic) (c : Connection Store) : Prop where
  stream : (earlier.flatMap Traffic.pushed).flatten =
    earlier.flatMap Traffic.accepted ++ c.outgoing.pending
  kept : c.responses <:+ earlier.flatMap Traffic.pushed
  sound : c.outgoing.Sound

omit [Storage Store] in
theorem intact_start (parser : Parser) (argRemains : Nat) (storage : Store) :
    Intact [] (Connection.start parser argRemains storage) where
  stream := rfl
  kept := List.suffix_rfl
  sound := by constructor <;> simp [Connection.outgoing, Connection.responses, Connection.start,
    STnonblock.Connection.start, Session.start]

theorem step_intact (intact : Intact earlier c) (bounded : c.outgoing.pending.length < 2 ^ 31)
    (stepped : Connection.step server.deliver call c = .ok (traffic, next)) :
    Intact (earlier ++ [traffic]) next := by
  obtain ⟨stream, kept, sound⟩ := intact
  simp only [Connection.step] at stepped
  cases call with
  | doRead run reads =>
    dsimp only at stepped
    split at stepped
    · cases stepped
    · next read =>
      cases stepped
      obtain ⟨⟨more, grown, nonempty⟩, dataStart, -⟩ := doRead_pushes (server.keeps run) read
      have grown : next.responses = c.responses ++ more := grown
      have pushed : next.responses.drop c.responses.length = more := by
        rw [grown, List.drop_left]
      have outgoing : next.outgoing = ⟨c.responses ++ more, c.dataStart⟩ := by
        rw [Connection.outgoing, grown, dataStart]
      rw [pushed]
      constructor
      · rw [outgoing, show (⟨c.responses ++ more, c.dataStart⟩ : Outgoing).pending = _ from
          Outgoing.push_pending sound more]
        simp [stream]
      · rw [grown, List.flatMap_append]
        obtain ⟨gone, split⟩ := kept
        exact ⟨gone, by simp [← split]⟩
      · rw [outgoing]
        exact Outgoing.push_sound sound nonempty
  | doWrite run result =>
    obtain ⟨pending, soundNext, suffix, pushed⟩ := doWrite_outgoing sound bounded stepped
    constructor
    · simp [stream, pending, pushed]
    · simpa [pushed] using suffix.trans kept
    · exact soundNext
  | onError | onClose =>
    cases stepped
    exact ⟨by simp [stream], by simpa using kept, sound⟩

/-- Whatever `writev` returns, the socket has accepted a prefix of all responses,
    and the rest of them is pending. -/
theorem stream_intact {calls : List Call} {parser : Parser} {argRemains : Nat} {storage : Store}
    {traffics : List Traffic}
    (bounded : Throughout (Connection.step server.deliver)
      (fun c _ => (c.responses.flatten.drop c.dataStart.toNat).length < 2 ^ 31)
      (Connection.start parser argRemains storage) calls)
    (ran : runs (Connection.step server.deliver) calls (Connection.start parser argRemains storage) =
      .ok (traffics, c)) :
    (traffics.flatMap Traffic.pushed).flatten =
        traffics.flatMap Traffic.accepted ++ c.responses.flatten.drop c.dataStart.toNat ∧
      c.responses <:+ traffics.flatMap Traffic.pushed ∧
      (c.responses = [] → c.dataStart = 0) ∧
      ∀ first rest, c.responses = first :: rest → 0 ≤ c.dataStart ∧ c.dataStart < first.length := by
  have preserved : ∀ earlier call (c : Connection Store) traffic next, Intact earlier c →
      (c.responses.flatten.drop c.dataStart.toNat).length < 2 ^ 31 →
      Connection.step server.deliver call c = .ok (traffic, next) → Intact (earlier ++ [traffic]) next :=
    fun earlier call c traffic next => step_intact
  obtain ⟨stream, kept, sound⟩ :=
    runs_history preserved (intact_start parser argRemains storage) bounded ran
  exact ⟨stream, kept, sound.atStart, sound.inside⟩

/-- Three bytes of a response are accepted, then nothing for a while. -/
theorem stream_intact_partly : ∃ traffics c, runs (Connection.step Server.stNonblock.deliver)
      [.doRead (fun _ => true) [ascii "get ", ascii "k\r\n"], .doWrite true (.wrote 3),
        .doWrite true (.failed true)]
      (Connection.start ⟨.sName, [], [], 0, 0, 0, false, [], false⟩ 0 (Backend.SimpleLRU.fresh 1024)) =
        .ok (traffics, c) ∧
    (traffics.flatMap Traffic.pushed).flatten =
        traffics.flatMap Traffic.accepted ++ c.responses.flatten.drop c.dataStart.toNat ∧
      c.responses <:+ traffics.flatMap Traffic.pushed ∧
      (c.responses = [] → c.dataStart = 0) ∧
      ∀ first rest, c.responses = first :: rest → 0 ≤ c.dataStart ∧ c.dataStart < first.length := by
  obtain ⟨traffics, c, ran⟩ := exists_of_isOk
    (by decide +kernel : (runs (Connection.step Server.stNonblock.deliver)
      [.doRead (fun _ => true) [ascii "get ", ascii "k\r\n"], .doWrite true (.wrote 3),
        .doWrite true (.failed true)]
      (Connection.start ⟨.sName, [], [], 0, 0, 0, false, [], false⟩ 0
        (Backend.SimpleLRU.fresh 1024))).isOk)
  exact ⟨traffics, c, ran, stream_intact (by decide +kernel) ran⟩

end Streams

/-! ## The bytes of a call -/

section Feeding

variable {Store : Type} [Storage Store] {deliver : Deliver Store} {s t : Session Store}
  {c d : STnonblock.Connection Store} {bytes : Bytes} {reads : List Bytes} {reason : Reason}

omit [Storage Store] in
/-- No line is complete that has not been made a command. -/
def Awaits (s : Session Store) : Prop := s.commandToExecute = none → s.parser.parseComplete = false

omit [Storage Store] in
/-- What the calls leave: a line on which `Build` has thrown is built again. -/
def Resumable (s : Session Store) : Prop := Awaits s ∨ ∃ error, STnonblock.Rejected s error

omit [Storage Store] in
theorem Resumable.congr (resumable : Resumable s) (parser : t.parser = s.parser)
    (command : t.commandToExecute = s.commandToExecute) : Resumable t := by
  obtain awaits | ⟨error, rejected⟩ := resumable
  · refine .inl fun none => ?_
    rw [parser]
    exact awaits (command ▸ none)
  · refine .inr ⟨error, ⟨?_, ?_, ?_⟩⟩
    · rw [command, rejected.waiting]
    · rw [parser, rejected.complete]
    · rw [parser, rejected.rejects]

/-- The command that a stopped server has left behind, and then the bytes one
    after another. -/
def resume (deliver : Deliver Store) (s : Session Store) (bytes : Bytes) :
    Except (Session Store × Reason) (Session Store) :=
  outcome (s.runCommand deliver) >>= fun s => s.feedAll deliver bytes

/-- What holds of the deliveries of both servers. -/
structure Resumes {Store : Type} (deliver : Deliver Store) : Prop where
  responds : Responds deliver
  unstuck : Unstuck deliver
  awaits : ∀ s response, s.commandToExecute ≠ none → Awaits (deliver s response).1

theorem resumes_stNonblock {Store : Type} (run : Nat → Bool) :
    Resumes (STnonblock.deliver run : Deliver Store) where
  responds _ _ _ delivered := (congrArg Prod.fst delivered).symm
  unstuck s response s' delivered := by
    have reason := congrArg Prod.snd delivered
    by_cases running : run s.responses.length <;> simp [STnonblock.deliver, running] at reason
  awaits _ _ _ _ := rfl

theorem resumes_mtNonblock {Store : Type} (run : Nat → Bool) :
    Resumes (MTnonblock.deliver run : Deliver Store) where
  responds s response s' delivered := by
    by_cases running : run s.responses.length
    · rw [MTnonblock.deliver, if_pos running] at delivered
      exact (congrArg Prod.fst delivered).symm
    · rw [MTnonblock.deliver, if_neg running] at delivered
      cases congrArg Prod.snd delivered
  unstuck s response s' delivered := by
    have reason := congrArg Prod.snd delivered
    by_cases running : run s.responses.length <;> simp [MTnonblock.deliver, running] at reason
  awaits s response command := by
    by_cases running : run s.responses.length
    · rw [MTnonblock.deliver, if_pos running]
      exact fun _ => rfl
    · rw [MTnonblock.deliver, if_neg running]
      exact fun none => absurd none command

theorem Server.resumes {Store : Type} (server : Server) (run : Nat → Bool) :
    Resumes (server.deliver run : Deliver Store) := by
  cases server with
  | stNonblock => exact resumes_stNonblock run
  | mtNonblock => exact resumes_mtNonblock run

theorem runCommand_resumable (resumes : Resumes deliver)
    (ran : s.runCommand deliver = (t, some reason)) :
    (∃ fault, reason = .fault fault) ∨ Awaits t := by
  have did := runCommand_ran deliver s
  rw [ran] at did
  cases did with
  | faults _ fault => exact .inl ⟨fault, rfl⟩
  | answers command result storage _ waiting _ delivered =>
    right
    have awaits := resumes.awaits { s with
      executed := s.executed ++ [(command, s.argumentForCommand)], storage := storage }
      (result ++ crlf) (by simp [waiting])
    rw [delivered] at awaits
    exact awaits

theorem feedAll_resumable (resumes : Resumes deliver) (ready : s.Ready)
    (failed : s.feedAll deliver bytes = .error (t, reason)) :
    (∃ fault, reason = .fault fault) ∨ Resumable t := by
  induction bytes generalizing s with
  | nil => cases failed
  | cons b bytes ih =>
    rw [feedAll_cons] at failed
    cases took : s.feed deliver b with
    | ok u =>
      rw [took] at failed
      exact ih (feed_ready resumes.responds ready took) failed
    | error e =>
      rw [took] at failed
      cases failed
      have did := feed_fed deliver s b
      rw [took] at did
      cases did with
      | argument _ _ _ ran =>
        exact (runCommand_resumable resumes (outcome_error.mp ran)).imp_right .inl
      | throws error waiting => exact .inr (.inl ready.incomplete)
      | rejects _ _ _ waiting _ builds =>
        obtain fault | ⟨error, rfl⟩ := STnonblock.buildCommand_reason builds
        · exact .inl fault
        · exact .inr (.inr ⟨error, STnonblock.buildCommand_rejects builds waiting⟩)
      | parses _ _ _ _ _ _ ran =>
        exact (runCommand_resumable resumes (outcome_error.mp ran)).imp_right .inl

theorem resume_cases (resumes : Resumes deliver) (awaits : Awaits s) (bytes : Bytes) :
    (∃ t, resume deliver s bytes = .ok t ∧ t.Ready) ∨
      ∃ t reason, resume deliver s bytes = .error (t, reason) ∧ reason ≠ .stuck ∧
        ((∃ fault, reason = .fault fault) ∨ Resumable t) := by
  unfold resume
  cases ran : s.runCommand deliver with
  | mk u end? =>
    cases end? with
    | some reason =>
      refine .inr ⟨u, reason, rfl, ?_, (runCommand_resumable resumes ran).imp_right .inl⟩
      rintro rfl
      exact runCommand_unstuck resumes.unstuck ran
    | none =>
      have ready : u.Ready := runCommand_ready resumes.responds awaits ran
      cases fed : u.feedAll deliver bytes with
      | ok t => exact .inl ⟨t, fed, feedAll_ready resumes.responds ready fed⟩
      | error e =>
        obtain ⟨t, reason⟩ := e
        refine .inr ⟨t, reason, fed, ?_, feedAll_resumable resumes ready fed⟩
        rintro rfl
        exact feedAll_unstuck resumes.unstuck fed

theorem resume_ready (ready : s.Ready) (bytes : Bytes) :
    resume deliver s bytes = s.feedAll deliver bytes := by
  have nothing : s.runCommand deliver = (s, none) := by
    cases waiting : s.commandToExecute with
    | none => exact runCommand_none waiting
    | some command => exact runCommand_missing (ready.waits command waiting)
  rw [resume, nothing]
  rfl

theorem resume_append (s : Session Store) (left right : Bytes) :
    resume deliver s (left ++ right) =
      (resume deliver s left >>= fun t => t.feedAll deliver right) := by
  unfold resume
  cases outcome (s.runCommand deliver) with
  | error e => rfl
  | ok u => exact feedAll_append u left right

/-- Draining a buffer runs what has been left behind, and takes its bytes one
    after another. -/
theorem settle_drain_resume (resumes : Resumes deliver) (awaits : Awaits s) (nonempty : bytes ≠ []) :
    settle (s.drain deliver (bytes.length + 1) bytes) = resume deliver s bytes := by
  by_cases ready : s.Ready
  · rw [resume_ready ready, settle_drain resumes.responds ready (Nat.le_succ _)]
  · -- a command without bytes to wait for
    obtain ⟨command, waiting, filled⟩ : ∃ command, s.commandToExecute = some command ∧ s.argRemains = 0 := by
      by_contra none
      refine ready ⟨awaits, fun command waiting => Nat.pos_of_ne_zero fun filled => ?_⟩
      exact none ⟨command, waiting, filled⟩
    obtain ⟨b, rest, rfl⟩ := List.exists_cons_of_ne_nil nonempty
    have unfolded : settle (s.drain deliver ((b :: rest).length + 1) (b :: rest)) =
        (settle (s.pass deliver (b :: rest)) >>= fun u =>
          settle (u.1.drain deliver (b :: rest).length u.2)) := settle_bind _ _
    rw [unfolded, pass_some waiting, fill_nothing (fillArgument_zero filled), resume]
    cases ran : s.runCommand deliver with
    | mk u end? =>
      cases end? with
      | some reason => rfl
      | none =>
        have ready : u.Ready := runCommand_ready resumes.responds awaits ran
        exact settle_drain resumes.responds ready (Nat.le_refl _)

/-- Where a call is when it has read some bytes. -/
inductive Resumed (deliver : Deliver Store) (s : Session Store) (bytes : Bytes)
    (d : STnonblock.Connection Store) : Option Reason → Prop
  | ok : resume deliver s bytes = .ok d.session → d.session.Ready → d.buffer = [] →
    Resumed deliver s bytes d none
  | error (t : Session Store) (reason : Reason) : resume deliver s bytes = .error (t, reason) →
    t.responses = d.session.responses → ((∃ fault, reason = .fault fault) ∨ Resumable d.session) →
    Resumed deliver s bytes d (some reason)

theorem receive_resumed (resumes : Resumes deliver) (awaits : Awaits c.session) (nonempty : bytes ≠ []) :
    Resumed deliver c.session (c.buffer ++ bytes) (Connection.receive deliver c bytes).1
      (Connection.receive deliver c bytes).2 := by
  have settled := settle_drain_resume resumes awaits (List.append_ne_nil_of_right_ne_nil c.buffer nonempty)
  cases drained : c.session.drain deliver ((c.buffer ++ bytes).length + 1) (c.buffer ++ bytes) with
  | ok s =>
    rw [drained] at settled
    rw [receive_ok drained]
    obtain ⟨t, fed, ready⟩ | ⟨t, reason, failed, -⟩ := resume_cases resumes awaits (c.buffer ++ bytes)
    · rw [fed] at settled
      cases settled
      exact .ok fed ready rfl
    · rw [failed] at settled
      cases settled
  | error i =>
    rw [drained] at settled
    rw [receive_error drained]
    obtain ⟨t, fed, -⟩ | ⟨t, reason, failed, unstuck, left⟩ :=
      resume_cases resumes awaits (c.buffer ++ bytes)
    · rw [fed] at settled
      cases settled
    · rw [failed] at settled
      cases settled
      rw [if_neg unstuck]
      exact .error _ _ failed rfl (left.imp_right fun resumable => resumable.congr rfl rfl)

/-- A call has done what its bytes ask for. -/
theorem readAll_resumed (resumes : Resumes deliver) (awaits : Awaits c.session) (nonempty : reads ≠ [])
    (read : Connection.readAll deliver c reads = some (d, end?)) :
    Resumed deliver c.session (c.buffer ++ reads.flatten) d end? := by
  induction reads generalizing c with
  | nil => exact absurd rfl nonempty
  | cons bytes reads ih =>
    rw [Connection.readAll] at read
    split at read
    · cases read
    · next possible =>
      have received := receive_resumed resumes awaits (not_or.mp possible).1
      split at read
      · next next same =>
        rw [same] at received
        cases received with
        | ok fed ready empty =>
          by_cases last : reads = []
          · subst last
            cases read
            rw [List.flatten_singleton]
            exact .ok fed ready empty
          · have rest := ih ready.incomplete last read
            rw [empty, List.nil_append] at rest
            have joined : resume deliver c.session (c.buffer ++ (bytes :: reads).flatten) =
                resume deliver next.session reads.flatten := by
              rw [List.flatten_cons, ← List.append_assoc, resume_append, fed, resume_ready ready]
              rfl
            cases rest with
            | ok fedRest readyRest emptyRest => exact .ok (joined.trans fedRest) readyRest emptyRest
            | error t reason failed responses left => exact .error t reason (joined.trans failed) responses left
      · next next reason same =>
        rw [same] at received
        split at read
        · next last =>
          subst last
          cases read
          rw [List.flatten_singleton]
          exact received
        · cases read

/-- What `read` may return: something, no more than there is room for, and
    nothing once a line has thrown or the server is being stopped. -/
def Admissible (deliver : Deliver Store) (s : Session Store) (buffer : Bytes) : List Bytes → Prop
  | [] => True
  | bytes :: reads =>
    bytes ≠ [] ∧ buffer.length + bytes.length ≤ bufferSize ∧
      (reads = [] ∨ ∃ t, resume deliver s (buffer ++ bytes) = .ok t ∧ Admissible deliver t [] reads)

theorem readAll_isSome (resumes : Resumes deliver) (awaits : Awaits c.session) :
    (Connection.readAll deliver c reads).isSome ↔ Admissible deliver c.session c.buffer reads := by
  induction reads generalizing c with
  | nil => exact iff_of_true rfl trivial
  | cons bytes reads ih =>
    rw [Connection.readAll, Admissible]
    by_cases nonempty : bytes = []
    · simp [nonempty]
    have fits : c.room < bytes.length ↔ ¬ c.buffer.length + bytes.length ≤ bufferSize := by
      have positive := List.length_pos_of_ne_nil nonempty
      rw [STnonblock.Connection.room]
      omega
    by_cases room : c.buffer.length + bytes.length ≤ bufferSize
    · rw [if_neg (by simp [nonempty, fits, room])]
      have received := receive_resumed resumes awaits nonempty
      generalize Connection.receive deliver c bytes = result at received
      obtain ⟨next, end?⟩ := result
      cases received with
      | ok fed ready empty =>
        have rest := ih ready.incomplete
        rw [empty] at rest
        simp only [rest, fed, nonempty, room, ne_eq, not_false_iff, true_and, Except.ok.injEq,
          exists_eq_left']
        refine ⟨.inr, fun possible => possible.elim (fun last => ?_) id⟩
        rw [last]
        trivial
      | error t reason failed responses left =>
        by_cases last : reads = [] <;> simp [last, nonempty, room, failed]
    · rw [if_pos (.inr (fits.mpr room))]
      simp [room]

/-- The line on which `Build` has thrown is at the front of the buffer still. -/
theorem readAll_rejected {error : ParseError} (rejected : STnonblock.Rejected c.session error)
    (nonempty : reads ≠ []) (read : Connection.readAll deliver c reads = some (d, end?)) :
    d.session.responses = c.session.responses ∧ STnonblock.Rejected d.session error := by
  obtain ⟨bytes, reads, rfl⟩ := List.exists_cons_of_ne_nil nonempty
  rw [Connection.readAll] at read
  split at read
  · cases read
  · next possible =>
    obtain ⟨b, rest, buffer⟩ := List.exists_cons_of_ne_nil
      (List.append_ne_nil_of_right_ne_nil c.buffer (not_or.mp possible).1)
    obtain ⟨i, drained, reason, -, -, responses, still⟩ :=
      @STnonblock.drain_rejected Store _ c.session deliver error (rest.length + 1) b rest rejected
    rw [← buffer, show rest.length + 1 + 1 = (c.buffer ++ bytes).length + 1 by rw [buffer]; rfl] at drained
    rw [receive_error drained, reason] at read
    simp only [reduceCtorEq, if_false] at read
    split at read
    · cases read
      exact ⟨responses, still⟩
    · cases read

theorem readAll_resumable (resumes : Resumes deliver) (resumable : Resumable c.session)
    (read : Connection.readAll deliver c reads = some (d, end?)) :
    (∃ fault, end? = some (.fault fault)) ∨ Resumable d.session := by
  by_cases nonempty : reads = []
  · subst nonempty
    cases read
    exact .inr resumable
  obtain awaits | ⟨error, rejected⟩ := resumable
  · cases readAll_resumed resumes awaits nonempty read with
    | ok _ ready => exact .inr (.inl ready.incomplete)
    | error _ reason _ _ left => exact left.imp_left fun ⟨fault, same⟩ => ⟨fault, congrArg some same⟩
  · exact .inr (.inr ⟨error, (readAll_rejected rejected nonempty read).2⟩)

end Feeding

/-! ## The interest in EPOLLOUT -/

section Scheduling

variable {Store : Type} [Storage Store] {server : Server} {c next : Connection Store} {call : Call}
  {traffic : Traffic}

/-- A connection that is alive waits for EPOLLOUT if and only if it has responses. -/
def Connection.Scheduled (c : Connection Store) : Prop :=
  c.alive = true → (c.events.epollout = true ↔ c.responses ≠ [])

/-- What the event loop relies on when it makes a call. -/
structure KeepsScheduled (server : Server) (c : Connection Store) (call : Call) : Prop where
  scheduled : ∀ traffic next, Connection.step server.deliver call c = .ok (traffic, next) →
    next.Scheduled
  writes : ∀ run result, call = .doWrite run result → c.alive = true → c.events.epollout = true →
    Connection.step server.deliver call c ≠ .error .assertion

/-- The bytes of a call hold a command and, behind it, a line that `Parse` or
    `Build` throws on, and there were no responses before. -/
def Strands (server : Server) (c : Connection Store) : Call → Prop
  | .doRead run reads =>
    c.alive = true ∧ c.responses = [] ∧ Awaits c.reading.session ∧ reads ≠ [] ∧
      Admissible (server.deliver run) c.reading.session c.reading.buffer reads ∧
      ∃ t reason, resume (server.deliver run) c.reading.session (c.reading.buffer ++ reads.flatten) =
        .error (t, reason) ∧ reason.caught = true ∧ t.responses ≠ []
  | .doWrite .. | .onError | .onClose => False

/-- Then the call ends in the exception handler, with the only responses of the
    connection. -/
theorem strands_iff {run : Nat → Bool} {reads : List Bytes} (resumable : Resumable c.reading.session) :
    Strands server c (.doRead run reads) ↔
      c.alive = true ∧ c.responses = [] ∧ ∃ reading reason,
        Connection.readAll (server.deliver run) c.reading reads = some (reading, some reason) ∧
          reason.caught = true ∧ reading.session.responses ≠ [] := by
  have resumes : Resumes (server.deliver run : Deliver Store) := server.resumes run
  constructor
  · rintro ⟨alive, none, awaits, nonempty, admissible, t, reason, failed, caught, pushed⟩
    obtain ⟨⟨reading, end?⟩, read⟩ :=
      Option.isSome_iff_exists.mp ((readAll_isSome resumes awaits).mpr admissible)
    refine ⟨alive, none, ?_⟩
    cases readAll_resumed resumes awaits nonempty read with
    | ok fed =>
      rw [failed] at fed
      cases fed
    | error u reason' failed' responses =>
      rw [failed] at failed'
      cases failed'
      exact ⟨reading, reason, read, caught, responses ▸ pushed⟩
  · rintro ⟨alive, none, reading, reason, read, caught, pushed⟩
    have nonempty : reads ≠ [] := by
      rintro rfl
      cases read
    obtain awaits | ⟨error, rejected⟩ := resumable
    · have admissible := (readAll_isSome resumes awaits).mp (by rw [read]; rfl)
      refine ⟨alive, none, awaits, nonempty, admissible, ?_⟩
      cases readAll_resumed resumes awaits nonempty read with
      | error t _ failed responses => exact ⟨t, reason, failed, caught, responses.symm ▸ pushed⟩
    · exact absurd ((readAll_rejected rejected nonempty read).1.trans none) pushed

omit [Storage Store] in
theorem doWrite_scheduled {run : Bool} {result : Writev}
    (called : c.doWrite run result = .ok (traffic, next)) : next.Scheduled := by
  obtain ⟨waiting, writes⟩ := doWrite_cases called
  have awaits : ∀ c : Connection Store, c.responses ≠ [] → (c.awaitWrite run).Scheduled := by
    intro c waiting alive
    refine iff_of_true ?_ waiting
    cases run <;> rfl
  have closed : ∀ c : Connection Store, c.close.Scheduled := fun c alive => by cases alive
  cases writes with
  | failed => exact closed c
  | again => exact awaits c waiting
  | drained count positive offered drained =>
    cases run with
    | true => exact fun alive => iff_of_false Bool.false_ne_true fun more => more drained
    | false => exact closed _
  | wrote count positive offered more => exact awaits _ more

theorem doRead_scheduled_iff {run : Nat → Bool} {reads : List Bytes} (scheduled : c.Scheduled)
    (resumable : Resumable c.reading.session) :
    (∀ next, c.doRead (server.deliver run) reads = .ok next → next.Scheduled) ↔
      ¬ Strands server c (.doRead run reads) := by
  rw [strands_iff resumable]
  constructor
  · rintro kept ⟨alive, none, reading, reason, read, caught, pushed⟩
    -- the handler leaves the mask as it is, without EPOLLOUT
    have called : c.doRead (server.deliver run) reads = .ok { c with reading := reading } := by
      rw [Connection.doRead, read]
      cases reason <;> first | rfl | cases caught
    have waits := (kept _ called alive).mpr pushed
    exact (scheduled alive).mp waits none
  · intro safe next called
    cases doRead_cases called with
    | drained reading read same =>
      subst same
      intro alive
      by_cases none : reading.session.responses = []
      · simp [Connection.responses, none, Mask.epollout]
      · simp [Connection.responses, none, Mask.epollout]
    | shutdown reading read same =>
      subst same
      have responses := ((readAll_pushes (server.keeps run) reads read).2 _ rfl).shutdown rfl
      exact fun alive => iff_of_true rfl responses
    | caught reading reason read caught same =>
      subst same
      intro alive
      obtain ⟨more, grown, -⟩ := (readAll_pushes (server.keeps run) reads read).1
      -- the mask is that of before the call, so the responses have to be as many as then
      by_cases waiting : c.responses = []
      · have unchanged : reading.session.responses = [] := by
          by_contra pushed
          exact safe ⟨alive, waiting, reading, reason, read, caught, pushed⟩
        exact iff_of_false (fun waits => (scheduled alive).mp waits waiting) fun more => more unchanged
      · refine iff_of_true ((scheduled alive).mpr waiting) fun unchanged => waiting ?_
        rw [show c.responses = c.reading.session.responses from rfl]
        have unchanged : reading.session.responses = [] := unchanged
        rw [unchanged] at grown
        exact (List.append_eq_nil_iff.mp grown.symm).1

theorem keepsScheduled_iff (scheduled : c.Scheduled) (resumable : Resumable c.reading.session) :
    KeepsScheduled server c call ↔ ¬ Strands server c call := by
  have writes : ∀ run result, call = .doWrite run result → c.alive = true →
      c.events.epollout = true → Connection.step server.deliver call c ≠ .error .assertion := by
    rintro run result rfl alive waits asserts
    have waiting := (scheduled alive).mp waits
    simp only [Connection.step, Connection.doWrite, waiting, if_false] at asserts
    split at asserts
    · split at asserts <;> cases asserts
    · cases asserts
    · split at asserts
      · cases asserts
      · split at asserts
        · split at asserts <;> cases asserts
        · cases asserts
  cases call with
  | doRead run reads =>
    rw [← doRead_scheduled_iff scheduled resumable]
    constructor
    · intro keeps next called
      refine keeps.scheduled ⟨next.responses.drop c.responses.length, []⟩ next ?_
      simp only [Connection.step, called]
    · refine fun kept => ⟨fun traffic next stepped => ?_, writes⟩
      simp only [Connection.step] at stepped
      split at stepped
      · cases stepped
      · next called =>
        cases stepped
        exact kept _ called
  | doWrite run result => exact iff_of_true ⟨fun _ _ => doWrite_scheduled, writes⟩ id
  | onError | onClose =>
    refine iff_of_true ⟨fun traffic next stepped => ?_, writes⟩ id
    cases stepped
    exact fun alive => by cases alive

theorem step_resumable (resumable : Resumable c.reading.session)
    (stepped : Connection.step server.deliver call c = .ok (traffic, next)) :
    Resumable next.reading.session := by
  cases call with
  | doRead run reads =>
    simp only [Connection.step] at stepped
    split at stepped
    · cases stepped
    · next d called =>
      cases stepped
      have kept : ∀ reading end?, Connection.readAll (server.deliver run) c.reading reads = some (reading, end?) →
          (∀ fault, end? ≠ some (.fault fault)) → Resumable reading.session := by
        intro reading end? read noFault
        refine (readAll_resumable (server.resumes run) resumable read).resolve_left ?_
        exact fun ⟨fault, same⟩ => noFault fault same
      cases doRead_cases called with
      | drained reading read same =>
        subst same
        exact kept reading none read fun fault same => by cases same
      | shutdown reading read same =>
        subst same
        exact kept reading _ read fun fault same => by cases same
      | caught reading reason read caught same =>
        subst same
        exact kept reading _ read fun fault same => by cases same; cases caught
  | doWrite run result =>
    obtain ⟨-, writes⟩ := doWrite_cases stepped
    cases writes with
    | failed | again | wrote => exact resumable.congr rfl rfl
    | drained =>
      cases run with
      | true | false => exact resumable.congr rfl rfl
  | onError | onClose =>
    cases stepped
    exact resumable.congr rfl rfl

/-- A connection waits for EPOLLOUT exactly while it has responses, and none of its
    calls of `DoWrite` is without a response, if and only if no `DoRead` of a
    connection without responses reads a command and then a line that throws. -/
theorem scheduled_iff (server : Server) (parser : Parser) (argRemains : Nat) (storage : Store)
    (calls : List Call) :
    Throughout (Connection.step server.deliver) (KeepsScheduled server)
        (Connection.start parser argRemains storage) calls ↔
      Throughout (Connection.step server.deliver) (fun c call => ¬ Strands server c call)
        (Connection.start parser argRemains storage) calls := by
  have initially : (Connection.start parser argRemains storage).Scheduled ∧
      Resumable (Connection.start parser argRemains storage).reading.session :=
    ⟨fun alive => iff_of_false Bool.false_ne_true fun more => more rfl, .inl fun _ => rfl⟩
  have agree : ∀ (c : Connection Store) call, c.Scheduled ∧ Resumable c.reading.session →
      (KeepsScheduled server c call ↔ ¬ Strands server c call) :=
    fun c call sound => keepsScheduled_iff sound.1 sound.2
  refine Throughout.congr_of_keeps ?_ agree initially calls
  exact fun c call traffic next sound keeps stepped =>
    ⟨keeps.scheduled traffic next stepped, step_resumable sound.2 stepped⟩

/-- A command and a malformed line arrive together. -/
theorem not_scheduled_malformed : ¬ ∀ (server : Server) (calls : List Call),
    Throughout (Connection.step server.deliver) (KeepsScheduled server)
      (Connection.start ⟨.sName, [], [], 0, 0, 0, false, [], false⟩ 0 (Backend.SimpleLRU.fresh 1024))
      calls := by
  intro always
  obtain ⟨⟨scheduled, -⟩, -⟩ :=
    always .stNonblock [.doRead (fun _ => true) [ascii "get k\r\na\r\n"]]
  have stranded : (Connection.step Server.stNonblock.deliver
      (.doRead (fun _ => true) [ascii "get k\r\na\r\n"])
      (Connection.start ⟨.sName, [], [], 0, 0, 0, false, [], false⟩ 0
        (Backend.SimpleLRU.fresh 1024))).toOption.map
          (fun done => (done.2.alive, done.2.events, done.2.responses.length)) =
        some (true, .rd, 1) := by
    decide +kernel
  cases called : Connection.step Server.stNonblock.deliver
      (.doRead (fun _ => true) [ascii "get k\r\na\r\n"])
      (Connection.start ⟨.sName, [], [], 0, 0, 0, false, [], false⟩ 0
        (Backend.SimpleLRU.fresh 1024)) with
  | error halt =>
    rw [called] at stranded
    cases stranded
  | ok done =>
    rw [called] at stranded
    obtain ⟨alive, events, length⟩ :
        done.2.alive = true ∧ done.2.events = .rd ∧ done.2.responses.length = 1 := by
      simpa [Except.toOption] using stranded
    have waits := (scheduled done.1 done.2 called alive).mpr fun none => by simp [none] at length
    rw [events] at waits
    cases waits

end Scheduling

end Nonblock

end Afina.Network
