import TsSem02.Network.STnonblock
import TsSem02.Library.Buffer

/-! # The buffer of a connection

`Connection::DoRead` of `STnonblock` statement by statement, with `client_buffer`
as an array and `readed_bytes` as an `int`.  An access behind the end of the array
is a failure of its own.

* `bounded_and_progresses` — there is no such access in any sequence of calls, the
  inner loop ends, and a call that is not interrupted leaves no bytes behind;
* `receive_refines` — the bytes `0` to `readed_bytes` of the array are the list
  that `Connection.receive` has for a buffer.
-/

namespace Afina.Network.STnonblock

open Protocol Execute Parser Session CInt Runs

/-- What `DoRead` does next. -/
inductive Point where
  | outside                 -- `DoRead` has not been called
  | reading                 -- `while ((new_bytes = read(...)) > 0)`
  | head                    -- `while (readed_bytes > 0)`
  | parsed (parsed : Nat)   -- `if (parsed == 0)`
  | argument                -- `if (command_to_execute && arg_remains > 0)`
  | filling (toRead : Nat)  -- `argument_for_command.append(client_buffer, to_read)`
  | running                 -- `if (command_to_execute && arg_remains == 0)`
deriving DecidableEq, Repr

def Point.Inner : Point → Prop
  | outside | reading => False
  | head | parsed _ | argument | filling _ | running => True

/-- A connection in the middle of `DoRead`. -/
structure Reading (Store : Type) where
  session : Session Store
  readedBytes : Int
  clientBuffer : Nat → UInt8  -- the array is what is below `bufferSize`
  point : Point

/-- Why a statement is not executed. -/
inductive Reading.Halt where
  | inadmissible  -- it is not the next one, or `read` returns more than it was asked for
  | outOfBuffer   -- an access behind the end of `client_buffer`
  | fault (fault : Fault)
deriving DecidableEq, Repr

/-- A statement: what interrupts the call, if something does, and what is left. -/
abbrev Statement (Store : Type) := Except Reading.Halt (Option Reason × Reading Store)

inductive Reading.Event where
  | call
  | read (result : Option Bytes)  -- the bytes `read` has written; `none` for -1
  | go (run : Bool)               -- another statement of the inner loop; `run` is `server->run`
deriving DecidableEq, Repr

namespace Reading

variable {Store : Type}

def start (parser : Parser) (argRemains : Nat) (storage : Store) (clientBuffer : Nat → UInt8) :
    Reading Store where
  session := Session.start parser argRemains storage
  readedBytes := 0
  clientBuffer := clientBuffer
  point := .outside

def front (c : Reading Store) (count : Nat) : Bytes := Buffer.read c.clientBuffer 0 count

/-- `while ((new_bytes = read(_socket, client_buffer + readed_bytes, ...)) > 0)` -/
def read (c : Reading Store) : Option Bytes → Statement Store
  | none => .ok (none, { c with point := .outside })
  | some bytes =>
    -- `sizeof(client_buffer) - readed_bytes`
    if toUnsigned 64 (bufferSize - c.readedBytes) < bytes.length then .error .inadmissible
    else if c.readedBytes < 0 ∨ bufferSize < c.readedBytes + bytes.length then .error .outOfBuffer
    else
      let clientBuffer := Buffer.write c.clientBuffer c.readedBytes.toNat bytes
      let newBytes := toSigned 32 bytes.length
      if newBytes > 0 then
        .ok (none, { c with
          clientBuffer := clientBuffer
          readedBytes := c.readedBytes + newBytes
          point := .head })
      else .ok (none, { c with clientBuffer := clientBuffer, point := .outside })

/-- `memmove(client_buffer, client_buffer + offset, readed_bytes - offset)` and
    `readed_bytes -= offset` -/
def shift (c : Reading Store) (offset : Nat) : Except Halt (Reading Store) :=
  let count := toUnsigned 64 (c.readedBytes - offset)
  if offset + count ≤ bufferSize then
    .ok { c with
      clientBuffer := Buffer.move c.clientBuffer 0 offset count
      readedBytes := toSigned 32 count }
  else .error .outOfBuffer

/-- The call is over: by an exception, for the server stops, or for the program
    has no meaning any more. -/
def leave (c : Reading Store) (s : Session Store) : Reason → Statement Store
  | .fault fault => .error (.fault fault)
  | reason => .ok (some reason, { c with session := s, point := .outside })

/-- "There is no command yet" -/
def parse (c : Reading Store) : Statement Store :=
  let size := toUnsigned 64 c.readedBytes
  if size ≤ bufferSize then
    match c.session.parser.parse (c.front size) with
    | (parser, .threw error pos) =>
      c.leave { c.session.hand (pos + 1) with parser := parser } (.parse error)
    | (parser, .returned parsed) =>
      match ({ c.session.hand parsed with parser := parser } : Session Store).buildCommand with
      | (s, some reason) => c.leave s reason
      | (s, none) => .ok (none, { c with session := s, point := .parsed parsed })
  else .error .outOfBuffer

/-- "Parsed might fails to consume any bytes from input stream." -/
def discard (c : Reading Store) (parsed : Nat) : Statement Store :=
  if parsed = 0 then .ok (none, { c with point := .reading })
  else
    (c.shift parsed).map fun c =>
      (none, { c with
        session := { c.session with consumed := c.session.consumed + parsed }
        point := .argument })

/-- "There is command, but we still wait for argument to arrive" -/
def await (c : Reading Store) : Statement Store :=
  if c.session.commandToExecute.isSome ∧ c.session.argRemains > 0 then
    .ok (none, { c with point := .filling (min c.session.argRemains (toUnsigned 64 c.readedBytes)) })
  else .ok (none, { c with point := .running })

/-- "There is some parsed command, and now we are reading argument" -/
def fill (c : Reading Store) (toRead : Nat) : Statement Store :=
  if toRead ≤ bufferSize then
    let s := { c.session.hand toRead with
      argumentForCommand := c.session.argumentForCommand ++ c.front toRead
      argRemains := c.session.argRemains - toRead
      consumed := c.session.consumed + toRead }
    (c.shift toRead).map fun c => (none, { c with session := s, point := .running })
  else .error .outOfBuffer

variable [Storage Store]

/-- "Thre is command & argument - RUN!" -/
def execute (run : Bool) (c : Reading Store) : Statement Store :=
  match c.session.runCommand (deliver fun _ => run) with
  | (s, some reason) => c.leave s reason
  | (s, none) => .ok (none, { c with session := s, point := .head })

/-- The next statement of the inner loop. -/
def go (run : Bool) (c : Reading Store) : Statement Store :=
  match c.point with
  | .outside | .reading => .error .inadmissible
  | .head =>
    if c.readedBytes > 0 then
      if c.session.commandToExecute.isNone then c.parse else .ok (none, { c with point := .argument })
    else .ok (none, { c with point := .reading })
  | .parsed parsed => c.discard parsed
  | .argument => c.await
  | .filling toRead => c.fill toRead
  | .running => c.execute run

def step (event : Event) (c : Reading Store) : Statement Store :=
  match event with
  | .call => if c.point = .outside then .ok (none, { c with point := .reading }) else .error .inadmissible
  | .read result => if c.point = .reading then c.read result else .error .inadmissible
  | .go run => c.go run

/-! ## The array -/

section Window

omit [Storage Store]

variable {c : Reading Store} {offset count : Nat}

/-- What has been read and not consumed. -/
def window (c : Reading Store) : Bytes := c.front c.readedBytes.toNat

structure Within (c : Reading Store) : Prop where
  nonneg : 0 ≤ c.readedBytes
  inBuffer : c.readedBytes ≤ bufferSize

@[simp] theorem length_front : (c.front count).length = count := by simp [front]

@[simp] theorem length_window : c.window.length = c.readedBytes.toNat := by simp [window]

theorem take_window (inside : count ≤ c.readedBytes.toNat) : c.window.take count = c.front count :=
  Buffer.take_read inside

theorem Within.size_eq (within : c.Within) : toUnsigned 64 c.readedBytes = c.readedBytes.toNat := by
  have small : c.readedBytes ≤ (4096 : Int) := within.inBuffer
  exact toUnsigned_of_lt within.nonneg (by omega)

def shifted (c : Reading Store) (offset : Nat) : Reading Store :=
  { c with
    clientBuffer := Buffer.move c.clientBuffer 0 offset (c.readedBytes.toNat - offset)
    readedBytes := c.readedBytes - offset }

theorem Within.shift_eq (within : c.Within) (inside : offset ≤ c.readedBytes.toNat) :
    c.shift offset = .ok (c.shifted offset) := by
  have nonneg := within.nonneg
  have small : c.readedBytes ≤ (4096 : Int) := within.inBuffer
  have count : toUnsigned 64 (c.readedBytes - offset) = c.readedBytes.toNat - offset := by
    rw [toUnsigned_of_lt (by omega) (by omega)]
    omega
  have fits : offset + (c.readedBytes.toNat - offset) ≤ bufferSize := by
    show _ ≤ 4096
    omega
  have back : toSigned 32 ((c.readedBytes.toNat - offset : Nat) : Int) = c.readedBytes - offset := by
    rw [toSigned_of_inRange (by omega) (by omega)]
    omega
  simp only [shift, count, if_pos fits, back]
  rfl

theorem toNat_shifted : (c.shifted offset).readedBytes.toNat = c.readedBytes.toNat - offset := by
  show (c.readedBytes - offset).toNat = _
  omega

theorem window_shifted : (c.shifted offset).window = c.window.drop offset := by
  have moved := Buffer.read_write c.clientBuffer 0
    (Buffer.read c.clientBuffer offset (c.readedBytes.toNat - offset))
  rw [Buffer.length_read] at moved
  simp only [window, front, toNat_shifted, Buffer.drop_read, Nat.zero_add]
  exact moved

theorem Within.shifted (within : c.Within) (inside : offset ≤ c.readedBytes.toNat) :
    (c.shifted offset).Within where
  nonneg := by
    show 0 ≤ c.readedBytes - offset
    have nonneg := within.nonneg
    omega
  inBuffer := by
    show c.readedBytes - offset ≤ bufferSize
    have inBuffer := within.inBuffer
    omega

def discarded (c : Reading Store) (parsed : Nat) : Reading Store :=
  { c.shifted parsed with
    session := { c.session with consumed := c.session.consumed + parsed }
    point := .argument }

theorem Within.discard_eq (within : c.Within) (positive : 0 < offset)
    (inside : offset ≤ c.readedBytes.toNat) : c.discard offset = .ok (none, c.discarded offset) := by
  simp only [discard, if_neg (Nat.ne_of_gt positive), within.shift_eq inside]
  rfl

def filled (c : Reading Store) (toRead : Nat) : Reading Store :=
  { c.shifted toRead with
    session := { c.session.hand toRead with
      argumentForCommand := c.session.argumentForCommand ++ c.window.take toRead
      argRemains := c.session.argRemains - toRead
      consumed := c.session.consumed + toRead }
    point := .running }

theorem Within.fill_eq (within : c.Within) (inside : offset ≤ c.readedBytes.toNat) :
    c.fill offset = .ok (none, c.filled offset) := by
  have small : offset ≤ bufferSize := by
    have inBuffer := within.inBuffer
    omega
  simp only [fill, if_pos small, within.shift_eq inside, filled, take_window inside]
  rfl

def received (c : Reading Store) (bytes : Bytes) : Reading Store :=
  { c with
    clientBuffer := Buffer.write c.clientBuffer c.readedBytes.toNat bytes
    readedBytes := c.readedBytes + bytes.length
    point := if bytes = [] then .outside else .head }

/-- `read` gets what it was asked for, and keeps to the buffer. -/
theorem Within.read_eq (within : c.Within) (bytes : Bytes) :
    c.read (some bytes) =
      if c.readedBytes + bytes.length ≤ bufferSize then .ok (none, c.received bytes)
      else .error .inadmissible := by
  have nonneg := within.nonneg
  have small : c.readedBytes ≤ (4096 : Int) := within.inBuffer
  have size : (bufferSize : Int) = 4096 := rfl
  have room : toUnsigned 64 (bufferSize - c.readedBytes) = (4096 - c.readedBytes).toNat := by
    rw [size]
    exact toUnsigned_of_lt (by omega) (by omega)
  by_cases fits : c.readedBytes + bytes.length ≤ bufferSize
  · have enough : ¬ (4096 - c.readedBytes).toNat < bytes.length := by omega
    have inside : ¬ (c.readedBytes < 0 ∨ (bufferSize : Int) < c.readedBytes + bytes.length) := by omega
    have count : toSigned 32 (bytes.length : Int) = bytes.length :=
      toSigned_of_inRange (by omega) (by omega)
    simp only [read, room, if_neg enough, if_neg inside, count, if_pos fits]
    cases bytes with
    | nil => simp [received]
    | cons b bytes => simp [received]
  · have more : (4096 - c.readedBytes).toNat < bytes.length := by omega
    simp only [read, room, if_pos more, if_neg fits]

theorem Within.toNat_received (within : c.Within) (bytes : Bytes) :
    (c.received bytes).readedBytes.toNat = c.readedBytes.toNat + bytes.length := by
  have nonneg := within.nonneg
  show (c.readedBytes + bytes.length).toNat = _
  omega

theorem Within.window_received (within : c.Within) (bytes : Bytes) :
    (c.received bytes).window = c.window ++ bytes := by
  simp only [window, front, within.toNat_received]
  rw [Buffer.read_add, Nat.zero_add]
  have before : Buffer.read (c.received bytes).clientBuffer 0 c.readedBytes.toNat = c.window :=
    Buffer.read_write_outside (.inl (Nat.le_of_eq (Nat.zero_add _)))
  have new : Buffer.read (c.received bytes).clientBuffer c.readedBytes.toNat bytes.length = bytes :=
    Buffer.read_write _ _ _
  rw [before, new]
  rfl

end Window

/-! ## What holds at each statement -/

section Invariant

omit [Storage Store]

/-- Between two lines, in an argument, or at a line that `Build` throws on. -/
def AtRest (s : Session Store) : Prop := s.Ready ∨ ∃ error, Rejected s error

/-- In the middle of a pass: a command may have all of its argument. -/
def Midway (s : Session Store) : Prop := s.commandToExecute = none → s.parser.parseComplete = false

/-- What the next statement expects, with so many bytes in the buffer. -/
def Expects (s : Session Store) (readed : Nat) : Point → Prop
  | .outside | .reading | .head => AtRest s
  | .parsed parsed => Midway s ∧ 0 < parsed ∧ parsed ≤ readed
  | .argument | .running => Midway s
  | .filling toRead => Midway s ∧ toRead ≤ s.argRemains ∧ toRead ≤ readed

structure Holds (c : Reading Store) : Prop where
  within : c.Within
  expected : Expects c.session c.readedBytes.toNat c.point

def wanted (c : Reading Store) : Nat :=
  if c.session.commandToExecute.isSome then min c.session.argRemains c.readedBytes.toNat else 0

/-- A bound for the statements that are left until the inner loop has ended.  A
    pass has four behind its head, and takes a byte. -/
def weight (c : Reading Store) : Nat :=
  match c.point with
  | .outside | .reading => 0
  | .head => 5 * c.readedBytes.toNat + 1
  | .parsed _ => 5 * c.readedBytes.toNat
  | .argument => 5 * (c.readedBytes.toNat - c.wanted) + 4
  | .filling toRead => 5 * (c.readedBytes.toNat - toRead) + 3
  | .running => 5 * c.readedBytes.toNat + 2

/-- What a statement of the inner loop can do. -/
inductive Leads (c : Reading Store) : Statement Store → Prop
  | fault (fault : Fault) : Leads c (.error (.fault fault))
  | interrupted {c' : Reading Store} (reason : Reason) : c'.Holds → c'.point = .outside →
      Leads c (.ok (some reason, c'))
  | emptied {c' : Reading Store} : c'.Holds → c'.point = .reading → c'.readedBytes = 0 →
      Leads c (.ok (none, c'))
  | inside {c' : Reading Store} : c'.Holds → c'.point.Inner → c'.weight < c.weight →
      Leads c (.ok (none, c'))

theorem Leads.leave {c : Reading Store} {s : Session Store} {reason : Reason} (within : c.Within)
    (rests : AtRest s) : Leads c (c.leave s reason) := by
  cases reason with
  | fault fault => exact .fault fault
  | _ => exact .interrupted _ ⟨⟨within.nonneg, within.inBuffer⟩, rests⟩ rfl

theorem buildCommand_midway {s t : Session Store}
    (ends : s.parser.parseComplete = true → s.parser.state = .sLF) (builds : s.buildCommand = (t, none)) :
    Midway t := by
  intro nothing
  cases complete : s.parser.parseComplete with
  | true => exact absurd nothing (buildCommand_complete (ends complete) complete builds)
  | false =>
    rw [buildCommand_of_incomplete complete] at builds
    cases builds
    exact complete

/-- `Build` throws on the same line each time. -/
theorem buildCommand_again {s : Session Store} {error : ParseError} (complete : s.parser.parseComplete = true)
    (rejects : s.parser.build.2 = .threw error) : s.buildCommand.2 = some (.build error) := by
  simp [buildCommand, complete, rejects]

theorem AtRest.incomplete {s t : Session Store} {parser : Parser} {parsed : Nat} {bytes : Bytes}
    (rests : AtRest s) (waiting : s.commandToExecute = none)
    (returned : s.parser.parse bytes = (parser, .returned parsed))
    (builds : ({ s.hand parsed with parser := parser } : Session Store).buildCommand = (t, none)) :
    s.parser.parseComplete = false := by
  cases rests with
  | inl ready => exact ready.incomplete waiting
  | inr rejected =>
    obtain ⟨error, rejected⟩ := rejected
    -- `Parse` does nothing on a complete line, so `Build` sees the one it threw on
    rw [parse_complete rejected.complete] at returned
    cases returned
    have throws := @buildCommand_again Store { s.hand 0 with parser := s.parser } error rejected.complete
      rejected.rejects
    rw [builds] at throws
    cases throws

end Invariant

/-! ## One statement after another -/

section Leads

variable {c c' : Reading Store} {run : Bool}

omit [Storage Store] in
theorem parse_leads (within : c.Within) (head : c.point = .head) (some : 0 < c.readedBytes.toNat)
    (waiting : c.session.commandToExecute = none) (rests : AtRest c.session) : Leads c c.parse := by
  have small : c.readedBytes.toNat ≤ bufferSize := by
    have inBuffer := within.inBuffer
    omega
  have nonempty : c.window ≠ [] := by
    intro empty
    have length := @length_window Store c
    rw [empty] at length
    exact absurd length (by simp; omega)
  simp only [parse, within.size_eq, if_pos small]
  rw [show c.front c.readedBytes.toNat = c.window from rfl]
  split
  · next parser error pos threw =>
    -- the bytes stay in the buffer, and the line goes on at the next call
    have incomplete : parser.parseComplete = false := parseFrom_threw_incomplete threw
    exact .leave within (.inl ⟨fun _ => incomplete, fun _ same => by
      rw [show (Session.hand c.session (pos + 1)).commandToExecute = none from waiting] at same
      cases same⟩)
  · next parser parsed returned =>
    split
    · next s reason builds =>
      obtain ⟨fault, rfl⟩ | ⟨error, rfl⟩ := buildCommand_reason builds
      · exact .fault fault
      · exact .leave within (.inr ⟨error, buildCommand_rejects builds waiting⟩)
    · next s builds =>
      -- this is where the loop would break, if it ever did
      have incomplete := rests.incomplete waiting returned builds
      have parses : c.session.parser.parseFrom 0 c.window = (parser, .returned parsed) := returned
      have positive : 0 < parsed := by
        obtain ⟨b, bytes, window⟩ := List.exists_cons_of_ne_nil nonempty
        rw [window] at returned
        exact parsed_pos incomplete returned
      have most : parsed ≤ c.readedBytes.toNat := by
        obtain ⟨front, rest, window, count, -⟩ := parseFrom_front parses
        have length := @length_window Store c
        rw [window, List.length_append] at length
        omega
      have midway : Midway s := buildCommand_midway (parseFrom_completes incomplete parses) builds
      refine .inside ⟨⟨within.nonneg, within.inBuffer⟩, midway, positive, most⟩ trivial ?_
      simp only [weight, head]
      omega

omit [Storage Store] in
theorem discard_leads {parsed : Nat} (within : c.Within) (here : c.point = .parsed parsed)
    (midway : Midway c.session) (positive : 0 < parsed) (inside : parsed ≤ c.readedBytes.toNat) :
    Leads c (c.discard parsed) := by
  have kept := within.shifted inside
  rw [within.discard_eq positive inside]
  refine .inside ⟨⟨kept.nonneg, kept.inBuffer⟩, midway⟩ trivial ?_
  simp only [weight, here, discarded]
  rw [toNat_shifted]
  omega

omit [Storage Store] in
theorem await_leads (within : c.Within) (here : c.point = .argument) (midway : Midway c.session) :
    Leads c c.await := by
  simp only [await, within.size_eq]
  split
  · next pending =>
    refine .inside ⟨⟨within.nonneg, within.inBuffer⟩, midway, Nat.min_le_left _ _, Nat.min_le_right _ _⟩
      trivial ?_
    simp only [weight, here, wanted, pending.1, if_true]
    omega
  · next full =>
    have nothing : c.wanted = 0 := by
      simp only [wanted]
      split
      · next pending =>
        simp only [pending, true_and, not_lt, Nat.le_zero] at full
        rw [full, Nat.zero_min]
      · rfl
    refine .inside ⟨⟨within.nonneg, within.inBuffer⟩, midway⟩ trivial ?_
    simp only [weight, here, nothing]
    omega

omit [Storage Store] in
theorem fill_leads {toRead : Nat} (within : c.Within) (here : c.point = .filling toRead)
    (midway : Midway c.session) (inside : toRead ≤ c.readedBytes.toNat) : Leads c (c.fill toRead) := by
  have kept := within.shifted inside
  rw [within.fill_eq inside]
  refine .inside ⟨⟨kept.nonneg, kept.inBuffer⟩, midway⟩ trivial ?_
  simp only [weight, here, filled]
  rw [toNat_shifted]
  omega

omit [Storage Store] in
theorem deliver_responds {run : Nat → Bool} : Responds (deliver run : Deliver Store) :=
  fun _ _ _ delivered => (congrArg Prod.fst delivered).symm

theorem execute_leads (within : c.Within) (here : c.point = .running) (midway : Midway c.session) :
    Leads c (c.execute run) := by
  simp only [execute]
  split
  · next s reason ran =>
    have did := runCommand_ran (deliver fun _ => run) c.session
    rw [ran] at did
    cases did with
    | faults _ fault => exact .fault fault
    | answers _ _ _ _ _ _ delivered =>
      have responded : _ = s := congrArg Prod.fst delivered
      rw [← responded]
      exact .leave within (.inl (respond_ready _ _))
  · next s ran =>
    have ready : s.Ready := runCommand_ready deliver_responds midway ran
    refine .inside ⟨⟨within.nonneg, within.inBuffer⟩, .inl ready⟩ trivial ?_
    simp only [weight, here]
    omega

theorem go_leads (holds : c.Holds) (inner : c.point.Inner) : Leads c (c.go run) := by
  obtain ⟨within, expected⟩ := holds
  have nonneg := within.nonneg
  cases here : c.point with
  | outside | reading => rw [here] at inner; exact absurd inner id
  | head =>
    rw [here] at expected
    simp only [go, here]
    split
    · next positive =>
      cases waiting : c.session.commandToExecute with
      | none => exact parse_leads within here (by omega) waiting expected
      | some command =>
        -- a command that waits takes at least one byte
        -- which is why it is not one that `Build` has thrown on
        have ready : c.session.Ready := by
          cases expected with
          | inl ready => exact ready
          | inr rejected =>
            obtain ⟨error, rejected⟩ := rejected
            rw [rejected.waiting] at waiting
            cases waiting
        have missing := ready.waits command waiting
        refine .inside ⟨⟨within.nonneg, within.inBuffer⟩, ready.incomplete⟩ trivial ?_
        simp only [weight, here, wanted, waiting, Option.isSome_some, if_true]
        omega
    · have empty : c.readedBytes = 0 := by omega
      exact .emptied ⟨⟨within.nonneg, within.inBuffer⟩, expected⟩ rfl empty
  | parsed parsed =>
    rw [here] at expected
    obtain ⟨midway, positive, inside⟩ := expected
    simpa only [go, here] using discard_leads within here midway positive inside
  | argument =>
    rw [here] at expected
    simpa only [go, here] using await_leads within here expected
  | filling toRead =>
    rw [here] at expected
    obtain ⟨midway, -, inside⟩ := expected
    simpa only [go, here] using fill_leads within here midway inside
  | running =>
    rw [here] at expected
    simpa only [go, here] using execute_leads within here expected

end Leads

/-! ## All calls -/

section Calls

variable {c c' : Reading Store} {event : Event} {events : List Event} {reply : Option Reason}
  {replies : List (Option Reason)} {rounds : List Bool} {run : Bool}

omit [Storage Store] in
theorem read_holds {result : Option Bytes} (holds : c.Holds) (reading : c.point = .reading)
    (read : c.read result = .ok (reply, c')) : c'.Holds := by
  have rests := holds.expected
  rw [reading] at rests
  cases result with
  | none =>
    cases read
    exact ⟨⟨holds.within.nonneg, holds.within.inBuffer⟩, rests⟩
  | some bytes =>
    rw [holds.within.read_eq] at read
    split at read
    · next fits =>
      cases read
      have nonneg := holds.within.nonneg
      refine ⟨⟨?_, fits⟩, ?_⟩
      · show 0 ≤ c.readedBytes + bytes.length
        omega
      · -- a `read` of nothing ends the call, any other begins the inner loop
        simp only [received]
        split
        · exact rests
        · exact rests
    · cases read

theorem go_inner (went : c.go run = .ok (reply, c')) : c.point.Inner := by
  cases here : c.point with
  | outside | reading => simp [go, here] at went
  | _ => trivial

theorem go_holds (holds : c.Holds) (went : c.go run = .ok (reply, c')) : c'.Holds := by
  have leads := @go_leads _ _ c run holds (go_inner went)
  rw [went] at leads
  cases leads <;> assumption

theorem step_holds (holds : c.Holds) (stepped : step event c = .ok (reply, c')) : c'.Holds := by
  cases event with
  | call =>
    simp only [step] at stepped
    split at stepped
    · next outside =>
      cases stepped
      have rests := holds.expected
      rw [outside] at rests
      exact ⟨⟨holds.within.nonneg, holds.within.inBuffer⟩, rests⟩
    · cases stepped
  | read result =>
    simp only [step] at stepped
    split at stepped
    · next reading => exact read_holds holds reading stepped
    · cases stepped
  | go run => exact go_holds holds stepped

theorem step_inBuffer (holds : c.Holds) : step event c ≠ .error .outOfBuffer := by
  intro failed
  cases event with
  | call =>
    simp only [step] at failed
    split at failed <;> cases failed
  | read result =>
    simp only [step] at failed
    split at failed
    · cases result with
      | none => cases failed
      | some bytes =>
        rw [holds.within.read_eq] at failed
        split at failed <;> cases failed
    · cases failed
  | go run =>
    have failed : c.go run = .error .outOfBuffer := failed
    by_cases inner : c.point.Inner
    · have leads := @go_leads _ _ c run holds inner
      rw [failed] at leads
      cases leads
    · cases here : c.point with
      | outside | reading => simp [go, here] at failed
      | _ => rw [here] at inner; exact inner trivial

omit [Storage Store] in
theorem weight_pos (holds : c.Holds) (inner : c.point.Inner) : 0 < c.weight := by
  have expected := holds.expected
  cases here : c.point with
  | outside | reading => rw [here] at inner; exact absurd inner id
  | parsed parsed =>
    rw [here] at expected
    obtain ⟨-, positive, inside⟩ := expected
    simp only [weight, here]
    omega
  | _ => simp only [weight, here]; omega

/-- Every statement of the inner loop brings its end closer. -/
theorem go_weight (holds : c.Holds) (went : c.go run = .ok (reply, c')) : c'.weight < c.weight := by
  have inner := go_inner went
  have positive := weight_pos holds inner
  have leads := @go_leads _ _ c run holds inner
  rw [went] at leads
  cases leads with
  | interrupted reason holds' outside => simpa only [weight, outside] using positive
  | emptied holds' reading empty => simpa only [weight, reading] using positive
  | inside holds' inner' less => exact less

theorem runs_weight (holds : c.Holds) (ran : runs step (rounds.map .go) c = .ok (replies, c')) :
    rounds.length + c'.weight ≤ c.weight := by
  induction rounds generalizing c replies with
  | nil =>
    cases ran
    simp
  | cons run rounds ih =>
    obtain ⟨reply, next, rest, stepped, ranRest, -⟩ := runs_cons_ok.mp ran
    have less := go_weight holds stepped
    have later := ih (go_holds holds stepped) ranRest
    rw [List.length_cons]
    omega

omit [Storage Store] in
theorem weight_le (c : Reading Store) : c.weight ≤ 5 * c.readedBytes.toNat + 4 := by
  simp only [weight]
  split <;> omega

/-- No access leaves the buffer, and none could. -/
structure Bounded (c : Reading Store) : Prop where
  nonneg : 0 ≤ c.readedBytes
  inBuffer : c.readedBytes ≤ bufferSize
  parsed : ∀ parsed, c.point = .parsed parsed → parsed ≤ c.readedBytes
  toRead : ∀ toRead, c.point = .filling toRead →
    toRead ≤ c.session.argRemains ∧ toRead ≤ c.readedBytes
  accesses : ∀ event, step event c ≠ .error .outOfBuffer

/-- The inner loop ends: it can go on, but each pass takes a byte. -/
structure Progresses (c : Reading Store) : Prop where
  goesOn : c.point.Inner → ∀ run, step (.go run) c ≠ .error .inadmissible
  consumes : c.point = .head → ∀ (rounds : List Bool) replies c', rounds ≠ [] →
    runs step (rounds.map .go) c = .ok (replies, c') → c'.point = .head → c'.readedBytes < c.readedBytes
  ends : ∀ (rounds : List Bool) replies c', runs step (rounds.map .go) c = .ok (replies, c') →
    rounds.length ≤ 5 * c.readedBytes.toNat + 4

theorem Holds.bounded (holds : c.Holds) : c.Bounded where
  nonneg := holds.within.nonneg
  inBuffer := holds.within.inBuffer
  parsed parsed here := by
    have expected := holds.expected
    rw [here] at expected
    have inside : parsed ≤ c.readedBytes.toNat := expected.2.2
    have nonneg := holds.within.nonneg
    omega
  toRead toRead here := by
    have expected := holds.expected
    rw [here] at expected
    obtain ⟨-, wanted, inside⟩ := expected
    have nonneg := holds.within.nonneg
    exact ⟨wanted, by omega⟩
  accesses _ := step_inBuffer holds

theorem Holds.progresses (holds : c.Holds) : c.Progresses where
  goesOn inner run failed := by
    have failed : c.go run = .error .inadmissible := failed
    have leads := @go_leads _ _ c run holds inner
    rw [failed] at leads
    cases leads
  consumes here rounds replies c' some ran here' := by
    have less := runs_weight holds ran
    have positive := List.length_pos_iff.mpr some
    simp only [weight, here, here'] at less
    omega
  ends rounds replies c' ran := by
    have less := runs_weight holds ran
    have most := weight_le c
    omega

def Emptied (c : Reading Store) : Prop := c.point = .outside ∨ c.point = .reading → c.readedBytes = 0

theorem step_emptied (holds : c.Holds) (emptied : c.Emptied) (stepped : step event c = .ok (none, c')) :
    c'.Emptied := by
  cases event with
  | call =>
    simp only [step] at stepped
    split at stepped
    · next outside =>
      cases stepped
      exact fun _ => emptied (.inl outside)
    · cases stepped
  | read result =>
    simp only [step] at stepped
    split at stepped
    · next reading =>
      have empty := emptied (.inr reading)
      cases result with
      | none =>
        cases stepped
        exact fun _ => empty
      | some bytes =>
        rw [holds.within.read_eq] at stepped
        split at stepped
        · cases stepped
          cases bytes with
          | nil => exact fun _ => by simpa [received] using empty
          | cons b bytes => simp [Emptied, received]
        · cases stepped
    · cases stepped
  | go run =>
    have went : c.go run = .ok (none, c') := stepped
    have leads := @go_leads _ _ c run holds (go_inner went)
    rw [went] at leads
    cases leads with
    | emptied _ _ empty => exact fun _ => empty
    | inside _ inner _ =>
      intro left
      cases left with
      | inl outside => rw [outside] at inner; exact absurd inner id
      | inr reading => rw [reading] at inner; exact absurd inner id

omit [Storage Store] in
theorem start_holds (parser : Parser) (argRemains : Nat) (storage : Store) (clientBuffer : Nat → UInt8) :
    (start parser argRemains storage clientBuffer).Holds where
  within := ⟨Int.le_refl 0, Int.natCast_nonneg bufferSize⟩
  expected := .inl (STblocking.start_ready parser argRemains storage)

end Calls

/-! ## The list of bytes -/

section Refinement

/-- A statement of the inner loop that does not interrupt the call. -/
def Goes (run : Bool) (c c' : Reading Store) : Prop := c.go run = .ok (none, c')

/-- Some such statements, or none. -/
abbrev Reaches (run : Bool) : Reading Store → Reading Store → Prop := Relation.ReflTransGen (Goes run)

/-- The statements do to the session and the bytes in the buffer what is given,
    and go on at `point` then. -/
def Performs (run : Bool) (point : Point) (c : Reading Store) :
    Except (Interrupt Store) (Session Store × Bytes) → Prop
  | .ok (s, rest) =>
    ∃ c', Relation.TransGen (Goes run) c c' ∧ c'.point = point ∧ c'.session = s ∧ c'.window = rest
  | .error i => ∃ c', Reaches run c c' ∧
      match i.reason with
      | .stuck => False
      | .fault fault => c'.go run = .error (.fault fault)
      | reason =>
        ∃ c'', c'.go run = .ok (some reason, c'') ∧ c''.session = i.session ∧ c''.window = i.buffer

variable {c c' : Reading Store} {run : Bool} {point : Point}
  {result : Except (Interrupt Store) (Session Store × Bytes)}

/-- The last part of a pass. -/
def conclude (run : Bool) (t : Session Store × Bytes) : Except (Interrupt Store) (Session Store × Bytes) :=
  match t.1.runCommand (deliver fun _ => run) with
  | (s, some reason) => .error ⟨s, t.2, reason, 0⟩
  | (s, none) => .ok (s, t.2)

theorem Performs.prepend (reaches : Reaches run c c') (performs : Performs run point c' result) :
    Performs run point c result := by
  cases result with
  | ok rest =>
    obtain ⟨c'', more, same⟩ := performs
    exact ⟨c'', .trans_right reaches more, same⟩
  | error i =>
    obtain ⟨c'', more, same⟩ := performs
    exact ⟨c'', reaches.trans more, same⟩

theorem Reaches.holds (holds : c.Holds) (reaches : Reaches run c c') : c'.Holds := by
  induction reaches with
  | refl => exact holds
  | tail _ went ih => exact go_holds ih went

theorem weight_of_goes (holds : c.Holds) (goes : Relation.TransGen (Goes run) c c') : c'.weight < c.weight := by
  induction goes with
  | single went => exact go_weight holds went
  | tail before went ih =>
    exact Nat.lt_trans (go_weight (Reaches.holds holds before.to_reflTransGen) went) ih

theorem performs_leave {s : Session Store} {reason : Reason} {ahead : Nat} (stuck : reason ≠ .stuck)
    (went : c.go run = c.leave s reason) : Performs run point c (.error ⟨s, c.window, reason, ahead⟩) := by
  refine ⟨c, .refl, ?_⟩
  cases reason with
  | stuck => exact absurd rfl stuck
  | fault fault => exact went
  | _ => exact ⟨_, went, rfl, rfl⟩

theorem execute_performs (here : c.point = .running) :
    Performs run .head c (conclude run (c.session, c.window)) := by
  have went : c.go run = c.execute run := by simp only [go, here]
  rw [execute] at went
  have unstuck : Unstuck (deliver fun _ => run : Deliver Store) := by
    intro s response s' delivered
    have reason := congrArg Prod.snd delivered
    simp only [deliver] at reason
    split at reason <;> cases reason
  cases ran : c.session.runCommand (deliver fun _ => run) with
  | mk s reason =>
    rw [ran] at went
    cases reason with
    | none =>
      simp only [conclude, ran]
      exact ⟨_, .single went, rfl, rfl, rfl⟩
    | some reason =>
      simp only [conclude, ran]
      refine performs_leave (fun stuck => ?_) went
      rw [stuck] at ran
      exact runCommand_unstuck unstuck ran

theorem await_performs (within : c.Within) (here : c.point = .argument) :
    Performs run .head c (conclude run (c.session.fillArgument c.window)) := by
  have awaits : c.go run = c.await := by simp only [go, here]
  simp only [await, within.size_eq] at awaits
  by_cases pending : c.session.commandToExecute.isSome ∧ c.session.argRemains > 0
  · rw [if_pos pending] at awaits
    generalize some : min c.session.argRemains c.readedBytes.toNat = toRead at awaits
    have inside : toRead ≤ c.readedBytes.toNat := some ▸ Nat.min_le_right _ _
    generalize filling : ({ c with point := .filling toRead } : Reading Store) = c₁ at awaits
    have fills : c₁.go run = .ok (none, c₁.filled toRead) := by
      rw [← filling]
      exact (⟨within.nonneg, within.inBuffer⟩ : Within { c with point := .filling toRead }).fill_eq inside
    have same : c.session.fillArgument c.window =
        ((c₁.filled toRead).session, (c₁.filled toRead).window) := by
      rw [← filling]
      simp only [fillArgument, if_pos pending, length_window, some]
      exact congrArg (Prod.mk _) window_shifted.symm
    rw [same]
    have runs := @execute_performs _ _ (c₁.filled toRead) run rfl
    exact runs.prepend (.tail (.single awaits) fills)
  · rw [if_neg pending] at awaits
    have same : c.session.fillArgument c.window = (c.session, c.window) := by
      simp only [fillArgument, if_neg pending]
    rw [same]
    have runs := @execute_performs _ _ { c with point := .running } run rfl
    exact runs.prepend (.single awaits)

theorem Performs.bind {middle : Point}
    {next : Session Store × Bytes → Except (Interrupt Store) (Session Store × Bytes)}
    (performs : Performs run middle c result)
    (goesOn : ∀ c', Reaches run c c' → c'.point = middle →
      Performs run point c' (next (c'.session, c'.window))) :
    Performs run point c (result >>= next) := by
  cases result with
  | ok rest =>
    obtain ⟨s, rest⟩ := rest
    obtain ⟨c', reaches, here, rfl, rfl⟩ := performs
    exact (goesOn c' reaches.to_reflTransGen here).prepend reaches.to_reflTransGen
  | error i => exact performs

theorem parse_performs (holds : c.Holds) (here : c.point = .head) (nonempty : 0 < c.readedBytes)
    (waiting : c.session.commandToExecute = none) :
    Performs run .argument c (c.session.parseCommand c.window) := by
  have parses : c.go run = c.parse := by simp [go, here, nonempty, waiting]
  have small : c.readedBytes.toNat ≤ bufferSize := by
    have inBuffer := holds.within.inBuffer
    omega
  have went := parses
  simp only [parse, holds.within.size_eq, if_pos small] at went
  rw [show c.front c.readedBytes.toNat = c.window from rfl] at went
  simp only [parseCommand]
  split
  · next parser error pos threw =>
    rw [threw] at went
    exact performs_leave (fun stuck => by cases stuck) went
  · next parser parsed returned =>
    rw [returned] at went
    split
    · next s reason builds =>
      simp only [builds] at went
      refine performs_leave (fun stuck => ?_) went
      rw [stuck] at builds
      exact buildCommand_unstuck builds
    · next s builds =>
      simp only [builds] at went
      have holds' := go_holds holds went
      obtain ⟨-, positive, inside⟩ := holds'.expected
      rw [if_neg (Nat.ne_of_gt positive)]
      have discards := holds'.within.discard_eq positive inside
      exact ⟨_, .tail (.single went) discards, rfl, rfl, window_shifted⟩

/-- The inner loop does what a pass does. -/
theorem pass_performs (holds : c.Holds) (here : c.point = .head) (nonempty : 0 < c.readedBytes) :
    Performs run .head c (c.session.pass (deliver fun _ => run) c.window) := by
  have fills : ∀ c', Reaches run c c' → c'.point = .argument →
      Performs run .head c' (conclude run (c'.session.fillArgument c'.window)) :=
    fun c' reaches argument => await_performs (Reaches.holds holds reaches).within argument
  cases waiting : c.session.commandToExecute with
  | none =>
    simp only [Session.pass, waiting, Option.isNone_none, if_true]
    exact (parse_performs holds here nonempty waiting).bind fills
  | some command =>
    simp only [Session.pass, waiting, Option.isNone_some, Bool.false_eq_true, if_false]
    have went : c.go run = .ok (none, { c with point := .argument }) := by
      simp [go, here, nonempty, waiting]
    exact (fills _ (.single went) rfl).prepend (.single went)

theorem drain_performs {fuel : Nat} (holds : c.Holds) (here : c.point = .head)
    (enough : c.readedBytes.toNat ≤ fuel) :
    Performs run .reading c ((c.session.drain (deliver fun _ => run) fuel c.window).map (·, [])) := by
  have nonneg := holds.within.nonneg
  have length := @length_window Store c
  induction fuel generalizing c with
  | zero =>
    have empty : c.window = [] := List.eq_nil_of_length_eq_zero (by omega)
    have went : c.go run = .ok (none, { c with point := .reading }) := by
      simp only [go, here]
      rw [if_neg (by omega)]
    rw [empty]
    exact ⟨_, .single went, rfl, rfl, empty⟩
  | succ fuel ih =>
    cases window : c.window with
    | nil =>
      have went : c.go run = .ok (none, { c with point := .reading }) := by
        rw [window] at length
        simp only [go, here]
        rw [if_neg (by simp at length; omega)]
      exact ⟨_, .single went, rfl, rfl, window⟩
    | cons b bytes =>
      have nonempty : 0 < c.readedBytes := by
        rw [window] at length
        simp only [List.length_cons] at length
        omega
      have passes := @pass_performs _ _ c run holds here nonempty
      simp only [drain]
      rw [← window]
      cases passed : c.session.pass (deliver fun _ => run) c.window with
      | error i =>
        rw [passed] at passes
        exact passes
      | ok rest =>
        rw [passed] at passes
        obtain ⟨s, rest⟩ := rest
        obtain ⟨c', goes, here', rfl, rfl⟩ := passes
        have holds' := Reaches.holds holds goes.to_reflTransGen
        have less := weight_of_goes holds goes
        simp only [weight, here, here'] at less
        exact (ih holds' here' (by omega) holds'.within.nonneg length_window).prepend goes.to_reflTransGen

/-- What the other statements see of a connection. -/
def connection (c : Reading Store) : Connection Store := ⟨c.session, c.window, false⟩

/-- The statements from `c` on end a read as the list buffer `d` does. -/
inductive Returns (run : Bool) (c : Reading Store) (d : Connection Store) : Option Reason → Prop
  | reads : c.point = .reading → c.connection = d → Returns run c d none
  | faults (fault : Fault) : c.go run = .error (.fault fault) → Returns run c d (some (.fault fault))
  | leaves (reason : Reason) (c' : Reading Store) : c.go run = .ok (some reason, c') →
    c'.point = .outside → c'.connection = d → Returns run c d (some reason)

/-- With a `read` and the inner loop behind it, `DoRead` is the function of the
    list of bytes that `Connection.receive` is. -/
theorem receive_returns {bytes : Bytes} (holds : c.Holds) (here : c.point = .reading) (nonempty : bytes ≠ [])
    (fits : c.readedBytes + bytes.length ≤ bufferSize) :
    ∃ c₁ c', step (.read (some bytes)) c = .ok (none, c₁) ∧ Reaches run c₁ c' ∧
      Returns run c' (c.connection.receive (fun _ => run) bytes).1
        (c.connection.receive (fun _ => run) bytes).2 := by
  have read : c.read (some bytes) = .ok (none, c.received bytes) := by
    rw [holds.within.read_eq, if_pos fits]
  have stepped : step (.read (some bytes)) c = .ok (none, c.received bytes) := by
    rw [← read]
    exact if_pos here
  have holds' : (c.received bytes).Holds := read_holds holds here read
  have performs := @drain_performs _ _ (c.received bytes) run (c.window ++ bytes).length holds'
    (by simp [received, nonempty]) (by simp [holds.within.toNat_received])
  rw [holds.within.window_received] at performs
  rw [show (c.received bytes).session = c.session from rfl] at performs
  simp only [Connection.receive]
  rw [show c.connection.session = c.session from rfl, show c.connection.buffer = c.window from rfl]
  cases drained : c.session.drain (deliver fun _ => run) (c.window ++ bytes).length (c.window ++ bytes) with
  | ok s =>
    rw [drained] at performs
    obtain ⟨c', goes, reading, rfl, empty⟩ := performs
    exact ⟨_, c', stepped, goes.to_reflTransGen, .reads reading (by rw [connection, empty]; rfl)⟩
  | error i =>
    rw [drained] at performs
    obtain ⟨s, buffer, reason, ahead⟩ := i
    obtain ⟨c', reaches, went⟩ := performs
    refine ⟨_, c', stepped, reaches, ?_⟩
    cases reason with
    | stuck => exact absurd went id
    | fault fault => exact .faults fault went
    | _ =>
      obtain ⟨c'', went, rfl, rfl⟩ := went
      have leads := @go_leads _ _ c' run (Reaches.holds holds' reaches) (go_inner went)
      rw [went] at leads
      cases leads with
      | interrupted _ _ outside => exact .leaves _ c'' went outside rfl

end Refinement

theorem runs_holds {events : List Event} {replies : List (Option Reason)} {c c' : Reading Store}
    (holds : c.Holds) (ran : runs step events c = .ok (replies, c')) : c'.Holds :=
  runs_invariant (fun _ _ _ _ => step_holds) holds ran

/-- Wherever the calls have got to, the array and `readed_bytes` do with a `read` what
    the list of its bytes does. -/
theorem receive_refines {parser : Parser} {argRemains : Nat} {storage : Store} {clientBuffer : Nat → UInt8}
    {events : List Event} {replies : List (Option Reason)} {c : Reading Store} {bytes : Bytes}
    (ran : runs step events (start parser argRemains storage clientBuffer) = .ok (replies, c))
    (here : c.point = .reading) (nonempty : bytes ≠ []) (fits : c.readedBytes + bytes.length ≤ bufferSize)
    (run : Bool) :
    ∃ c₁ c', step (.read (some bytes)) c = .ok (none, c₁) ∧ Reaches run c₁ c' ∧
      Returns run c' (c.connection.receive (fun _ => run) bytes).1
        (c.connection.receive (fun _ => run) bytes).2 :=
  receive_returns (runs_holds (start_holds parser argRemains storage clientBuffer) ran) here nonempty fits

/-- A malformed line has been left in the buffer, behind a command that was executed. -/
theorem receive_refines_left : ∃ replies c,
    runs step
      (.call :: .read (some (ascii "get k\r\na\r")) :: List.replicate 5 (.go true) ++ [.call])
      (start ⟨.sName, [], [], 0, 0, 0, false, [], false⟩ 0 (Backend.SimpleLRU.fresh 1024) fun _ => 0) =
        .ok (replies, c) ∧
    c.window = ascii "a\r" ∧
    ∃ c₁ c', step (.read (some (ascii "\nget k\r\n"))) c = .ok (none, c₁) ∧ Reaches true c₁ c' ∧
      Returns true c' (c.connection.receive (fun _ => true) (ascii "\nget k\r\n")).1
        (c.connection.receive (fun _ => true) (ascii "\nget k\r\n")).2 := by
  obtain ⟨⟨replies, c⟩, ran, there⟩ := exists_ok_of_check
    (p := fun ran => ran.2.point = .reading ∧ ran.2.readedBytes = 2 ∧ ran.2.window = ascii "a\r")
    (by decide +kernel : ((runs step
      (.call :: .read (some (ascii "get k\r\na\r")) :: List.replicate 5 (.go true) ++ [.call])
      (start ⟨.sName, [], [], 0, 0, 0, false, [], false⟩ 0 (Backend.SimpleLRU.fresh 1024)
        fun _ => 0)).toOption.map _).getD false = true)
  obtain ⟨here, readed, window⟩ := of_decide_eq_true there
  have fits : c.readedBytes + (ascii "\nget k\r\n").length ≤ bufferSize := by
    rw [show c.readedBytes = 2 from readed]
    decide
  exact ⟨replies, c, ran, window, receive_refines ran here (by decide) fits true⟩

/-- Whatever is read, and whenever the server stops: `DoRead` keeps to its buffer,
    its inner loop ends, and it returns with all bytes consumed unless it has been
    interrupted. -/
theorem bounded_and_progresses {parser : Parser} {argRemains : Nat} {storage : Store}
    {clientBuffer : Nat → UInt8} {events : List Event} {replies : List (Option Reason)} {c : Reading Store}
    (ran : runs step events (start parser argRemains storage clientBuffer) = .ok (replies, c)) :
    c.Bounded ∧ c.Progresses ∧
      ((∀ reply ∈ replies, reply = none) → c.point = .outside → c.readedBytes = 0) := by
  have initially : (start parser argRemains storage clientBuffer).Holds ∧
      ((∀ reply ∈ ([] : List (Option Reason)), reply = none) →
        (start parser argRemains storage clientBuffer).Emptied) :=
    ⟨start_holds _ _ _ _, fun _ _ => rfl⟩
  have history := @runs_history _ _ _ _ step
    (fun replies c => c.Holds ∧ ((∀ reply ∈ replies, reply = none) → c.Emptied)) (fun _ _ => True)
    (by
      intro earlier event c reply c' before _ stepped
      refine ⟨step_holds before.1 stepped, fun quiet => ?_⟩
      have now : reply = none := quiet reply (by simp)
      rw [now] at stepped
      exact step_emptied before.1 (before.2 fun reply member => quiet reply (by simp [member])) stepped)
    events _ c replies [] initially (Throughout.of_forall (fun _ _ => trivial) _ _) ran
  obtain ⟨holds, emptied⟩ := history
  exact ⟨holds.bounded, holds.progresses, fun quiet outside => emptied quiet (.inl outside)⟩

/-- A storage command with its argument in one `read`. -/
theorem bounded_and_progresses_set : ∃ replies c,
    runs step
      (.call :: .read (some (ascii "set k 0 0 1\r\nv\r\n")) :: List.replicate 6 (.go true) ++ [.read none])
      (start ⟨.sName, [], [], 0, 0, 0, false, [], false⟩ 0 (Backend.SimpleLRU.fresh 1024) fun _ => 0) =
        .ok (replies, c) ∧
    c.Bounded ∧ c.Progresses ∧
      ((∀ reply ∈ replies, reply = none) → c.point = .outside → c.readedBytes = 0) := by
  obtain ⟨replies, c, ran⟩ := exists_of_isOk
    (by decide +kernel : (runs step
      (.call :: .read (some (ascii "set k 0 0 1\r\nv\r\n")) :: List.replicate 6 (.go true) ++ [.read none])
      (start ⟨.sName, [], [], 0, 0, 0, false, [], false⟩ 0 (Backend.SimpleLRU.fresh 1024) fun _ => 0)).isOk)
  exact ⟨replies, c, ran, bounded_and_progresses ran⟩

end Reading

end Afina.Network.STnonblock
