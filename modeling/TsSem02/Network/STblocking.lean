import TsSem02.Network.ByteByByte
import TsSem02.Storage.SimpleLRU

/-! # The blocking server

`ServerImpl::OnRun` of `STblocking` handles one connection after another; this
is what it does with one of them.  `client_buffer` is refilled from its start
by every `read`, and an exception ends the connection.
-/

namespace Afina.Network

open Protocol Execute Session

/-- `sizeof(client_buffer)` -/
def bufferSize : Nat := 4096

/-- What a successful `read` gives: some bytes, as many as the buffer holds. -/
abbrev Read := { bytes : Bytes // 0 < bytes.length ∧ bytes.length ≤ bufferSize }

def received (reads : List Read) : Bytes := (reads.map Subtype.val).flatten

@[simp] theorem received_nil : received [] = [] := rfl

@[simp] theorem received_cons (bytes : Read) (reads : List Read) :
    received (bytes :: reads) = bytes.val ++ received reads := rfl

namespace STblocking

variable {Store : Type}

/-- Send the response; `sends n` tells whether `send` succeeds for the `n`-th one. -/
def deliver (sends : Nat → Bool) : Deliver Store := fun s response =>
  if sends s.responses.length then (s.respond response, none) else (s, some .send)

inductive Ended where
  | closed
  | readFailed  -- `read` returned `-1`
  | failed (reason : Reason) (byte : Nat)
deriving DecidableEq, Repr

/-- What is left of a connection, for the world and for the next connection. -/
structure Served (Store : Type) where
  executed : List (Command × Bytes)
  responses : List Bytes
  storage : Store
  parser : Parser
  argRemains : Nat
  ended : Ended

variable [Storage Store]

/-- `while ((readed_bytes = read(...)) > 0)`; a `break` out of the inner loop
    leaves the rest of the buffer to be overwritten. -/
def receive (sends : Nat → Bool) (s : Session Store) :
    List Read → Except (Interrupt Store) (Session Store)
  | [] => .ok s
  | bytes :: reads =>
    match s.drain (deliver sends) bytes.val.length bytes.val with
    | .ok s => receive sends s reads
    | .error i => if i.reason = .stuck then receive sends i.session reads else .error i

omit [Storage Store] in
/-- "We are done with this connection" -/
def finish (s : Session Store) (ended : Ended) : Served Store where
  executed := s.executed
  responses := s.responses
  storage := s.storage
  parser := s.parser.reset
  argRemains := s.argRemains
  ended := ended

/-- "Process new connection": `reads` are the successful reads, and `closes`
    tells whether the client then closes or `read` fails. -/
def onRun (sends : Nat → Bool) (parser : Parser) (argRemains : Nat) (storage : Store)
    (reads : List Read) (closes : Bool) : Served Store :=
  match receive sends (Session.start parser argRemains storage) reads with
  | .ok s => finish s (if closes then .closed else .readFailed)
  | .error i => finish i.session (.failed i.reason (i.session.consumed + i.ahead))

section

variable {sends : Nat → Bool} {s : Session Store}

omit [Storage Store] in
theorem deliver_responds : Responds (deliver sends : Deliver Store) := by
  intro s response s' delivered
  simp only [deliver] at delivered
  split at delivered
  · cases delivered
    rfl
  · cases delivered

omit [Storage Store] in
theorem deliver_unstuck : Unstuck (deliver sends : Deliver Store) := by
  intro s response s' delivered
  simp only [deliver] at delivered
  split at delivered
  · cases delivered
  · cases delivered

omit [Storage Store] in
theorem start_ready (parser : Parser) (argRemains : Nat) (storage : Store) :
    (Session.start parser argRemains storage).Ready where
  incomplete _ := rfl
  waits _ same := by cases same

theorem settle_receive (ready : s.Ready) (reads : List Read) :
    settle (receive sends s reads) = s.feedAll (deliver sends) (received reads) := by
  induction reads generalizing s with
  | nil => rfl
  | cons bytes reads ih =>
    have drained : settle (s.drain (deliver sends) bytes.val.length bytes.val) = _ :=
      settle_drain deliver_responds ready (Nat.le_refl _)
    rw [received_cons, feedAll_append, ← drained]
    simp only [receive]
    cases ran : s.drain (deliver sends) bytes.val.length bytes.val with
    | ok s' =>
      rw [ran] at drained
      have fed : s.feedAll (deliver sends) bytes.val = .ok s' := drained.symm
      exact ih (feedAll_ready deliver_responds ready fed)
    | error i =>
      rw [ran] at drained
      have notStuck : i.reason ≠ .stuck := by
        intro stuck
        rw [settle_error, stuck] at drained
        exact feedAll_unstuck deliver_unstuck drained.symm
      simp only [if_neg notStuck, settle_error]
      rfl

/-- The whole connection, in terms of its stream of bytes. -/
def outcomeOf (closes : Bool) : Except (Session Store × Reason) (Session Store) → Served Store
  | .ok s => finish s (if closes then .closed else .readFailed)
  | .error (s, reason) => finish s (.failed reason s.consumed)

theorem onRun_eq (parser : Parser) (argRemains : Nat) (storage : Store) (reads : List Read)
    (closes : Bool) :
    onRun sends parser argRemains storage reads closes =
      outcomeOf closes ((Session.start parser argRemains storage).feedAll (deliver sends)
        (received reads)) := by
  rw [← settle_receive (start_ready parser argRemains storage)]
  simp only [onRun]
  cases receive sends (Session.start parser argRemains storage) reads with
  | ok s => rfl
  | error i => rfl

/-- Where the reads of a connection are cut does not matter. -/
theorem onRun_cut (sends : Nat → Bool) (parser : Parser) (argRemains : Nat) (storage : Store)
    (reads reads' : List Read) (closes : Bool) (same : received reads = received reads') :
    onRun sends parser argRemains storage reads closes =
      onRun sends parser argRemains storage reads' closes := by
  rw [onRun_eq, onRun_eq, same]

/-- One line in one read, and the same line cut inside its line break. -/
theorem onRun_cut_get :
    let parser : Parser := ⟨.sName, [], [], 0, 0, 0, false, [], false⟩
    onRun (fun _ => true) parser 0 (Backend.SimpleLRU.fresh 1024)
        [⟨ascii "get k\r\n", by decide⟩] true =
      onRun (fun _ => true) parser 0 (Backend.SimpleLRU.fresh 1024)
        [⟨ascii "get k\r", by decide⟩, ⟨ascii "\n", by decide⟩] true :=
  onRun_cut _ _ _ _ _ _ _ rfl

end

end STblocking

end Afina.Network
