import TsSem02.Protocol.Parser

/-! # The command loop of a connection

The body of the loop that the blocking server and the non-blocking connections
share: parse a command line out of the bytes received, gather its argument,
execute it.  The two differ in what they do with a response, the parameter
`Deliver`.

A pass over the buffer that is interrupted (by an exception, a `return` or
undefined behaviour) says so with the state it leaves behind.
-/

namespace Afina.Network

open Protocol Execute

/-- The state of a connection, and what it has done so far. -/
structure Session (Store : Type) where
  parser : Parser
  argRemains : Nat
  argumentForCommand : Bytes
  commandToExecute : Option Command
  storage : Store
  executed : List (Command × Bytes)  -- commands with their arguments
  responses : List Bytes
  consumed : Nat                     -- bytes of the stream taken out of the buffer
  handed : List Nat                  -- bytes of the stream given to the parser or an argument

inductive Reason where
  | parse (error : ParseError)
  | build (error : ParseError)
  | stuck     -- `Parse` consumed nothing
  | send      -- the response could not be sent
  | shutdown  -- `server->run` is false
  | fault (fault : Fault)
deriving DecidableEq, Repr

structure Interrupt (Store : Type) where
  session : Session Store
  buffer : Bytes
  reason : Reason
  ahead : Nat  -- bytes of the buffer in front of the one that caused it

/-- What a connection does with a response. -/
abbrev Deliver (Store : Type) := Session Store → Bytes → Session Store × Option Reason

namespace Session

variable {Store : Type}

def start (parser : Parser) (argRemains : Nat) (storage : Store) : Session Store where
  parser := parser.reset
  argRemains := argRemains
  argumentForCommand := []
  commandToExecute := none
  storage := storage
  executed := []
  responses := []
  consumed := 0
  handed := []

/-- Note that the next `n` bytes were given to the parser or to the argument. -/
def hand (s : Session Store) (n : Nat) : Session Store :=
  { s with handed := s.handed ++ List.range' s.consumed n }

/-- `command_to_execute = parser.Build(arg_remains)`, if a line is complete. -/
def buildCommand (s : Session Store) : Session Store × Option Reason :=
  if s.parser.parseComplete then
    let (bodySize, built) := s.parser.build
    let argRemains := bodySize.getD s.argRemains
    let total := if argRemains > 0 then argRemains + 2 else argRemains
    match built with
    | .nothing => ({ s with commandToExecute := none, argRemains := total }, none)
    | .command command => ({ s with commandToExecute := some command, argRemains := total }, none)
    | .threw error => ({ s with argRemains := argRemains }, some (.build error))
    | .undefined => (s, some (.fault .outOfRange))
  else (s, none)

/-- "There is no command yet" -/
def parseCommand (s : Session Store) (buffer : Bytes) :
    Except (Interrupt Store) (Session Store × Bytes) :=
  match s.parser.parse buffer with
  | (parser, .threw error pos) =>
    .error ⟨{ s.hand (pos + 1) with parser := parser }, buffer, .parse error, pos⟩
  | (parser, .returned parsed) =>
    match ({ s.hand parsed with parser := parser } : Session Store).buildCommand with
    | (s, some reason) => .error ⟨s, buffer, reason, parsed - 1⟩
    | (s, none) =>
      if parsed = 0 then .error ⟨s, buffer, .stuck, 0⟩
      else .ok ({ s with consumed := s.consumed + parsed }, buffer.drop parsed)

/-- "There is command, but we still wait for argument to arrive" -/
def fillArgument (s : Session Store) (buffer : Bytes) : Session Store × Bytes :=
  if s.commandToExecute.isSome ∧ s.argRemains > 0 then
    let toRead := min s.argRemains buffer.length
    ({ s.hand toRead with
        argumentForCommand := s.argumentForCommand ++ buffer.take toRead
        argRemains := s.argRemains - toRead
        consumed := s.consumed + toRead },
      buffer.drop toRead)
  else (s, buffer)

/-- "Prepare for the next command" -/
def next (s : Session Store) : Session Store :=
  { s with commandToExecute := none, argumentForCommand := [], parser := s.parser.reset }

/-- The response is given away, and the next line may come. -/
def respond (s : Session Store) (response : Bytes) : Session Store :=
  { s with responses := s.responses ++ [response] }.next

variable [Storage Store]

/-- "There is command & argument - RUN!" -/
def runCommand (deliver : Deliver Store) (s : Session Store) : Session Store × Option Reason :=
  match s.commandToExecute with
  | none => (s, none)
  | some command =>
    if s.argRemains = 0 then
      let s := { s with executed := s.executed ++ [(command, s.argumentForCommand)] }
      match (command.execute s.argumentForCommand).execute Storage.call s.storage with
      | .error fault => (s, some (.fault fault))
      | .ok (result, storage) => deliver { s with storage := storage } (result ++ crlf)
    else (s, none)

def pass (deliver : Deliver Store) (s : Session Store) (buffer : Bytes) :
    Except (Interrupt Store) (Session Store × Bytes) := do
  let (s, buffer) ← if s.commandToExecute.isNone then parseCommand s buffer else .ok (s, buffer)
  let (s, buffer) := fillArgument s buffer
  match runCommand deliver s with
  | (s, some reason) => .error ⟨s, buffer, reason, 0⟩
  | (s, none) => .ok (s, buffer)

/-- `while (readed_bytes > 0)`; `fuel` bounds the rounds, each of which takes a
    byte out of the buffer. -/
def drain (deliver : Deliver Store) :
    Nat → Session Store → Bytes → Except (Interrupt Store) (Session Store)
  | _, s, [] => .ok s
  | 0, s, buffer => .error ⟨s, buffer, .fault .divergence, 0⟩
  | fuel + 1, s, buffer => do
    let (s, buffer) ← pass deliver s buffer
    drain deliver fuel s buffer

end Session

end Afina.Network
