import TsSem02.Execute.Command
import TsSem02.Library.CInt

/-! # The command line parser

`Parser::Parse` is a byte-by-byte state machine (`step`) driven over an input
buffer (`parse`); `Parser::Build` makes the command of a complete line.  A step
either succeeds or throws, and a step that throws changes nothing.
-/

namespace Afina.Protocol

open CInt Execute

/-- `Parser::State` -/
inductive State where
  | sCR
  | sLF
  | sName
  | spKey
  | spFlags
  | spExprTimeStart
  | spExprTime
  | spBytes
  | sgKey
deriving DecidableEq, Repr

structure Parser where
  state : State
  name : Bytes
  keys : List Bytes
  flags : Nat       -- `uint32_t`
  exprtime : Int    -- `int32_t`
  bytes : Nat       -- `uint32_t`
  negative : Bool
  curKey : Bytes
  parseComplete : Bool
deriving DecidableEq, Repr

inductive ParseError where
  | unknownCommandName (name : Bytes)
  | noKey
  | flagsOverflow
  | expireTimeOverflow
  | bytesOverflow
  | invalidChar (c : UInt8)
  | unknownState
  | unsupportedCommand
deriving DecidableEq, Repr

/-- `operator<<` of a signed integer. -/
def signedDecimal (n : Int) : Bytes :=
  if n < 0 then ascii "-" ++ decimal n.natAbs else decimal n.natAbs

/-- The text of an error thrown at position `pos` of the input. -/
def ParseError.what (pos : Nat) : ParseError → Bytes
  | unknownCommandName name => ascii "Unknown command name: " ++ name
  | noKey => ascii "Client provides no key to retrive"
  | flagsOverflow => ascii "Flags field overflow"
  | expireTimeOverflow => ascii "Expire time field overflow"
  | bytesOverflow => ascii "Bytes field overflow"
  -- `char` is signed
  | invalidChar c => ascii "Invalid char " ++ signedDecimal (toSigned 8 c.toNat) ++
      ascii " at position " ++ decimal pos ++ ascii ", \\n expected"
  | unknownState => ascii "Unknown state"
  | unsupportedCommand => ascii "Unsupported command"

/-! ## Bytes the parser looks for -/

def space : UInt8 := 32
def cr : UInt8 := 13
def lf : UInt8 := 10
def minus : UInt8 := 45

def isDigit (c : UInt8) : Bool := 48 ≤ c && c ≤ 57

def digit (c : UInt8) : Nat := c.toNat - 48

def storageNames : List Bytes := [ascii "set", ascii "add", ascii "append", ascii "prepend"]

def retrievalNames : List Bytes := [ascii "get", ascii "gets"]

namespace Parser

/-- `Parser::Reset`; `negative` is left alone. -/
def reset (parser : Parser) : Parser :=
  { parser with
    state := .sName
    name := []
    keys := []
    curKey := []
    parseComplete := false
    flags := 0
    bytes := 0
    exprtime := 0 }

/-- A decimal digit appended to an unsigned number of 32 bits. -/
def shiftIn (number : Nat) (c : UInt8) : Nat := toUnsigned 32 (number * 10 + digit c)

/-- The next expiration time.  Overflow of the signed type is taken to wrap, as
    the check behind it expects. -/
def addExprtime (parser : Parser) (c : UInt8) : Except ParseError Parser :=
  if parser.negative then
    let et := toSigned 32 (parser.exprtime - digit c)
    if et > parser.exprtime then throw .expireTimeOverflow else return { parser with exprtime := et }
  else
    let et := toSigned 32 (parser.exprtime + digit c)
    if et < parser.exprtime then throw .expireTimeOverflow else return { parser with exprtime := et }

/-- One round of the loop of `Parser::Parse`. -/
def step (parser : Parser) (c : UInt8) : Except ParseError Parser :=
  match parser.state with
  | .sName =>
    if c = space ∨ c = cr then
      if parser.name ∈ storageNames then return { parser with state := .spKey }
      else if parser.name ∈ retrievalNames then return { parser with state := .sgKey }
      else if parser.name = ascii "stats" then return { parser with state := .sLF }
      else throw (.unknownCommandName parser.name)
    else return { parser with name := parser.name ++ [c] }
  | .spKey =>
    if c = space then return { parser with state := .spFlags, keys := parser.keys ++ [parser.curKey] }
    else return { parser with curKey := parser.curKey ++ [c] }
  | .sgKey =>
    if c = cr then
      let keys := parser.keys ++ [parser.curKey]
      if keys.length = 0 then throw .noKey
      else return { parser with keys := keys, curKey := [], state := .sLF }
    else if c = space then
      return { parser with state := .sgKey, keys := parser.keys ++ [parser.curKey], curKey := [] }
    else return { parser with curKey := parser.curKey ++ [c] }
  | .spFlags =>
    if c = space then return { parser with negative := false, state := .spExprTimeStart }
    else if isDigit c then
      let f := shiftIn parser.flags c
      if f < parser.flags then throw .flagsOverflow else return { parser with flags := f }
    else return parser
  | .spExprTimeStart =>
    if c = minus then return { parser with negative := true, state := .spExprTime }
    else if isDigit c then return { parser with exprtime := digit c, state := .spExprTime }
    else return parser
  | .spExprTime =>
    if c = space then return { parser with state := .spBytes }
    else if isDigit c then parser.addExprtime c
    else return parser
  | .spBytes =>
    if c = cr then return { parser with state := .sLF }
    else if isDigit c then
      let b := shiftIn parser.bytes c
      if b < parser.bytes then throw .bytesOverflow else return { parser with bytes := b }
    else return parser
  | .sLF =>
    if c = lf then return { parser with parseComplete := true }
    else throw (.invalidChar c)
  | .sCR => throw .unknownState

/-- How `Parse` ends: it returns `parse_complete` and the number of bytes it
    consumed, or throws at a position of the input. -/
inductive ParseOutcome where
  | returned (parsed : Nat)
  | threw (error : ParseError) (pos : Nat)
deriving DecidableEq, Repr

/-- The loop of `Parser::Parse` at position `pos`. -/
def parseFrom (parser : Parser) (pos : Nat) : Bytes → Parser × ParseOutcome
  | [] => (parser, .returned pos)
  | c :: input =>
    if parser.parseComplete then (parser, .returned pos)
    else
      match parser.step c with
      | .error error => (parser, .threw error pos)
      | .ok parser => parser.parseFrom (pos + 1) input

def parse (parser : Parser) (input : Bytes) : Parser × ParseOutcome := parser.parseFrom 0 input

inductive Built where
  | nothing
  | command (command : Command)
  | threw (error : ParseError)
  | undefined  -- `keys[0]` of an empty vector
deriving DecidableEq, Repr

/-- `new` of a storage command from the parsed fields. -/
def insertCommand (parser : Parser) (make : InsertCommand → Command) : Built :=
  match parser.keys with
  | [] => .undefined
  | key :: _ => .command (make ⟨key, parser.flags, parser.exprtime⟩)

/-- `Parser::Build`: the new value of `body_size`, if it is assigned, and the
    command. -/
def build (parser : Parser) : Option Nat × Built :=
  if parser.state ≠ .sLF then (none, .nothing)
  else (some parser.bytes,
    if parser.name = ascii "set" then parser.insertCommand .set
    else if parser.name = ascii "add" then parser.insertCommand .add
    else if parser.name = ascii "append" then parser.insertCommand .append
    else if parser.name = ascii "get" then .command (.get parser.keys)
    else if parser.name = ascii "stats" then .command .stats
    else .threw .unsupportedCommand)

end Parser

end Afina.Protocol
