import TsSem02.Library.Program
import TsSem02.Storage.Storage

/-! # Commands

What each command does with the storage, as a program of storage calls whose
result is the text it answers; the network layer adds the final line break.
-/

namespace Afina.Execute

open Program

/-- What a command does: storage calls and, in the end, the text of the answer. -/
abbrev StorageProgram := Program StorageCall StorageReply Bytes

/-- `operator<<` of an unsigned integer. -/
def decimal (n : Nat) : Bytes := ascii (String.ofList (Nat.toDigits 10 n))

def crlf : Bytes := ascii "\r\n"

structure InsertCommand where
  key : Bytes
  flags : Nat
  expire : Int
deriving DecidableEq, Repr

inductive Command where
  | set (command : InsertCommand)
  | add (command : InsertCommand)
  | append (command : InsertCommand)
  | replace (command : InsertCommand)
  | get (keys : List Bytes)
  | stats
deriving DecidableEq, Repr

/-- `Set::Execute`; the reply of `Put` is not looked at. -/
def Set.execute (key args : Bytes) : StorageProgram := do
  let _ ← perform (.put key args)
  return ascii "STORED"

def Add.execute (key args : Bytes) : StorageProgram := do
  let reply ← perform (.putIfAbsent key args)
  return if reply.ok then ascii "STORED" else ascii "NOT_STORED"

/-- `Append::Execute`: a read, and then a write of the longer value. -/
def Append.execute (key args : Bytes) : StorageProgram := do
  let reply ← perform (.get key)
  if reply.ok then
    let _ ← perform (.put key (reply.value.getD [] ++ args))
    return ascii "STORED"
  else
    return ascii "NOT_STORED"

def Replace.execute (key args : Bytes) : StorageProgram := do
  let reply ← perform (.get key)
  if reply.ok then
    let _ ← perform (.set key args)
    return ascii "STORED"
  else
    return ascii "NOT_STORED"

/-- `VALUE <key> 0 <bytes>`, the data block and their line breaks. -/
def Get.item (key value : Bytes) : Bytes :=
  ascii "VALUE " ++ key ++ ascii " 0 " ++ decimal value.length ++ crlf ++ value ++ crlf

/-- The loop of `Get::Execute` over the keys; `value` is the string that every
    `storage.Get` assigns to. -/
def Get.items : List Bytes → Bytes → Bytes → StorageProgram
  | [], _, outStream => return outStream ++ ascii "END"
  | key :: keys, value, outStream => do
    let reply ← perform (.get key)
    let value := reply.value.getD value
    if reply.ok then
      Get.items keys value (outStream ++ Get.item key value)
    else
      Get.items keys value outStream

def Get.execute (keys : List Bytes) : StorageProgram := Get.items keys [] []

def Stats.execute : StorageProgram := return ascii "END"

def Command.execute : Command → Bytes → StorageProgram
  | .set command, args => Set.execute command.key args
  | .add command, args => Add.execute command.key args
  | .append command, args => Append.execute command.key args
  | .replace command, args => Replace.execute command.key args
  | .get keys, _ => Get.execute keys
  | .stats, _ => Stats.execute

end Afina.Execute
