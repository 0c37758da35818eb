import TsSem02.Library.Runs

/-! # The storage contract

The five calls of `Afina::Storage` as data, and a class for the stores that
answer them.  A call either completes with a reply and a new state, or runs into
undefined behaviour.
-/

namespace Afina

/-- `std::string`: a byte sequence. -/
abbrev Bytes := List UInt8

/-- The bytes of a string literal of the source. -/
def ascii (literal : String) : Bytes := literal.toList.map fun c => c.toUInt8

/-- How a C++ call can fail to complete. -/
inductive Fault where
  | nullPointer      -- a null pointer was dereferenced
  | danglingPointer  -- a freed node was dereferenced
  | divergence       -- a loop ran longer than it has nodes to work on
  | outOfRange       -- an element behind the end of a vector was read
deriving DecidableEq, Repr

inductive StorageCall where
  | put (key value : Bytes)
  | putIfAbsent (key value : Bytes)
  | set (key value : Bytes)
  | delete (key : Bytes)
  | get (key : Bytes)
deriving DecidableEq, Repr

/-- `op` is `Put` or `Set`, which replace the value of a present key. -/
def StorageCall.Overwrites (op : StorageCall) (key value : Bytes) : Prop :=
  op = .put key value ∨ op = .set key value

theorem StorageCall.Overwrites.unique {op : StorageCall} {key value key' value' : Bytes}
    (overwrites : op.Overwrites key value) (overwrites' : op.Overwrites key' value') :
    key = key' ∧ value = value' := by
  cases overwrites with
  | inl isPut => subst isPut; simpa [Overwrites] using overwrites'
  | inr isSet => subst isSet; simpa [Overwrites] using overwrites'

/-- The returned flag, and what `Get` assigned to its output parameter: nothing
    when the key was not found. -/
structure StorageReply where
  ok : Bool
  value : Option Bytes
deriving DecidableEq, Repr

namespace StorageReply

/-- The reply of the calls without an output parameter. -/
def flag (ok : Bool) : StorageReply := ⟨ok, none⟩

def found (value : Option Bytes) : StorageReply := ⟨value.isSome, value⟩

@[simp] theorem flag_ok (ok : Bool) : (flag ok).ok = ok := rfl
@[simp] theorem flag_value (ok : Bool) : (flag ok).value = none := rfl
@[simp] theorem found_ok (value : Option Bytes) : (found value).ok = value.isSome := rfl
@[simp] theorem found_value (value : Option Bytes) : (found value).value = value := rfl

@[simp] theorem flag_inj {left right : Bool} : flag left = flag right ↔ left = right := by
  simp [flag]

@[simp] theorem found_inj {left right : Option Bytes} : found left = found right ↔ left = right := by
  constructor
  · exact fun equal => congrArg StorageReply.value equal
  · rintro rfl; rfl

end StorageReply

class Storage (State : Type) where
  call : StorageCall → State → Except Fault (StorageReply × State)

end Afina
