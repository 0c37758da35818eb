import Mathlib.Data.Finset.Basic
import Mathlib.Logic.Function.Basic
import TsSem02.Storage.Storage

/-! # The coroutine engine

`Engine` with its contexts in memory: the links `prev` and `next` of the allocated
ones, the pointers `alive` and `cur_routine`, and the idle context.  `setjmp`,
`longjmp`, `Store` and `Restore` are taken to do what they are for: `Restore`
passes control to where the context was saved.

A routine is the sequence of its calls into the engine; which call comes next is
up to the list of operations.
-/

namespace Afina.Coroutine

abbrev Ptr := Nat

inductive Control where
  | routine (pc : Ptr)  -- in the function of a routine
  | start               -- at `setjmp(idle_ctx->Environment)`
  | returned            -- behind the call of `start`
deriving DecidableEq, Repr

structure Engine where
  curRoutine : Option Ptr
  alive : Option Ptr
  idleCtx : Ptr
  contexts : Finset Ptr  -- the allocated ones
  next : Ptr → Option Ptr
  prev : Ptr → Option Ptr
  control : Control

/-- What a routine does next. -/
inductive Op where
  | run (pc : Ptr)  -- `new context()` returns `pc`
  | yield
  | sched (routine : Option Ptr)
  | finish
deriving DecidableEq, Repr

inductive Stuck where
  | inadmissible  -- no routine runs, or the address is not to be had
  | fault (fault : Fault)
deriving DecidableEq, Repr

namespace Engine

def deref (engine : Engine) : Option Ptr → Except Fault Ptr
  | none => .error .nullPointer
  | some p => if p ∈ engine.contexts then .ok p else .error .danglingPointer

def setNext (engine : Engine) (p q : Option Ptr) : Except Fault Engine := do
  let p ← engine.deref p
  return { engine with next := Function.update engine.next p q }

def setPrev (engine : Engine) (p q : Option Ptr) : Except Fault Engine := do
  let p ← engine.deref p
  return { engine with prev := Function.update engine.prev p q }

/-- `if (p != nullptr) p->next = q` -/
def linkNext (engine : Engine) (p q : Option Ptr) : Except Fault Engine :=
  if p = none then .ok engine else engine.setNext p q

/-- `if (p != nullptr) p->prev = q` -/
def linkPrev (engine : Engine) (p q : Option Ptr) : Except Fault Engine :=
  if p = none then .ok engine else engine.setPrev p q

def restore (engine : Engine) (ctx : Ptr) : Except Fault Engine := do
  let ctx ← engine.deref (some ctx)
  return { engine with control := if ctx = engine.idleCtx then .start else .routine ctx }

/-- The current routine is saved in its context, if there is one. -/
def suspend (engine : Engine) : Except Fault Unit :=
  match engine.curRoutine with
  | none => .ok ()
  | some cur => if cur = engine.idleCtx then .ok () else (engine.deref (some cur)).map fun _ => ()

def enter (engine : Engine) (ctx : Ptr) : Except Fault Engine := do
  engine.suspend
  { engine with curRoutine := some ctx }.restore ctx

def yield (engine : Engine) : Except Fault Engine :=
  if engine.curRoutine = engine.alive then do
    -- `alive->next`, also when both pointers are null
    let head ← engine.deref engine.alive
    match engine.next head with
    | some next => engine.enter next
    | none => return engine
  else
    match engine.alive with
    | some head => engine.enter head
    | none => return engine

def sched (engine : Engine) (routine : Option Ptr) : Except Fault Engine :=
  if engine.curRoutine = routine then .ok engine
  else
    match routine with
    | some ctx => engine.enter ctx
    | none => engine.yield

/-- `Engine::run`, up to its first return; `StackBottom` is set, for `start` is on. -/
def run (engine : Engine) (pc : Ptr) : Except Fault Engine :=
  let engine := { engine with
    contexts := insert pc engine.contexts
    prev := Function.update engine.prev pc none
    next := Function.update engine.next pc engine.alive
    alive := some pc }
  engine.linkPrev (engine.next pc) (some pc)

/-- The first two statements behind the call of `func`. -/
def unlink (engine : Engine) (pc : Ptr) : Except Fault Engine := do
  let pc ← engine.deref (some pc)
  let engine ← engine.linkNext (engine.prev pc) (engine.next pc)
  engine.linkPrev (engine.next pc) (engine.prev pc)

/-- `if (alive == cur_routine) alive = alive->next` -/
def advance (engine : Engine) : Except Fault Engine :=
  if engine.alive = engine.curRoutine then do
    let head ← engine.deref engine.alive
    return { engine with alive := engine.next head }
  else .ok engine

/-- "current coroutine finished, and the pointer is not relevant now" -/
def free (engine : Engine) (pc : Ptr) : Except Fault Engine := do
  let engine ← { engine with curRoutine := none }.setNext (some pc) none
  let engine ← engine.setPrev (some pc) none
  return { engine with contexts := engine.contexts.erase pc }

/-- "Routine has completed its execution, time to delete it." -/
def complete (engine : Engine) (pc : Ptr) : Except Fault Engine := do
  let engine ← engine.unlink pc
  let engine ← engine.advance
  let engine ← engine.free pc
  engine.restore engine.idleCtx

/-- "Here: correct finish of the coroutine section", and the end of `start` unless
    `yield` has passed control to a routine. -/
def resume (engine : Engine) : Except Fault Engine := do
  let engine ← engine.yield
  if engine.control = .start then
    return { engine with contexts := engine.contexts.erase engine.idleCtx, control := .returned }
  else return engine

/-- `Engine::start`, up to the point where the main routine has control. -/
def start (main idle : Ptr) : Except Fault Engine := do
  let engine : Engine := ⟨none, none, idle, ∅, fun _ => none, fun _ => none, .start⟩
  let engine ← engine.run main
  let engine := { engine with contexts := insert idle engine.contexts }
  engine.sched (some main)

/-- A routine that was created and has not finished. -/
def Unfinished (engine : Engine) (pc : Ptr) : Prop := pc ∈ engine.contexts ∧ pc ≠ engine.idleCtx

instance (engine : Engine) (pc : Ptr) : Decidable (engine.Unfinished pc) :=
  inferInstanceAs (Decidable (_ ∧ _))

/-- The operation makes sense: memory that is free is allocated, and a routine that
    is alive is scheduled. -/
def admissible (engine : Engine) : Op → Bool
  | .run pc => pc ∉ engine.contexts
  | .sched (some routine) => engine.Unfinished routine
  | .sched none | .yield | .finish => true

/-- What the running routine does. -/
def perform (engine : Engine) (pc : Ptr) : Op → Except Fault Engine
  | .run new => engine.run new
  | .yield => engine.yield
  | .sched routine => engine.sched routine
  | .finish => do (← engine.complete pc).resume

def step (op : Op) (engine : Engine) : Except Stuck (Unit × Engine) :=
  match engine.control with
  | .routine pc =>
    if engine.admissible op then
      match engine.perform pc op with
      | .error fault => .error (.fault fault)
      | .ok engine => .ok ((), engine)
    else .error .inadmissible
  | .start | .returned => .error .inadmissible

end Engine

end Afina.Coroutine
