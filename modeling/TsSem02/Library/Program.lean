import TsSem02.Library.Runs

/-! # Programs that make calls

A `Program Call Reply Result` makes calls one after another, each chosen from
the replies to those before, and ends with a result.  `execute` runs a whole
program on a machine `Call → State → Except Failure (Reply × State)`, without
anything happening in between.
-/

inductive Program (Call Reply Result : Type) where
  | done (result : Result)
  | step (call : Call) (next : Reply → Program Call Reply Result)

namespace Program

variable {Call Reply Result Other State Failure : Type}

def bind : Program Call Reply Result → (Result → Program Call Reply Other) →
    Program Call Reply Other
  | done result, andThen => andThen result
  | step call next, andThen => step call fun reply => (next reply).bind andThen

instance : Monad (Program Call Reply) where
  pure := done
  bind := bind

def perform (call : Call) : Program Call Reply Reply := step call done

@[simp] theorem pure_eq_done (result : Result) :
    (pure result : Program Call Reply Result) = done result := rfl

@[simp] theorem done_bind (result : Result) (andThen : Result → Program Call Reply Other) :
    done result >>= andThen = andThen result := rfl

@[simp] theorem perform_bind (call : Call) (andThen : Reply → Program Call Reply Other) :
    perform call >>= andThen = step call andThen := rfl

/-! ## Execution -/

def execute (machine : Call → State → Except Failure (Reply × State)) :
    Program Call Reply Result → State → Except Failure (Result × State)
  | done result, state => .ok (result, state)
  | step call next, state =>
    match machine call state with
    | .error failure => .error failure
    | .ok (reply, state) => (next reply).execute machine state

variable {machine : Call → State → Except Failure (Reply × State)}

@[simp] theorem execute_done (result : Result) (state : State) :
    (done result : Program Call Reply Result).execute machine state = .ok (result, state) := rfl

theorem execute_step_of_ok {call : Call} {next : Reply → Program Call Reply Result}
    {state state' : State} {reply : Reply} (called : machine call state = .ok (reply, state')) :
    (step call next).execute machine state = (next reply).execute machine state' := by
  rw [execute, called]

theorem execute_step_of_error {call : Call} {next : Reply → Program Call Reply Result}
    {state : State} {failure : Failure} (failed : machine call state = .error failure) :
    (step call next).execute machine state = .error failure := by
  rw [execute, failed]

theorem execute_step_ok {call : Call} {next : Reply → Program Call Reply Result}
    {state final : State} {result : Result} :
    (step call next).execute machine state = .ok (result, final) ↔
      ∃ reply state', machine call state = .ok (reply, state') ∧
        (next reply).execute machine state' = .ok (result, final) := by
  cases called : machine call state with
  | error failure => simp [execute_step_of_error called]
  | ok answer =>
    obtain ⟨reply, state'⟩ := answer
    rw [execute_step_of_ok called]
    constructor
    · intro ran
      exact ⟨reply, state', rfl, ran⟩
    · rintro ⟨_, _, same, ran⟩
      cases same
      exact ran

end Program
