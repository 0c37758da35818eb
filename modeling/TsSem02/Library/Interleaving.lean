import TsSem02.Library.Program
import Mathlib.Logic.Function.Basic

/-! # Workers that share a state

Each worker executes its tasks in order, and each task is a program of calls on
the shared state.  A call is atomic, a task is not: between two of its calls the
other workers make theirs.

* `interleave` — one worker makes its next call;
* `serialStep` — one worker executes its next task, with nothing in between;
* `Serializable` — what a run of calls has done, some run of tasks does as well;
* `Undisturbed` — a condition on the calls that are made while a task is halfway;
* `serializable_of_simulation` — the run lemma.
-/

namespace Interleaving

variable {ι Task Call Reply Result State Failure : Type}

/-- A task leaves the queue when its result is there. -/
structure Worker (Task Call Reply Result : Type) where
  queue : List Task
  inFlight : Option (Program Call Reply Result)  -- the rest of the first task
  results : List Result

structure World (ι Task Call Reply Result State : Type) where
  state : State
  workers : ι → Worker Task Call Reply Result

inductive Stop (Failure : Type) where
  | idle  -- the worker has nothing to do
  | failed (failure : Failure)

namespace Worker

def start (queue : List Task) : Worker Task Call Reply Result := ⟨queue, none, []⟩

def Halfway (worker : Worker Task Call Reply Result) (task : Task) : Prop :=
  worker.inFlight.isSome ∧ worker.queue.head? = some task

def program (load : Task → Program Call Reply Result) (worker : Worker Task Call Reply Result) :
    Option (Program Call Reply Result) :=
  worker.inFlight.or (worker.queue.head?.map load)

/-- The worker after a call, of whose task `rest` is left. -/
def proceed (worker : Worker Task Call Reply Result) :
    Program Call Reply Result → Worker Task Call Reply Result
  | .done result => ⟨worker.queue.tail, none, worker.results ++ [result]⟩
  | .step call next => { worker with inFlight := some (.step call next) }

end Worker

namespace World

def start (state : State) (queues : ι → List Task) : World ι Task Call Reply Result State :=
  ⟨state, fun i => .start (queues i)⟩

variable [DecidableEq ι]

/-- Worker `i` has made a call that left `state`. -/
def proceed (world : World ι Task Call Reply Result State) (i : ι) (state : State)
    (rest : Program Call Reply Result) : World ι Task Call Reply Result State where
  state := state
  workers := Function.update world.workers i ((world.workers i).proceed rest)

@[simp] theorem proceed_state (world : World ι Task Call Reply Result State) (i : ι) (state : State)
    (rest : Program Call Reply Result) : (world.proceed i state rest).state = state := rfl

@[simp] theorem proceed_self (world : World ι Task Call Reply Result State) (i : ι) (state : State)
    (rest : Program Call Reply Result) :
    (world.proceed i state rest).workers i = (world.workers i).proceed rest :=
  Function.update_self ..

@[simp] theorem proceed_of_ne (world : World ι Task Call Reply Result State) {i j : ι}
    (other : j ≠ i) (state : State) (rest : Program Call Reply Result) :
    (world.proceed i state rest).workers j = world.workers j :=
  Function.update_of_ne other ..

end World

section Steps

variable [DecidableEq ι] (load : Task → Program Call Reply Result)
  (machine : Call → State → Except Failure (Reply × State))

/-- Worker `i` makes its next call. -/
def interleave (world : World ι Task Call Reply Result State) (i : ι) :
    Except (Stop Failure) (World ι Task Call Reply Result State) :=
  match (world.workers i).program load with
  | none => .error .idle
  | some (.done result) => .ok (world.proceed i world.state (.done result))
  | some (.step call next) =>
    match machine call world.state with
    | .error failure => .error (.failed failure)
    | .ok (reply, state) => .ok (world.proceed i state (next reply))

/-- Worker `i` executes its next task. -/
def serialStep (world : World ι Task Call Reply Result State) (i : ι) :
    Except (Stop Failure) (World ι Task Call Reply Result State) :=
  match (world.workers i).queue with
  | [] => .error .idle
  | task :: _ =>
    match (load task).execute machine world.state with
    | .error failure => .error (.failed failure)
    | .ok (result, state) => .ok (world.proceed i state (.done result))

/-- Some serial order of whole tasks starts in `world` and leaves the queues and
    the results of `reached`, and a state that is the same for `same`. -/
def Serializable (same : State → State → Prop)
    (world reached : World ι Task Call Reply Result State) : Prop :=
  ∃ (order : List ι) (serial : World ι Task Call Reply Result State),
    order.foldlM (serialStep load machine) world = .ok serial ∧
      (∀ i, (serial.workers i).queue = (reached.workers i).queue ∧
        (serial.workers i).results = (reached.workers i).results) ∧
      same serial.state reached.state

/-- Every call of the run spares the tasks of the other workers that are halfway.
    `seen j` is the state that worker `j` made its last call in. -/
def Undisturbed (Spares : State → Call → State → Task → Prop) :
    (ι → State) → World ι Task Call Reply Result State → List ι → Prop
  | _, _, [] => True
  | seen, world, i :: schedule =>
    (∀ call next, (world.workers i).program load = some (.step call next) →
      ∀ j ≠ i, ∀ task, (world.workers j).Halfway task → Spares world.state call (seen j) task) ∧
    ∀ next, interleave load machine world i = .ok next →
      Undisturbed Spares (Function.update seen i world.state) next schedule

end Steps

section Folds

variable {step : State → ι → Except Failure State} {first second : List ι}
  {state middle final : State} {i : ι}

theorem foldlM_cons_ok :
    (i :: first).foldlM step state = .ok final ↔
      ∃ next, step state i = .ok next ∧ first.foldlM step next = .ok final := by
  rw [List.foldlM_cons]
  cases stepped : step state i with
  | error failure => simp [bind, Except.bind]
  | ok next => simp [bind, Except.bind]

theorem foldlM_append_ok (ran : first.foldlM step state = .ok middle)
    (ranOn : second.foldlM step middle = .ok final) :
    (first ++ second).foldlM step state = .ok final := by
  rw [List.foldlM_append, ran]
  exact ranOn

end Folds

section Runs

variable [DecidableEq ι] {load : Task → Program Call Reply Result}
  {machine : Call → State → Except Failure (Reply × State)}
  {world reached : World ι Task Call Reply Result State}

theorem interleave_of_call {i : ι} {call : Call} {next : Reply → Program Call Reply Result}
    (loaded : (world.workers i).program load = some (.step call next))
    (stepped : interleave load machine world i = .ok reached) :
    ∃ reply state, machine call world.state = .ok (reply, state) ∧
      reached = world.proceed i state (next reply) := by
  simp only [interleave, loaded] at stepped
  split at stepped
  · cases stepped
  · rename_i reply state called
    cases stepped
    exact ⟨reply, state, called, rfl⟩

theorem interleave_idle {i : ι} (idle : (world.workers i).program load = none) :
    interleave load machine world i = .error .idle := by
  simp only [interleave, idle]

theorem serialStep_of_execute {i : ι} {task : Task} {rest : List Task} {result : Result}
    {state : State} (waiting : (world.workers i).queue = task :: rest)
    (executed : (load task).execute machine world.state = .ok (result, state)) :
    serialStep load machine world i = .ok (world.proceed i state (.done result)) := by
  simp only [serialStep, waiting, executed]

/-- A relation between interleaved and serial worlds that every step keeps, the
    serial side executing what the step finishes, relates all that a run reaches. -/
theorem simulation {Spares : State → Call → State → Task → Prop}
    {Related : (ι → State) → World ι Task Call Reply Result State →
      World ι Task Call Reply Result State → Prop}
    (simulated : ∀ seen world serial i next, Related seen world serial →
      (∀ call rest, (world.workers i).program load = some (.step call rest) →
        ∀ j ≠ i, ∀ task, (world.workers j).Halfway task → Spares world.state call (seen j) task) →
      interleave load machine world i = .ok next →
      ∃ (order : List ι) (serial' : World ι Task Call Reply Result State),
        order.foldlM (serialStep load machine) serial = .ok serial' ∧
        Related (Function.update seen i world.state) next serial')
    {seen : ι → State} {serial : World ι Task Call Reply Result State} {schedule : List ι}
    (related : Related seen world serial)
    (undisturbed : Undisturbed load machine Spares seen world schedule)
    (ran : schedule.foldlM (interleave load machine) world = .ok reached) :
    ∃ (order : List ι) (serial' : World ι Task Call Reply Result State) (seen' : ι → State),
      order.foldlM (serialStep load machine) serial = .ok serial' ∧
      Related seen' reached serial' := by
  induction schedule generalizing seen world serial with
  | nil =>
    cases ran
    exact ⟨[], serial, seen, rfl, related⟩
  | cons i schedule ih =>
    obtain ⟨next, stepped, ranOn⟩ := foldlM_cons_ok.mp ran
    obtain ⟨spares, undisturbedOn⟩ := undisturbed
    obtain ⟨order, serial', ranSerial, related'⟩ :=
      simulated seen world serial i next related spares stepped
    obtain ⟨more, serial'', seen', ranMore, related''⟩ :=
      ih related' (undisturbedOn next stepped) ranOn
    exact ⟨order ++ more, serial'', seen', foldlM_append_ok ranSerial ranMore, related''⟩

end Runs

end Interleaving
