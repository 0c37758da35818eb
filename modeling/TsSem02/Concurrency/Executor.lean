import TsSem02.Library.Runs

/-! # The thread pool

`Executor` and the threads that run `perform`.  What a thread does while it holds
the mutex is one step: `Execute`, `Stop`, and the two critical sections of
`perform`; a task that ends is a step as well.  Which thread comes next, how long
a task takes and what the clock says is up to the list of events.

`step_cases` says once what a step can do.
-/

namespace Afina.Concurrency

inductive State where
  | run
  | stopping
  | stopped
deriving DecidableEq, Repr

/-- Where a thread of the pool is in `perform`. -/
inductive Worker (Task : Type) where
  | ready                    -- about to lock the mutex at the head of the loop
  | waiting                  -- in `wait_for`, which has unlocked it
  | performing (task : Task)
  | finishing                -- about to lock the mutex after a task
  | exited
deriving DecidableEq, Repr

namespace Worker

variable {Task : Type}

def alive : Worker Task → Bool
  | exited => false
  | _ => true

/-- Neither holding nor just finishing a task. -/
def sleeping : Worker Task → Bool
  | ready | waiting => true
  | _ => false

def task? : Worker Task → Option Task
  | performing task => some task
  | _ => none

end Worker

structure Executor (Task : Type) where
  lowWatermark : Nat
  hightWatermark : Nat
  maxQueueSize : Nat
  sleepingWorkers : Nat
  runningThreads : Nat
  tasks : List Task
  state : State
  threads : List (Worker Task)  -- every thread that was ever created
  awaiting : Nat                -- calls of `Stop(true)` that wait
deriving Repr

/-- What a call returns, or what a thread of the pool does with a task. -/
inductive Reply (Task : Type) where
  | accepted (task : Task)
  | refused (task : Task)
  | started (task : Task)
  | completed (task : Task)
  | stopped                  -- `Stop(true)` returns
  | nothing
deriving DecidableEq, Repr

inductive Stuck where
  | disabled   -- the thread is somewhere else
  | underflow  -- an unsigned counter would be decremented at zero
deriving DecidableEq, Repr

inductive Event (Task : Type) where
  | execute (task : Task)
  | stop (await : Bool)
  | stopWakes
  | poll (thread : Nat) (timedOut : Bool)
  | finish (thread : Nat) (threw : Bool)
  | recount (thread : Nat)
deriving DecidableEq, Repr

namespace Executor

variable {Task : Type}

/-- `Executor::Executor`; the threads it creates wait for its mutex. -/
def start (lowWatermark hightWatermark maxQueueSize : Nat) : Executor Task where
  lowWatermark := lowWatermark
  hightWatermark := hightWatermark
  maxQueueSize := maxQueueSize
  sleepingWorkers := lowWatermark
  runningThreads := lowWatermark
  tasks := []
  state := .run
  threads := List.replicate lowWatermark .ready
  awaiting := 0

def decrement : Nat → Except Stuck Nat
  | 0 => .error .underflow
  | n + 1 => .ok n

def goto (executor : Executor Task) (i : Nat) (worker : Worker Task) : Executor Task :=
  { executor with threads := executor.threads.set i worker }

/-- `Executor::Execute`; a notification only ends the wait of a thread, which may
    end at any time. -/
def execute (executor : Executor Task) (task : Task) : Bool × Executor Task :=
  if executor.state ≠ .run then (false, executor)
  else if executor.tasks.length < executor.maxQueueSize then
    let executor := { executor with tasks := executor.tasks ++ [task] }
    -- a thread that sleeps is notified, whether or not a task waits for it already
    if executor.sleepingWorkers = 0 then
      if executor.runningThreads < executor.hightWatermark then
        (true, { executor with
          threads := executor.threads ++ [.ready]
          runningThreads := executor.runningThreads + 1
          sleepingWorkers := executor.sleepingWorkers + 1 })
      else (true, executor)
    else (true, executor)
  else (false, executor)

/-- `while (running_threads > 0)` of `Stop(true)`, up to the next wait. -/
def awaitThreads (executor : Executor Task) : Reply Task × Executor Task :=
  if executor.runningThreads > 0 then
    (.nothing, { executor with awaiting := executor.awaiting + 1 })
  else (.stopped, executor)

def stop (executor : Executor Task) (await : Bool) : Reply Task × Executor Task :=
  let executor := { executor with state := .stopping }
  if await then executor.awaitThreads else (.nothing, executor)

def stopWakes (executor : Executor Task) : Except Stuck (Reply Task × Executor Task) :=
  match executor.awaiting with
  | 0 => .error .disabled
  | awaiting + 1 => .ok { executor with awaiting := awaiting }.awaitThreads

/-- The first critical section of `perform`, from its beginning or from the end of
    a wait up to the next wait or its end; `timedOut` is what the comparison with
    `idle_time` says. -/
def poll (executor : Executor Task) (i : Nat) (timedOut : Bool) :
    Except Stuck (Reply Task × Executor Task) :=
  if executor.tasks = [] ∧ executor.state = .run ∧ timedOut = false then
    .ok (.nothing, executor.goto i .waiting)
  else do
    -- the wait is over: there is a task, the pool is being stopped, or the time is up
    let sleepingWorkers ← decrement executor.sleepingWorkers
    let executor := { executor with sleepingWorkers := sleepingWorkers }
    match executor.tasks with
    | task :: tasks =>
      .ok (.started task, { executor with tasks := tasks }.goto i (.performing task))
    | [] =>
      if executor.state ≠ .run then do
        let runningThreads ← decrement executor.runningThreads
        .ok (.nothing, { executor with
          runningThreads := runningThreads
          state := if runningThreads = 0 then .stopped else executor.state }.goto i .exited)
      else if executor.sleepingWorkers ≥ executor.lowWatermark then do
        let runningThreads ← decrement executor.runningThreads
        .ok (.nothing, { executor with runningThreads := runningThreads }.goto i .exited)
      else
        .ok (.nothing,
          { executor with sleepingWorkers := executor.sleepingWorkers + 1 }.goto i .ready)

def step : Event Task → Executor Task → Except Stuck (Reply Task × Executor Task)
  | .execute task, executor =>
    match executor.execute task with
    | (true, executor) => .ok (.accepted task, executor)
    | (false, executor) => .ok (.refused task, executor)
  | .stop await, executor => .ok (executor.stop await)
  | .stopWakes, executor => executor.stopWakes
  | .poll i timedOut, executor =>
    match executor.threads[i]? with
    | some .ready | some .waiting => executor.poll i timedOut
    | _ => .error .disabled
  | .finish i _, executor =>
    -- an exception of the task is caught and dropped
    match executor.threads[i]? with
    | some (.performing task) => .ok (.completed task, executor.goto i .finishing)
    | _ => .error .disabled
  | .recount i, executor =>
    match executor.threads[i]? with
    | some .finishing =>
      .ok (.nothing,
        { executor with sleepingWorkers := executor.sleepingWorkers + 1 }.goto i .ready)
    | _ => .error .disabled

/-! ## What a step can do -/

/-- A step, with what has to hold for it. -/
inductive Transition (executor : Executor Task) :
    Event Task → Reply Task → Executor Task → Prop
  | refuse (task : Task)
      (full : executor.state = .run → executor.maxQueueSize ≤ executor.tasks.length) :
      Transition executor (.execute task) (.refused task) executor
  | spawn (task : Task) (running : executor.state = .run)
      (room : executor.tasks.length < executor.maxQueueSize)
      (noneSleeping : executor.sleepingWorkers = 0)
      (mayGrow : executor.runningThreads < executor.hightWatermark) :
      Transition executor (.execute task) (.accepted task)
        { executor with
          tasks := executor.tasks ++ [task]
          threads := executor.threads ++ [.ready]
          runningThreads := executor.runningThreads + 1
          sleepingWorkers := executor.sleepingWorkers + 1 }
  | enqueue (task : Task) (running : executor.state = .run)
      (room : executor.tasks.length < executor.maxQueueSize)
      (staffed : 0 < executor.sleepingWorkers ∨ executor.hightWatermark ≤ executor.runningThreads) :
      Transition executor (.execute task) (.accepted task)
        { executor with tasks := executor.tasks ++ [task] }
  | stop (await : Bool) (awaiting : Nat) : Transition executor (.stop await) .nothing
      { executor with state := .stopping, awaiting := awaiting }
  | stopWaits (awaiting : Nat) (waited : executor.awaiting > 0) :
      Transition executor .stopWakes .nothing { executor with awaiting := awaiting }
  | stopReturns (noThreads : executor.runningThreads = 0) :
      Transition executor (.stop true) .stopped { executor with state := .stopping }
  | stopWakes (awaiting : Nat) (waited : executor.awaiting > 0)
      (noThreads : executor.runningThreads = 0) :
      Transition executor .stopWakes .stopped { executor with awaiting := awaiting }
  | wait (i : Nat) (timedOut : Bool) (worker : Worker Task)
      (place : executor.threads[i]? = some worker)
      (sleeping : worker.sleeping) :
      Transition executor (.poll i timedOut) .nothing (executor.goto i .waiting)
  | take (i : Nat) (timedOut : Bool) (worker : Worker Task) (task : Task) (tasks : List Task)
      (sleepingWorkers : Nat)
      (place : executor.threads[i]? = some worker) (sleeping : worker.sleeping)
      (queued : executor.tasks = task :: tasks)
      (counted : executor.sleepingWorkers = sleepingWorkers + 1) :
      Transition executor (.poll i timedOut) (.started task)
        ({ executor with sleepingWorkers := sleepingWorkers, tasks := tasks }.goto i
          (.performing task))
  | leave (i : Nat) (timedOut : Bool) (worker : Worker Task) (sleepingWorkers runningThreads : Nat)
      (state : State)
      (place : executor.threads[i]? = some worker) (sleeping : worker.sleeping)
      (empty : executor.tasks = [])
      (counted : executor.sleepingWorkers = sleepingWorkers + 1)
      (countedRunning : executor.runningThreads = runningThreads + 1)
      (stoppedOrIdle : executor.state ≠ .run ∧ state ≠ .run ∨
        state = executor.state ∧ executor.lowWatermark ≤ sleepingWorkers) :
      Transition executor (.poll i timedOut) .nothing
        ({ executor with
            sleepingWorkers := sleepingWorkers
            runningThreads := runningThreads
            state := state }.goto i .exited)
  | stay (i : Nat) (timedOut : Bool) (worker : Worker Task)
      (place : executor.threads[i]? = some worker) (sleeping : worker.sleeping) :
      Transition executor (.poll i timedOut) .nothing (executor.goto i .ready)
  | finish (i : Nat) (threw : Bool) (task : Task)
      (place : executor.threads[i]? = some (.performing task)) :
      Transition executor (.finish i threw) (.completed task) (executor.goto i .finishing)
  | recount (i : Nat) (place : executor.threads[i]? = some .finishing) :
      Transition executor (.recount i) .nothing
        ({ executor with sleepingWorkers := executor.sleepingWorkers + 1 }.goto i .ready)

variable {executor executor' : Executor Task} {reply : Reply Task}

theorem decrement_ok {n m : Nat} : decrement n = .ok m ↔ n = m + 1 := by
  cases n with
  | zero => simp [decrement]
  | succ n => simp [decrement]

theorem execute_cases (executor : Executor Task) (task : Task) :
    Transition executor (.execute task)
      (if (executor.execute task).1 then .accepted task else .refused task) (executor.execute task).2 := by
  unfold execute
  split
  · rename_i notRunning
    exact .refuse task fun running => absurd running notRunning
  · rename_i running
    have running : executor.state = .run := Decidable.not_not.mp running
    split
    · rename_i room
      dsimp only
      split
      · rename_i noneSleeping
        split
        · rename_i mayGrow
          exact .spawn task running room noneSleeping mayGrow
        · rename_i full
          exact .enqueue task running room (.inr (Nat.le_of_not_lt full))
      · rename_i someSleeping
        exact .enqueue task running room (.inl (Nat.pos_of_ne_zero someSleeping))
    · rename_i full
      exact .refuse task fun _ => Nat.le_of_not_lt full

theorem stop_cases (executor : Executor Task) (await : Bool) :
    Transition executor (.stop await) (executor.stop await).1 (executor.stop await).2 := by
  cases await with
  | false => exact .stop false executor.awaiting
  | true =>
    simp only [stop, if_true, awaitThreads]
    split
    · exact .stop true _
    · rename_i noThreads
      exact .stopReturns (Nat.eq_zero_of_not_pos noThreads)

theorem stopWakes_cases (stepped : executor.stopWakes = .ok (reply, executor')) :
    Transition executor .stopWakes reply executor' := by
  unfold stopWakes at stepped
  split at stepped
  · cases stepped
  · rename_i awaiting counted
    have waited : executor.awaiting > 0 := counted ▸ Nat.succ_pos awaiting
    simp only [awaitThreads] at stepped
    split at stepped
    · cases stepped
      exact .stopWaits _ waited
    · rename_i noThreads
      cases stepped
      exact .stopWakes awaiting waited (Nat.eq_zero_of_not_pos noThreads)

theorem poll_cases {i : Nat} {timedOut : Bool} {worker : Worker Task}
    (place : executor.threads[i]? = some worker) (sleeping : worker.sleeping)
    (stepped : executor.poll i timedOut = .ok (reply, executor')) :
    Transition executor (.poll i timedOut) reply executor' := by
  unfold poll at stepped
  split at stepped
  · cases stepped
    exact .wait i timedOut worker place sleeping
  · cases counted : decrement executor.sleepingWorkers with
    | error stuck => simp [counted, bind, Except.bind] at stepped
    | ok sleepingWorkers =>
      simp only [counted, bind, Except.bind] at stepped
      rw [decrement_ok] at counted
      split at stepped
      · rename_i task tasks queued
        cases stepped
        exact .take i timedOut worker task tasks sleepingWorkers place sleeping queued counted
      · rename_i empty
        split at stepped
        · rename_i notRunning
          cases countedRunning : decrement executor.runningThreads with
          | error stuck => simp [countedRunning] at stepped
          | ok runningThreads =>
            simp only [countedRunning] at stepped
            cases stepped
            rw [decrement_ok] at countedRunning
            refine .leave i timedOut worker sleepingWorkers runningThreads _ place sleeping empty counted
              countedRunning (.inl ⟨notRunning, ?_⟩)
            split
            · simp
            · exact notRunning
        · split at stepped
          · rename_i enough
            cases countedRunning : decrement executor.runningThreads with
            | error stuck => simp [countedRunning] at stepped
            | ok runningThreads =>
              simp only [countedRunning] at stepped
              cases stepped
              rw [decrement_ok] at countedRunning
              exact .leave i timedOut worker sleepingWorkers runningThreads _ place sleeping empty counted
                countedRunning (.inr ⟨rfl, enough⟩)
          · cases stepped
            rw [← counted]
            exact .stay i timedOut worker place sleeping

theorem step_cases {event : Event Task} (stepped : step event executor = .ok (reply, executor')) :
    Transition executor event reply executor' := by
  cases event with
  | execute task =>
    have cases := executor.execute_cases task
    simp only [step] at stepped
    split at stepped
    · rename_i accepted
      cases stepped
      simpa [accepted] using cases
    · rename_i refused
      cases stepped
      simpa [refused] using cases
  | stop await =>
    have stepped : executor.stop await = (reply, executor') := Except.ok.inj stepped
    have cases := executor.stop_cases await
    rwa [stepped] at cases
  | stopWakes => exact stopWakes_cases stepped
  | poll i timedOut =>
    simp only [step] at stepped
    split at stepped
    · rename_i place
      exact poll_cases place rfl stepped
    · rename_i place
      exact poll_cases place rfl stepped
    · cases stepped
  | finish i threw =>
    simp only [step] at stepped
    split at stepped
    · rename_i task place
      cases stepped
      exact .finish i threw task place
    · cases stepped
  | recount i =>
    simp only [step] at stepped
    split at stepped
    · rename_i place
      cases stepped
      exact .recount i place
    · cases stepped

end Executor

end Afina.Concurrency
