import TsSem02.Concurrency.Executor
import Mathlib.Data.List.Induction

/-! # The counters of the thread pool

* `exact_of_runs` — in every state a run reaches, the counters are what they
  count, the bounds hold, and no counter is about to be decremented at zero;
* `served_iff` — tasks that wait have threads to take them, or the pool is as
  large as it may be, exactly when no task is left to a thread that another task
  is already waiting for.
-/

namespace Afina.Concurrency.Executor

open Runs

variable {Task : Type}

/-! ## Counting threads -/

section Counting

variable {threads : List (Worker Task)} {i : Nat} {worker : Worker Task}

theorem countP_set (p : Worker Task → Bool) (next : Worker Task) (place : threads[i]? = some worker) :
    (threads.set i next).countP p + (p worker).toNat = threads.countP p + (p next).toNat := by
  induction threads generalizing i with
  | nil => simp at place
  | cons first threads ih =>
    cases i with
    | zero =>
      simp only [List.getElem?_cons_zero, Option.some.injEq] at place
      subst place
      simp only [List.set_cons_zero, List.countP_cons]
      cases p first <;> cases p next <;> simp
    | succ i =>
      simp only [List.getElem?_cons_succ] at place
      have rest := ih place
      simp only [List.set_cons_succ, List.countP_cons]
      omega

theorem alive_of_sleeping (sleeping : worker.sleeping = true) : worker.alive = true := by
  cases worker <;> simp_all [Worker.sleeping, Worker.alive]

theorem countP_sleeping_le (threads : List (Worker Task)) :
    threads.countP Worker.sleeping ≤ threads.countP Worker.alive :=
  List.countP_mono_left fun _ _ sleeping => alive_of_sleeping sleeping

end Counting

/-! ## The invariant -/

structure Counted (low high maxQueue : Nat) (executor : Executor Task) : Prop where
  lowWatermark : executor.lowWatermark = low
  hightWatermark : executor.hightWatermark = high
  maxQueueSize : executor.maxQueueSize = maxQueue
  running : executor.runningThreads = executor.threads.countP Worker.alive
  sleeping : executor.sleepingWorkers = executor.threads.countP Worker.sleeping
  threads : executor.runningThreads ≤ max low high
  queue : executor.tasks.length ≤ maxQueue
  lowest : executor.state = .run → low ≤ executor.runningThreads
  staffed : executor.tasks ≠ [] → 1 ≤ high → 1 ≤ executor.runningThreads

section Invariant

variable {low high maxQueue : Nat} {executor executor' : Executor Task} {event : Event Task}
  {reply : Reply Task}

theorem Counted.sleeping_le (counted : Counted low high maxQueue executor) :
    executor.sleepingWorkers ≤ executor.runningThreads := by
  rw [counted.sleeping, counted.running]
  exact countP_sleeping_le executor.threads

theorem counted_start : Counted low high maxQueue (start low high maxQueue : Executor Task) where
  lowWatermark := rfl
  hightWatermark := rfl
  maxQueueSize := rfl
  running := by simp [start, List.countP_replicate, Worker.alive]
  sleeping := by simp [start, List.countP_replicate, Worker.sleeping]
  threads := Nat.le_max_left ..
  queue := Nat.zero_le _
  lowest _ := Nat.le_refl _
  staffed queued := absurd rfl queued

theorem Counted.goto {i : Nat} {worker next : Worker Task} {sleeping running : Nat}
    {tasks : List Task} {state : State}
    (counted : Counted low high maxQueue executor) (place : executor.threads[i]? = some worker)
    (sleepingEq : sleeping + worker.sleeping.toNat = executor.sleepingWorkers + next.sleeping.toNat)
    (runningEq : running + worker.alive.toNat = executor.runningThreads + next.alive.toNat)
    (runningLe : running ≤ executor.runningThreads)
    (shorter : tasks.length ≤ executor.tasks.length)
    (lowest : state = .run → low ≤ running)
    (staffed : tasks ≠ [] → 1 ≤ high → 1 ≤ running) :
    Counted low high maxQueue
      ({ executor with
          sleepingWorkers := sleeping
          runningThreads := running
          tasks := tasks
          state := state }.goto i next) where
  lowWatermark := counted.lowWatermark
  hightWatermark := counted.hightWatermark
  maxQueueSize := counted.maxQueueSize
  running := by
    have count := countP_set Worker.alive next place
    have before := counted.running
    show running = (executor.threads.set i next).countP Worker.alive
    omega
  sleeping := by
    have count := countP_set Worker.sleeping next place
    have before := counted.sleeping
    show sleeping = (executor.threads.set i next).countP Worker.sleeping
    omega
  threads := Nat.le_trans runningLe counted.threads
  queue := Nat.le_trans shorter counted.queue
  lowest := lowest
  staffed := staffed

theorem Counted.step (counted : Counted low high maxQueue executor)
    (transition : Transition executor event reply executor') : Counted low high maxQueue executor' := by
  have sleepingLe := counted.sleeping_le
  cases transition with
  | refuse task full => exact counted
  | spawn task running room noneSleeping mayGrow =>
    exact
      { counted with
        running := by simp [counted.running, Worker.alive]
        sleeping := by simp [counted.sleeping, Worker.sleeping]
        threads := by
          have high := counted.hightWatermark
          simp only
          omega
        queue := by
          have size := counted.maxQueueSize
          simp only [List.length_append, List.length_singleton]
          omega
        lowest := fun state => Nat.le_succ_of_le (counted.lowest state)
        staffed := fun _ _ => Nat.succ_pos _ }
  | enqueue task running room staffed =>
    exact
      { counted with
        queue := by
          have size := counted.maxQueueSize
          simp only [List.length_append, List.length_singleton]
          omega
        staffed := fun _ positive => by
          have high := counted.hightWatermark
          simp only
          omega }
  | stop await awaiting => exact { counted with lowest := fun state => by cases state }
  | stopWaits awaiting waited => exact { counted with }
  | stopReturns noThreads => exact { counted with lowest := fun state => by cases state }
  | stopWakes awaiting waited noThreads => exact { counted with }
  | wait i timedOut worker place sleeping =>
    refine counted.goto place ?_ ?_ (Nat.le_refl _) (Nat.le_refl _) counted.lowest counted.staffed
    · rw [sleeping]
      rfl
    · rw [alive_of_sleeping sleeping]
      rfl
  | take i timedOut worker task tasks sleepingWorkers place sleeping queued countedSleeping =>
    refine counted.goto place ?_ ?_ (Nat.le_refl _) ?_ counted.lowest ?_
    · rw [sleeping, countedSleeping]
      rfl
    · rw [alive_of_sleeping sleeping]
      rfl
    · simp [queued]
    · intro _ positive
      exact counted.staffed (by simp [queued]) positive
  | leave i timedOut worker sleepingWorkers runningThreads state place sleeping empty countedSleeping
      countedRunning stoppedOrIdle =>
    refine counted.goto place ?_ ?_ ?_ (Nat.le_refl _) ?_ ?_
    · rw [sleeping, countedSleeping]
      rfl
    · rw [alive_of_sleeping sleeping, countedRunning]
      rfl
    · omega
    · intro running
      rcases stoppedOrIdle with ⟨-, stopped⟩ | ⟨-, enough⟩
      · exact absurd running stopped
      · -- the threads that still sleep are enough
        have low := counted.lowWatermark
        omega
    · intro queued
      exact absurd empty queued
  | stay i timedOut worker place sleeping =>
    refine counted.goto place ?_ ?_ (Nat.le_refl _) (Nat.le_refl _) counted.lowest counted.staffed
    · rw [sleeping]
      rfl
    · rw [alive_of_sleeping sleeping]
      rfl
  | finish i threw task place =>
    refine counted.goto place ?_ ?_ (Nat.le_refl _) (Nat.le_refl _) counted.lowest counted.staffed
    · rfl
    · rfl
  | recount i place =>
    refine counted.goto place ?_ ?_ (Nat.le_refl _) (Nat.le_refl _) counted.lowest counted.staffed
    · rfl
    · rfl

theorem counted_of_runs {events : List (Event Task)} {replies : List (Reply Task)}
    (ran : runs Executor.step events (start low high maxQueue) = .ok (replies, executor)) :
    Counted low high maxQueue executor :=
  runs_invariant (fun _ _ _ _ counted stepped => counted.step (step_cases stepped)) counted_start ran

end Invariant

/-! ## The counters are exact -/

structure Exact (low high maxQueue : Nat) (executor : Executor Task) : Prop
    extends Counted low high maxQueue executor where
  noUnderflow : ∀ event, step event executor ≠ .error .underflow
  refused : ∀ task, (executor.execute task).1 = false → (executor.execute task).2 = executor

section Exactness

variable {low high maxQueue : Nat} {executor : Executor Task}

theorem Counted.positive (counted : Counted low high maxQueue executor) {i : Nat}
    {worker : Worker Task} (place : executor.threads[i]? = some worker)
    (sleeping : worker.sleeping = true) :
    0 < executor.sleepingWorkers ∧ 0 < executor.runningThreads := by
  have member := List.mem_of_getElem? place
  rw [counted.sleeping, counted.running]
  exact ⟨List.countP_pos_iff.mpr ⟨worker, member, sleeping⟩,
    List.countP_pos_iff.mpr ⟨worker, member, alive_of_sleeping sleeping⟩⟩

theorem decrement_of_pos {n : Nat} (positive : 0 < n) : decrement n = .ok (n - 1) :=
  decrement_ok.mpr (Nat.succ_pred_eq_of_pos positive).symm

theorem poll_completes {i : Nat} (timedOut : Bool) (sleeping : 0 < executor.sleepingWorkers)
    (running : 0 < executor.runningThreads) : ∃ result, executor.poll i timedOut = .ok result := by
  unfold poll
  simp only [decrement_of_pos sleeping, bind, Except.bind]
  split
  · exact ⟨_, rfl⟩
  · split
    · exact ⟨_, rfl⟩
    · simp only [decrement_of_pos running]
      split
      · exact ⟨_, rfl⟩
      · split
        · exact ⟨_, rfl⟩
        · exact ⟨_, rfl⟩

theorem Counted.noUnderflow (counted : Counted low high maxQueue executor) (event : Event Task) :
    Executor.step event executor ≠ .error .underflow := by
  intro stepped
  cases event with
  | execute task =>
    simp only [Executor.step] at stepped
    split at stepped <;> cases stepped
  | stop await => cases stepped
  | stopWakes =>
    simp only [Executor.step, Executor.stopWakes] at stepped
    split at stepped <;> cases stepped
  | poll i timedOut =>
    simp only [Executor.step] at stepped
    split at stepped
    · rename_i place
      obtain ⟨sleeping, running⟩ := counted.positive place rfl
      obtain ⟨result, polled⟩ := poll_completes (i := i) timedOut sleeping running
      rw [polled] at stepped
      cases stepped
    · rename_i place
      obtain ⟨sleeping, running⟩ := counted.positive place rfl
      obtain ⟨result, polled⟩ := poll_completes (i := i) timedOut sleeping running
      rw [polled] at stepped
      cases stepped
    · cases stepped
  | finish i threw =>
    simp only [Executor.step] at stepped
    split at stepped <;> cases stepped
  | recount i =>
    simp only [Executor.step] at stepped
    split at stepped <;> cases stepped

theorem execute_refused {task : Task} (refused : (executor.execute task).1 = false) :
    (executor.execute task).2 = executor := by
  have transition := executor.execute_cases task
  rw [refused] at transition
  generalize (executor.execute task).2 = executor' at transition
  cases transition
  rfl

end Exactness

theorem exact_of_runs {low high maxQueue : Nat} {executor : Executor Task}
    {events : List (Event Task)} {replies : List (Reply Task)}
    (ran : runs step events (start low high maxQueue) = .ok (replies, executor)) :
    Exact low high maxQueue executor :=
  have counted := counted_of_runs ran
  { counted with
    noUnderflow := counted.noUnderflow
    refused := fun _ => execute_refused }

/-- A task that is taken by the one thread of the pool, and a second one, for which
    a thread is created. -/
theorem exact_of_two_tasks : ∃ executor : Executor Nat,
    runs step [.execute 7, .poll 0 false, .execute 8, .finish 0 true] (start 1 2 10) =
        .ok ([.accepted 7, .started 7, .accepted 8, .completed 7], executor) ∧
      executor.runningThreads = 2 ∧ Exact 1 2 10 executor := by
  obtain ⟨executor, ran, running⟩ : ∃ executor : Executor Nat,
      runs step [.execute 7, .poll 0 false, .execute 8, .finish 0 true] (start 1 2 10) =
        .ok ([.accepted 7, .started 7, .accepted 8, .completed 7], executor) ∧
      executor.runningThreads = 2 := ⟨_, rfl, rfl⟩
  exact ⟨executor, ran, running, exact_of_runs ran⟩

/-! ## Tasks that wait -/

/-- Every task that waits has a thread to take it, or the pool may not grow. -/
def Served (executor : Executor Task) : Prop :=
  executor.state = .run → executor.tasks.length ≤ executor.sleepingWorkers ∨
    executor.hightWatermark ≤ executor.runningThreads

/-- A task that is accepted now does not have to share a sleeping thread with the
    tasks that wait already. -/
def Spare (executor : Executor Task) : Prop :=
  executor.state = .run → executor.tasks.length < executor.maxQueueSize →
    executor.sleepingWorkers = 0 ∨ executor.tasks.length < executor.sleepingWorkers ∨
      executor.hightWatermark ≤ executor.runningThreads

section Waiting

variable {executor executor' : Executor Task} {event : Event Task} {reply : Reply Task}

theorem Served.step (served : Served executor) (transition : Transition executor event reply executor')
    (spare : ∀ task, event = .execute task → Spare executor) : Served executor' := by
  intro running
  cases transition with
  | refuse task full => exact served running
  | spawn task runs room noneSleeping mayGrow =>
    have before := served runs
    simp only [List.length_append, List.length_singleton]
    omega
  | enqueue task runs room staffed =>
    have spare := spare task rfl runs room
    simp only [List.length_append, List.length_singleton]
    omega
  | stop await awaiting => cases running
  | stopWaits awaiting waited => exact served running
  | stopReturns noThreads => cases running
  | stopWakes awaiting waited noThreads => exact served running
  | wait i timedOut worker place sleeping => exact served running
  | take i timedOut worker task tasks sleepingWorkers place sleeping queued counted =>
    have before := served running
    rw [queued, List.length_cons, counted] at before
    simp only [goto]
    omega
  | leave i timedOut worker sleepingWorkers runningThreads state place sleeping empty counted
      countedRunning stoppedOrIdle =>
    left
    simp [goto, empty]
  | stay i timedOut worker place sleeping => exact served running
  | finish i threw task place => exact served running
  | recount i place =>
    have before := served running
    simp only [goto]
    omega

theorem spare_of_served {task : Task} (transition : Transition executor (.execute task) reply executor')
    (served : Served executor') : Spare executor := by
  intro running room
  cases transition with
  | refuse _ full => exact absurd (full running) (Nat.not_le_of_lt room)
  | spawn task _ _ noneSleeping mayGrow => exact .inl noneSleeping
  | enqueue task _ _ staffed =>
    have after := served running
    simp only [List.length_append, List.length_singleton] at after
    omega

end Waiting

section Runs

variable {low high maxQueue : Nat} {executor : Executor Task} {events : List (Event Task)}
  {replies : List (Reply Task)}

theorem served_of_spare
    (spare : ∀ before task replies executor, before ++ [.execute task] <+: events →
      runs step before (start low high maxQueue : Executor Task) = .ok (replies, executor) →
      Spare executor)
    {before : List (Event Task)} (isPrefix : before <+: events)
    (ran : runs step before (start low high maxQueue) = .ok (replies, executor)) :
    Served executor := by
  induction before using List.reverseRecOn generalizing replies executor with
  | nil =>
    cases ran
    exact fun _ => .inl (Nat.zero_le _)
  | append_singleton before event ih =>
    obtain ⟨middle, first, second, ranBefore, ranLast, rfl⟩ := runs_append.mp ran
    obtain ⟨reply, last, rest, stepped, ended, rfl⟩ := runs_cons_ok.mp ranLast
    cases ended
    have served := ih ((List.prefix_append before [event]).trans isPrefix) ranBefore
    refine served.step (step_cases stepped) ?_
    rintro task rfl
    exact spare before task first middle isPrefix ranBefore

theorem spare_of_all_served
    (served : ∀ before replies executor, before <+: events →
      runs step before (start low high maxQueue : Executor Task) = .ok (replies, executor) →
      Served executor)
    {before : List (Event Task)} {task : Task} (isPrefix : before ++ [.execute task] <+: events)
    (ran : runs step before (start low high maxQueue) = .ok (replies, executor)) :
    Spare executor := by
  have transition := executor.execute_cases task
  have stepped : step (.execute task) executor =
      .ok (if (executor.execute task).1 then .accepted task else .refused task,
        (executor.execute task).2) := by
    simp only [step]
    cases executor.execute task with
    | mk accepted executor' => cases accepted <;> rfl
  apply spare_of_served transition
  apply served _ _ _ isPrefix
  exact runs_append.mpr ⟨executor, replies, _, ran,
    runs_cons_ok.mpr ⟨_, _, [], stepped, rfl, rfl⟩, rfl⟩

end Runs

/-- Whatever a pool is made to do, its waiting tasks are served in every state it
    reaches exactly when every call of `Execute` finds a spare thread, no thread
    that sleeps, or a pool that may not grow. -/
theorem served_iff (low high maxQueue : Nat) (events : List (Event Task)) :
    (∀ before replies executor, before <+: events →
      runs step before (start low high maxQueue : Executor Task) = .ok (replies, executor) →
      Served executor) ↔
    (∀ before task replies executor, before ++ [.execute task] <+: events →
      runs step before (start low high maxQueue : Executor Task) = .ok (replies, executor) →
      Spare executor) := by
  constructor
  · intro served before task replies executor isPrefix ran
    exact spare_of_all_served served isPrefix ran
  · intro spare before replies executor isPrefix ran
    exact served_of_spare spare isPrefix ran

/-- Two tasks for a pool of one sleeping thread that may grow to two: no thread is
    created for the second one. -/
theorem not_served_two_tasks : ¬ ∀ (low high maxQueue : Nat), 1 ≤ high →
    ∀ (events : List (Event Nat)) replies executor,
    runs step events (start low high maxQueue) = .ok (replies, executor) → Served executor := by
  intro always
  have served := always 1 2 10 (by decide) [.execute 7, .execute 8] _ _ rfl rfl
  revert served
  decide

end Afina.Concurrency.Executor
