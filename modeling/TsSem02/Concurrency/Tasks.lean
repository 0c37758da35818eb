import TsSem02.Concurrency.Counters

/-! # The tasks of the thread pool

A task that was accepted waits, is being performed or is completed, and the tasks
are started in the order in which they were accepted (`tasks_conserved`).  When
`Stop(true)` returns, the pool has completed them all and has no thread left
(`completed_of_stopped`).
-/

namespace Afina.Concurrency

namespace Reply

variable {Task : Type}

def accepted? : Reply Task → Option Task
  | accepted task => some task
  | _ => none

def started? : Reply Task → Option Task
  | started task => some task
  | _ => none

def completed? : Reply Task → Option Task
  | completed task => some task
  | _ => none

end Reply

namespace Executor

open Runs

variable {Task : Type}

/-- The tasks for which `Execute` returned true, in this order. -/
def acceptedTasks (replies : List (Reply Task)) : List Task := replies.filterMap Reply.accepted?

/-- The tasks that were taken out of the queue, in this order. -/
def startedTasks (replies : List (Reply Task)) : List Task := replies.filterMap Reply.started?

def completedTasks (replies : List (Reply Task)) : List Task := replies.filterMap Reply.completed?

def performing (executor : Executor Task) : List Task := executor.threads.filterMap Worker.task?

section Step

variable {executor executor' : Executor Task} {event : Event Task} {reply : Reply Task}

theorem Transition.queue (transition : Transition executor event reply executor') :
    executor.tasks ++ reply.accepted?.toList = reply.started?.toList ++ executor'.tasks := by
  cases transition <;> simp [Reply.accepted?, Reply.started?, goto, *]

theorem filterMap_cons_eq {α β : Type} (f : α → Option β) (a : α) (rest : List α) :
    (a :: rest).filterMap f = (f a).toList ++ rest.filterMap f := by
  cases found : f a <;> simp [found]

theorem filterMap_set {threads : List (Worker Task)} {i : Nat} {worker : Worker Task}
    (next : Worker Task) (place : threads[i]? = some worker) :
    (worker.task?.toList ++ (threads.set i next).filterMap Worker.task?).Perm
      (next.task?.toList ++ threads.filterMap Worker.task?) := by
  induction threads generalizing i with
  | nil => simp at place
  | cons first threads ih =>
    cases i with
    | zero =>
      simp only [List.getElem?_cons_zero, Option.some.injEq] at place
      subst place
      rw [List.set_cons_zero, filterMap_cons_eq, filterMap_cons_eq]
      exact List.perm_append_comm_assoc _ _ _
    | succ i =>
      rw [List.getElem?_cons_succ] at place
      rw [List.set_cons_succ, filterMap_cons_eq, filterMap_cons_eq]
      exact (List.perm_append_comm_assoc _ _ _).trans
        (((ih place).append_left _).trans (List.perm_append_comm_assoc _ _ _))

theorem task?_of_sleeping {worker : Worker Task} (sleeping : worker.sleeping = true) :
    worker.task? = none := by
  cases worker <;> first | rfl | cases sleeping

theorem Transition.performing (transition : Transition executor event reply executor') :
    (executor.performing ++ reply.started?.toList).Perm
      (reply.completed?.toList ++ executor'.performing) := by
  have idle : ∀ {i worker} (next : Worker Task), executor.threads[i]? = some worker →
      worker.sleeping = true → ((executor.threads.set i next).filterMap Worker.task?).Perm
        (next.task?.toList ++ executor.threads.filterMap Worker.task?) := by
    intro i worker next place sleeping
    simpa [task?_of_sleeping sleeping] using filterMap_set next place
  cases transition with
  | refuse | enqueue | stop | stopWaits | stopReturns | stopWakes =>
    simp [Reply.started?, Reply.completed?, Executor.performing]
  | spawn =>
    simp [Reply.started?, Reply.completed?, Executor.performing, filterMap_cons_eq, Worker.task?]
  | wait i timedOut worker place sleeping =>
    simpa [Reply.started?, Reply.completed?, Executor.performing, goto, Worker.task?] using
      (idle .waiting place sleeping).symm
  | take i timedOut worker task tasks sleepingWorkers place sleeping queued counted =>
    refine List.Perm.trans List.perm_append_comm ?_
    simpa [Reply.started?, Reply.completed?, Executor.performing, goto, Worker.task?] using
      (idle (.performing task) place sleeping).symm
  | leave i timedOut worker sleepingWorkers runningThreads state place sleeping =>
    simpa [Reply.started?, Reply.completed?, Executor.performing, goto, Worker.task?] using
      (idle .exited place sleeping).symm
  | stay i timedOut worker place sleeping =>
    simpa [Reply.started?, Reply.completed?, Executor.performing, goto, Worker.task?] using
      (idle .ready place sleeping).symm
  | finish i threw task place =>
    simpa [Reply.started?, Reply.completed?, Executor.performing, goto, Worker.task?] using
      (filterMap_set .finishing place).symm
  | recount i place =>
    simpa [Reply.started?, Reply.completed?, Executor.performing, goto, Worker.task?] using
      (filterMap_set .ready place).symm

/-- `Stop(true)` only waits, and only returns, when the pool is told to stop. -/
def StopCalled (executor : Executor Task) : Prop := executor.awaiting > 0 → executor.state ≠ .run

theorem StopCalled.step (called : StopCalled executor)
    (transition : Transition executor event reply executor') : StopCalled executor' := by
  cases transition with
  | stop await awaiting => exact fun _ => by simp
  | stopReturns noThreads => exact fun _ => by simp
  | stopWaits awaiting waited => exact fun _ => called waited
  | stopWakes awaiting waited noThreads => exact fun _ => called waited
  | leave i timedOut worker sleepingWorkers runningThreads state place sleeping empty counted
      countedRunning stoppedOrIdle =>
    intro waiting
    rcases stoppedOrIdle with ⟨-, stopped⟩ | ⟨rfl, -⟩
    · exact stopped
    · exact called waiting
  | _ => exact called

end Step

section Run

variable {low high maxQueue : Nat} {executor executor' : Executor Task} {event : Event Task}
  {events : List (Event Task)} {replies : List (Reply Task)}

theorem queue_of_runs (ran : runs step events executor = .ok (replies, executor')) :
    executor.tasks ++ acceptedTasks replies = startedTasks replies ++ executor'.tasks := by
  induction events generalizing executor replies with
  | nil =>
    cases ran
    simp [acceptedTasks, startedTasks]
  | cons event events ih =>
    obtain ⟨reply, next, rest, stepped, ranRest, rfl⟩ := runs_cons_ok.mp ran
    have first := (step_cases stepped).queue
    have others := ih ranRest
    simp only [acceptedTasks, startedTasks, filterMap_cons_eq] at others ⊢
    rw [← List.append_assoc, first, List.append_assoc, others, List.append_assoc]

theorem performing_of_runs (ran : runs step events executor = .ok (replies, executor')) :
    (executor.performing ++ startedTasks replies).Perm
      (completedTasks replies ++ executor'.performing) := by
  induction events generalizing executor replies with
  | nil =>
    cases ran
    simp [completedTasks, startedTasks]
  | cons event events ih =>
    obtain ⟨reply, next, rest, stepped, ranRest, rfl⟩ := runs_cons_ok.mp ran
    have first := (step_cases stepped).performing
    have others := ih ranRest
    simp only [completedTasks, startedTasks, filterMap_cons_eq] at others ⊢
    rw [← List.append_assoc executor.performing, List.append_assoc reply.completed?.toList]
    refine (first.append_right _).trans ?_
    rw [List.append_assoc]
    exact others.append_left _

theorem performing_start : (start low high maxQueue : Executor Task).performing = [] := by
  apply List.filterMap_eq_nil_iff.mpr
  intro worker member
  rw [List.eq_of_mem_replicate member]
  rfl

theorem stopCalled_of_runs
    (ran : runs step events (start low high maxQueue) = .ok (replies, executor)) :
    StopCalled executor :=
  runs_invariant (fun _ _ _ _ called stepped => called.step (step_cases stepped))
    (fun waiting => absurd waiting (Nat.lt_irrefl 0)) ran

theorem performing_of_exited (exited : ∀ worker ∈ executor.threads, worker = .exited) :
    executor.performing = [] := by
  apply List.filterMap_eq_nil_iff.mpr
  intro worker member
  rw [exited worker member]
  rfl

theorem acceptedTasks_of_stopped (stopped : executor.state ≠ .run)
    (ran : runs step events executor = .ok (replies, executor')) : acceptedTasks replies = [] := by
  induction events generalizing executor replies with
  | nil =>
    cases ran
    rfl
  | cons event events ih =>
    obtain ⟨reply, next, rest, stepped, ranRest, rfl⟩ := runs_cons_ok.mp ran
    have transition := step_cases stepped
    -- no step leads back to `kRun`, and only `kRun` accepts
    have still : next.state ≠ .run := by
      cases transition with
      | stop | stopReturns => simp
      | leave i timedOut worker sleepingWorkers runningThreads state place sleeping empty counted
          countedRunning stoppedOrIdle =>
        rcases stoppedOrIdle with ⟨-, stays⟩ | ⟨rfl, -⟩
        · exact stays
        · exact stopped
      | _ => exact stopped
    have nothing : reply.accepted? = none := by
      cases transition with
      | spawn task running => exact absurd running stopped
      | enqueue task running => exact absurd running stopped
      | _ => rfl
    rw [acceptedTasks, List.filterMap_cons_none nothing]
    exact ih still ranRest

theorem Transition.stopped (counted : Counted low high maxQueue executor)
    (called : StopCalled executor) (positive : 1 ≤ high)
    (transition : Transition executor event .stopped executor') :
    executor.tasks = [] ∧ executor'.threads = executor.threads ∧ executor'.state ≠ .run ∧
      ∀ worker ∈ executor.threads, worker = .exited := by
  have noThreads : executor.runningThreads = 0 := by
    cases transition with
    | stopReturns noThreads => exact noThreads
    | stopWakes awaiting waited noThreads => exact noThreads
  refine ⟨?_, ?_, ?_, ?_⟩
  · -- a task that waits would have a thread
    by_contra queued
    have staffed := counted.staffed queued positive
    omega
  · cases transition <;> rfl
  · cases transition with
    | stopReturns => simp
    | stopWakes awaiting waited => exact called waited
  · intro worker member
    have count := counted.running
    rw [noThreads] at count
    have gone := List.countP_eq_zero.mp count.symm worker member
    cases worker <;> first | rfl | exact absurd rfl gone

end Run

/-- The tasks that were accepted are those that were started, in this order, and
    then those that wait; the tasks that were started are completed or still being
    performed.  When `Stop(true)` returns, all are completed, no thread is left, and
    nothing will be accepted any more. -/
theorem tasks_conserved {low high maxQueue : Nat} {executor : Executor Task}
    {events : List (Event Task)} {replies : List (Reply Task)} (positive : 1 ≤ high)
    (ran : runs step events (start low high maxQueue) = .ok (replies, executor)) :
    acceptedTasks replies = startedTasks replies ++ executor.tasks ∧
      (startedTasks replies).Perm (completedTasks replies ++ executor.performing) ∧
      ∀ event executor', step event executor = .ok (.stopped, executor') →
        (completedTasks replies).Perm (acceptedTasks replies) ∧
        (∀ worker ∈ executor'.threads, worker = .exited) ∧
        ∀ more moreReplies final, runs step more executor' = .ok (moreReplies, final) →
          acceptedTasks moreReplies = [] := by
  have queue : acceptedTasks replies = startedTasks replies ++ executor.tasks := queue_of_runs ran
  have performed : (startedTasks replies).Perm (completedTasks replies ++ executor.performing) := by
    have started := performing_of_runs ran
    rwa [performing_start, List.nil_append] at started
  refine ⟨queue, performed, fun event executor' stepped => ?_⟩
  obtain ⟨empty, threads, stopped, exited⟩ :=
    (step_cases stepped).stopped (counted_of_runs ran) (stopCalled_of_runs ran) positive
  refine ⟨?_, threads ▸ exited, fun more moreReplies final ranMore => ?_⟩
  · rw [empty, List.append_nil] at queue
    rw [performing_of_exited exited, List.append_nil] at performed
    rw [queue]
    exact performed.symm
  · exact acceptedTasks_of_stopped stopped ranMore

/-- Two tasks, the second one accepted while the first one is performed, and a call
    of `Stop(true)` that waits for both. -/
theorem tasks_conserved_until_stopped : ∃ executor executor' : Executor Nat,
    runs step [.execute 7, .poll 0 false, .execute 8, .stop true, .finish 0 true, .recount 0,
        .poll 0 false, .finish 0 false, .recount 0, .poll 0 false, .poll 1 false] (start 1 2 10) =
      .ok ([.accepted 7, .started 7, .accepted 8, .nothing, .completed 7, .nothing, .started 8,
        .completed 8, .nothing, .nothing, .nothing], executor) ∧
      step .stopWakes executor = .ok (.stopped, executor') ∧
      [7, 8].Perm [7, 8] ∧ ∀ worker ∈ executor'.threads, worker = .exited := by
  obtain ⟨executor, executor', ran, stepped⟩ : ∃ executor executor' : Executor Nat,
      runs step [.execute 7, .poll 0 false, .execute 8, .stop true, .finish 0 true, .recount 0,
          .poll 0 false, .finish 0 false, .recount 0, .poll 0 false, .poll 1 false] (start 1 2 10) =
        .ok ([.accepted 7, .started 7, .accepted 8, .nothing, .completed 7, .nothing, .started 8,
          .completed 8, .nothing, .nothing, .nothing], executor) ∧
      step .stopWakes executor = .ok (.stopped, executor') := ⟨_, _, rfl, rfl⟩
  obtain ⟨-, -, returned⟩ := tasks_conserved (by decide) ran
  obtain ⟨completed, exited, -⟩ := returned _ _ stepped
  exact ⟨executor, executor', ran, stepped, completed, exited⟩

end Executor

end Afina.Concurrency
