import Mathlib.Data.List.Count
import TsSem02.Concurrency.Tasks
import TsSem02.Library.Descriptors

/-! # The accept loop of MTblocking

`ServerImpl::OnRun` accepts connections and hands them to the thread pool; `Stop`
and `Join` end it.  What one thread does between two points where another one may
come in between is a step, and `accept` returns any descriptor that is not open.

`Tidy` says who has to close a descriptor.  It is an invariant (`Tidy.step`), so
no connection is closed twice, no `close` hits the descriptor of another
connection, and none is left open when `Join` returns (`closed_once`).
-/

namespace Afina.Network.MTblocking

open Concurrency Runs

abbrev Accepted := Descriptors.File

/-- Where the thread is that runs `OnRun`. -/
inductive Acceptor where
  | checking                     -- `while (running.load())`
  | accepting
  | handing (client : Accepted)  -- about to call `thread_pool.Execute`
  | refused (client : Accepted)  -- `Execute` has returned false
  | leaving                      -- about to call `thread_pool.Stop(true)`
  | awaiting
  | returned
deriving DecidableEq, Repr

/-- The connection that is in the hands of the acceptor. -/
def Acceptor.client? : Acceptor → Option Accepted
  | handing client | refused client => some client
  | _ => none

/-- Where the thread is that has started the server. -/
inductive Owner where
  | serving
  | stopped   -- after `Stop`
  | awaiting  -- in `thread_pool.Stop(true)` of `Join`
  | joined
deriving DecidableEq, Repr

structure Server where
  running : Bool
  acceptor : Acceptor
  owner : Owner
  pool : Executor Accepted
  files : Descriptors.Table   -- the descriptors of the connections
  returning : List Accepted   -- the handlers that have closed theirs
deriving Repr

inductive Blocked where
  | disabled
  | pool (stuck : Stuck)
  | badDescriptor  -- `close` of a descriptor that is not open
deriving DecidableEq, Repr

inductive Event where
  | check
  | acceptFails
  | accept (descriptor : Nat)
  | execute
  | closeRefused
  | stopPool
  | acceptorWakes
  | stop                           -- `Stop`
  | join                           -- `Join`, when the acceptor has returned
  | ownerWakes
  | poll (thread : Nat) (timedOut : Bool)
  | closeClient (client : Accepted)  -- the last thing `ProcessConnection` does
  | finish (thread : Nat)          -- `ProcessConnection` returns
  | recount (thread : Nat)
deriving DecidableEq, Repr

namespace Server

def start (minWorkers maxWorkers queueSize : Nat) : Server where
  running := true
  acceptor := .checking
  owner := .serving
  pool := .start minWorkers maxWorkers queueSize
  files := .empty
  returning := []

def close (s : Server) (client : Accepted) : Except Blocked Server :=
  match s.files.close client with
  | none => .error .badDescriptor
  | some files => .ok { s with files := files }

/-- Something that the pool or one of its users does. -/
def ask (s : Server) (event : Concurrency.Event Accepted) : Except Blocked (Reply Accepted × Server) :=
  match Executor.step event s.pool with
  | .error stuck => .error (.pool stuck)
  | .ok (reply, pool) => .ok (reply, { s with pool := pool })

/-- The acceptor goes on at `next`, if it is at `here`. -/
def walk (s : Server) (here next : Acceptor) : Except Blocked (Reply Accepted × Server) :=
  if s.acceptor = here then .ok (.nothing, { s with acceptor := next }) else .error .disabled

def accept (s : Server) (descriptor : Nat) : Except Blocked (Reply Accepted × Server) :=
  if s.acceptor = .accepting then
    match s.files.open? descriptor with
    | some (client, files) => .ok (.nothing, { s with acceptor := .handing client, files := files })
    | none => .error .disabled
  else .error .disabled

def execute (s : Server) : Except Blocked (Reply Accepted × Server) :=
  match s.acceptor with
  | .handing client => do
    let (reply, s) ← s.ask (.execute client)
    if reply = .refused client then .ok (reply, { s with acceptor := .refused client })
    else .ok (reply, { s with acceptor := .checking })
  | _ => .error .disabled

/-- The acceptor closes what the pool does not take. -/
def closeRefused (s : Server) : Except Blocked (Reply Accepted × Server) :=
  match s.acceptor with
  | .refused client => do
    let s ← s.close client
    .ok (.nothing, { s with acceptor := .checking })
  | _ => .error .disabled

/-- `thread_pool.Stop(true)` at the end of `OnRun`, or a wait of it ends. -/
def acceptorStops (s : Server) (here : Acceptor) (event : Concurrency.Event Accepted) :
    Except Blocked (Reply Accepted × Server) :=
  if s.acceptor = here then do
    let (reply, s) ← s.ask event
    .ok (reply, { s with acceptor := if reply = .stopped then .returned else .awaiting })
  else .error .disabled

def stop (s : Server) : Except Blocked (Reply Accepted × Server) :=
  if s.owner = .serving then .ok (.nothing, { s with running := false, owner := .stopped })
  else .error .disabled

/-- `Join` after `_thread.join()`, or a wait of it ends. -/
def ownerStops (s : Server) (here : Owner) (event : Concurrency.Event Accepted) :
    Except Blocked (Reply Accepted × Server) :=
  if s.owner = here ∧ s.acceptor = .returned then do
    let (reply, s) ← s.ask event
    .ok (reply, { s with owner := if reply = .stopped then .joined else .awaiting })
  else .error .disabled

/-- `close(client_socket)` at the end of `ProcessConnection`. -/
def closeClient (s : Server) (client : Accepted) : Except Blocked (Reply Accepted × Server) :=
  if client ∈ s.pool.performing ∧ client ∉ s.returning then do
    let s ← s.close client
    .ok (.nothing, { s with returning := client :: s.returning })
  else .error .disabled

def finish (s : Server) (i : Nat) : Except Blocked (Reply Accepted × Server) :=
  match s.pool.threads[i]? with
  | some (.performing client) =>
    if client ∈ s.returning then do
      let (reply, s) ← s.ask (.finish i false)
      .ok (reply, { s with returning := s.returning.erase client })
    else .error .disabled
  | _ => .error .disabled

def step : Event → Server → Except Blocked (Reply Accepted × Server)
  | .check, s => s.walk .checking (if s.running then .accepting else .leaving)
  | .acceptFails, s => s.walk .accepting .checking
  | .accept descriptor, s => s.accept descriptor
  | .execute, s => s.execute
  | .closeRefused, s => s.closeRefused
  | .stopPool, s => s.acceptorStops .leaving (.stop true)
  | .acceptorWakes, s => s.acceptorStops .awaiting .stopWakes
  | .stop, s => s.stop
  | .join, s => s.ownerStops .stopped (.stop true)
  | .ownerWakes, s => s.ownerStops .awaiting .stopWakes
  | .poll i timedOut, s => s.ask (.poll i timedOut)
  | .closeClient client, s => s.closeClient client
  | .finish i, s => s.finish i
  | .recount i, s => s.ask (.recount i)

/-! ## What a step can do -/

/-- Where the two threads may be next, when no connection changes hands. -/
structure Onward (s : Server) (acceptor : Acceptor) (owner : Owner) : Prop where
  client : acceptor.client? = s.acceptor.client?
  returned : s.acceptor = .returned → acceptor = .returned
  owner : owner = s.owner ∨ owner = .stopped ∨ s.acceptor = .returned

inductive Moves (s : Server) : Server → Prop
  | walk (running : Bool) (acceptor : Acceptor) (owner : Owner) (onward : Onward s acceptor owner)
      (still : acceptor = .returned → s.acceptor = .returned) :
      Moves s { s with running := running, acceptor := acceptor, owner := owner }
  | ask (event : Concurrency.Event Accepted) (reply : Reply Accepted) (pool : Executor Accepted)
      (acceptor : Acceptor) (owner : Owner) (transition : s.pool.Transition event reply pool)
      (neutral : reply.accepted? = none ∧ reply.completed? = none) (onward : Onward s acceptor owner)
      (stopped : acceptor = .returned → s.acceptor = .returned ∨ reply = .stopped) :
      Moves s { s with pool := pool, acceptor := acceptor, owner := owner }
  | accept (descriptor : Nat) (client : Accepted) (files : Descriptors.Table) (here : s.acceptor = .accepting)
      (opens : s.files.open? descriptor = some (client, files)) :
      Moves s { s with acceptor := .handing client, files := files }
  | hand (client : Accepted) (pool : Executor Accepted) (here : s.acceptor = .handing client)
      (transition : s.pool.Transition (.execute client) (.accepted client) pool) :
      Moves s { s with pool := pool, acceptor := .checking }
  | closeRefused (client : Accepted) (next : Server) (here : s.acceptor = .refused client)
      (closes : s.close client = .ok next) : Moves s { next with acceptor := .checking }
  | closeClient (client : Accepted) (next : Server) (performing : client ∈ s.pool.performing)
      (first : client ∉ s.returning) (closes : s.close client = .ok next) :
      Moves s { next with returning := client :: next.returning }
  | finish (i : Nat) (client : Accepted) (pool : Executor Accepted) (closed : client ∈ s.returning)
      (transition : s.pool.Transition (.finish i false) (.completed client) pool) :
      Moves s { s with pool := pool, returning := s.returning.erase client }

section Steps

variable {s next : Server} {event : Event} {reply : Reply Accepted}

theorem ask_ok {event : Concurrency.Event Accepted} (asked : s.ask event = .ok (reply, next)) :
    ∃ pool, s.pool.Transition event reply pool ∧ next = { s with pool := pool } := by
  simp only [ask] at asked
  split at asked
  · cases asked
  · rename_i reply pool stepped
    cases asked
    exact ⟨pool, Executor.step_cases stepped, rfl⟩

theorem bind_ok {α β : Type} {x : Except Blocked α} {f : α → Except Blocked β} {b : β}
    (ran : x >>= f = .ok b) : ∃ a, x = .ok a ∧ f a = .ok b := by
  cases x with
  | error blocked => cases ran
  | ok a => exact ⟨a, rfl, ran⟩

theorem onward_of (client : s.acceptor.client? = none) (notYet : s.acceptor ≠ .returned) {acceptor : Acceptor}
    (clientNext : acceptor.client? = none) : Onward s acceptor s.owner :=
  ⟨clientNext.trans client.symm, fun returned => absurd returned notYet, .inl rfl⟩

theorem walk_moves {here there : Acceptor} (walked : s.walk here there = .ok (reply, next))
    (client : here.client? = none) (clientNext : there.client? = none) (notYet : here ≠ .returned)
    (notNext : there ≠ .returned) : Moves s next := by
  unfold walk at walked
  split at walked
  · rename_i place
    subst place
    cases walked
    exact .walk s.running there s.owner (onward_of client notYet clientNext)
      fun returned => absurd returned notNext
  · cases walked

theorem accept_moves {descriptor : Nat} (accepts : s.accept descriptor = .ok (reply, next)) : Moves s next := by
  unfold accept at accepts
  split at accepts
  · rename_i here
    split at accepts
    · rename_i client files opens
      cases accepts
      exact .accept descriptor client files here opens
    · cases accepts
  · cases accepts

theorem execute_moves (executes : s.execute = .ok (reply, next)) : Moves s next := by
  unfold execute at executes
  split at executes
  · rename_i client here
    obtain ⟨⟨answer, s'⟩, asked, executes⟩ := bind_ok executes
    obtain ⟨pool, transition, rfl⟩ := ask_ok asked
    dsimp only at executes
    split at executes
    · rename_i refused
      cases executes
      subst refused
      cases transition with
      | refuse =>
        refine .walk s.running (.refused client) s.owner ⟨by rw [here]; rfl, ?_, .inl rfl⟩ (by simp)
        rw [here]
        intro returned
        cases returned
    · rename_i accepted
      cases executes
      have isAccepted : reply = .accepted client := by
        cases transition with
        | refuse => exact absurd rfl accepted
        | spawn | enqueue => rfl
      subst isAccepted
      exact .hand client pool here transition
  · cases executes

theorem closeRefused_moves (closes : s.closeRefused = .ok (reply, next)) : Moves s next := by
  unfold closeRefused at closes
  split at closes
  · rename_i client here
    obtain ⟨s', closed, closes⟩ := bind_ok closes
    cases closes
    exact .closeRefused client s' here closed
  · cases closes

theorem neutral_of_stop {pool pool' : Executor Accepted} {event : Concurrency.Event Accepted}
    (stops : event = .stop true ∨ event = .stopWakes) (transition : pool.Transition event reply pool') :
    reply.accepted? = none ∧ reply.completed? = none := by
  cases transition with
  | stop | stopWaits | stopReturns | stopWakes => exact ⟨rfl, rfl⟩
  | refuse | spawn | enqueue | wait | take | leave | stay | finish | recount => simp at stops

theorem acceptorStops_moves {here : Acceptor} {event : Concurrency.Event Accepted}
    (stopping : s.acceptorStops here event = .ok (reply, next)) (client : here.client? = none)
    (notYet : here ≠ .returned) (stops : event = .stop true ∨ event = .stopWakes) : Moves s next := by
  unfold acceptorStops at stopping
  split at stopping
  · rename_i place
    subst place
    obtain ⟨⟨answer, s'⟩, asked, stopping⟩ := bind_ok stopping
    cases stopping
    obtain ⟨pool, transition, rfl⟩ := ask_ok asked
    apply Moves.ask event reply pool _ s.owner transition (neutral_of_stop stops transition)
    · apply onward_of client notYet
      split <;> rfl
    · intro returned
      split at returned
      · rename_i stopped
        exact .inr stopped
      · cases returned
  · cases stopping

theorem ownerStops_moves {here : Owner} {event : Concurrency.Event Accepted}
    (stopping : s.ownerStops here event = .ok (reply, next))
    (stops : event = .stop true ∨ event = .stopWakes) : Moves s next := by
  unfold ownerStops at stopping
  split at stopping
  · rename_i place
    obtain ⟨⟨answer, s'⟩, asked, stopping⟩ := bind_ok stopping
    cases stopping
    obtain ⟨pool, transition, rfl⟩ := ask_ok asked
    exact .ask event reply pool s.acceptor _ transition (neutral_of_stop stops transition)
      ⟨rfl, id, .inr (.inr place.2)⟩ .inl
  · cases stopping

theorem worker_moves {event : Concurrency.Event Accepted} (asked : s.ask event = .ok (reply, next))
    (worker : (∃ i timedOut, event = .poll i timedOut) ∨ ∃ i, event = .recount i) : Moves s next := by
  obtain ⟨pool, transition, rfl⟩ := ask_ok asked
  refine .ask event reply pool s.acceptor s.owner transition ?_ ⟨rfl, id, .inl rfl⟩ .inl
  cases transition with
  | wait | take | leave | stay | recount => exact ⟨rfl, rfl⟩
  | refuse | spawn | enqueue | stop | stopWaits | stopReturns | stopWakes | finish => simp at worker

theorem closeClient_moves {client : Accepted} (closes : s.closeClient client = .ok (reply, next)) :
    Moves s next := by
  unfold closeClient at closes
  split at closes
  · rename_i may
    obtain ⟨s', closed, closes⟩ := bind_ok closes
    cases closes
    exact .closeClient client s' may.1 may.2 closed
  · cases closes

theorem finish_moves {i : Nat} (finishes : s.finish i = .ok (reply, next)) : Moves s next := by
  unfold finish at finishes
  split at finishes
  · rename_i client place
    split at finishes
    · rename_i closed
      obtain ⟨⟨answer, s'⟩, asked, finishes⟩ := bind_ok finishes
      cases finishes
      obtain ⟨pool, transition, rfl⟩ := ask_ok asked
      have completes : reply = .completed client := by
        cases transition with
        | finish _ _ task there =>
          rw [place] at there
          cases there
          rfl
      subst completes
      exact .finish i client pool closed transition
    · cases finishes
  · cases finishes

theorem step_moves (stepped : s.step event = .ok (reply, next)) : Moves s next := by
  cases event with
  | check =>
    apply walk_moves stepped rfl _ (by simp)
    · split <;> simp
    · split <;> rfl
  | acceptFails => exact walk_moves stepped rfl rfl (by simp) (by simp)
  | accept descriptor => exact accept_moves stepped
  | execute => exact execute_moves stepped
  | closeRefused => exact closeRefused_moves stepped
  | stopPool => exact acceptorStops_moves stepped rfl (by simp) (.inl rfl)
  | acceptorWakes => exact acceptorStops_moves stepped rfl (by simp) (.inr rfl)
  | stop =>
    simp only [step, stop] at stepped
    split at stepped
    · cases stepped
      exact .walk false s.acceptor .stopped ⟨rfl, id, .inr (.inl rfl)⟩ id
    · cases stepped
  | join => exact ownerStops_moves stepped (.inl rfl)
  | ownerWakes => exact ownerStops_moves stepped (.inr rfl)
  | poll i timedOut => exact worker_moves stepped (.inl ⟨i, timedOut, rfl⟩)
  | closeClient client => exact closeClient_moves stepped
  | finish i => exact finish_moves stepped
  | recount i => exact worker_moves stepped (.inr ⟨i, rfl⟩)

end Steps

/-! ## Who has to close what -/

/-- The connections that the acceptor, the queue and the handlers have in hand.  A
    handler that has closed its connection has none. -/
def hands (s : Server) : List Accepted :=
  s.acceptor.client?.toList ++ (s.pool.tasks ++ s.pool.performing.diff s.returning)

/-- Every open descriptor has one owner, and only owners call `close`. -/
structure Tidy (low high maxQueue : Nat) (s : Server) : Prop where
  counted : Executor.Counted low high maxQueue s.pool
  stopCalled : Executor.StopCalled s.pool
  owned : ∃ serving, s.pool.performing.Perm (s.returning ++ serving) ∧
    s.files.opened.Perm (s.acceptor.client?.toList ++ (s.pool.tasks ++ serving))
  files : s.files.Sound
  drained : s.acceptor = .returned → s.pool.tasks = [] ∧ s.pool.state ≠ .run ∧
    ∀ worker ∈ s.pool.threads, worker = .exited
  joined : s.owner = .awaiting ∨ s.owner = .joined → s.acceptor = .returned

section Invariant

variable {low high maxQueue : Nat} {s next : Server} {client : Accepted}

theorem tidy_start (low high maxQueue : Nat) : Tidy low high maxQueue (start low high maxQueue) where
  counted := Executor.counted_start
  stopCalled waiting := absurd waiting (Nat.lt_irrefl 0)
  owned := ⟨[], by rw [show (start low high maxQueue).pool.performing = [] from Executor.performing_start]; rfl,
    .refl _⟩
  files := Descriptors.Table.sound_empty
  drained returned := by cases returned
  joined early := by simp [start] at early

theorem Tidy.close_eq (tidy : Tidy low high maxQueue s) {rest : List Accepted}
    (opened : s.files.opened.Perm (client :: rest)) :
    ∃ files, s.close client = .ok { s with files := files } ∧ files.Sound ∧ files.opened.Perm rest := by
  obtain ⟨files, closes, sound, -, left⟩ := tidy.files.closes (opened.mem_iff.mpr List.mem_cons_self)
  exact ⟨files, by rw [Server.close, closes], sound, left rest opened⟩

theorem drained_step {pool pool' : Executor Accepted} {event : Concurrency.Event Accepted}
    {reply : Reply Accepted} (transition : pool.Transition event reply pool') (empty : pool.tasks = [])
    (stopped : pool.state ≠ .run) (exited : ∀ worker ∈ pool.threads, worker = .exited) :
    pool'.tasks = [] ∧ pool'.state ≠ .run ∧ ∀ worker ∈ pool'.threads, worker = .exited := by
  have nobody : ∀ {i worker}, pool.threads[i]? = some worker → worker = Worker.exited :=
    fun place => exited _ (List.mem_of_getElem? place)
  cases transition with
  | refuse => exact ⟨empty, stopped, exited⟩
  | spawn _ running | enqueue _ running => exact absurd running stopped
  | stop | stopReturns => exact ⟨empty, by simp, exited⟩
  | stopWaits | stopWakes => exact ⟨empty, stopped, exited⟩
  | wait _ _ _ place sleeping | take _ _ _ _ _ _ place sleeping | leave _ _ _ _ _ _ place sleeping
  | stay _ _ _ place sleeping =>
    rw [nobody place] at sleeping
    cases sleeping
  | finish _ _ _ place => cases nobody place
  | recount _ place => cases nobody place

theorem Tidy.step (positive : 1 ≤ high) (tidy : Tidy low high maxQueue s) (moves : Moves s next) :
    Tidy low high maxQueue next := by
  obtain ⟨serving, performs, opened⟩ := tidy.owned
  cases moves with
  | walk running acceptor owner onward still =>
    refine { tidy with owned := ⟨serving, performs, ?_⟩, drained := ?_, joined := ?_ }
    · rwa [onward.client]
    · exact fun returned => tidy.drained (still returned)
    · intro late
      obtain same | stopped | returned := onward.owner
      · exact onward.returned (tidy.joined (same ▸ late))
      · simp [stopped] at late
      · exact onward.returned returned
  | ask event reply pool acceptor owner transition neutral onward stopped =>
    have queue := transition.queue
    have performing := transition.performing
    simp only [neutral.1, neutral.2, Option.toList_none, List.append_nil, List.nil_append] at queue performing
    exact
      { tidy with
        counted := tidy.counted.step transition
        stopCalled := tidy.stopCalled.step transition
        owned := by
          refine ⟨serving ++ reply.started?.toList, ?_, ?_⟩
          · rw [← List.append_assoc]
            exact performing.symm.trans (performs.append_right _)
          · rw [onward.client]
            refine opened.trans (List.Perm.append_left _ ?_)
            rw [queue, List.append_assoc]
            exact List.perm_append_comm.trans (by rw [List.append_assoc])
        drained := by
          intro returned
          obtain before | isStopped := stopped returned
          · obtain ⟨empty, notRunning, exited⟩ := tidy.drained before
            exact drained_step transition empty notRunning exited
          · subst isStopped
            obtain ⟨empty, threads, notRunning, exited⟩ :=
              transition.stopped tidy.counted tidy.stopCalled positive
            refine ⟨?_, notRunning, threads ▸ exited⟩
            rw [empty] at queue
            exact (List.append_eq_nil_iff.mp queue.symm).2
        joined := by
          intro late
          obtain same | isStopped | returned := onward.owner
          · exact onward.returned (tidy.joined (same ▸ late))
          · simp [isStopped] at late
          · exact onward.returned returned }
  | accept descriptor client files here opens =>
    rw [here] at opened
    obtain ⟨sound, more, -, -⟩ := tidy.files.opens opens
    exact
      { tidy with
        owned := ⟨serving, performs, more ▸ (List.perm_append_singleton _ _ |>.trans (opened.cons _))⟩
        files := sound
        drained := fun returned => by cases returned
        joined := fun late => by have before := tidy.joined late; rw [here] at before; cases before }
  | hand client pool here transition =>
    have queue := transition.queue
    have performing := transition.performing
    simp only [Reply.accepted?, Reply.started?, Reply.completed?, Option.toList_some, Option.toList_none,
      List.append_nil, List.nil_append] at queue performing
    rw [here] at opened
    exact
      { tidy with
        counted := tidy.counted.step transition
        stopCalled := tidy.stopCalled.step transition
        owned := by
          refine ⟨serving, performing.symm.trans performs, opened.trans ?_⟩
          show List.Perm (client :: (s.pool.tasks ++ serving)) (pool.tasks ++ serving)
          rw [← queue, List.append_assoc]
          exact List.perm_middle.symm
        drained := fun returned => by cases returned
        joined := fun late => by have before := tidy.joined late; rw [here] at before; cases before }
  | closeRefused client s' here closes =>
    rw [here] at opened
    obtain ⟨files, closed, sound, left⟩ := tidy.close_eq opened
    rw [closed] at closes
    cases closes
    exact
      { tidy with
        owned := ⟨serving, performs, left⟩
        files := sound
        drained := fun returned => by cases returned
        joined := fun late => by have before := tidy.joined late; rw [here] at before; cases before }
  | closeClient client s' performing first closes =>
    have member : client ∈ serving := by
      cases List.mem_append.mp (performs.mem_iff.mp performing) with
      | inl returning => exact absurd returning first
      | inr serving => exact serving
    have serves := List.perm_cons_erase member
    have openedFirst : s.files.opened.Perm
        (client :: (s.acceptor.client?.toList ++ (s.pool.tasks ++ serving.erase client))) := by
      refine opened.trans ?_
      rw [← List.append_assoc, ← List.append_assoc]
      exact (serves.append_left _).trans List.perm_middle
    obtain ⟨files, closed, sound, left⟩ := tidy.close_eq openedFirst
    rw [closed] at closes
    cases closes
    exact
      { tidy with
        owned := ⟨serving.erase client, performs.trans ((serves.append_left _).trans List.perm_middle), left⟩
        files := sound }
  | finish i client pool closed transition =>
    have queue := transition.queue
    have performing := transition.performing
    simp only [Reply.accepted?, Reply.started?, Reply.completed?, Option.toList_some, Option.toList_none,
      List.append_nil, List.nil_append] at queue performing
    have returning := List.perm_cons_erase closed
    exact
      { tidy with
        counted := tidy.counted.step transition
        stopCalled := tidy.stopCalled.step transition
        owned := by
          refine ⟨serving, List.Perm.cons_inv (a := client) ?_, by rwa [← queue]⟩
          exact performing.symm.trans (performs.trans (returning.append_right _))
        drained := by
          intro returned
          obtain ⟨empty, notRunning, exited⟩ := tidy.drained returned
          exact drained_step transition empty notRunning exited }

end Invariant

/-! ## Whole runs -/

section Runs

variable {low high maxQueue : Nat} {s : Server} {replies : List (Reply Accepted)} {events : List Event}

theorem tidy_of_runs (positive : 1 ≤ high)
    (ran : runs step events (start low high maxQueue) = .ok (replies, s)) : Tidy low high maxQueue s :=
  runs_invariant (fun _ _ _ _ tidy stepped => tidy.step positive (step_moves stepped))
    (tidy_start low high maxQueue) ran

theorem bind_error {α β : Type} {x : Except Blocked α} {f : α → Except Blocked β} {blocked : Blocked}
    (failed : x >>= f = .error blocked) : x = .error blocked ∨ ∃ a, x = .ok a ∧ f a = .error blocked := by
  cases x with
  | error other =>
    cases failed
    exact .inl rfl
  | ok a => exact .inr ⟨a, rfl, failed⟩

theorem ask_sound (s : Server) (event : Concurrency.Event Accepted) :
    s.ask event ≠ .error .badDescriptor := by
  intro asked
  simp only [ask] at asked
  split at asked <;> cases asked

/-- Nobody closes a descriptor that is not open. -/
theorem Tidy.closes_opened (tidy : Tidy low high maxQueue s) (event : Event) :
    s.step event ≠ .error .badDescriptor := by
  obtain ⟨serving, performs, opened⟩ := tidy.owned
  intro failed
  cases event with
  | check | acceptFails =>
    simp only [Server.step, walk] at failed
    split at failed <;> cases failed
  | accept descriptor =>
    simp only [Server.step, accept] at failed
    split at failed
    · split at failed <;> cases failed
    · cases failed
  | stop =>
    simp only [Server.step, stop] at failed
    split at failed <;> cases failed
  | poll | recount => exact ask_sound s _ failed
  | stopPool | acceptorWakes =>
    simp only [Server.step, acceptorStops] at failed
    split at failed
    · obtain asked | ⟨answer, -, failed⟩ := bind_error failed
      · exact ask_sound s _ asked
      · cases failed
    · cases failed
  | join | ownerWakes =>
    simp only [Server.step, ownerStops] at failed
    split at failed
    · obtain asked | ⟨answer, -, failed⟩ := bind_error failed
      · exact ask_sound s _ asked
      · cases failed
    · cases failed
  | execute =>
    simp only [Server.step, execute] at failed
    split at failed
    · obtain asked | ⟨answer, -, failed⟩ := bind_error failed
      · exact ask_sound s _ asked
      · split at failed <;> cases failed
    · cases failed
  | finish i =>
    simp only [Server.step, finish] at failed
    split at failed
    · split at failed
      · obtain asked | ⟨answer, -, failed⟩ := bind_error failed
        · exact ask_sound s _ asked
        · cases failed
      · cases failed
    · cases failed
  | closeRefused =>
    simp only [Server.step, closeRefused] at failed
    split at failed
    · rename_i client here
      rw [here] at opened
      obtain ⟨files, closed, -⟩ := tidy.close_eq opened
      rw [closed] at failed
      cases failed
    · cases failed
  | closeClient client =>
    simp only [Server.step, closeClient] at failed
    split at failed
    · rename_i may
      have member : client ∈ s.files.opened := by
        apply opened.mem_iff.mpr
        cases List.mem_append.mp (performs.mem_iff.mp may.1) with
        | inl returning => exact absurd returning may.2
        | inr serving => exact List.mem_append_right _ (List.mem_append_right _ serving)
      rw [Server.close, tidy.files.close_eq member] at failed
      cases failed
    · cases failed

theorem Tidy.opened_nil (tidy : Tidy low high maxQueue s) (returned : s.acceptor = .returned) :
    s.files.opened = [] := by
  obtain ⟨serving, performs, opened⟩ := tidy.owned
  obtain ⟨empty, -, exited⟩ := tidy.drained returned
  rw [Executor.performing_of_exited exited] at performs
  have nobody := (List.append_eq_nil_iff.mp performs.nil_eq.symm).2
  rw [returned, empty, nobody] at opened
  exact opened.eq_nil

theorem Tidy.opened_perm (tidy : Tidy low high maxQueue s) : s.files.opened.Perm s.hands := by
  obtain ⟨serving, performs, opened⟩ := tidy.owned
  have handlers : (s.pool.performing.diff s.returning).Perm serving := by
    refine List.perm_iff_count.mpr fun client => ?_
    rw [List.count_diff, performs.count_eq, List.count_append, Nat.add_sub_cancel_left]
  exact opened.trans ((handlers.symm.append_left _).append_left _)

/-- At any time every open descriptor belongs to one connection that the acceptor,
    the queue or a handler has in hand, and every other connection has been closed
    once, by its owner.  When `OnRun` has returned, and so when `Join` has, all
    connections have been closed and no thread is left. -/
theorem closed_once (positive : 1 ≤ high)
    (ran : runs step events (start low high maxQueue) = .ok (replies, s)) :
    s.hands.Nodup ∧ s.files.opened.Perm s.hands ∧
      (s.files.closed.map (·.1.number) ++ s.files.opened.map (·.number)).Perm (List.range s.files.count) ∧
      (∀ entry ∈ s.files.closed, entry.1 = entry.2) ∧
      (∀ event, s.step event ≠ .error .badDescriptor) ∧
      (s.acceptor = .returned ∨ s.owner = .joined →
        (s.files.closed.map (·.1.number)).Perm (List.range s.files.count) ∧ s.files.opened = [] ∧
          ∀ worker ∈ s.pool.threads, worker = .exited) := by
  have tidy := tidy_of_runs positive ran
  have opened := tidy.opened_perm
  refine ⟨opened.nodup_iff.mp tidy.files.nodup, opened, tidy.files.numbers, tidy.files.own, tidy.closes_opened,
    fun late => ?_⟩
  have returned : s.acceptor = .returned := by
    cases late with
    | inl returned => exact returned
    | inr joined => exact tidy.joined (.inr joined)
  have numbers := tidy.files.numbers
  rw [tidy.opened_nil returned, List.map_nil, List.append_nil] at numbers
  exact ⟨numbers, tidy.opened_nil returned, (tidy.drained returned).2.2⟩

/-- Three connections, of which the pool refuses the second one; the third one gets
    its descriptor. -/
theorem closed_once_three : ∃ replies s,
    runs step [.check, .accept 5, .execute, .check, .accept 6, .execute, .closeRefused, .poll 0 false, .check,
        .accept 6, .execute, .closeClient ⟨5, 0⟩, .stop, .finish 0, .recount 0, .check, .stopPool,
        .poll 0 false, .closeClient ⟨6, 2⟩, .finish 0, .recount 0, .poll 0 false, .acceptorWakes, .join]
      (start 1 1 1) = .ok (replies, s) ∧ s.owner = .joined ∧ s.files.opened = [] ∧
      (s.files.closed.map (·.1.number)).Perm (List.range 3) := by
  obtain ⟨replies, s, ran, joined, accepted⟩ : ∃ replies s,
      runs step [.check, .accept 5, .execute, .check, .accept 6, .execute, .closeRefused, .poll 0 false, .check,
          .accept 6, .execute, .closeClient ⟨5, 0⟩, .stop, .finish 0, .recount 0, .check, .stopPool,
          .poll 0 false, .closeClient ⟨6, 2⟩, .finish 0, .recount 0, .poll 0 false, .acceptorWakes, .join]
        (start 1 1 1) = .ok (replies, s) ∧ s.owner = .joined ∧ s.files.count = 3 := ⟨_, _, rfl, rfl, rfl⟩
  obtain ⟨-, -, -, -, -, ends⟩ := closed_once (by decide) ran
  obtain ⟨closed, opened, -⟩ := ends (.inr joined)
  exact ⟨replies, s, ran, joined, opened, accepted ▸ closed⟩

end Runs

end Server

end Afina.Network.MTblocking
