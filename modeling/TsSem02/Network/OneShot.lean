import Mathlib
import TsSem02.Library.Descriptors
import TsSem02.Library.Runs

/-! # Who may touch a connection of MTnonblock

The acceptors and the workers share one epoll instance, and a `Connection` is handed
from one thread to another by nothing but its events: `EPOLLONESHOT` disarms it when
an event is reported, and the worker that has got the event arms it again, or deletes
it.  A step is what one thread does between two points where another may come in
between; a descriptor is used again as soon as it has been closed.

`Owned` says who has a connection in hand.  So two threads never work on one
connection, no thread touches one that has been deleted, and no `close` or
`epoll_ctl` hits the descriptor of another connection (`one_owner`).
-/

namespace Afina.Network.MTnonblock.OneShot

open Runs Descriptors

/-- A `Connection`, known by the descriptor it was created for. -/
abbrev Conn := File

/-- What the thread does next with the connection in its hands. -/
inductive Stage where
  | created                 -- it has been created and inserted; `Start`
  | started                 -- `epoll_ctl(EPOLL_CTL_ADD)`
  | handling                -- an event has been reported; `OnError`, `OnClose`, `DoRead`, `DoWrite`
  | handled (alive : Bool)  -- `epoll_ctl`, to arm it again or to remove it
  | failing                 -- `epoll_ctl` has failed; `OnError`
  | closing                 -- in `DeleteConnection`: `close(pc->_socket)`
  | freeing                 -- `delete pc`
  | erasing                 -- `conns.erase(pc)`
deriving DecidableEq, Repr

inductive Role where
  | acceptor
  | worker
deriving DecidableEq, Repr

structure Thread where
  role : Role
  hand : Option (Conn × Stage)
  batch : List Conn   -- the rest of `mod_list`
deriving DecidableEq, Repr

structure Dispatch where
  threads : List Thread
  files : Table
  objects : List Conn   -- created and not deleted
  armed : List Conn     -- in `_data_epoll_fd`, an event may be reported
  disarmed : List Conn  -- in `_data_epoll_fd`, an event has been reported
deriving Repr

inductive Blocked where
  | disabled
  | freed          -- a connection is touched that has been deleted
  | badDescriptor  -- the descriptor is not open, or is that of another connection
deriving DecidableEq, Repr

inductive Event where
  | accept (thread descriptor : Nat)
  | start (thread : Nat)
  | register (thread : Nat) (ok : Bool)
  | wait (thread : Nat) (reported : List Conn)  -- `epoll_wait` returns
  | take (thread : Nat)
  | handle (thread : Nat) (alive : Bool)
  | rearm (thread : Nat) (ok : Bool)
  | onError (thread : Nat)
  | remove (thread : Nat)
  | close (thread : Nat)
  | delete (thread : Nat)
  | erase (thread : Nat)
deriving DecidableEq, Repr

namespace Dispatch

def start (acceptors workers : Nat) : Dispatch where
  threads := List.replicate acceptors ⟨.acceptor, none, []⟩ ++ List.replicate workers ⟨.worker, none, []⟩
  files := .empty
  objects := []
  armed := []
  disarmed := []

def goto (s : Dispatch) (i : Nat) (thread : Thread) : Dispatch :=
  { s with threads := s.threads.set i thread }

def touch (s : Dispatch) (conn : Conn) (next : Dispatch) : Except Blocked (Unit × Dispatch) :=
  if conn ∈ s.objects then .ok ((), next) else .error .freed

def control (s : Dispatch) (conn : Conn) (next : Dispatch) : Except Blocked (Unit × Dispatch) :=
  if conn ∈ s.objects then
    if conn ∈ s.files.opened then .ok ((), next) else .error .badDescriptor
  else .error .freed

/-- `close(pc->_socket)`, which also takes the descriptor out of the epoll instance. -/
def close (s : Dispatch) (conn : Conn) : Except Blocked Dispatch :=
  if conn ∈ s.objects then
    match s.files.close conn with
    | none => .error .badDescriptor
    | some files =>
      .ok { s with
        files := files
        armed := s.armed.filter fun other => other.descriptor ≠ conn.descriptor
        disarmed := s.disarmed.filter fun other => other.descriptor ≠ conn.descriptor }
  else .error .freed

/-- What thread `i` does, with the connection in its hands. -/
def act (s : Dispatch) (i : Nat) (thread : Thread) (event : Event) : Except Blocked (Unit × Dispatch) :=
  match event, thread.hand with
  | .accept _ descriptor, none =>
    if thread.role = .acceptor then
      match s.files.open? descriptor with
      | some (conn, files) =>
        .ok ((), { s with files := files, objects := conn :: s.objects }.goto i
          { thread with hand := some (conn, .created) })
      | none => .error .disabled
    else .error .disabled
  | .start _, some (conn, .created) => s.touch conn (s.goto i { thread with hand := some (conn, .started) })
  | .register _ ok, some (conn, .started) =>
    s.control conn <|
      if ok then { s with armed := conn :: s.armed }.goto i { thread with hand := none }
      else s.goto i { thread with hand := some (conn, .failing) }
  | .wait _ reported, none =>
    if thread.role = .worker ∧ thread.batch = [] ∧ reported.length ≤ 64 ∧ reported.Subperm s.armed then
      .ok ((), { s with armed := s.armed.diff reported, disarmed := reported ++ s.disarmed }.goto i
        { thread with batch := reported })
    else .error .disabled
  | .take _, none =>
    match thread.batch with
    | conn :: batch => .ok ((), s.goto i { thread with hand := some (conn, .handling), batch := batch })
    | [] => .error .disabled
  | .handle _ alive, some (conn, .handling) =>
    s.touch conn (s.goto i { thread with hand := some (conn, .handled alive) })
  | .rearm _ ok, some (conn, .handled true) =>
    s.control conn <|
      if ok ∧ conn ∈ s.disarmed then
        { s with armed := conn :: s.armed, disarmed := s.disarmed.erase conn }.goto i { thread with hand := none }
      else s.goto i { thread with hand := some (conn, .failing) }
  | .onError _, some (conn, .failing) => s.touch conn (s.goto i { thread with hand := some (conn, .closing) })
  | .remove _, some (conn, .handled false) =>
    s.control conn <|
      { s with disarmed := s.disarmed.erase conn }.goto i { thread with hand := some (conn, .closing) }
  | .close _, some (conn, .closing) => do
    let s ← s.close conn
    .ok ((), s.goto i { thread with hand := some (conn, .freeing) })
  | .delete _, some (conn, .freeing) =>
    s.touch conn ({ s with objects := s.objects.erase conn }.goto i { thread with hand := some (conn, .erasing) })
  | .erase _, some (_, .erasing) => .ok ((), s.goto i { thread with hand := none })
  | _, _ => .error .disabled

end Dispatch

def Event.thread : Event → Nat
  | accept i _ | start i | register i _ | wait i _ | take i | handle i _ | rearm i _ | onError i | remove i
  | close i | delete i | erase i => i

namespace Dispatch

def step (event : Event) (s : Dispatch) : Except Blocked (Unit × Dispatch) :=
  match s.threads[event.thread]? with
  | some thread => s.act event.thread thread event
  | none => .error .disabled

end Dispatch

/-! ## What is in whose hands -/

namespace Thread

/-- The connections that the thread may touch. -/
def objects (thread : Thread) : List Conn :=
  match thread.hand with
  | none | some (_, .erasing) => thread.batch
  | some (conn, _) => conn :: thread.batch

/-- Those of them whose descriptor it may use. -/
def files (thread : Thread) : List Conn :=
  match thread.hand with
  | none | some (_, .erasing) | some (_, .freeing) => thread.batch
  | some (conn, _) => conn :: thread.batch

end Thread

namespace Dispatch

/-- Every connection is armed, or in the hands of one thread. -/
structure Owned (s : Dispatch) : Prop where
  files : s.files.Sound
  objects : s.objects.Perm (s.armed ++ s.threads.flatMap Thread.objects)
  opened : s.files.opened.Perm (s.armed ++ s.threads.flatMap Thread.files)
  numbers : (s.objects.map File.number).Nodup
  count : ∀ conn ∈ s.objects, conn.number < s.files.count

section Invariant

variable {s next : Dispatch} {i : Nat} {thread : Thread} {conn : Conn} {event : Event} {reply : Unit}

theorem owned_start (acceptors workers : Nat) : Owned (start acceptors workers) where
  files := Table.sound_empty
  objects := by simp [start, Thread.objects]
  opened := by simp [start, Thread.files, Table.empty]
  numbers := List.nodup_nil
  count conn member := by cases member

theorem exists_others (threads : List Thread) (f : Thread → List Conn) (place : threads[i]? = some thread) :
    ∃ others, (threads.flatMap f).Perm (f thread ++ others) ∧
      ∀ next, ((threads.set i next).flatMap f).Perm (f next ++ others) := by
  obtain ⟨bound, here⟩ := List.getElem?_eq_some_iff.mp place
  refine ⟨(threads.eraseIdx i).flatMap f, ?_, fun next => ?_⟩
  · have same := (List.getElem_cons_eraseIdx_perm bound).flatMap_right f
    rw [here, List.flatMap_cons] at same
    exact same.symm
  · have same := (List.set_perm_cons_eraseIdx bound next).flatMap_right f
    rwa [List.flatMap_cons] at same

theorem Owned.goto (owned : Owned s) {s' : Dispatch} {thread' : Thread} (place : s.threads[i]? = some thread)
    (same : s'.threads = s.threads) (sound : s'.files.Sound)
    (objects : ∀ others, s.objects.Perm (s.armed ++ (thread.objects ++ others)) →
      s'.objects.Perm (s'.armed ++ (thread'.objects ++ others)))
    (opened : ∀ others, s.files.opened.Perm (s.armed ++ (thread.files ++ others)) →
      s'.files.opened.Perm (s'.armed ++ (thread'.files ++ others)))
    (numbers : (s'.objects.map File.number).Nodup) (count : ∀ conn ∈ s'.objects, conn.number < s'.files.count) :
    Owned (s'.goto i thread') where
  files := sound
  objects := by
    obtain ⟨others, before, after⟩ := exists_others s.threads Thread.objects place
    refine (objects others (owned.objects.trans (before.append_left _))).trans ?_
    rw [Dispatch.goto, same]
    exact ((after thread').append_left _).symm
  opened := by
    obtain ⟨others, before, after⟩ := exists_others s.threads Thread.files place
    refine (opened others (owned.opened.trans (before.append_left _))).trans ?_
    rw [Dispatch.goto, same]
    exact ((after thread').append_left _).symm
  numbers := numbers
  count := count

theorem Owned.walk (owned : Owned s) {thread' : Thread} (place : s.threads[i]? = some thread)
    (objects : thread'.objects = thread.objects) (files : thread'.files = thread.files) :
    Owned (s.goto i thread') :=
  owned.goto place rfl owned.files (fun _ before => objects ▸ before) (fun _ before => files ▸ before) owned.numbers
    owned.count

theorem Owned.nodup (owned : Owned s) : s.objects.Nodup := owned.numbers.of_map _

theorem touch_ok {conn : Conn} {after : Dispatch} (touched : s.touch conn after = .ok (reply, next)) :
    next = after := by
  unfold touch at touched
  split at touched
  · cases touched
    rfl
  · cases touched

theorem control_ok {conn : Conn} {after : Dispatch} (controlled : s.control conn after = .ok (reply, next)) :
    next = after := by
  unfold control at controlled
  split at controlled
  · split at controlled
    · cases controlled
      rfl
    · cases controlled
  · cases controlled

theorem arm_perm {all armed batch others : List Conn} (before : all.Perm (armed ++ (conn :: batch ++ others))) :
    all.Perm (conn :: armed ++ (batch ++ others)) :=
  before.trans List.perm_middle

theorem Owned.filter_armed (owned : Owned s) {rest : List Conn}
    (opened : s.files.opened.Perm (s.armed ++ conn :: rest)) :
    (s.armed.filter fun other => other.descriptor ≠ conn.descriptor) = s.armed := by
  apply List.filter_eq_self.mpr
  intro other armed
  have distinct := ((opened.map File.descriptor).nodup_iff).mp owned.files.descriptors
  rw [List.map_append, List.map_cons, List.nodup_append] at distinct
  simpa using distinct.2.2 _ (List.mem_map_of_mem armed) _ List.mem_cons_self

theorem Owned.close (owned : Owned s) {batch : List Conn} {role : Role} {closed : Dispatch}
    (place : s.threads[i]? = some ⟨role, some (conn, .closing), batch⟩) (closes : s.close conn = .ok closed) :
    Owned (closed.goto i ⟨role, some (conn, .freeing), batch⟩) := by
  obtain ⟨others, before, -⟩ := exists_others s.threads Thread.files place
  have opened : s.files.opened.Perm (s.armed ++ conn :: (batch ++ others)) :=
    owned.opened.trans (before.append_left _)
  have member : conn ∈ s.files.opened :=
    opened.mem_iff.mpr (List.mem_append_right _ List.mem_cons_self)
  obtain ⟨files, closesFile, sound, count, left⟩ := owned.files.closes member
  unfold Dispatch.close at closes
  rw [closesFile, owned.filter_armed opened] at closes
  split at closes
  · cases closes
    exact owned.goto place rfl sound (fun _ before => before)
      (fun others before => left _ (before.trans List.perm_middle)) owned.numbers
      (fun conn member => count ▸ owned.count conn member)
  · cases closes

theorem Owned.act (owned : Owned s) (place : s.threads[i]? = some thread)
    (acted : s.act i thread event = .ok (reply, next)) : Owned next := by
  obtain ⟨role, hand, batch⟩ := thread
  cases event with
  | accept j descriptor =>
    cases hand with
    | some held => cases acted
    | none =>
      simp only [Dispatch.act] at acted
      split at acted
      · split at acted
        · rename_i conn files opens
          cases acted
          obtain ⟨sound, more, number, count⟩ := owned.files.opens opens
          refine owned.goto place rfl sound (fun others before => ?_) (fun others before => ?_) ?_ ?_
          · exact (before.cons conn).trans List.perm_middle.symm
          · rw [more]
            exact (List.perm_append_singleton conn _).trans ((before.cons conn).trans List.perm_middle.symm)
          · refine List.nodup_cons.mpr ⟨fun member => ?_, owned.numbers⟩
            obtain ⟨other, there, same⟩ := List.mem_map.mp member
            have less := owned.count other there
            omega
          · intro other member
            rw [count]
            cases member with
            | head => omega
            | tail _ there => exact Nat.lt_succ_of_lt (owned.count other there)
        · cases acted
      · cases acted
  | start j =>
    obtain _ | ⟨conn, _ | _⟩ := hand <;> try cases acted
    rw [touch_ok acted]
    exact owned.walk place rfl rfl
  | register j ok =>
    obtain _ | ⟨conn, _ | _⟩ := hand <;> try cases acted
    rw [control_ok acted]
    split
    · exact owned.goto place rfl owned.files (fun _ => arm_perm) (fun _ => arm_perm) owned.numbers owned.count
    · exact owned.walk place rfl rfl
  | wait j reported =>
    cases hand with
    | some held => cases acted
    | none =>
      simp only [Dispatch.act] at acted
      split at acted
      · rename_i may
        obtain ⟨-, rfl, -, armed⟩ := may
        cases acted
        have parts : s.armed.Perm (s.armed.diff reported ++ reported) :=
          ((List.subperm_append_diff_self_of_count_le (List.subperm_ext_iff.mp armed)).symm.trans
            List.perm_append_comm)
        refine owned.goto place rfl owned.files (fun others before => ?_) (fun others before => ?_) owned.numbers
          owned.count <;>
          exact before.trans ((parts.append_right others).trans (by rw [List.append_assoc]; rfl))
      · cases acted
  | take j =>
    cases hand with
    | some held => cases acted
    | none =>
      cases batch with
      | nil => cases acted
      | cons conn batch =>
        cases acted
        exact owned.walk place rfl rfl
  | handle j alive =>
    obtain _ | ⟨conn, _ | _ | _⟩ := hand <;> try cases acted
    rw [touch_ok acted]
    exact owned.walk place rfl rfl
  | rearm j ok =>
    obtain _ | ⟨conn, _ | _ | _ | ⟨_ | _⟩ | _⟩ := hand <;> try cases acted
    rw [control_ok acted]
    split
    · exact owned.goto place rfl owned.files (fun _ => arm_perm) (fun _ => arm_perm) owned.numbers owned.count
    · exact owned.walk place rfl rfl
  | onError j =>
    obtain _ | ⟨conn, _ | _ | _ | _ | _⟩ := hand <;> try cases acted
    rw [touch_ok acted]
    exact owned.walk place rfl rfl
  | remove j =>
    obtain _ | ⟨conn, _ | _ | _ | ⟨_ | _⟩ | _⟩ := hand <;> try cases acted
    rw [control_ok acted]
    exact owned.goto place rfl owned.files (fun _ before => before) (fun _ before => before) owned.numbers
      owned.count
  | close j =>
    obtain _ | ⟨conn, _ | _ | _ | _ | _ | _⟩ := hand <;> try cases acted
    simp only [Dispatch.act] at acted
    cases closes : s.close conn with
    | error blocked =>
      rw [closes] at acted
      cases acted
    | ok closed =>
      rw [closes] at acted
      cases acted
      exact owned.close place closes
  | delete j =>
    obtain _ | ⟨conn, _ | _ | _ | _ | _ | _ | _⟩ := hand <;> try cases acted
    rw [touch_ok acted]
    refine owned.goto place rfl owned.files (fun others before => ?_) (fun _ before => before) ?_ ?_
    · have first := before.trans List.perm_middle
      have member : conn ∈ s.objects := first.mem_iff.mpr List.mem_cons_self
      exact ((List.perm_cons_erase member).symm.trans first).cons_inv
    · exact owned.numbers.sublist (List.erase_sublist.map _)
    · exact fun other member => owned.count other (List.mem_of_mem_erase member)
  | erase j =>
    obtain _ | ⟨conn, _ | _ | _ | _ | _ | _ | _ | _⟩ := hand <;> try cases acted
    exact owned.walk place rfl rfl

theorem Owned.step (owned : Owned s) (stepped : step event s = .ok (reply, next)) : Owned next := by
  unfold Dispatch.step at stepped
  split at stepped
  · exact owned.act ‹_› stepped
  · cases stepped

/-! ## No thread touches what is not in its hands -/

theorem Owned.mem_objects (owned : Owned s) (place : s.threads[i]? = some thread) (held : conn ∈ thread.objects) :
    conn ∈ s.objects :=
  owned.objects.mem_iff.mpr
    (List.mem_append_right _ (List.mem_flatMap.mpr ⟨thread, List.mem_of_getElem? place, held⟩))

theorem Owned.mem_opened (owned : Owned s) (place : s.threads[i]? = some thread) (held : conn ∈ thread.files) :
    conn ∈ s.files.opened :=
  owned.opened.mem_iff.mpr
    (List.mem_append_right _ (List.mem_flatMap.mpr ⟨thread, List.mem_of_getElem? place, held⟩))

theorem Owned.touch_eq (owned : Owned s) (place : s.threads[i]? = some thread) (held : conn ∈ thread.objects)
    (after : Dispatch) : s.touch conn after = .ok ((), after) := by
  rw [touch, if_pos (owned.mem_objects place held)]

theorem Owned.control_eq (owned : Owned s) (place : s.threads[i]? = some thread) (held : conn ∈ thread.objects)
    (heldFile : conn ∈ thread.files) (after : Dispatch) : s.control conn after = .ok ((), after) := by
  rw [control, if_pos (owned.mem_objects place held), if_pos (owned.mem_opened place heldFile)]

theorem Owned.close_isOk (owned : Owned s) (place : s.threads[i]? = some thread) (held : conn ∈ thread.objects)
    (heldFile : conn ∈ thread.files) : ∃ closed, s.close conn = .ok closed := by
  have closes := owned.files.close_eq (owned.mem_opened place heldFile)
  rw [Dispatch.close, if_pos (owned.mem_objects place held), closes]
  exact ⟨_, rfl⟩

theorem Owned.step_error (owned : Owned s) {blocked : Blocked} (failed : Dispatch.step event s = .error blocked) :
    blocked = .disabled := by
  unfold Dispatch.step at failed
  split at failed
  · rename_i thread place
    obtain ⟨role, hand, batch⟩ := thread
    cases event with
    | accept j descriptor =>
      cases hand with
      | some held => cases failed; rfl
      | none =>
        simp only [Dispatch.act] at failed
        split at failed
        · split at failed <;> cases failed
          rfl
        · cases failed
          rfl
    | wait j reported =>
      cases hand with
      | some held => cases failed; rfl
      | none =>
        simp only [Dispatch.act] at failed
        split at failed <;> cases failed
        rfl
    | take j =>
      cases hand with
      | some held => cases failed; rfl
      | none =>
        cases batch with
        | nil => cases failed; rfl
        | cons conn batch => cases failed
    | start j | register j ok | handle j alive | rearm j ok | onError j | remove j | close j | delete j
    | erase j =>
      obtain _ | ⟨conn, _ | _ | _ | ⟨_ | _⟩ | _ | _ | _ | _⟩ := hand
      all_goals first
        | (cases failed; rfl)
        | cases failed
        | cases (owned.touch_eq place List.mem_cons_self _).symm.trans failed
        | cases (owned.control_eq place List.mem_cons_self List.mem_cons_self _).symm.trans failed
        | (obtain ⟨closed, closes⟩ := owned.close_isOk place List.mem_cons_self List.mem_cons_self
           simp only [Dispatch.act] at failed
           rw [closes] at failed
           cases failed)
  · cases failed
    rfl

end Invariant

/-! ## Whole runs -/

section Runs

variable {s : Dispatch} {replies : List Unit} {events : List Event} {acceptors workers : Nat}

theorem owned_of_runs (ran : runs step events (start acceptors workers) = .ok (replies, s)) : Owned s :=
  runs_invariant (fun _ _ _ _ owned stepped => owned.step stepped) (owned_start acceptors workers) ran

/-- At any time a connection that has not been deleted is armed in the epoll instance
    or in the hands of one thread, and never of two; no thread touches one that has
    been deleted or uses a descriptor that is not open or not its own; and every
    connection has been closed once, by its owner, or is still open. -/
theorem one_owner (ran : runs step events (start acceptors workers) = .ok (replies, s)) :
    (∀ conn ∈ s.objects, conn ∈ s.armed ∨
      ∃ (i : Nat) (thread : Thread), s.threads[i]? = some thread ∧ conn ∈ thread.objects) ∧
      (∀ (i j : Nat) (first second : Thread) (conn : Conn), s.threads[i]? = some first →
        s.threads[j]? = some second → conn ∈ first.objects → conn ∈ second.objects → i = j ∧ conn ∉ s.armed) ∧
      (∀ event blocked, step event s = .error blocked → blocked = .disabled) ∧
      (s.files.closed.map (·.1.number) ++ s.files.opened.map File.number).Perm (List.range s.files.count) ∧
      ∀ entry ∈ s.files.closed, entry.1 = entry.2 := by
  have owned := owned_of_runs ran
  refine ⟨fun conn member => ?_, fun i j first second conn place there held heldToo => ?_,
    fun event blocked failed => owned.step_error failed, owned.files.numbers, owned.files.own⟩
  · cases List.mem_append.mp (owned.objects.mem_iff.mp member) with
    | inl armed => exact .inl armed
    | inr held =>
      obtain ⟨thread, among, held⟩ := List.mem_flatMap.mp held
      obtain ⟨i, place⟩ := List.mem_iff_getElem?.mp among
      exact .inr ⟨i, thread, place, held⟩
  · have distinct := (owned.objects.nodup_iff).mp owned.nodup
    rw [List.nodup_append, List.nodup_flatMap] at distinct
    obtain ⟨-, ⟨-, apart⟩, fromArmed⟩ := distinct
    constructor
    · obtain ⟨bound, here⟩ := List.getElem?_eq_some_iff.mp place
      obtain ⟨bound', here'⟩ := List.getElem?_eq_some_iff.mp there
      by_contra different
      obtain less | more := Nat.lt_or_gt_of_ne different
      · have disjoint := List.pairwise_iff_getElem.mp apart i j bound bound' less
        rw [Function.onFun, here, here'] at disjoint
        exact disjoint held heldToo
      · have disjoint := List.pairwise_iff_getElem.mp apart j i bound' bound more
        rw [Function.onFun, here, here'] at disjoint
        exact disjoint heldToo held
    · intro armed
      exact fromArmed conn armed conn
        (List.mem_flatMap.mpr ⟨first, List.mem_of_getElem? place, held⟩) rfl

/-- One worker handles two connections; the second one is closed, and an acceptor gets
    its descriptor again while the worker still has to erase the pointer. -/
theorem one_owner_reused : ∃ replies s,
    runs step [.accept 0 5, .start 0, .register 0 true, .accept 0 6, .start 0, .register 0 true,
        .wait 1 [⟨5, 0⟩, ⟨6, 1⟩], .take 1, .handle 1 true, .rearm 1 true, .take 1, .handle 1 false,
        .remove 1, .close 1, .accept 0 6, .delete 1, .start 0, .register 0 true, .erase 1] (start 1 1) = .ok (replies, s) ∧
      s.armed = [⟨6, 2⟩, ⟨5, 0⟩] ∧
      (s.files.closed.map (·.1.number) ++ s.files.opened.map File.number).Perm (List.range 3) := by
  obtain ⟨replies, s, ran, armed, count⟩ : ∃ replies s,
      runs step [.accept 0 5, .start 0, .register 0 true, .accept 0 6, .start 0, .register 0 true,
          .wait 1 [⟨5, 0⟩, ⟨6, 1⟩], .take 1, .handle 1 true, .rearm 1 true, .take 1, .handle 1 false,
          .remove 1, .close 1, .accept 0 6, .delete 1, .start 0, .register 0 true, .erase 1] (start 1 1) = .ok (replies, s) ∧
        s.armed = [⟨6, 2⟩, ⟨5, 0⟩] ∧ s.files.count = 3 := ⟨_, _, rfl, rfl, rfl⟩
  exact ⟨replies, s, ran, armed, count ▸ (one_owner ran).2.2.2.1⟩

end Runs

end Dispatch

end Afina.Network.MTnonblock.OneShot
