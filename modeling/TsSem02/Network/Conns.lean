import Mathlib.Data.Finset.Max
import Mathlib.Data.Fintype.Basic
import TsSem02.Library.Runs

/-! # The set of connections of MTnonblock

An acceptor creates a `Connection` and inserts the pointer into `conns`;
`DeleteConnection` frees the object and erases the pointer afterwards.  In
between, the allocator may hand out the address again.  When all threads have
ended, `Join` closes what is left; but it erases the very element its iterator
stands on, so it gets through only if nothing is left.

`conns_eq_allocated` says that `conns` is right whenever nobody is in the middle
of an accept or a delete, and that `Join` leaves no connection behind, unless a
pointer was erased whose address belongs to a new connection that has been
inserted already, or `Join` has found a connection.
-/

namespace Afina.Network.MTnonblock

open Runs

/-- Where an acceptor or a worker is. -/
inductive Point (Addr : Type) where
  | looping
  | inserting (pc : Addr)  -- after `new Connection`, about to insert `pc`
  | erasing (pc : Addr)    -- after `delete pc`, about to erase it
  | ended                  -- `OnRun` has returned
deriving DecidableEq, Repr

inductive Owner where
  | serving
  | stopped  -- after `Stop`
  | joined   -- after `Join`
deriving DecidableEq, Repr

structure Conns (Thread Addr : Type) where
  conns : Finset Addr
  allocated : Finset Addr
  accepted : Finset Addr  -- inserted and not deleted; epoll reports events of these
  points : Thread → Point Addr
  owner : Owner

inductive Act (Addr : Type) where
  | create (pc : Addr)      -- `new Connection` returns `pc`
  | insert                  -- `conns.insert(pc)`
  | delete (pc : Addr)      -- `delete pc`
  | erase                   -- `conns.erase(pc)`
  | leave (nmod : Nat)      -- the loop ends, `nmod` events after the last `epoll_wait`
deriving DecidableEq, Repr

inductive Op (Thread Addr : Type) where
  | act (thread : Thread) (act : Act Addr)
  | stop
  | join
deriving DecidableEq, Repr

/-- Why a step is not taken, or does not end. -/
inductive Blocked (Addr : Type) where
  | disabled
  | freed (pc : Addr)   -- `Join` calls `OnClose` of a connection that has been freed
  | danglingIterator    -- the element under the iterator was erased
deriving DecidableEq, Repr

namespace Conns

variable {Thread Addr : Type} [LinearOrder Addr]

omit [LinearOrder Addr] in
def start : Conns Thread Addr where
  conns := ∅
  allocated := ∅
  accepted := ∅
  points _ := .looping
  owner := .serving

/-- `DeleteConnection`, by a thread that is alone. -/
def deleteConnection (s : Conns Thread Addr) (pc : Addr) : Conns Thread Addr :=
  { s with
    conns := s.conns.erase pc
    allocated := s.allocated.erase pc
    accepted := s.accepted.erase pc }

/-- `++it`, from an element of the set to the next one. -/
def advance (s : Conns Thread Addr) (it : Addr) : Except (Blocked Addr) (Option Addr) :=
  if it ∈ s.conns then .ok (s.conns.filter (it < ·)).min else .error .danglingIterator

/-- The loop of `Join` over `conns`, for so many rounds at most, from the element that the
    iterator stands on. -/
def closeFrom : Nat → Option Addr → Conns Thread Addr → Except (Blocked Addr) (Conns Thread Addr)
  | rounds + 1, some pc, s =>
    if pc ∉ s.allocated then .error (.freed pc)
    else match (s.deleteConnection pc).advance pc with
    | .error blocked => .error blocked
    | .ok it => closeFrom rounds it (s.deleteConnection pc)
  | _, _, s => .ok s

/-- `Join`, when all threads have ended. -/
def join (s : Conns Thread Addr) : Except (Blocked Addr) (Conns Thread Addr) :=
  match closeFrom s.conns.card s.conns.min s with
  | .error blocked => .error blocked
  | .ok s => .ok { s with conns := ∅, owner := .joined }

variable [DecidableEq Thread]

def goto (s : Conns Thread Addr) (thread : Thread) (point : Point Addr) : Conns Thread Addr :=
  { s with points := fun t => if t = thread then point else s.points t }

/-- A thread takes a step; `none` if it is somewhere else, or `pc` is not to be
    had.  A connection that epoll does not take is deleted by its acceptor. -/
def step? (s : Conns Thread Addr) (thread : Thread) (act : Act Addr) : Option (Conns Thread Addr) :=
  match act, s.points thread with
  | .create pc, .looping =>
    if pc ∈ s.allocated then none
    else some ({ s with allocated := insert pc s.allocated }.goto thread (.inserting pc))
  | .insert, .inserting pc =>
    some ({ s with conns := insert pc s.conns, accepted := insert pc s.accepted }.goto thread .looping)
  | .delete pc, .looping =>
    if pc ∈ s.accepted then
      some ({ s with allocated := s.allocated.erase pc, accepted := s.accepted.erase pc }.goto thread
        (.erasing pc))
    else none
  | .erase, .erasing pc => some ({ s with conns := s.conns.erase pc }.goto thread .looping)
  -- a worker goes on while there are events and connections; an acceptor is told to stop
  | .leave nmod, .looping =>
    if s.owner ≠ .serving ∧ ¬ (0 < nmod ∧ s.conns ≠ ∅) then some (s.goto thread .ended) else none
  | _, _ => none

omit [LinearOrder Addr] [DecidableEq Thread] in
/-- `Join` is in front of its loop. -/
def Joining (s : Conns Thread Addr) : Prop := s.owner = .stopped ∧ ∀ thread, s.points thread = .ended

/-- No accept and no delete is in progress. -/
def Quiet (s : Conns Thread Addr) : Prop := ∀ thread, s.points thread = .looping ∨ s.points thread = .ended

section Server

variable [Fintype Thread]

instance : ∀ s : Conns Thread Addr, Decidable s.Joining :=
  fun s => inferInstanceAs (Decidable (s.owner = .stopped ∧ ∀ thread, s.points thread = .ended))

def step (op : Op Thread Addr) (s : Conns Thread Addr) : Except (Blocked Addr) (Unit × Conns Thread Addr) :=
  match op with
  | .act thread act =>
    match s.step? thread act with
    | none => .error .disabled
    | some next => .ok ((), next)
  | .stop => if s.owner = .serving then .ok ((), { s with owner := .stopped }) else .error .disabled
  | .join =>
    if ¬ s.Joining then .error .disabled
    else match s.join with
    | .error blocked => .error blocked
    | .ok next => .ok ((), next)

/-- `conns` tracks the connections in a run: it is right whenever nothing is in progress,
    and `Join` ends, touches no freed connection and leaves none behind. -/
structure Tracks (ops : List (Op Thread Addr)) : Prop where
  exact : ∀ replies s, runs step ops start = .ok (replies, s) → s.Quiet → s.conns = s.allocated
  closes : ∀ replies s, runs step ops start = .ok (replies, s) → s.owner = .joined → s.allocated = ∅
  ends : ∀ blocked, runs step ops start = .error blocked → blocked = .disabled

/-- The thread erases a pointer to a connection that is not the one it has freed. -/
def ErasesAnother (s : Conns Thread Addr) (op : Op Thread Addr) : Prop :=
  ∃ pc ∈ s.accepted, ∃ thread, op = .act thread .erase ∧ s.points thread = .erasing pc

/-- `Join` comes to its loop while there are connections. -/
def JoinsSome (s : Conns Thread Addr) (op : Op Thread Addr) : Prop := op = .join ∧ s.Joining ∧ s.conns ≠ ∅

instance : ∀ (s : Conns Thread Addr) op, Decidable (ErasesAnother s op) :=
  fun s op => inferInstanceAs
    (Decidable (∃ pc ∈ s.accepted, ∃ thread, op = .act thread .erase ∧ s.points thread = .erasing pc))

instance : ∀ (s : Conns Thread Addr) op, Decidable (JoinsSome s op) :=
  fun s op => inferInstanceAs (Decidable (op = .join ∧ s.Joining ∧ s.conns ≠ ∅))

end Server

/-! ## What a step can do -/

inductive Transition (s : Conns Thread Addr) (thread : Thread) : Act Addr → Conns Thread Addr → Prop
  | create (pc : Addr) : s.points thread = .looping → pc ∉ s.allocated →
    Transition s thread (.create pc)
      ({ s with allocated := insert pc s.allocated }.goto thread (.inserting pc))
  | insert (pc : Addr) : s.points thread = .inserting pc →
    Transition s thread .insert
      ({ s with conns := insert pc s.conns, accepted := insert pc s.accepted }.goto thread .looping)
  | delete (pc : Addr) : s.points thread = .looping → pc ∈ s.accepted →
    Transition s thread (.delete pc)
      ({ s with allocated := s.allocated.erase pc, accepted := s.accepted.erase pc }.goto thread
        (.erasing pc))
  | erase (pc : Addr) : s.points thread = .erasing pc →
    Transition s thread .erase ({ s with conns := s.conns.erase pc }.goto thread .looping)
  | leave (nmod : Nat) : s.points thread = .looping → Transition s thread (.leave nmod) (s.goto thread .ended)

section Steps

variable {s next : Conns Thread Addr} {thread t : Thread} {act : Act Addr} {point : Point Addr} {pc : Addr}

theorem step?_cases (taken : s.step? thread act = some next) : Transition s thread act next := by
  simp only [step?] at taken
  split at taken
  · next pc at' =>
    split at taken
    · cases taken
    · next fresh =>
      cases taken
      exact .create pc at' fresh
  · next pc at' =>
    cases taken
    exact .insert pc at'
  · next pc at' =>
    split at taken
    · next known =>
      cases taken
      exact .delete pc at' known
    · cases taken
  · next pc at' =>
    cases taken
    exact .erase pc at'
  · next nmod at' =>
    split at taken <;> cases taken
    exact .leave nmod at'
  · cases taken

omit [DecidableEq Thread] in
/-- The first round of the loop of `Join` is its last. -/
theorem join_eq (s : Conns Thread Addr) (nonempty : s.conns ≠ ∅) :
    ∃ pc ∈ s.conns, s.join = .error (if pc ∈ s.allocated then .danglingIterator else .freed pc) := by
  obtain ⟨pc, least⟩ := Finset.min_of_nonempty (Finset.nonempty_iff_ne_empty.mpr nonempty)
  refine ⟨pc, Finset.mem_of_min least, ?_⟩
  obtain ⟨rounds, size⟩ := Nat.exists_eq_succ_of_ne_zero (Finset.card_ne_zero_of_mem (Finset.mem_of_min least))
  -- the element under the iterator is erased
  have stuck : (s.deleteConnection pc).advance pc = .error .danglingIterator :=
    if_neg (Finset.notMem_erase pc s.conns)
  rw [join, size, least]
  simp only [closeFrom, stuck]
  by_cases known : pc ∈ s.allocated
  · rw [if_neg (not_not_intro known), if_pos known]
  · rw [if_pos known, if_neg known]

omit [LinearOrder Addr] in
theorem points_goto_eq {point' : Point Addr} : (s.goto thread point).points t = point' ↔
    t = thread ∧ point = point' ∨ t ≠ thread ∧ s.points t = point' := by
  by_cases here : t = thread <;> simp [goto, here]

omit [LinearOrder Addr] in
theorem stays {point' : Point Addr} (leaves : s.points thread ≠ point')
    (there : ∃ t, s.points t = point') : ∃ t, (s.goto thread point).points t = point' := by
  obtain ⟨t, at'⟩ := there
  refine ⟨t, points_goto_eq.mpr (.inr ⟨?_, at'⟩)⟩
  rintro rfl
  exact leaves at'

omit [LinearOrder Addr] in
theorem arrives : ∃ t, (s.goto thread point).points t = point :=
  ⟨thread, points_goto_eq.mpr (.inl ⟨rfl, rfl⟩)⟩

end Steps

/-! ## What is in the set -/

/-- Every connection that was inserted is in the set, and what is in it besides is
    about to be erased. -/
structure Tracked (s : Conns Thread Addr) : Prop where
  present : s.accepted ⊆ s.conns
  erasing : ∀ pc ∈ s.conns, pc ∈ s.accepted ∨ ∃ thread, s.points thread = .erasing pc
  allocated : s.accepted ⊆ s.allocated
  inserting : ∀ pc ∈ s.allocated, pc ∈ s.accepted ∨ ∃ thread, s.points thread = .inserting pc
  fresh : ∀ thread pc, s.points thread = .inserting pc → pc ∈ s.allocated ∧ pc ∉ s.accepted
  unique : ∀ thread thread' pc, s.points thread = .inserting pc → s.points thread' = .inserting pc →
    thread = thread'

section Tracking

variable {s next : Conns Thread Addr} {thread : Thread} {act : Act Addr} {op : Op Thread Addr}

omit [LinearOrder Addr] [DecidableEq Thread] in
theorem tracked_start : Tracked (start : Conns Thread Addr) := by
  constructor <;> simp [start]

theorem create_tracked (tracked : s.Tracked) {pc : Addr} (at' : s.points thread = .looping)
    (unused : pc ∉ s.allocated) :
    Tracked ({ s with allocated := insert pc s.allocated }.goto thread (.inserting pc)) := by
  obtain ⟨present, erasing, allocated, inserting, fresh, unique⟩ := tracked
  constructor
  · exact present
  · exact fun pc' member => (erasing pc' member).imp_right (stays (by simp [at']))
  · exact allocated.trans (Finset.subset_insert pc s.allocated)
  · intro pc' member
    rcases Finset.mem_insert.mp member with rfl | old
    · exact .inr arrives
    · exact (inserting pc' old).imp_right (stays (by simp [at']))
  · intro t pc' there
    rcases points_goto_eq.mp there with ⟨rfl, same⟩ | ⟨-, before⟩
    · cases same
      exact ⟨Finset.mem_insert_self pc s.allocated, fun known => unused (allocated known)⟩
    · exact ⟨Finset.mem_insert_of_mem (fresh t pc' before).1, (fresh t pc' before).2⟩
  · intro t t' pc' there there'
    rcases points_goto_eq.mp there with ⟨rfl, same⟩ | ⟨-, before⟩
    · cases same
      rcases points_goto_eq.mp there' with ⟨rfl, -⟩ | ⟨-, before'⟩
      · rfl
      · -- the address was free, so nobody else is about to insert it
        exact absurd (fresh t' pc before').1 unused
    · rcases points_goto_eq.mp there' with ⟨rfl, same⟩ | ⟨-, before'⟩
      · cases same
        exact absurd (fresh t pc before).1 unused
      · exact unique t t' pc' before before'

theorem insert_tracked (tracked : s.Tracked) {pc : Addr} (at' : s.points thread = .inserting pc) :
    Tracked ({ s with conns := insert pc s.conns, accepted := insert pc s.accepted }.goto thread
      .looping) := by
  obtain ⟨present, erasing, allocated, inserting, fresh, unique⟩ := tracked
  have others : ∀ {t pc'}, ({ s with conns := insert pc s.conns, accepted := insert pc s.accepted }.goto
      thread .looping).points t = .inserting pc' → t ≠ thread ∧ s.points t = .inserting pc' := by
    intro t pc' there
    rcases points_goto_eq.mp there with ⟨-, same⟩ | elsewhere
    · cases same
    · exact elsewhere
  constructor
  · exact Finset.insert_subset_insert pc present
  · intro pc' member
    rcases Finset.mem_insert.mp member with rfl | old
    · exact .inl (Finset.mem_insert_self pc' s.accepted)
    · exact (erasing pc' old).imp (Finset.mem_insert_of_mem) (stays (by simp [at']))
  · exact Finset.insert_subset (fresh thread pc at').1 allocated
  · intro pc' member
    by_cases same : pc' = pc
    · exact .inl (Finset.mem_insert.mpr (.inl same))
    · refine (inserting pc' member).imp (Finset.mem_insert_of_mem) (stays ?_)
      rw [at']
      exact fun same' => same (Point.inserting.inj same').symm
  · intro t pc' there
    obtain ⟨elsewhere, before⟩ := others there
    refine ⟨(fresh t pc' before).1, fun member => ?_⟩
    rcases Finset.mem_insert.mp member with rfl | old
    · exact elsewhere (unique t thread pc' before at')
    · exact (fresh t pc' before).2 old
  · exact fun t t' pc' there there' => unique t t' pc' (others there).2 (others there').2

theorem delete_tracked (tracked : s.Tracked) {pc : Addr} (at' : s.points thread = .looping)
    (known : pc ∈ s.accepted) :
    Tracked ({ s with allocated := s.allocated.erase pc, accepted := s.accepted.erase pc }.goto thread
      (.erasing pc)) := by
  obtain ⟨present, erasing, allocated, inserting, fresh, unique⟩ := tracked
  have others : ∀ {t pc'}, ({ s with
      allocated := s.allocated.erase pc, accepted := s.accepted.erase pc }.goto
      thread (.erasing pc)).points t = .inserting pc' → s.points t = .inserting pc' := by
    intro t pc' there
    rcases points_goto_eq.mp there with ⟨-, same⟩ | ⟨-, before⟩
    · cases same
    · exact before
  constructor
  · exact (Finset.erase_subset pc s.accepted).trans present
  · intro pc' member
    by_cases same : pc' = pc
    · exact .inr (same ▸ arrives)
    · exact (erasing pc' member).imp (Finset.mem_erase_of_ne_of_mem same) (stays (by simp [at']))
  · exact Finset.erase_subset_erase pc allocated
  · intro pc' member
    obtain ⟨same, old⟩ := Finset.mem_erase.mp member
    exact (inserting pc' old).imp (Finset.mem_erase_of_ne_of_mem same) (stays (by simp [at']))
  · intro t pc' there
    obtain ⟨old, isFresh⟩ := fresh t pc' (others there)
    refine ⟨Finset.mem_erase_of_ne_of_mem ?_ old, fun member => isFresh (Finset.mem_of_mem_erase member)⟩
    rintro rfl
    exact isFresh known
  · exact fun t t' pc' there there' => unique t t' pc' (others there) (others there')

theorem erase_tracked (tracked : s.Tracked) {pc : Addr} (at' : s.points thread = .erasing pc)
    (gone : pc ∉ s.accepted) : Tracked ({ s with conns := s.conns.erase pc }.goto thread .looping) := by
  obtain ⟨present, erasing, allocated, inserting, fresh, unique⟩ := tracked
  have others : ∀ {t pc'}, ({ s with conns := s.conns.erase pc }.goto thread .looping).points t =
      .inserting pc' → s.points t = .inserting pc' := by
    intro t pc' there
    rcases points_goto_eq.mp there with ⟨-, same⟩ | ⟨-, before⟩
    · cases same
    · exact before
  constructor
  · -- the pointer erased is that of no connection
    exact fun pc' member => Finset.mem_erase_of_ne_of_mem (fun same => gone (same ▸ member)) (present member)
  · intro pc' member
    obtain ⟨same, old⟩ := Finset.mem_erase.mp member
    refine (erasing pc' old).imp_right (stays ?_)
    rw [at']
    exact fun same' => same (Point.erasing.inj same').symm
  · exact allocated
  · exact fun pc' member => (inserting pc' member).imp_right (stays (by simp [at']))
  · exact fun t pc' there => fresh t pc' (others there)
  · exact fun t t' pc' there there' => unique t t' pc' (others there) (others there')

omit [LinearOrder Addr] in
theorem leave_tracked (tracked : s.Tracked) (at' : s.points thread = .looping) :
    Tracked (s.goto thread .ended) := by
  obtain ⟨present, erasing, allocated, inserting, fresh, unique⟩ := tracked
  have others : ∀ {t pc'}, (s.goto thread .ended).points t = .inserting pc' → s.points t = .inserting pc' := by
    intro t pc' there
    rcases points_goto_eq.mp there with ⟨-, same⟩ | ⟨-, before⟩
    · cases same
    · exact before
  constructor
  · exact present
  · exact fun pc' member => (erasing pc' member).imp_right (stays (by simp [at']))
  · exact allocated
  · exact fun pc' member => (inserting pc' member).imp_right (stays (by simp [at']))
  · exact fun t pc' there => fresh t pc' (others there)
  · exact fun t t' pc' there there' => unique t t' pc' (others there) (others there')

omit [LinearOrder Addr] [DecidableEq Thread] in
theorem Tracked.owner (tracked : s.Tracked) (owner : Owner) : Tracked { s with owner := owner } := by
  cases tracked
  constructor <;> assumption

omit [LinearOrder Addr] [DecidableEq Thread] in
theorem Tracked.eq_of_quiet (tracked : s.Tracked) (quiet : s.Quiet) : s.conns = s.allocated := by
  have settled : ∀ pc, pc ∈ s.conns ↔ pc ∈ s.accepted := by
    refine fun pc => ⟨fun member => ?_, fun member => tracked.present member⟩
    rcases tracked.erasing pc member with known | ⟨t, erasing⟩
    · exact known
    · rcases quiet t with at' | at' <;> rw [at'] at erasing <;> cases erasing
  ext pc
  rw [settled]
  refine ⟨fun member => tracked.allocated member, fun member => ?_⟩
  rcases tracked.inserting pc member with known | ⟨t, inserting⟩
  · exact known
  · rcases quiet t with at' | at' <;> rw [at'] at inserting <;> cases inserting

/-- After `Join` all threads have ended, and no connection is left. -/
def Closed (s : Conns Thread Addr) : Prop :=
  s.owner = .joined → s.allocated = ∅ ∧ ∀ thread, s.points thread = .ended

theorem act_closed (closed : s.Closed) (taken : s.step? thread act = some next) : next.Closed := by
  have notYet : s.owner ≠ .joined := by
    intro joined
    have ended := (closed joined).2 thread
    cases step?_cases taken with
    | create _ at' | insert _ at' | delete _ at' | erase _ at' | leave _ at' =>
      rw [ended] at at'
      cases at'
  intro joined
  refine absurd ?_ notYet
  cases step?_cases taken <;> exact joined

omit [DecidableEq Thread] in
theorem join_of_empty (empty : s.conns = ∅) : s.join = .ok { s with conns := ∅, owner := .joined } := by
  rw [join, empty]
  rfl

variable [Fintype Thread]

/-- The loop of `Join` ends only if there is nothing to do. -/
theorem joinsSome_fails : JoinsSome s op ↔ ∃ blocked, step op s = .error blocked ∧ blocked ≠ .disabled := by
  constructor
  · rintro ⟨rfl, joining, nonempty⟩
    obtain ⟨pc, -, failed⟩ := join_eq s nonempty
    refine ⟨_, by rw [step, if_neg (not_not_intro joining), failed], ?_⟩
    split <;> simp
  · rintro ⟨blocked, failed, fault⟩
    cases op with
    | act thread act =>
      simp only [step] at failed
      split at failed <;> cases failed
      exact absurd rfl fault
    | stop =>
      simp only [step] at failed
      split at failed <;> cases failed
      exact absurd rfl fault
    | join =>
      by_cases joining : s.Joining
      · refine ⟨rfl, joining, fun empty => ?_⟩
        rw [step, if_neg (not_not_intro joining), join_of_empty empty] at failed
        cases failed
      · rw [step, if_pos joining] at failed
        cases failed
        exact absurd rfl fault

theorem step_tracked (tracked : s.Tracked) (safe : ¬ ErasesAnother s op) (stepped : step op s = .ok ((), next)) :
    next.Tracked := by
  cases op with
  | act thread act =>
    simp only [step] at stepped
    split at stepped
    · cases stepped
    · next taken =>
      cases stepped
      cases step?_cases taken with
      | create pc at' unused => exact create_tracked tracked at' unused
      | insert pc at' => exact insert_tracked tracked at'
      | delete pc at' known => exact delete_tracked tracked at' known
      | erase pc at' => exact erase_tracked tracked at' fun known => safe ⟨pc, known, thread, rfl, at'⟩
      | leave nmod at' => exact leave_tracked tracked at'
  | stop =>
    simp only [step] at stepped
    split at stepped <;> cases stepped
    exact tracked.owner .stopped
  | join =>
    by_cases joining : s.Joining
    · by_cases empty : s.conns = ∅
      · rw [step, if_neg (not_not_intro joining), join_of_empty empty] at stepped
        cases stepped
        rw [← empty]
        exact tracked.owner .joined
      · obtain ⟨pc, -, failed⟩ := join_eq s empty
        rw [step, if_neg (not_not_intro joining), failed] at stepped
        cases stepped
    · rw [step, if_pos joining] at stepped
      cases stepped

theorem step_closed (tracked : s.Tracked) (closed : s.Closed) (stepped : step op s = .ok ((), next)) :
    next.Closed := by
  cases op with
  | act thread act =>
    simp only [step] at stepped
    split at stepped
    · cases stepped
    · next taken =>
      cases stepped
      exact act_closed closed taken
  | stop =>
    simp only [step] at stepped
    split at stepped <;> cases stepped
    intro joined
    cases joined
  | join =>
    by_cases joining : s.Joining
    · have same := tracked.eq_of_quiet fun thread => .inr (joining.2 thread)
      by_cases empty : s.conns = ∅
      · rw [step, if_neg (not_not_intro joining), join_of_empty empty] at stepped
        cases stepped
        exact fun _ => ⟨same.symm.trans empty, joining.2⟩
      · obtain ⟨pc, -, failed⟩ := join_eq s empty
        rw [step, if_neg (not_not_intro joining), failed] at stepped
        cases stepped
    · rw [step, if_pos joining] at stepped
      cases stepped

theorem erasesAnother_loses (tracked : s.Tracked) (stepped : step op s = .ok ((), next)) :
    ErasesAnother s op ↔ ¬ next.accepted ⊆ next.conns := by
  constructor
  · rintro ⟨pc, known, thread, rfl, at'⟩ present
    simp only [step, step?, at'] at stepped
    cases stepped
    exact Finset.notMem_erase _ s.conns (present known)
  · intro lost
    by_contra safe
    exact lost (step_tracked tracked safe stepped).present

/-- As long as no pointer is erased that belongs to a new connection by now, and `Join`
    comes upon no connection, the set is right whenever no accept and no delete is in
    progress, and `Join` leaves nothing behind. -/
theorem conns_eq_allocated {ops : List (Op Thread Addr)}
    (safe : Throughout step (fun s op => ¬ ErasesAnother s op ∧ ¬ JoinsSome s op) start ops) : Tracks ops := by
  have preserved : ∀ (earlier : List Unit) op (s : Conns Thread Addr) reply next, s.Tracked ∧ s.Closed →
      ¬ ErasesAnother s op ∧ ¬ JoinsSome s op → step op s = .ok (reply, next) → next.Tracked ∧ next.Closed :=
    fun earlier op s reply next sound safe stepped =>
      ⟨step_tracked sound.1 safe.1 stepped, step_closed sound.1 sound.2 stepped⟩
  have started : Tracked (start : Conns Thread Addr) ∧ Closed (start : Conns Thread Addr) :=
    ⟨tracked_start, fun joined => by cases joined⟩
  have sound : ∀ replies s, runs step ops start = .ok (replies, s) → s.Tracked ∧ s.Closed := by
    intro replies s ran
    exact @runs_history _ _ _ _ _ (fun _ s => s.Tracked ∧ s.Closed) _ preserved _ _ _ _ [] started safe ran
  constructor
  · exact fun replies s ran quiet => (sound replies s ran).1.eq_of_quiet quiet
  · exact fun replies s ran joined => ((sound replies s ran).2 joined).1
  · intro blocked failed
    refine @Throughout.failure _ _ _ _ _ _ (fun blocked => blocked = .disabled) ?_ _ _ _ safe failed
    intro s op blocked safe failed
    by_contra fault
    exact safe.2 (joinsSome_fails.mpr ⟨blocked, failed, fault⟩)

/-- A worker erases a pointer while an acceptor has created another connection; and the
    server is stopped when both have been deleted. -/
theorem conns_eq_allocated_two : ∃ replies s,
    runs step [.act true (.create 1), .act true .insert, .act false (.delete 1), .act true (.create 2),
      .act false .erase, .act true .insert, .stop, .act true (.leave 0), .act false (.delete 2), .act false .erase,
      .act false (.leave 1), .join] (start : Conns Bool Nat) = .ok (replies, s) ∧ s.owner = .joined ∧
      s.allocated = ∅ :=
  ⟨_, _, rfl, rfl, (@conns_eq_allocated Bool Nat _ _ _ [.act true (.create 1), .act true .insert,
    .act false (.delete 1), .act true (.create 2), .act false .erase, .act true .insert, .stop, .act true (.leave 0),
    .act false (.delete 2), .act false .erase, .act false (.leave 1), .join] (by decide)).closes _ _ rfl rfl⟩

/-- The allocator hands out the address before the worker erases it; and `Join` comes
    upon a connection that the worker has not waited for. -/
theorem not_conns_eq_allocated :
    ¬ Tracks [.act true (.create 1), .act true .insert, .act false (.delete 1), .act true (.create 1),
        .act true .insert, .act false (.erase : Act Nat)] ∧
      ¬ Tracks [.act true (.create 1), .act true .insert, .stop, .act false (.leave 0), .act true (.leave 0),
        (.join : Op Bool Nat)] := by
  constructor
  · intro tracks
    have same := tracks.exact _ _ rfl fun thread => by cases thread <;> exact .inl rfl
    exact absurd same (by decide)
  · intro tracks
    have disabled := tracks.ends .danglingIterator rfl
    cases disabled

end Tracking

end Conns

end Afina.Network.MTnonblock
