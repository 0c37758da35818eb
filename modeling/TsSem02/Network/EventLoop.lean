import TsSem02.Network.Polling

/-! # The event loop of STnonblock

`ServerImpl::OnRun`: what `epoll_wait` returns is handled event by event, then all
connections that have nothing to do are closed.  The latter is meant for the time
after `Stop`, but it does not look at `run`.

Every removal of a connection is logged with its occasion.  `keeps_clients_iff`
says that connections are removed for reasons of their own exactly as long as no
batch registers a connection and leaves `run` true: what `epoll_wait` returns was
there before `accept4`, so a new connection is idle at the end of its batch.
-/

namespace Afina.Network.STnonblock

open Nonblock Runs

/-- A connection that `accept4` returns, at the address that `new` returns. -/
structure Accept where
  pc : Nat
  parser : Protocol.Parser
  argRemains : Nat  -- not initialised
  ctlFails : Bool
deriving DecidableEq, Repr

/-- What epoll reports of a connection, and what the system calls return then. -/
structure Report where
  pc : Nat
  epollerr : Bool
  epollhup : Bool
  epollrdhup : Bool
  epollin : Bool
  epollout : Bool
  reads : List Bytes
  writev : Writev
  ctlFails : Bool
deriving DecidableEq, Repr

inductive Event where
  | stop (ctlFails : Bool)                  -- of `_event_fd`
  | accept (accepts : List (Option Accept)) -- of `_server_socket`; `none`: out of memory
  | connection (report : Report)
deriving DecidableEq, Repr

inductive Occasion where
  | accept (accept : Accept)
  | event (report : Report)
  | sweep
deriving DecidableEq, Repr

structure Removal where
  pc : Nat
  occasion : Occasion
  run : Bool  -- `run` at that time
deriving DecidableEq, Repr

inductive Stop where
  | inadmissible        -- epoll or `new` does something impossible
  | ended               -- the condition of the loop is false
  | thrown
  | call (halt : Halt)
  | danglingIterator    -- the element under the iterator was erased
deriving DecidableEq, Repr

/-- The connection that epoll reports. -/
def Event.pc? : Event → Option Nat
  | connection report => some report.pc
  | _ => none

namespace Report

/-- The connection gives cause to be removed. -/
def Fails (report : Report) : Prop :=
  report.epollerr = true ∨ report.epollhup = true ∨ report.epollrdhup = true ∨
    (report.epollout = true ∧ report.writev = .failed false) ∨ report.ctlFails = true

instance (report : Report) : Decidable report.Fails := by unfold Fails; infer_instance

end Report

/-- A connection is removed because of itself. -/
def Removal.Own (removal : Removal) : Prop :=
  match removal.occasion with
  | .accept accept => accept.pc = removal.pc ∧ accept.ctlFails = true
  | .event report => report.pc = removal.pc ∧ report.Fails
  | .sweep => False

/-- A batch, of a server that has no connections, that registers one and leaves `run`
    true: all events are of `_server_socket`, and `accepted` is what they bring. -/
structure Registers (events : List Event) (accepted : List Accept) : Prop where
  few : events.length ≤ 64
  accepts : ∃ accepts : List (List (Option Accept)), events = accepts.map .accept ∧
    accepts.flatten = accepted.map some
  -- `new` does not return the address of a connection that epoll has taken
  apart : accepted.Pairwise fun earlier later => earlier.ctlFails = false → later.pc ≠ earlier.pc
  taken : ∃ accept ∈ accepted, accept.ctlFails = false

structure EventLoop (Store : Type) where
  run : Bool
  nmod : Nat
  conns : List (Nat × Nonblock.Connection Store)  -- in the order of the set
  storage : Store

abbrev Logged (Store : Type) := List Removal × Except Stop (EventLoop Store)

namespace EventLoop

variable {Store : Type}

def start (storage : Store) : EventLoop Store where
  run := true
  nmod := 0
  conns := []
  storage := storage

def insert (s : EventLoop Store) (pc : Nat) (c : Nonblock.Connection Store) : EventLoop Store :=
  { s with conns := s.conns.orderedInsert (fun a b => a.1 ≤ b.1) (pc, c) }

def deleteConnection (s : EventLoop Store) (pc : Nat) : EventLoop Store :=
  { s with conns := s.conns.filter fun entry => entry.1 ≠ pc }

def update (s : EventLoop Store) (pc : Nat) (c : Nonblock.Connection Store) : EventLoop Store :=
  { s with conns := s.conns.map fun entry => if entry.1 = pc then (pc, c) else entry }

def andThen (first : Logged Store) (next : EventLoop Store → Logged Store) : Logged Store :=
  match first.2 with
  | .error stop => (first.1, .error stop)
  | .ok s => (first.1 ++ (next s).1, (next s).2)

/-- The connections share the storage of the server. -/
def withStorage (c : Nonblock.Connection Store) (storage : Store) : Nonblock.Connection Store :=
  { c with reading := { c.reading with session := { c.reading.session with storage := storage } } }

def onNewConnection (s : EventLoop Store) : List (Option Accept) → Logged Store
  | [] => ([], .ok s)
  | none :: _ => ([], .error .thrown)
  | some accept :: accepts =>
    -- `new` does not return the address of a connection that exists
    if (s.conns.lookup accept.pc).isSome then ([], .error .inadmissible)
    else
      let s := s.insert accept.pc (.start accept.parser accept.argRemains s.storage)
      if accept.ctlFails then
        andThen ([⟨accept.pc, .accept accept, s.run⟩], .ok (s.deleteConnection accept.pc))
          fun s => s.onNewConnection accepts
      else s.onNewConnection accepts

section Handling

variable [Storage Store]

/-- `if (current_event.events & EPOLLIN)` -/
def readIn (run : Bool) (c : Nonblock.Connection Store) (report : Report) :
    Except Halt (Nonblock.Connection Store) :=
  if report.epollin then c.doRead (Server.stNonblock.deliver fun _ => run) report.reads else .ok c

/-- `if (current_event.events & EPOLLOUT)` -/
def writeOut (run : Bool) (c : Nonblock.Connection Store) (report : Report) :
    Except Halt (Nonblock.Connection Store) :=
  if report.epollout then (c.doWrite run report.writev).map Prod.snd else .ok c

def call (run : Bool) (c : Nonblock.Connection Store) (report : Report) :
    Except Halt (Nonblock.Connection Store) :=
  if report.epollerr || report.epollhup then .ok c.close
  else if report.epollrdhup then .ok c.close
  else match readIn run c report with
  | .error halt => .error halt
  | .ok c => writeOut run c report

/-- What follows the calls. -/
def settle (s : EventLoop Store) (report : Report) (oldMask : Mask) (c : Nonblock.Connection Store) :
    Logged Store :=
  let removal : Removal := ⟨report.pc, .event report, s.run⟩
  if c.alive = false then ([removal], .ok (s.deleteConnection report.pc))
  else if c.events ≠ oldMask ∧ report.ctlFails = true then
    ([removal], .ok (s.deleteConnection report.pc))
  else ([], .ok (s.update report.pc c))

/-- "That is some connection!" -/
def onConnection (s : EventLoop Store) (report : Report) : Logged Store :=
  match s.conns.lookup report.pc with
  | none => ([], .error .inadmissible)
  | some c =>
    -- epoll reports only what is in the mask
    if report.epollin ∧ ¬ c.events.epollin ∨ report.epollout ∧ ¬ c.events.epollout then
      ([], .error .inadmissible)
    -- the connections share one storage
    else match call s.run (withStorage c s.storage) report with
    | .error halt => ([], .error (.call halt))
    | .ok next => settle { s with storage := next.reading.session.storage } report c.events next

/-- One element of `mod_list`. -/
def onEvent (s : EventLoop Store) : Event → Logged Store
  | .stop ctlFails => ([], if ctlFails then .error .thrown else .ok { s with run := false })
  | .accept accepts => s.onNewConnection accepts
  | .connection report => s.onConnection report

def onEvents (s : EventLoop Store) : List Event → Logged Store
  | [] => ([], .ok s)
  | event :: events => andThen (s.onEvent event) fun s => s.onEvents events

/-- `(pc->command_to_execute == nullptr) && (pc->responses.empty())` -/
def idle (c : Nonblock.Connection Store) : Bool :=
  c.reading.session.commandToExecute.isNone && c.responses.isEmpty

/-- The loop over `conns`; it cannot go on from an element that it has erased. -/
def sweep (s : EventLoop Store) : Logged Store :=
  match s.conns.find? (fun entry => idle entry.2) with
  | none => ([], .ok s)
  | some (pc, _) => ([⟨pc, .sweep, s.run⟩], .error .danglingIterator)

/-- `run.load() || ((nmod > 0) && !conns.empty())` -/
def goesOn (s : EventLoop Store) : Bool := s.run || (0 < s.nmod && !s.conns.isEmpty)

/-- What `epoll_wait` can put into `mod_list`: 64 events at most, and one event at most
    of a connection that is registered already. -/
def mayReturn (s : EventLoop Store) (events : List Event) : Bool :=
  let reported := events.filterMap Event.pc?
  decide (events.length ≤ 64 ∧ reported.Nodup ∧ ∀ pc ∈ reported, (s.conns.lookup pc).isSome)

/-- One round of the loop. -/
def round (s : EventLoop Store) (events : List Event) : Logged Store :=
  if ¬ s.goesOn then ([], .error .ended)
  else if ¬ s.mayReturn events then ([], .error .inadmissible)
  else andThen (({ s with nmod := events.length } : EventLoop Store).onEvents events) sweep

def step (events : List Event) (s : EventLoop Store) :
    Except (List Removal × Stop) (List Removal × EventLoop Store) :=
  match s.round events with
  | (removals, .error stop) => .error (removals, stop)
  | (removals, .ok s) => .ok (removals, s)

/-- As long as `run` is true, connections are only removed because of themselves. -/
def KeepsClients (s : EventLoop Store) (events : List Event) : Prop :=
  ∀ removal ∈ (s.round events).1, removal.run = true → removal.Own

end Handling


/-! ## Why connections are removed -/

/-- All connections are alive: one that is not is deleted at once. -/
def Alive (s : EventLoop Store) : Prop := ∀ entry ∈ s.conns, entry.2.alive = true

/-- What goes on is alive, and what was removed was so for its own reasons. -/
structure Keeps (logged : Logged Store) : Prop where
  own : ∀ removal ∈ logged.1, removal.run = true → removal.Own
  alive : ∀ next, logged.2 = .ok next → next.Alive

section Alive

variable {s next : EventLoop Store} {c : Nonblock.Connection Store} {report : Report}

theorem keeps_ok (alive : s.Alive) : Keeps ([], .ok s) where
  own _ member := by cases member
  alive _ same := by cases same; exact alive

theorem keeps_error (stop : Stop) : Keeps (([], .error stop) : Logged Store) where
  own _ member := by cases member
  alive _ same := by cases same

theorem keeps_removal {removal : Removal} (own : removal.run = true → removal.Own) (alive : s.Alive) :
    Keeps ([removal], .ok s) where
  own removal' member := by rw [List.mem_singleton.mp member]; exact own
  alive _ same := by cases same; exact alive

theorem keeps_andThen {first : Logged Store} {later : EventLoop Store → Logged Store}
    (keeps : Keeps first) (keepsLater : ∀ s, s.Alive → Keeps (later s)) : Keeps (andThen first later) := by
  obtain ⟨own, alive⟩ := keeps
  obtain ⟨removals, result⟩ := first
  cases result with
  | error stop => exact ⟨own, fun next same => by cases same⟩
  | ok s =>
    have rest := keepsLater s (alive s rfl)
    refine ⟨fun removal member => ?_, rest.alive⟩
    rcases List.mem_append.mp member with here | there
    · exact own removal here
    · exact rest.own removal there

theorem alive_insert (alive : s.Alive) (new : c.alive = true) (pc : Nat) : (s.insert pc c).Alive := by
  intro entry member
  rcases (List.mem_orderedInsert _).mp member with rfl | old
  · exact new
  · exact alive entry old

theorem alive_deleteConnection (alive : s.Alive) (pc : Nat) : (s.deleteConnection pc).Alive :=
  fun entry member => alive entry (List.mem_of_mem_filter member)

theorem alive_update (alive : s.Alive) (new : c.alive = true) (pc : Nat) : (s.update pc c).Alive := by
  intro entry member
  obtain ⟨old, before, rfl⟩ := List.mem_map.mp member
  split
  · exact new
  · exact alive old before

theorem onNewConnection_keeps (alive : s.Alive) (accepts : List (Option Accept)) :
    Keeps (s.onNewConnection accepts) := by
  induction accepts generalizing s with
  | nil => exact keeps_ok alive
  | cons accept accepts ih =>
    cases accept with
    | none => exact keeps_error .thrown
    | some accept =>
      rw [onNewConnection]
      split
      · exact keeps_error .inadmissible
      · have inserted : (s.insert accept.pc (.start accept.parser accept.argRemains s.storage)).Alive :=
          alive_insert alive rfl accept.pc
        dsimp only
        split
        · next fails =>
          refine keeps_andThen ?_ fun s alive => ih alive
          exact keeps_removal (fun _ => ⟨rfl, fails⟩) (alive_deleteConnection inserted accept.pc)
        · exact ih inserted

theorem writeOut_alive {c' : Nonblock.Connection Store} (alive : c.alive = true)
    (called : writeOut true c report = .ok c') : c'.alive = true ∨ report.Fails := by
  rw [writeOut] at called
  split at called
  · next epollout =>
    cases written : c.doWrite true report.writev with
    | error halt =>
      rw [written] at called
      cases called
    | ok done =>
      obtain ⟨traffic, next⟩ := done
      rw [written] at called
      cases called
      have writes := (doWrite_cases written).2
      generalize result : report.writev = writev at writes
      cases writes with
      | failed => exact .inr (.inr (.inr (.inr (.inl ⟨epollout, result⟩))))
      | again | drained | wrote => exact .inl alive
  · cases called
    exact .inl alive

theorem settle_keeps (alive : s.Alive) (cause : s.run = true → c.alive = true ∨ report.Fails)
    (oldMask : Mask) : Keeps (s.settle report oldMask c) := by
  unfold settle
  dsimp only
  split
  · next closed =>
    refine keeps_removal (fun run => ⟨rfl, ?_⟩) (alive_deleteConnection alive report.pc)
    rcases cause run with open' | fails
    · rw [closed] at open'
      cases open'
    · exact fails
  · next open' =>
    split
    · next refused =>
      refine keeps_removal (fun _ => ⟨rfl, ?_⟩) (alive_deleteConnection alive report.pc)
      exact .inr (.inr (.inr (.inr refused.2)))
    · exact keeps_ok (alive_update alive (Bool.not_eq_false _ ▸ open') report.pc)

/-- The sweep removes a connection, or leaves everything as it is. -/
theorem sweep_cases (s : EventLoop Store) :
    (∃ entry ∈ s.conns, idle entry.2 = true ∧
        s.sweep = ([⟨entry.1, .sweep, s.run⟩], .error .danglingIterator)) ∨
      ((∀ entry ∈ s.conns, idle entry.2 = false) ∧ s.sweep = ([], .ok s)) := by
  unfold sweep
  cases found : s.conns.find? (fun entry => idle entry.2) with
  | none => exact .inr ⟨fun entry member => Bool.not_eq_true _ ▸ List.find?_eq_none.mp found entry member, rfl⟩
  | some entry =>
    have isIdle : idle entry.2 = true := by simpa using List.find?_some found
    exact .inl ⟨entry, List.mem_of_find?_eq_some found, isIdle, rfl⟩

end Alive

section Rounds

variable [Storage Store] {s next : EventLoop Store} {c : Nonblock.Connection Store} {report : Report}
  {events : List Event}

theorem readIn_alive {run : Bool} {c' : Nonblock.Connection Store} (alive : c.alive = true)
    (called : readIn run c report = .ok c') : c'.alive = true := by
  rw [readIn] at called
  split at called
  · exact (doRead_pushes (Server.stNonblock.keeps _) called).2.2.trans alive
  · cases called
    exact alive

/-- What is not alive after the calls of an event has had an error or a hang-up,
    or could not be written to. -/
theorem call_alive {c' : Nonblock.Connection Store} (alive : c.alive = true)
    (called : call true c report = .ok c') : c'.alive = true ∨ report.Fails := by
  rw [call] at called
  split at called
  · next error =>
    rcases Bool.or_eq_true_iff.mp error with err | hup
    · exact .inr (.inl err)
    · exact .inr (.inr (.inl hup))
  · split at called
    · next hangup => exact .inr (.inr (.inr (.inl hangup)))
    · split at called
      · cases called
      · next d read => exact writeOut_alive (readIn_alive alive read) called

theorem onEvent_keeps (alive : s.Alive) (event : Event) : Keeps (s.onEvent event) := by
  cases event with
  | stop ctlFails =>
    cases ctlFails with
    | true => exact keeps_error .thrown
    | false => exact keeps_ok (s := { s with run := false }) alive
  | accept accepts => exact onNewConnection_keeps alive accepts
  | connection report =>
    simp only [onEvent, onConnection]
    split
    · exact keeps_error .inadmissible
    · next c found =>
      split
      · exact keeps_error .inadmissible
      · split
        · next halt _ => exact keeps_error (.call halt)
        · next next called =>
          refine @settle_keeps _ { s with storage := next.reading.session.storage } _ _ alive (fun run => ?_)
            c.events
          have run : s.run = true := run
          rw [run] at called
          obtain ⟨before, after, split, -⟩ := List.lookup_eq_some_iff.mp found
          have aliveBefore : c.alive = true := alive (report.pc, c) (by simp [split])
          exact call_alive (c := withStorage c s.storage) aliveBefore called

theorem onEvents_keeps (alive : s.Alive) (events : List Event) : Keeps (s.onEvents events) := by
  induction events generalizing s with
  | nil => exact keeps_ok alive
  | cons event events ih => exact keeps_andThen (onEvent_keeps alive event) fun s alive => ih alive

end Rounds

/-! ## What one batch accepts -/

section Accepting

variable {s next : EventLoop Store} {accept : Accept} {pc : Nat}

def pcs (s : EventLoop Store) : List Nat := s.conns.map Prod.fst

def Idle (s : EventLoop Store) : Prop := ∀ entry ∈ s.conns, idle entry.2 = true

/-- What a connection that is accepted at a free address leaves behind. -/
def take (s : EventLoop Store) (accept : Accept) : EventLoop Store :=
  let inserted := s.insert accept.pc (.start accept.parser accept.argRemains s.storage)
  if accept.ctlFails then inserted.deleteConnection accept.pc else inserted

theorem lookup_isSome (s : EventLoop Store) (pc : Nat) : (s.conns.lookup pc).isSome = true ↔ pc ∈ s.pcs := by
  rw [List.lookup_isSome_iff, pcs, List.mem_map]
  simp only [beq_iff_eq, @eq_comm _ pc]

theorem take_run (s : EventLoop Store) (accept : Accept) : (s.take accept).run = s.run := by
  unfold take
  dsimp only
  split <;> rfl

theorem mem_pcs_take (free : accept.pc ∉ s.pcs) :
    pc ∈ (s.take accept).pcs ↔ pc ∈ s.pcs ∨ accept.ctlFails = false ∧ pc = accept.pc := by
  have inserted (c : Nonblock.Connection Store) : pc ∈ (s.insert accept.pc c).pcs ↔ pc = accept.pc ∨ pc ∈ s.pcs := by
    simp [pcs, insert, List.mem_orderedInsert, or_and_right, exists_or, @eq_comm _ pc]
  unfold take
  dsimp only
  split
  · next fails =>
    have left (c : Nonblock.Connection Store) :
        pc ∈ ((s.insert accept.pc c).deleteConnection accept.pc).pcs ↔ pc ∈ (s.insert accept.pc c).pcs ∧ pc ≠ accept.pc := by
      simp only [pcs, deleteConnection, List.mem_map, List.mem_filter]
      constructor
      · rintro ⟨entry, ⟨member, other⟩, rfl⟩
        exact ⟨⟨entry, member, rfl⟩, of_decide_eq_true other⟩
      · rintro ⟨⟨entry, member, rfl⟩, other⟩
        exact ⟨entry, ⟨member, decide_eq_true other⟩, rfl⟩
    rw [left, inserted, fails]
    constructor
    · rintro ⟨new | old, other⟩
      · exact absurd new other
      · exact .inl old
    · rintro (old | ⟨none, -⟩)
      · exact ⟨.inr old, fun same => free (same ▸ old)⟩
      · cases none
  · next taken =>
    rw [inserted, or_comm]
    simp [Bool.eq_false_of_not_eq_true taken]

theorem idle_take (isIdle : s.Idle) (accept : Accept) : (s.take accept).Idle := by
  have inserted : (s.insert accept.pc (.start accept.parser accept.argRemains s.storage)).Idle := by
    intro entry member
    rcases (List.mem_orderedInsert _).mp member with rfl | old
    · rfl
    · exact isIdle entry old
  unfold take
  dsimp only
  split
  · exact fun entry member => inserted entry (List.mem_of_mem_filter member)
  · exact inserted

theorem onNewConnection_cons (s : EventLoop Store) (accept : Accept) (accepts : List (Option Accept)) :
    (s.onNewConnection (some accept :: accepts)).2 =
      if accept.pc ∈ s.pcs then .error .inadmissible else ((s.take accept).onNewConnection accepts).2 := by
  rw [onNewConnection, take]
  simp only [lookup_isSome]
  split
  · rfl
  · split <;> rfl

theorem onNewConnection_ok {accepts : List (Option Accept)} : (s.onNewConnection accepts).2 = .ok next ↔
    ∃ accepted : List Accept, accepts = accepted.map some ∧ (∀ accept ∈ accepted, accept.pc ∉ s.pcs) ∧
      (accepted.Pairwise fun earlier later => earlier.ctlFails = false → later.pc ≠ earlier.pc) ∧
      next = accepted.foldl take s := by
  induction accepts generalizing s with
  | nil =>
    constructor
    · intro same
      cases same
      exact ⟨[], rfl, by simp, .nil, rfl⟩
    · rintro ⟨accepted, none, -, -, rfl⟩
      cases List.map_eq_nil_iff.mp none.symm
      rfl
  | cons first accepts ih =>
    cases first with
    | none =>
      constructor
      · intro thrown
        cases thrown
      · rintro ⟨accepted, same, -⟩
        cases accepted <;> cases same
    | some first =>
      rw [onNewConnection_cons]
      constructor
      · intro ran
        split at ran
        · cases ran
        · next free =>
          obtain ⟨accepted, rfl, fresh, apart, rfl⟩ := ih.mp ran
          simp only [mem_pcs_take free, not_or, not_and] at fresh
          refine ⟨first :: accepted, rfl, ?_, .cons (fun later member => (fresh later member).2) apart, rfl⟩
          exact List.forall_mem_cons.mpr ⟨free, fun later member => (fresh later member).1⟩
      · rintro ⟨accepted, same, fresh, apart, rfl⟩
        cases accepted with
        | nil => cases same
        | cons head accepted =>
          cases same
          obtain ⟨free, fresh⟩ := List.forall_mem_cons.mp fresh
          obtain ⟨apartFirst, apart⟩ := List.pairwise_cons.mp apart
          rw [if_neg free]
          refine ih.mpr ⟨accepted, rfl, fun later member => ?_, apart, rfl⟩
          rw [mem_pcs_take free, not_or, not_and]
          exact ⟨fresh later member, apartFirst later member⟩

theorem foldl_take_run (s : EventLoop Store) (accepted : List Accept) : (accepted.foldl take s).run = s.run := by
  induction accepted generalizing s with
  | nil => rfl
  | cons accept accepted ih => rw [List.foldl_cons, ih, take_run]

theorem idle_foldl_take (isIdle : s.Idle) (accepted : List Accept) : (accepted.foldl take s).Idle := by
  induction accepted generalizing s with
  | nil => exact isIdle
  | cons accept accepted ih => exact ih (idle_take isIdle accept)

theorem mem_pcs_foldl_take {accepted : List Accept} (fresh : ∀ accept ∈ accepted, accept.pc ∉ s.pcs)
    (apart : accepted.Pairwise fun earlier later => earlier.ctlFails = false → later.pc ≠ earlier.pc) :
    pc ∈ (accepted.foldl take s).pcs ↔ pc ∈ s.pcs ∨ ∃ accept ∈ accepted, accept.ctlFails = false ∧ pc = accept.pc := by
  induction accepted generalizing s with
  | nil => simp
  | cons first accepted ih =>
    obtain ⟨free, fresh⟩ := List.forall_mem_cons.mp fresh
    obtain ⟨apartFirst, apart⟩ := List.pairwise_cons.mp apart
    have freshTaken : ∀ later ∈ accepted, later.pc ∉ (s.take first).pcs := by
      intro later member
      rw [mem_pcs_take free, not_or, not_and]
      exact ⟨fresh later member, apartFirst later member⟩
    rw [List.foldl_cons, ih freshTaken apart, mem_pcs_take free, List.exists_mem_cons_iff, or_assoc]

end Accepting

/-! ## The sweep -/

section Sweeping

variable {s next : EventLoop Store} {events : List Event} {event : Event}

theorem andThen_ok {first : Logged Store} {later : EventLoop Store → Logged Store} :
    (andThen first later).2 = .ok next ↔ ∃ middle, first.2 = .ok middle ∧ (later middle).2 = .ok next := by
  unfold andThen
  split <;> rename_i result <;> simp [result]

theorem andThen_assoc (first : Logged Store) (second third : EventLoop Store → Logged Store) :
    andThen (andThen first second) third = andThen first fun s => andThen (second s) third := by
  obtain ⟨removals, result⟩ := first
  cases result with
  | error stop => rfl
  | ok s =>
    simp only [andThen]
    split <;> simp

theorem onNewConnection_append (s : EventLoop Store) (accepts more : List (Option Accept)) :
    s.onNewConnection (accepts ++ more) = andThen (s.onNewConnection accepts) fun s => s.onNewConnection more := by
  induction accepts generalizing s with
  | nil => rfl
  | cons accept accepts ih =>
    cases accept with
    | none => rfl
    | some accept =>
      simp only [List.cons_append, onNewConnection]
      split
      · rfl
      · split
        · simp only [ih, andThen_assoc]
        · rw [ih]

theorem unreported_of_mayReturn (empty : s.conns = []) (may : s.mayReturn events = true) :
    ∀ event ∈ events, event.pc? = none := by
  intro event member
  have known := (of_decide_eq_true may).2.2
  rw [Option.eq_none_iff_forall_not_mem]
  intro pc reported
  have there := known pc (List.mem_filterMap.mpr ⟨event, member, reported⟩)
  rw [empty] at there
  cases there

variable [Storage Store]

/-- Several events of `_server_socket` are like one. -/
theorem onEvents_accepts (s : EventLoop Store) (accepts : List (List (Option Accept))) :
    s.onEvents (accepts.map Event.accept) = s.onNewConnection accepts.flatten := by
  induction accepts generalizing s with
  | nil => rfl
  | cons first accepts ih =>
    rw [List.map_cons, onEvents, List.flatten_cons, onNewConnection_append]
    exact congrArg (andThen _) (funext ih)

theorem onEvent_idle (unreported : event.pc? = none) (isIdle : s.Idle) (handled : (s.onEvent event).2 = .ok next) :
    next.Idle := by
  cases event with
  | stop ctlFails =>
    cases ctlFails <;> cases handled
    exact isIdle
  | accept accepts =>
    obtain ⟨accepted, -, -, -, rfl⟩ := onNewConnection_ok.mp handled
    exact idle_foldl_take isIdle accepted
  | connection report => cases unreported

theorem onEvent_run (unreported : event.pc? = none) (handled : (s.onEvent event).2 = .ok next)
    (run : next.run = true) : s.run = true ∧ ∃ accepts, event = .accept accepts := by
  cases event with
  | stop ctlFails =>
    cases ctlFails <;> cases handled
    cases run
  | accept accepts =>
    obtain ⟨accepted, -, -, -, rfl⟩ := onNewConnection_ok.mp handled
    exact ⟨(foldl_take_run s accepted).symm.trans run, accepts, rfl⟩
  | connection report => cases unreported

theorem onEvents_idle (unreported : ∀ event ∈ events, event.pc? = none) (isIdle : s.Idle)
    (handled : (s.onEvents events).2 = .ok next) : next.Idle := by
  induction events generalizing s with
  | nil =>
    cases handled
    exact isIdle
  | cons event events ih =>
    obtain ⟨here, later⟩ := List.forall_mem_cons.mp unreported
    obtain ⟨middle, first, rest⟩ := andThen_ok.mp handled
    exact ih later (onEvent_idle here isIdle first) rest

theorem onEvents_run (unreported : ∀ event ∈ events, event.pc? = none) (handled : (s.onEvents events).2 = .ok next)
    (run : next.run = true) : s.run = true ∧ ∃ accepts : List (List (Option Accept)), events = accepts.map .accept := by
  induction events generalizing s with
  | nil =>
    cases handled
    exact ⟨run, [], rfl⟩
  | cons event events ih =>
    obtain ⟨here, later⟩ := List.forall_mem_cons.mp unreported
    obtain ⟨middle, first, rest⟩ := andThen_ok.mp handled
    obtain ⟨running, accepts, rfl⟩ := ih later rest
    obtain ⟨running, accepted, rfl⟩ := onEvent_run here first running
    exact ⟨running, accepted :: accepts, rfl⟩

theorem round_goesOn (goesOn : s.goesOn = true) (may : s.mayReturn events = true) :
    s.round events = andThen (({ s with nmod := events.length } : EventLoop Store).onEvents events) sweep := by
  rw [round, if_neg (not_not_intro goesOn), if_neg (not_not_intro may)]

/-- A batch that registers a connection ends with a sweep. -/
theorem sweeps_of_registers {accepted : List Accept} (registers : Registers events accepted) (running : s.run = true)
    (empty : s.conns = []) : ∃ removal ∈ (s.round events).1, removal.run = true ∧ removal.occasion = .sweep := by
  obtain ⟨few, ⟨accepts, rfl, same⟩, apart, accept, member, taken⟩ := registers
  have goesOn : s.goesOn = true := by rw [goesOn, running, Bool.true_or]
  have may : s.mayReturn (accepts.map Event.accept) = true := by
    have none' : (accepts.map Event.accept).filterMap Event.pc? = [] := by
      simp [List.filterMap_eq_nil_iff, Event.pc?]
    simp only [mayReturn, none']
    exact decide_eq_true ⟨few, .nil, by simp⟩
  rw [round_goesOn goesOn may, onEvents_accepts]
  generalize begins : ({ s with nmod := (accepts.map Event.accept).length } : EventLoop Store) = t
  have nobody : t.pcs = [] := by
    rw [← begins]
    exact congrArg (List.map Prod.fst) empty
  have fresh : ∀ accept ∈ accepted, accept.pc ∉ t.pcs := by simp [nobody]
  have handled := onNewConnection_ok.mpr ⟨accepted, same, fresh, apart, rfl⟩
  have there := (mem_pcs_foldl_take fresh apart).mpr (.inr ⟨accept, member, taken, rfl⟩)
  obtain ⟨entry, inside, -⟩ := List.mem_map.mp there
  have isIdle : (accepted.foldl take t).Idle := idle_foldl_take (by simp [Idle, ← begins, empty]) accepted
  have run : (accepted.foldl take t).run = true := by
    rw [foldl_take_run, ← begins]
    exact running
  rw [andThen, handled]
  dsimp only
  rcases sweep_cases (accepted.foldl take t) with ⟨found, -, -, swept⟩ | ⟨busy, -⟩
  · rw [swept]
    exact ⟨_, List.mem_append_right _ (List.mem_singleton_self _), run, rfl⟩
  · have idle := isIdle entry inside
    rw [busy entry inside] at idle
    cases idle

theorem keepsClients_iff (empty : s.conns = []) :
    KeepsClients s events ↔ ¬ ∃ accepted, s.run = true ∧ Registers events accepted := by
  constructor
  · rintro keeps ⟨accepted, running, registers⟩
    obtain ⟨removal, member, run, sweep⟩ := sweeps_of_registers registers running empty
    have own := keeps removal member run
    rw [Removal.Own, sweep] at own
    exact own
  · intro safe removal member run
    rw [round] at member
    split at member
    · cases member
    · split at member
      · cases member
      · next goesOn may =>
        have alive : ({ s with nmod := events.length } : EventLoop Store).Alive := by simp [Alive, empty]
        obtain ⟨own, -⟩ := onEvents_keeps alive events
        have may : s.mayReturn events = true := by simpa using may
        have unreported := unreported_of_mayReturn empty may
        rw [andThen] at member
        split at member
        · exact own removal member run
        · next left handled =>
          rcases List.mem_append.mp member with before | atEnd
          · exact own removal before run
          · rcases sweep_cases left with ⟨entry, inside, -, swept⟩ | ⟨-, swept⟩
            · -- the sweep finds a connection, so the batch has registered one
              rw [swept] at atEnd
              rw [List.mem_singleton.mp atEnd] at run
              obtain ⟨running, accepts, rfl⟩ := onEvents_run unreported handled run
              rw [onEvents_accepts] at handled
              obtain ⟨accepted, same, fresh, apart, rfl⟩ := onNewConnection_ok.mp handled
              have there := (mem_pcs_foldl_take fresh apart).mp (List.mem_map_of_mem inside)
              rcases there with old | ⟨accept, accepted', taken, -⟩
              · simp [pcs, empty] at old
              · refine absurd ⟨accepted, running, ?_, ⟨accepts, rfl, same⟩, apart, accept, accepted', taken⟩ safe
                exact (of_decide_eq_true may).1
            · rw [swept] at atEnd
              cases atEnd

theorem step_empty (empty : s.conns = []) {removals : List Removal}
    (stepped : step events s = .ok (removals, next)) : next.conns = [] := by
  rw [step] at stepped
  split at stepped
  · cases stepped
  · next round =>
    cases stepped
    rw [EventLoop.round] at round
    split at round
    · cases round
    · split at round
      · cases round
      · next may =>
        have may : s.mayReturn events = true := by simpa using may
        have unreported := unreported_of_mayReturn empty may
        obtain ⟨left, handled, swept⟩ := andThen_ok.mp (congrArg Prod.snd round)
        have isIdle : left.Idle := onEvents_idle unreported (by simp [Idle, empty]) handled
        rcases sweep_cases left with ⟨entry, -, -, sweeps⟩ | ⟨busy, sweeps⟩
        · rw [sweeps] at swept
          cases swept
        · rw [sweeps] at swept
          cases swept
          refine List.eq_nil_iff_forall_not_mem.mpr fun entry member => ?_
          have idle := isIdle entry member
          rw [busy entry member] at idle
          cases idle

/-- The server keeps its clients exactly as long as no batch registers a connection
    and leaves `run` true. -/
theorem keeps_clients_iff (storage : Store) (batches : List (List Event)) :
    Throughout step KeepsClients (start storage) batches ↔
      Throughout step (fun s events => ¬ ∃ accepted, s.run = true ∧ Registers events accepted) (start storage)
        batches := by
  have agree : ∀ (s : EventLoop Store) events, s.conns = [] →
      (KeepsClients s events ↔ ¬ ∃ accepted, s.run = true ∧ Registers events accepted) :=
    fun s events => keepsClients_iff
  refine Throughout.congr_of_keeps ?_ agree rfl batches
  exact fun s events removals next empty _ => step_empty empty

/-- A client connects. -/
theorem not_keepsClients_accept : ¬ ∀ batches : List (List Event),
    Throughout step KeepsClients (start (Backend.SimpleLRU.fresh 1024)) batches := by
  intro always
  obtain ⟨keeps, -⟩ :=
    always [[.accept [some ⟨1, ⟨.sName, [], [], 0, 0, 0, false, [], false⟩, 0, false⟩]]]
  exact keeps ⟨1, .sweep, true⟩ (List.mem_singleton_self _) rfl

end Sweeping

end EventLoop

end Afina.Network.STnonblock
