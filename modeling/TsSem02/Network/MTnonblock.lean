import TsSem02.Library.Mutex
import TsSem02.Network.Polling

/-! # The connection of MTnonblock and its mutex

Every function of a `Connection` of `MTnonblock` locks `mu` first.  `OnError` and
`OnClose` do so too when it is `DoWrite` that calls them, in which case they do
not return.

* `step_refines` — a call that returns is one of `Nonblock.Connection`;
* `lock_discipline_iff` — every call returns and releases `mu`, unless a
  `DoWrite` fails, or writes the last byte when the server is being stopped.
-/

namespace Afina.Network.MTnonblock

open Nonblock Mutex Runs

/-- A `Connection` with its `mu`; threads are numbered. -/
abbrev Shared (Store : Type) := Guarded Nat (Nonblock.Connection Store)

inductive Call where
  | start
  | isAlive
  | on (call : Nonblock.Call)

/-- What a call returns: nothing, but for the bytes it sends, or a flag. -/
inductive Reply where
  | traffic (traffic : Traffic)
  | alive (alive : Bool)
deriving DecidableEq, Repr

section Functions

variable {Store : Type} (thread : Nat)

def start : Mutex.Call Nat (Nonblock.Connection Store) Halt Unit :=
  lockGuard thread (within fun c => .ok ((), { c with events := .rd, alive := true }))

def isAlive : Mutex.Call Nat (Nonblock.Connection Store) Halt Bool :=
  lockGuard thread (within fun c => .ok (c.alive, c))

def onError : Mutex.Call Nat (Nonblock.Connection Store) Halt Unit :=
  lockGuard thread (within fun c => .ok ((), c.close))

def onClose : Mutex.Call Nat (Nonblock.Connection Store) Halt Unit :=
  lockGuard thread (within fun c => .ok ((), c.close))

def doRead [Storage Store] (run : Nat → Bool) (reads : List Bytes) :
    Mutex.Call Nat (Nonblock.Connection Store) Halt Traffic :=
  lockGuard thread (within (Connection.step Server.mtNonblock.deliver (.doRead run reads)))

def doWrite (run : Bool) (result : Writev) : Mutex.Call Nat (Nonblock.Connection Store) Halt Traffic :=
  lockGuard thread fun s =>
    let c := s.state
    if c.responses = [] then .error (.body .assertion)
    else match result with
    | .failed true => .ok (⟨[], []⟩, { s with state := c.awaitWrite run })
    -- both `OnError` and `OnClose` lock `mu`, which `DoWrite` has locked
    | .failed false => map (fun _ => ⟨[], []⟩) (onError thread) s
    | .wrote 0 => .ok (⟨[], []⟩, { s with state := c.awaitWrite run })
    | .wrote count =>
      let offered := c.outgoing.iovecs.flatten
      if offered.length < count then .error (.body .inadmissible)
      else
        let c := c.setOutgoing (c.outgoing.advance count)
        let traffic : Traffic := ⟨[], offered.take count⟩
        if c.responses = [] then
          if run then .ok (traffic, { s with state := { c with events := .rd } })
          else map (fun _ => traffic) (onClose thread) { s with state := c }
        else .ok (traffic, { s with state := c.awaitWrite run })

def step [Storage Store] (op : Nat × Call) (s : Shared Store) :
    Except (Stopped Halt) (Reply × Shared Store) :=
  let (thread, call) := op
  match call with
  | .start => map (fun _ => .traffic ⟨[], []⟩) (start thread) s
  | .isAlive => map .alive (isAlive thread) s
  | .on (.doRead run reads) => map .traffic (doRead thread run reads) s
  | .on (.doWrite run result) => map .traffic (doWrite thread run result) s
  | .on .onError => map (fun _ => .traffic ⟨[], []⟩) (onError thread) s
  | .on .onClose => map (fun _ => .traffic ⟨[], []⟩) (onClose thread) s

end Functions

/-! ## What a call does when nobody holds the mutex -/

section Calls

variable {Store : Type} {thread : Nat} {c : Nonblock.Connection Store} {run : Bool} {result : Writev}

/-- `DoWrite` calls `OnError` or `OnClose`. -/
def Closes (c : Nonblock.Connection Store) (run : Bool) (result : Writev) : Prop :=
  c.responses ≠ [] ∧
    (result = .failed false ∨
      run = false ∧ ∃ count, result = .wrote count ∧ 0 < count ∧
        count ≤ c.outgoing.iovecs.flatten.length ∧ (c.outgoing.advance count).responses = [])

theorem onClose_relocked : onClose thread ⟨c, some thread⟩ = .error .relocked ∧
    onError thread ⟨c, some thread⟩ = .error .relocked :=
  ⟨lockGuard_relocked, lockGuard_relocked⟩

/-- Either the thread waits for itself, or `DoWrite` does what it does without a mutex. -/
theorem doWrite_free (c : Nonblock.Connection Store) (thread : Nat) (run : Bool) (result : Writev) :
    (Closes c run result ∧ doWrite thread run result ⟨c, none⟩ = .error .relocked) ∨
      (¬ Closes c run result ∧ doWrite thread run result ⟨c, none⟩ =
        match c.doWrite run result with
        | .error halt => .error (.body halt)
        | .ok (traffic, c) => .ok (traffic, ⟨c, none⟩)) := by
  rw [doWrite, lockGuard_free]
  by_cases waiting : c.responses = []
  · right
    refine ⟨fun closes => closes.1 waiting, ?_⟩
    simp [Connection.doWrite, waiting]
  · cases result with
    | failed again =>
      cases again with
      | true =>
        right
        refine ⟨?_, by simp [Connection.doWrite, waiting]⟩
        rintro ⟨-, failed | ⟨-, count, wrote, -⟩⟩
        · cases failed
        · cases wrote
      | false =>
        left
        refine ⟨⟨waiting, .inl rfl⟩, ?_⟩
        simp [waiting, map_of_error onClose_relocked.2]
    | wrote count =>
      cases count with
      | zero =>
        right
        refine ⟨?_, by simp [Connection.doWrite, waiting]⟩
        rintro ⟨-, failed | ⟨-, count, wrote, positive, -⟩⟩
        · cases failed
        · cases wrote
          exact absurd positive (Nat.lt_irrefl 0)
      | succ count =>
        by_cases offered : c.outgoing.iovecs.flatten.length < count + 1
        · right
          refine ⟨?_, by simp [Connection.doWrite, waiting, offered, -List.length_flatten]⟩
          rintro ⟨-, failed | ⟨-, count', wrote, -, admissible, -⟩⟩
          · cases failed
          · cases wrote
            exact absurd offered (Nat.not_lt_of_le admissible)
        · by_cases drained : (c.outgoing.advance (count + 1)).responses = []
          · cases run with
            | true =>
              right
              refine ⟨?_, by simp [Connection.doWrite, waiting, offered, drained, -List.length_flatten]⟩
              rintro ⟨-, failed | ⟨running, -⟩⟩
              · cases failed
              · cases running
            | false =>
              left
              refine ⟨⟨waiting, .inr ⟨rfl, _, rfl, Nat.succ_pos count, Nat.le_of_not_lt offered, drained⟩⟩, ?_⟩
              simp [waiting, offered, drained, map_of_error onClose_relocked.1, -List.length_flatten]
          · right
            refine ⟨?_, by simp [Connection.doWrite, waiting, offered, drained, -List.length_flatten]⟩
            rintro ⟨-, failed | ⟨-, count', wrote, -, -, empty⟩⟩
            · cases failed
            · cases wrote
              exact drained empty

end Calls

section Steps

variable {Store : Type} [Storage Store] {c : Nonblock.Connection Store} {s next : Shared Store}
  {op : Nat × Call} {reply : Reply}

/-- What a call does, but for the mutex. -/
def plainly (c : Nonblock.Connection Store) : Call → Except Halt (Reply × Nonblock.Connection Store)
  | .start => .ok (.traffic ⟨[], []⟩, { c with events := .rd, alive := true })
  | .isAlive => .ok (.alive c.alive, c)
  | .on call => (Connection.step Server.mtNonblock.deliver call c).map fun (traffic, c) =>
    (.traffic traffic, c)

/-- The thread locks the mutex that it holds. -/
def Relocks (c : Nonblock.Connection Store) : Nat × Call → Prop
  | (_, .on (.doWrite run result)) => Closes c run result
  | _ => False

theorem step_free (c : Nonblock.Connection Store) (op : Nat × Call) :
    (Relocks c op ∧ step op ⟨c, none⟩ = .error .relocked) ∨
      (¬ Relocks c op ∧ step op ⟨c, none⟩ =
        match plainly c op.2 with
        | .error halt => .error (.body halt)
        | .ok (reply, c) => .ok (reply, ⟨c, none⟩)) := by
  obtain ⟨thread, call⟩ := op
  cases call with
  | start => exact .inr ⟨id, rfl⟩
  | isAlive => exact .inr ⟨id, rfl⟩
  | on call =>
    cases call with
    | doRead run reads =>
      refine .inr ⟨id, ?_⟩
      simp only [step, map, doRead, plainly, lockGuard_within]
      cases Connection.step Server.mtNonblock.deliver (.doRead run reads) c <;> rfl
    | doWrite run result =>
      rcases doWrite_free c thread run result with ⟨closes, called⟩ | ⟨open', called⟩
      · exact .inl ⟨closes, map_of_error called⟩
      · refine .inr ⟨open', ?_⟩
        simp only [step, map, called, plainly, Connection.step]
        cases c.doWrite run result <;> rfl
    | onError => exact .inr ⟨id, rfl⟩
    | onClose => exact .inr ⟨id, rfl⟩

theorem step_ok (called : step op s = .ok (reply, next)) :
    s.holder = none ∧ next.holder = none := by
  obtain ⟨thread, call⟩ := op
  cases call with
  | start | isAlive =>
    obtain ⟨result, called, -⟩ := map_ok.mp called
    exact lockGuard_ok called
  | on call =>
    cases call with
    | doRead | doWrite | onError | onClose =>
      obtain ⟨result, called, -⟩ := map_ok.mp called
      exact lockGuard_ok called

/-- A call that returns does what the connection does without a mutex. -/
theorem step_refines (called : step op s = .ok (reply, next)) :
    plainly s.state op.2 = .ok (reply, next.state) := by
  obtain ⟨free, -⟩ := step_ok called
  obtain ⟨c, holder⟩ := s
  cases free
  rcases step_free c op with ⟨-, relocks⟩ | ⟨-, returns⟩
  · rw [relocks] at called
    cases called
  · rw [returns] at called
    cases plain : plainly c op.2 with
    | error halt =>
      rw [plain] at called
      cases called
    | ok done =>
      rw [plain] at called
      cases called
      rfl

/-- The call gets the mutex as soon as it is free, and releases it. -/
structure Disciplined (s : Shared Store) (op : Nat × Call) : Prop where
  relocks : step op s ≠ .error .relocked
  waits : step op s ≠ .error .blocked
  releases : ∀ reply next, step op s = .ok (reply, next) → next.holder = none

theorem disciplined_iff (free : s.holder = none) : Disciplined s op ↔ ¬ Relocks s.state op := by
  obtain ⟨c, holder⟩ := s
  cases free
  rcases step_free c op with ⟨relocks, called⟩ | ⟨safe, called⟩
  · -- the thread would wait for itself
    exact iff_of_false (fun disciplined => disciplined.relocks called) (fun safe => safe relocks)
  · refine iff_of_true ⟨?_, ?_, fun reply next called => (step_ok called).2⟩ safe
    · rw [called]
      split <;> simp
    · rw [called]
      split <;> simp

/-- Every call completes, as far as the mutex is concerned, and leaves it free,
    exactly when no `DoWrite` calls `OnError` or `OnClose`. -/
theorem lock_discipline_iff (c : Nonblock.Connection Store) (calls : List (Nat × Call)) :
    Throughout step Disciplined ⟨c, none⟩ calls ↔
      Throughout step (fun s op => ¬ Relocks s.state op) ⟨c, none⟩ calls := by
  have agree : ∀ (s : Shared Store) op, s.holder = none → (Disciplined s op ↔ ¬ Relocks s.state op) :=
    fun s op => disciplined_iff
  refine Throughout.congr_of_keeps ?_ agree rfl calls
  exact fun s op reply next _ disciplined => disciplined.releases reply next

/-- The peer has gone when the response is written. -/
theorem not_disciplined_error : ¬ ∀ calls : List (Nat × Call), Throughout step Disciplined
    ⟨Connection.start ⟨.sName, [], [], 0, 0, 0, false, [], false⟩ 0 (Backend.SimpleLRU.fresh 1024), none⟩
    calls := by
  intro always
  obtain ⟨-, later⟩ := always [(0, .on (.doRead (fun _ => true) [ascii "get k\r\n"])),
    (1, .on (.doWrite true (.failed false)))]
  have answers : ((step (0, .on (.doRead (fun _ => true) [ascii "get k\r\n"]))
      (⟨Connection.start ⟨.sName, [], [], 0, 0, 0, false, [], false⟩ 0
        (Backend.SimpleLRU.fresh 1024), none⟩ : Shared Backend.SimpleLRU)).toOption.map
          fun done => done.2.state.responses.length) = some 1 := by
    decide +kernel
  cases called : step (0, .on (.doRead (fun _ => true) [ascii "get k\r\n"]))
      (⟨Connection.start ⟨.sName, [], [], 0, 0, 0, false, [], false⟩ 0
        (Backend.SimpleLRU.fresh 1024), none⟩ : Shared Backend.SimpleLRU) with
  | error stopped =>
    rw [called] at answers
    cases answers
  | ok done =>
    rw [called] at answers
    obtain ⟨disciplined, -⟩ := later done.1 done.2 called
    have closes : Relocks done.2.state (1, .on (.doWrite true (.failed false))) := by
      refine ⟨fun none => ?_, .inl rfl⟩
      simp [Except.toOption, none] at answers
    exact (disciplined_iff (step_ok called).2).mp disciplined closes

end Steps

end Afina.Network.MTnonblock
