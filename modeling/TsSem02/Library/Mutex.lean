/-! # A mutex that is not recursive

`lockGuard thread body` runs `body` while `thread` holds the mutex of a guarded
state and releases it afterwards.  A thread that locks the mutex it holds never
gets it (`relocked`); one that finds it held by another thread has to wait for
that thread (`blocked`).
-/

namespace Mutex

variable {Thread State Failure α β : Type}

structure Guarded (Thread State : Type) where
  state : State
  holder : Option Thread
deriving DecidableEq, Repr

inductive Stopped (Failure : Type) where
  | relocked
  | blocked
  | body (failure : Failure)
deriving DecidableEq, Repr

/-- A call under the mutex. -/
abbrev Call (Thread State Failure α : Type) :=
  Guarded Thread State → Except (Stopped Failure) (α × Guarded Thread State)

/-- What is done without touching the mutex. -/
def within (body : State → Except Failure (α × State)) : Call Thread State Failure α := fun s =>
  match body s.state with
  | .error failure => .error (.body failure)
  | .ok (result, state) => .ok (result, { s with state := state })

def map (f : α → β) (call : Call Thread State Failure α) : Call Thread State Failure β := fun s =>
  match call s with
  | .error stopped => .error stopped
  | .ok (result, s) => .ok (f result, s)

def lockGuard [DecidableEq Thread] (thread : Thread) (body : Call Thread State Failure α) :
    Call Thread State Failure α := fun s =>
  match s.holder with
  | some holder => .error (if holder = thread then .relocked else .blocked)
  | none =>
    match body { s with holder := some thread } with
    | .error stopped => .error stopped
    | .ok (result, s) => .ok (result, { s with holder := none })

variable {s next : Guarded Thread State}

theorem map_ok {f : α → β} {call : Call Thread State Failure α} {result : β} :
    map f call s = .ok (result, next) ↔ ∃ inner, call s = .ok (inner, next) ∧ f inner = result := by
  rw [map]
  cases called : call s with
  | error stopped => simp
  | ok done =>
    obtain ⟨inner, after⟩ := done
    simp only [Except.ok.injEq, Prod.mk.injEq]
    constructor
    · rintro ⟨rfl, rfl⟩
      exact ⟨inner, ⟨rfl, rfl⟩, rfl⟩
    · rintro ⟨inner, ⟨rfl, rfl⟩, rfl⟩
      exact ⟨rfl, rfl⟩

theorem map_of_error {f : α → β} {call : Call Thread State Failure α}
    {stopped : Stopped Failure} (stops : call s = .error stopped) : map f call s = .error stopped := by
  rw [map, stops]

variable [DecidableEq Thread] {thread : Thread} {state : State}
  {body : Call Thread State Failure α} {plain : State → Except Failure (α × State)} {result : α}

@[simp] theorem lockGuard_relocked :
    lockGuard thread body ⟨state, some thread⟩ = .error .relocked := by
  simp [lockGuard]

theorem lockGuard_free (state : State) : lockGuard thread body ⟨state, none⟩ =
    match body ⟨state, some thread⟩ with
    | .error stopped => .error stopped
    | .ok (result, s) => .ok (result, { s with holder := none }) := rfl

theorem lockGuard_ok (called : lockGuard thread body s = .ok (result, next)) :
    s.holder = none ∧ next.holder = none := by
  obtain ⟨state, _ | holder⟩ := s
  · rw [lockGuard_free] at called
    split at called
    · cases called
    · cases called
      exact ⟨rfl, rfl⟩
  · cases called

/-- Where nothing inside touches the mutex, a call is what it does inside. -/
theorem lockGuard_within (state : State) : lockGuard thread (within plain) ⟨state, none⟩ =
    match plain state with
    | .error failure => .error (.body failure)
    | .ok (result, state) => .ok (result, ⟨state, none⟩) := by
  rw [lockGuard_free, within]
  cases plain state <;> rfl

end Mutex
