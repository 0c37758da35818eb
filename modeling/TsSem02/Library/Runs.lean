/-! # Runs of a state machine that may fail

A machine is a step function `step : Op → State → Except Failure (Reply × State)`.
`runs` performs a list of operations in order and stops at the first failure.

* `runs_append` — a run splits anywhere;
* `runs_invariant` — what every step preserves, every completed run preserves;
* `runs_simulation` — a step-by-step simulation gives a run-by-run one;
* `Throughout` — a property of every operation at the state it meets in a run;
* `runs_history` — an invariant that speaks of the replies, too;
* `Throughout.congr_of_keeps` — two properties that agree as long as they hold.
-/

namespace Runs

variable {Op State Reply Failure : Type}

def runs (step : Op → State → Except Failure (Reply × State)) :
    List Op → State → Except Failure (List Reply × State)
  | [], state => .ok ([], state)
  | op :: ops, state =>
    match step op state with
    | .error failure => .error failure
    | .ok (reply, state) =>
      match runs step ops state with
      | .error failure => .error failure
      | .ok (replies, state) => .ok (reply :: replies, state)

variable {step : Op → State → Except Failure (Reply × State)}

@[simp] theorem runs_nil (state : State) : runs step [] state = .ok ([], state) := rfl

theorem exists_of_isOk {result : Except Failure (List Reply × State)} (completes : result.isOk) :
    ∃ replies final, result = .ok (replies, final) := by
  cases result with
  | error failure => cases completes
  | ok done => exact ⟨done.1, done.2, rfl⟩

theorem exists_ok_of_check {α ε : Type} {result : Except ε α} {p : α → Bool}
    (checks : (result.toOption.map p).getD false = true) : ∃ a, result = .ok a ∧ p a = true := by
  cases result with
  | error failure => cases checks
  | ok a => exact ⟨a, rfl, checks⟩

theorem runs_cons_ok {op : Op} {ops : List Op} {state final : State} {replies : List Reply} :
    runs step (op :: ops) state = .ok (replies, final) ↔
      ∃ reply next rest, step op state = .ok (reply, next) ∧
        runs step ops next = .ok (rest, final) ∧ replies = reply :: rest := by
  rw [runs]
  constructor
  · intro ran
    split at ran
    · cases ran
    · rename_i reply next stepped
      split at ran
      · cases ran
      · rename_i rest last ranRest
        cases ran
        exact ⟨reply, next, rest, stepped, ranRest, rfl⟩
  · rintro ⟨reply, next, rest, stepped, ranRest, rfl⟩
    simp only [stepped, ranRest]

theorem runs_append {ops more : List Op} {state final : State} {replies : List Reply} :
    runs step (ops ++ more) state = .ok (replies, final) ↔
      ∃ middle first second, runs step ops state = .ok (first, middle) ∧
        runs step more middle = .ok (second, final) ∧ replies = first ++ second := by
  induction ops generalizing state replies with
  | nil =>
    constructor
    · exact fun ran => ⟨state, [], replies, rfl, ran, rfl⟩
    · rintro ⟨middle, first, second, ran, ranMore, rfl⟩
      cases ran
      exact ranMore
  | cons op ops ih =>
    simp only [List.cons_append, runs_cons_ok, ih]
    constructor
    · rintro ⟨reply, next, rest, stepped, ⟨middle, first, second, ran, ranMore, rfl⟩, rfl⟩
      exact ⟨middle, reply :: first, second, ⟨reply, next, first, stepped, ran, rfl⟩, ranMore, rfl⟩
    · rintro ⟨middle, first, second, ⟨reply, next, first', stepped, ran, rfl⟩, ranMore, rfl⟩
      exact ⟨reply, next, first' ++ second, stepped, ⟨middle, first', second, ran, ranMore, rfl⟩, rfl⟩

/-! ## Invariants and simulations -/

theorem runs_invariant {Invariant : State → Prop}
    (preserved : ∀ op state reply next, Invariant state → step op state = .ok (reply, next) →
      Invariant next)
    {ops : List Op} {state final : State} {replies : List Reply} (initially : Invariant state)
    (ran : runs step ops state = .ok (replies, final)) : Invariant final := by
  induction ops generalizing state replies with
  | nil => cases ran; exact initially
  | cons op ops ih =>
    obtain ⟨reply, next, rest, stepped, ranRest, rfl⟩ := runs_cons_ok.mp ran
    exact ih (preserved op state reply next initially stepped) ranRest

/-- A simulation by a machine that never fails: `abstractly` is its step. -/
theorem runs_simulation {Abstract : Type} {Related : State → Abstract → Prop}
    {abstractly : Op → Abstract → Reply × Abstract}
    (simulated : ∀ op state abstract reply next, Related state abstract →
      step op state = .ok (reply, next) →
      (abstractly op abstract).1 = reply ∧ Related next (abstractly op abstract).2)
    {ops : List Op} {state final : State} {abstract : Abstract} {replies : List Reply}
    (initially : Related state abstract) (ran : runs step ops state = .ok (replies, final)) :
    ∃ abstractFinal,
      runs (fun op abstract => (.ok (abstractly op abstract) : Except Failure (Reply × Abstract)))
        ops abstract = .ok (replies, abstractFinal) ∧ Related final abstractFinal := by
  induction ops generalizing state abstract replies with
  | nil => cases ran; exact ⟨abstract, rfl, initially⟩
  | cons op ops ih =>
    obtain ⟨reply, next, rest, stepped, ranRest, rfl⟩ := runs_cons_ok.mp ran
    obtain ⟨replied, related⟩ := simulated op state abstract reply next initially stepped
    obtain ⟨abstractFinal, ranAbstract, relatedFinal⟩ := ih related ranRest
    refine ⟨abstractFinal, runs_cons_ok.mpr ⟨reply, _, rest, ?_, ranAbstract, rfl⟩, relatedFinal⟩
    rw [← replied]

/-! ## Properties of every step of a run -/

/-- `Property` holds of every operation at the state it is called in, as far as
    the run gets. -/
def Throughout (step : Op → State → Except Failure (Reply × State)) (Property : State → Op → Prop) :
    State → List Op → Prop
  | _, [] => True
  | state, op :: ops =>
    Property state op ∧
      ∀ reply next, step op state = .ok (reply, next) → Throughout step Property next ops

theorem Throughout.of_forall {Property : State → Op → Prop} (always : ∀ state op, Property state op)
    (state : State) (ops : List Op) : Throughout step Property state ops := by
  induction ops generalizing state with
  | nil => trivial
  | cons op ops ih => exact ⟨always state op, fun _ next _ => ih next⟩

/-- Two properties that agree wherever an invariant holds, which the one of them
    keeps, agree throughout. -/
theorem Throughout.congr_of_keeps {Invariant : State → Prop} {Left Right : State → Op → Prop}
    (keeps : ∀ state op reply next, Invariant state → Left state op →
      step op state = .ok (reply, next) → Invariant next)
    (agree : ∀ state op, Invariant state → (Left state op ↔ Right state op))
    {state : State} (initially : Invariant state) (ops : List Op) :
    Throughout step Left state ops ↔ Throughout step Right state ops := by
  induction ops generalizing state with
  | nil => exact Iff.rfl
  | cons op ops ih =>
    refine (and_congr_right fun here => ?_).trans (and_congr_left' (agree state op initially))
    refine forall_congr' fun reply => forall_congr' fun next => imp_congr_right fun stepped => ?_
    exact ih (keeps state op reply next initially here stepped)

theorem Throughout.congr {Invariant : State → Prop} {Left Right : State → Op → Prop}
    (preserved : ∀ op state reply next, Invariant state → step op state = .ok (reply, next) →
      Invariant next)
    (agree : ∀ state op, Invariant state → (Left state op ↔ Right state op))
    {state : State} (initially : Invariant state) (ops : List Op) :
    Throughout step Left state ops ↔ Throughout step Right state ops :=
  congr_of_keeps (fun state op reply next holds _ => preserved op state reply next holds) agree
    initially ops

instance decidableThroughout {Property : State → Op → Prop} [∀ state op, Decidable (Property state op)] :
    ∀ state ops, Decidable (Throughout step Property state ops)
  | _, [] => isTrue trivial
  | state, op :: ops =>
    match stepped : step op state with
    | .error _ =>
      decidable_of_iff (Property state op)
        ⟨fun here => ⟨here, fun _ _ stepped' => by rw [stepped] at stepped'; cases stepped'⟩, And.left⟩
    | .ok (reply, next) =>
      have : Decidable (Throughout step Property next ops) := decidableThroughout next ops
      decidable_of_iff (Property state op ∧ Throughout step Property next ops)
        ⟨fun ⟨here, rest⟩ => ⟨here, fun _ _ stepped' => by rw [stepped] at stepped'; cases stepped'; exact rest⟩,
          fun ⟨here, rest⟩ => ⟨here, rest reply next stepped⟩⟩

/-- A run whose steps have a property fails only as such steps do. -/
theorem Throughout.failure {Property : State → Op → Prop} {Expected : Failure → Prop}
    (expected : ∀ state op failure, Property state op → step op state = .error failure → Expected failure)
    {ops : List Op} {state : State} {failure : Failure} (throughout : Throughout step Property state ops)
    (failed : runs step ops state = .error failure) : Expected failure := by
  induction ops generalizing state with
  | nil => cases failed
  | cons op ops ih =>
    obtain ⟨here, later⟩ := throughout
    rw [runs] at failed
    split at failed
    · next stepped =>
      cases failed
      exact expected state op failure here stepped
    · next reply next stepped =>
      split at failed
      · next rest =>
        cases failed
        exact ih (later reply next stepped) rest
      · cases failed

/-- An invariant of the replies given so far and the state, which a step keeps
    when it has the property. -/
theorem runs_history {Invariant : List Reply → State → Prop} {Property : State → Op → Prop}
    (preserved : ∀ earlier op state reply next, Invariant earlier state → Property state op →
      step op state = .ok (reply, next) → Invariant (earlier ++ [reply]) next)
    {ops : List Op} {state final : State} {replies earlier : List Reply}
    (initially : Invariant earlier state) (throughout : Throughout step Property state ops)
    (ran : runs step ops state = .ok (replies, final)) : Invariant (earlier ++ replies) final := by
  induction ops generalizing state earlier replies with
  | nil =>
    cases ran
    rw [List.append_nil]
    exact initially
  | cons op ops ih =>
    obtain ⟨reply, next, rest, stepped, ranRest, rfl⟩ := runs_cons_ok.mp ran
    obtain ⟨here, later⟩ := throughout
    rw [List.append_cons]
    exact ih (preserved earlier op state reply next initially here stepped)
      (later reply next stepped) ranRest

end Runs
