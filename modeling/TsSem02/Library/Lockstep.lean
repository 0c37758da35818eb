import TsSem02.Library.Program

/-! # Machines in lockstep

Two machines answer the same operations, on states of their own, and a relation
between the states is kept by every one of them.

* `Agree` — results that fail alike or succeed alike;
* `InStep` — related states give the same failure, or the same reply and
  related states, on every operation;
* `execute_agree`, `runs_agree` — so do whole programs and whole runs.
-/

namespace Lockstep

variable {Op Reply Result State State' Failure α α' β β' ε ε' : Type}

/-- Both fail, with related failures, or both succeed, with related results. -/
inductive Agree (failures : ε → ε' → Prop) (results : α → α' → Prop) :
    Except ε α → Except ε' α' → Prop
  | error {failure : ε} {failure' : ε'} (related : failures failure failure') :
      Agree failures results (.error failure) (.error failure')
  | ok {result : α} {result' : α'} (related : results result result') :
      Agree failures results (.ok result) (.ok result')

theorem Agree.bind {failures : ε → ε' → Prop} {results : α → α' → Prop} {others : β → β' → Prop}
    {x : Except ε α} {x' : Except ε' α'} {next : α → Except ε β} {next' : α' → Except ε' β'}
    (agree : Agree failures results x x')
    (agreeOn : ∀ a a', results a a' → Agree failures others (next a) (next' a')) :
    Agree failures others (x >>= next) (x' >>= next') := by
  cases agree with
  | error related => exact .error related
  | ok related => exact agreeOn _ _ related

/-- The same reply, and related states. -/
def SameReply (Related : State → State' → Prop) (answer : Reply × State) (answer' : Reply × State') : Prop :=
  answer.1 = answer'.1 ∧ Related answer.2 answer'.2

/-- Related states agree on every operation. -/
def InStep (Related : State → State' → Prop) (machine : Op → State → Except Failure (Reply × State))
    (machine' : Op → State' → Except Failure (Reply × State')) : Prop :=
  ∀ op state state', Related state state' →
    Agree Eq (SameReply Related) (machine op state) (machine' op state')

variable {Related : State → State' → Prop} {machine : Op → State → Except Failure (Reply × State)}
  {machine' : Op → State' → Except Failure (Reply × State')} {state : State} {state' : State'}

theorem execute_agree (inStep : InStep Related machine machine') (related : Related state state')
    (program : Program Op Reply Result) :
    Agree Eq (SameReply Related) (program.execute machine state) (program.execute machine' state') := by
  induction program generalizing state state' with
  | done result => exact .ok ⟨rfl, related⟩
  | step op next ih =>
    have agree := inStep op state state' related
    simp only [Program.execute]
    generalize machine op state = called at agree
    generalize machine' op state' = called' at agree
    cases agree with
    | error same => exact .error same
    | @ok answer answer' same =>
      obtain ⟨reply, after⟩ := answer
      obtain ⟨reply', after'⟩ := answer'
      obtain ⟨rfl, relatedAfter⟩ := same
      exact ih reply relatedAfter

theorem runs_agree (inStep : InStep Related machine machine') (related : Related state state')
    (ops : List Op) :
    Agree Eq (SameReply Related) (Runs.runs machine ops state) (Runs.runs machine' ops state') := by
  induction ops generalizing state state' with
  | nil => exact .ok ⟨rfl, related⟩
  | cons op ops ih =>
    have agree := inStep op state state' related
    simp only [Runs.runs]
    generalize machine op state = called at agree
    generalize machine' op state' = called' at agree
    cases agree with
    | error same => exact .error same
    | @ok answer answer' same =>
      obtain ⟨reply, after⟩ := answer
      obtain ⟨reply', after'⟩ := answer'
      obtain ⟨rfl, relatedAfter⟩ := same
      have agreeOn := ih relatedAfter
      dsimp only at relatedAfter agreeOn ⊢
      generalize Runs.runs machine ops after = ran at agreeOn
      generalize Runs.runs machine' ops after' = ran' at agreeOn
      cases agreeOn with
      | error same => exact .error same
      | ok sameOn => exact .ok ⟨congrArg (reply :: ·) sameOn.1, sameOn.2⟩

end Lockstep
