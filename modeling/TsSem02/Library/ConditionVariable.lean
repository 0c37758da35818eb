import Mathlib

/-! # Condition variables

The threads of a program are a list of phases.  A condition variable is known by
the phases in which a thread is asleep in its `wait`, and by where such a thread
goes on.  `notifyAll` wakes all of them, `notifyOne` one that the scheduler picks,
and a wait may also end by itself (`awake`).
-/

namespace ConditionVariable

/-- A condition variable, as the phases of the threads know it. -/
structure Gate (Phase : Type) where
  asleep : Phase → Bool
  wake : Phase → Phase
  asleep_wake : ∀ phase, asleep (wake phase) = false
  wake_of_awake : ∀ phase, asleep phase = false → wake phase = phase

variable {Phase : Type}

def awake (gate : Gate Phase) (threads : List Phase) (i : Nat) : Option (List Phase) :=
  match threads[i]? with
  | some phase => if gate.asleep phase then some (threads.set i (gate.wake phase)) else none
  | none => none

/-- `notify_one()`: a thread that is asleep wakes up, if there is one. -/
def notifyOne (gate : Gate Phase) (threads : List Phase) : Option Nat → Option (List Phase)
  | none => if threads.any gate.asleep then none else some threads
  | some i => awake gate threads i

def notifyAll (gate : Gate Phase) (threads : List Phase) : List Phase :=
  threads.map gate.wake

section Counting

variable {threads next : List Phase} {i : Nat} {here there : Phase} {gate : Gate Phase}

theorem countP_cons_toNat {α : Type} (p : α → Bool) (first : α) (rest : List α) :
    (first :: rest).countP p = (p first).toNat + rest.countP p := by
  rw [List.countP_cons, Nat.add_comm]
  cases p first <;> rfl

theorem countP_move (p : Phase → Bool) (there : Phase) (place : threads[i]? = some here) :
    (threads.set i there).countP p + (p here).toNat = threads.countP p + (p there).toNat := by
  induction threads generalizing i with
  | nil => simp at place
  | cons first threads ih =>
    cases i with
    | zero =>
      simp only [List.getElem?_cons_zero, Option.some.injEq] at place
      subst place
      simp only [List.set_cons_zero, List.countP_cons]
      cases p first <;> cases p there <;> simp
    | succ i =>
      simp only [List.getElem?_cons_succ] at place
      have rest := ih place
      simp only [List.set_cons_succ, List.countP_cons]
      omega

theorem one_le_countP {p : Phase → Bool} (place : threads[i]? = some here) (holds : p here = true) :
    1 ≤ threads.countP p :=
  List.countP_pos_iff.mpr ⟨here, List.mem_of_getElem? place, holds⟩

theorem awake_eq (waking : awake gate threads i = some next) :
    ∃ phase, threads[i]? = some phase ∧ gate.asleep phase = true ∧ next = threads.set i (gate.wake phase) := by
  unfold awake at waking
  split at waking
  · rename_i phase place
    split at waking
    · rename_i asleep
      exact ⟨phase, place, asleep, (Option.some.inj waking).symm⟩
    · cases waking
  · cases waking

theorem notifyOne_eq {woken : Option Nat} (notified : notifyOne gate threads woken = some next) :
    (next = threads ∧ threads.countP gate.asleep = 0) ∨ ∃ i, awake gate threads i = some next := by
  cases woken with
  | none =>
    simp only [notifyOne] at notified
    split at notified
    · cases notified
    · rename_i nobody
      refine .inl ⟨(Option.some.inj notified).symm, List.countP_eq_zero.mpr fun phase member asleep => ?_⟩
      exact nobody (List.any_eq_true.mpr ⟨phase, member, asleep⟩)
  | some i => exact .inr ⟨i, notified⟩

theorem countP_asleep_awake (waking : awake gate threads i = some next) :
    next.countP gate.asleep + 1 = threads.countP gate.asleep := by
  obtain ⟨phase, place, asleep, rfl⟩ := awake_eq waking
  have count := countP_move gate.asleep (gate.wake phase) place
  simpa [asleep, gate.asleep_wake] using count

theorem countP_awake {p : Phase → Bool} (same : ∀ phase, p (gate.wake phase) = p phase)
    (waking : awake gate threads i = some next) : next.countP p = threads.countP p := by
  obtain ⟨phase, place, -, rfl⟩ := awake_eq waking
  have count := countP_move p (gate.wake phase) place
  rw [same phase] at count
  omega

theorem countP_asleep_notifyOne {woken : Option Nat} (notified : notifyOne gate threads woken = some next) :
    next.countP gate.asleep = threads.countP gate.asleep - 1 := by
  obtain ⟨rfl, nobody⟩ | ⟨i, waking⟩ := notifyOne_eq notified
  · rw [nobody]
  · have count := countP_asleep_awake waking
    omega

theorem countP_notifyOne {p : Phase → Bool} (same : ∀ phase, p (gate.wake phase) = p phase)
    {woken : Option Nat} (notified : notifyOne gate threads woken = some next) :
    next.countP p = threads.countP p := by
  obtain ⟨rfl, -⟩ | ⟨i, waking⟩ := notifyOne_eq notified
  · rfl
  · exact countP_awake same waking

theorem countP_asleep_notifyAll : (notifyAll gate threads).countP gate.asleep = 0 := by
  rw [notifyAll, List.countP_map, List.countP_eq_zero]
  intro phase member
  simp [gate.asleep_wake]

theorem countP_notifyAll {p : Phase → Bool} (same : ∀ phase, p (gate.wake phase) = p phase) :
    (notifyAll gate threads).countP p = threads.countP p := by
  rw [notifyAll, List.countP_map]
  exact List.countP_congr fun phase _ => by simp [same]

theorem length_awake (waking : awake gate threads i = some next) : next.length = threads.length := by
  obtain ⟨phase, -, -, rfl⟩ := awake_eq waking
  exact List.length_set

theorem length_notifyOne {woken : Option Nat} (notified : notifyOne gate threads woken = some next) :
    next.length = threads.length := by
  obtain ⟨rfl, -⟩ | ⟨i, waking⟩ := notifyOne_eq notified
  · rfl
  · exact length_awake waking

@[simp] theorem length_notifyAll : (notifyAll gate threads).length = threads.length :=
  List.length_map _

theorem countP_add_le {p q r : Phase → Bool} (disjoint : ∀ phase, p phase = true → q phase = false)
    (left : ∀ phase, p phase = true → r phase = true) (right : ∀ phase, q phase = true → r phase = true)
    (threads : List Phase) : threads.countP p + threads.countP q ≤ threads.countP r := by
  induction threads with
  | nil => simp
  | cons first threads ih =>
    simp only [List.countP_cons]
    by_cases here : p first = true
    · simp only [here, disjoint first here, left first here, if_true, Bool.false_eq_true, if_false]
      omega
    · simp only [here, Bool.false_eq_true, if_false]
      by_cases there : q first = true
      · simp only [there, right first there, if_true]
        omega
      · simp only [there, Bool.false_eq_true, if_false]
        omega

/-! ## Single threads -/

/-- Whether thread `i` is in a phase of a kind. -/
def isAt (threads : List Phase) (p : Phase → Bool) (i : Nat) : Bool := threads[i]?.any p

theorem isAt_set (place : threads[i]? = some here) (p : Phase → Bool) (j : Nat) :
    isAt (threads.set i there) p j = if i = j then p there else isAt threads p j := by
  have bound : i < threads.length := (List.getElem?_eq_some_iff.mp place).1
  unfold isAt
  rw [List.getElem?_set]
  split
  · rename_i same
    subst same
    simp
  · rfl

theorem isAt_of_place {p : Phase → Bool} (place : threads[i]? = some here) : isAt threads p i = p here := by
  simp [isAt, place]

theorem isAt_move {p : Phase → Bool} (place : threads[i]? = some here) (same : p there = p here) (j : Nat) :
    isAt (threads.set i there) p j = isAt threads p j := by
  rw [isAt_set place]
  split
  · rename_i at_i
    subst at_i
    rw [same, isAt_of_place place]
  · rfl

theorem isAt_awake {p : Phase → Bool} (same : ∀ phase, p (gate.wake phase) = p phase)
    (waking : awake gate threads i = some next) (j : Nat) : isAt next p j = isAt threads p j := by
  obtain ⟨phase, place, -, rfl⟩ := awake_eq waking
  exact isAt_move place (same phase) j

theorem isAt_notifyOne {p : Phase → Bool} (same : ∀ phase, p (gate.wake phase) = p phase)
    {woken : Option Nat} (notified : notifyOne gate threads woken = some next) (j : Nat) :
    isAt next p j = isAt threads p j := by
  obtain ⟨rfl, -⟩ | ⟨i, waking⟩ := notifyOne_eq notified
  · rfl
  · exact isAt_awake same waking j

theorem isAt_notifyAll {p : Phase → Bool} (same : ∀ phase, p (gate.wake phase) = p phase) (j : Nat) :
    isAt (notifyAll gate threads) p j = isAt threads p j := by
  unfold isAt notifyAll
  rw [List.getElem?_map]
  cases threads[j]? with
  | none => rfl
  | some phase => exact same phase

theorem exists_place {p : Phase → Bool} (some : threads.countP p ≠ 0) :
    ∃ (i : Nat) (phase : Phase), threads[i]? = Option.some phase ∧ p phase = true := by
  obtain ⟨phase, member, holds⟩ := List.countP_pos_iff.mp (Nat.pos_of_ne_zero some)
  obtain ⟨i, place⟩ := List.mem_iff_getElem?.mp member
  exact ⟨i, phase, place, holds⟩

theorem exists_isAt {p : Phase → Bool} : threads.countP p ≠ 0 ↔ ∃ i, isAt threads p i = true := by
  constructor
  · intro some
    obtain ⟨i, phase, place, holds⟩ := exists_place some
    exact ⟨i, (isAt_of_place place).trans holds⟩
  · rintro ⟨i, holds⟩
    unfold isAt at holds
    cases place : threads[i]? with
    | none => simp [place] at holds
    | some phase => exact Nat.one_le_iff_ne_zero.mp (one_le_countP place (by simpa [place] using holds))

theorem unique_of_countP_le_one {p : Phase → Bool} {j : Nat} (one : threads.countP p ≤ 1)
    (first : isAt threads p i = true) (second : isAt threads p j = true) : i = j := by
  induction threads generalizing i j with
  | nil => simp [isAt] at first
  | cons phase threads ih =>
    have later : ∀ {k}, isAt threads p k = true → 1 ≤ threads.countP p := fun there =>
      Nat.one_le_iff_ne_zero.mpr (exists_isAt.mpr ⟨_, there⟩)
    rw [List.countP_cons] at one
    cases i with
    | zero =>
      cases j with
      | zero => rfl
      | succ j =>
        have here : p phase = true := by simpa [isAt] using first
        have more := later (k := j) (by simpa [isAt] using second)
        simp only [here, if_true] at one
        omega
    | succ i =>
      have more := later (k := i) (by simpa [isAt] using first)
      cases j with
      | zero =>
        have here : p phase = true := by simpa [isAt] using second
        simp only [here, if_true] at one
        omega
      | succ j =>
        have same : i = j := ih (by omega) (by simpa [isAt] using first) (by simpa [isAt] using second)
        rw [same]

end Counting

/-! ## Weights -/

section Weights

variable {threads next : List Phase} {i : Nat} {here there : Phase} {gate : Gate Phase} {weight : Phase → Nat}

def total (weight : Phase → Nat) (threads : List Phase) : Nat := (threads.map weight).sum

theorem total_move (weight : Phase → Nat) (there : Phase) (place : threads[i]? = some here) :
    total weight (threads.set i there) + weight here = total weight threads + weight there := by
  induction threads generalizing i with
  | nil => simp at place
  | cons first threads ih =>
    cases i with
    | zero =>
      simp only [List.getElem?_cons_zero, Option.some.injEq] at place
      subst place
      simp only [total, List.set_cons_zero, List.map_cons, List.sum_cons]
      omega
    | succ i =>
      simp only [List.getElem?_cons_succ] at place
      have rest := ih place
      simp only [total, List.set_cons_succ, List.map_cons, List.sum_cons] at rest ⊢
      omega

theorem total_notifyOne (grows : ∀ phase, weight (gate.wake phase) ≤ weight phase + 1) {woken : Option Nat}
    (notified : notifyOne gate threads woken = some next) : total weight next ≤ total weight threads + 1 := by
  obtain ⟨rfl, -⟩ | ⟨i, waking⟩ := notifyOne_eq notified
  · omega
  · obtain ⟨phase, place, -, rfl⟩ := awake_eq waking
    have moved := total_move weight (gate.wake phase) place
    have grown := grows phase
    omega

theorem total_notifyAll (grows : ∀ phase, weight (gate.wake phase) ≤ weight phase + 1) (threads : List Phase) :
    total weight (notifyAll gate threads) ≤ total weight threads + threads.length := by
  induction threads with
  | nil => simp [total, notifyAll]
  | cons first threads ih =>
    have grown := grows first
    simp only [total, notifyAll, List.map_cons, List.sum_cons, List.length_cons] at ih ⊢
    omega

theorem total_le {most : Nat} (bounded : ∀ phase, weight phase ≤ most) (threads : List Phase) :
    total weight threads ≤ threads.length * most := by
  induction threads with
  | nil => simp [total]
  | cons first threads ih =>
    have here := bounded first
    simp only [total, List.map_cons, List.sum_cons, List.length_cons, Nat.succ_mul] at ih ⊢
    omega

theorem exists_notifyOne (gate : Gate Phase) (threads : List Phase) :
    ∃ woken, (notifyOne gate threads woken).isSome = true := by
  by_cases sleeps : threads.any gate.asleep = true
  · obtain ⟨phase, member, asleep⟩ := List.any_eq_true.mp sleeps
    obtain ⟨i, place⟩ := List.mem_iff_getElem?.mp member
    exact ⟨some i, by simp [notifyOne, awake, place, asleep]⟩
  · exact ⟨none, by simp [notifyOne, sleeps]⟩

end Weights

end ConditionVariable
