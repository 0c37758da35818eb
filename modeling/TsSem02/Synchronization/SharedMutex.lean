import TsSem02.Library.ConditionVariable
import TsSem02.Library.Runs

/-! # The readers-writer lock of the materials

`shared_mutex` keeps the writer that has entered and the number of the readers in
one word, and lets threads wait at two condition variables.  What a thread does
while it has `mut_` is one step; a `wait` ends a step, and another step begins when
the thread has been woken and has got `mut_` again.

* `exclusion` — the word counts who holds the mutex, and a writer holds it alone;
* `none_enters` — once a writer has entered nobody else does until it unlocks.
-/

namespace Afina.Synchronization

open Runs ConditionVariable

variable {bits : Nat}

/-- An `unsigned` of `bits + 1` bits. -/
abbrev Word (bits : Nat) := BitVec (bits + 1)

def writeEntered (bits : Nat) : Word bits := 1#(bits + 1) <<< bits

def nReaders (bits : Nat) : Word bits := ~~~writeEntered bits

inductive Mode where
  | exclusive
  | shared
deriving DecidableEq, Repr

inductive Phase where
  | outside
  | gate1 (mode : Mode)     -- asleep in `gate1_.wait`
  | retrying (mode : Mode)  -- woken there
  | gate2                   -- asleep in `gate2_.wait`
  | draining                -- woken there
  | holding (mode : Mode)
  | announcing              -- in `unlock`, about to call `gate1_.notify_all`
deriving DecidableEq, Repr

def gate1 : Gate Phase where
  asleep
    | .gate1 _ => true
    | _ => false
  wake
    | .gate1 mode => .retrying mode
    | phase => phase
  asleep_wake phase := by cases phase <;> rfl
  wake_of_awake phase awake := by
    cases phase with
    | gate1 => cases awake
    | _ => rfl

def gate2 : Gate Phase where
  asleep
    | .gate2 => true
    | _ => false
  wake
    | .gate2 => .draining
    | phase => phase
  asleep_wake phase := by cases phase <;> rfl
  wake_of_awake phase awake := by
    cases phase with
    | gate2 => cases awake
    | _ => rfl

/-- `while (state_ & n_readers_) gate2_.wait(lk);` in `lock` -/
def waitReaders (state : Word bits) : Phase :=
  if state &&& nReaders bits ≠ 0 then .gate2 else .holding .exclusive

def lock (state : Word bits) : Word bits × Phase :=
  if state &&& writeEntered bits ≠ 0 then (state, .gate1 .exclusive)
  else
    let state := state ||| writeEntered bits
    (state, waitReaders state)

/-- `try_lock`; `contended` when `mut_` is not free. -/
def tryLock (contended : Bool) (state : Word bits) : Word bits × Phase :=
  if !contended ∧ state = 0 then (writeEntered bits, .holding .exclusive) else (state, .outside)

/-- `lock_shared`, from its test on -/
def lockShared (state : Word bits) : Word bits × Phase :=
  if state &&& writeEntered bits ≠ 0 ∨ state &&& nReaders bits = nReaders bits then (state, .gate1 .shared)
  else
    let numReaders := (state &&& nReaders bits) + 1
    ((state &&& ~~~nReaders bits) ||| numReaders, .holding .shared)

def tryLockShared (contended : Bool) (state : Word bits) : Word bits × Phase :=
  let numReaders := state &&& nReaders bits
  if !contended ∧ state &&& writeEntered bits = 0 ∧ numReaders ≠ nReaders bits then
    ((state &&& ~~~nReaders bits) ||| (numReaders + 1), .holding .shared)
  else (state, .outside)

/-- `unlock_shared`: the word, and where it calls `notify_one`. -/
def unlockShared (state : Word bits) : Word bits × Option (Gate Phase) :=
  let numReaders := (state &&& nReaders bits) - 1
  let state := (state &&& ~~~nReaders bits) ||| numReaders
  if state &&& writeEntered bits ≠ 0 then (state, if numReaders = 0 then some gate2 else none)
  else (state, if numReaders = nReaders bits - 1 then some gate1 else none)

/-! ## What the word says -/

/-- The word of a mutex that a writer has entered or not, with `count` readers. -/
def word (entered : Bool) (count : BitVec bits) : Word bits := BitVec.cons entered count

section Words

variable {entered other : Bool} {count more : BitVec bits}

/-! ### Counting in a part of a word -/

theorem toNat_one (positive : 1 < 2 ^ bits) : (1 : BitVec bits).toNat = 1 := by
  rw [BitVec.ofNat_eq_ofNat, BitVec.toNat_ofNat, Nat.mod_eq_of_lt positive]

theorem toNat_eq_zero : count.toNat = 0 ↔ count = 0 := by
  constructor
  · intro none
    exact BitVec.eq_of_toNat_eq (by simpa using none)
  · rintro rfl
    simp

theorem toNat_eq_one (positive : count.toNat ≠ 0) : count.toNat = 1 ↔ count = 1 := by
  have bound := count.isLt
  have one : (1 : BitVec bits).toNat = 1 := toNat_one (by omega)
  constructor
  · intro last
    exact BitVec.eq_of_toNat_eq (last.trans one.symm)
  · rintro rfl
    exact one

theorem toNat_eq_full : count.toNat + 1 = 2 ^ bits ↔ count = BitVec.allOnes bits := by
  have bound := count.isLt
  constructor
  · intro full
    exact BitVec.eq_of_toNat_eq (by simp; omega)
  · rintro rfl
    simp only [BitVec.toNat_allOnes]
    omega

theorem toNat_add_one (room : count ≠ BitVec.allOnes bits) : (count + 1).toNat = count.toNat + 1 := by
  have bound := count.isLt
  have apart : count.toNat + 1 ≠ 2 ^ bits := fun full => room (toNat_eq_full.mp full)
  rw [BitVec.toNat_add, toNat_one (by omega), Nat.mod_eq_of_lt (by omega)]

theorem toNat_sub_one (positive : count ≠ 0) : (count - 1).toNat = count.toNat - 1 := by
  have bound := count.isLt
  have apart : count.toNat ≠ 0 := fun none => positive (toNat_eq_zero.mp none)
  have one : (1 : BitVec bits).toNat = 1 := toNat_one (by omega)
  rw [BitVec.toNat_sub_of_le (by rw [BitVec.le_def, one]; omega), one]

/-! ### The parts of a word -/

theorem writeEntered_eq : writeEntered bits = word true 0 := by
  apply BitVec.eq_of_toNat_eq
  simp [writeEntered, word, Nat.shiftLeft_eq]

theorem nReaders_eq : nReaders bits = word false (BitVec.allOnes bits) := by
  rw [nReaders, writeEntered_eq, word, BitVec.not_cons]
  simp [word]

theorem word_inj : word entered count = word other more ↔ entered = other ∧ count = more := by
  constructor
  · intro same
    exact ⟨by simpa [word] using congrArg BitVec.msb same,
      by simpa [word] using congrArg (BitVec.setWidth bits) same⟩
  · rintro ⟨rfl, rfl⟩
    rfl

theorem zero_eq_word : (0 : Word bits) = word false 0 := by
  apply BitVec.eq_of_toNat_eq
  simp [word]

theorem word_and_writeEntered : word entered count &&& writeEntered bits = word entered 0 := by
  simp only [writeEntered_eq, word, BitVec.cons_and_cons, Bool.and_true, BitVec.ofNat_eq_ofNat, BitVec.and_zero]

theorem word_and_nReaders : word entered count &&& nReaders bits = word false count := by
  simp only [nReaders_eq, word, BitVec.cons_and_cons, Bool.and_false, BitVec.and_allOnes]

theorem word_or_writeEntered : word entered count ||| writeEntered bits = word true count := by
  simp only [writeEntered_eq, word, BitVec.cons_or_cons, Bool.or_true, BitVec.ofNat_eq_ofNat, BitVec.or_zero]

theorem word_replace : (word entered count &&& ~~~nReaders bits) ||| word false more = word entered more := by
  simp only [nReaders_eq, word, BitVec.not_cons, BitVec.cons_and_cons, BitVec.cons_or_cons, Bool.not_false,
    Bool.and_true, Bool.or_false, BitVec.not_allOnes, BitVec.and_zero, BitVec.zero_or]

theorem word_succ (room : count ≠ BitVec.allOnes bits) : word false count + 1 = word false (count + 1) := by
  have next := toNat_add_one room
  have bound := (count + 1).isLt
  apply BitVec.eq_of_toNat_eq
  rw [BitVec.toNat_add, toNat_one (by rw [Nat.pow_succ]; omega)]
  simp only [word, BitVec.toNat_cons', Bool.toNat_false, Nat.zero_shiftLeft, Nat.zero_add, next]
  exact Nat.mod_eq_of_lt (by rw [Nat.pow_succ]; omega)

theorem word_pred (positive : count ≠ 0) : word false count - 1 = word false (count - 1) := by
  rw [BitVec.sub_eq_iff_eq_add, word_succ, BitVec.sub_add_cancel]
  intro full
  apply positive
  rw [← BitVec.sub_add_cancel count 1, full, ← BitVec.neg_one_eq_allOnes]
  exact BitVec.add_left_neg _

/-! ### The tests of the critical sections -/

theorem word_eq_zero : word entered count = 0 ↔ entered = false ∧ count = 0 := by
  rw [zero_eq_word, word_inj]

theorem noWriter_iff : word entered count &&& writeEntered bits = 0 ↔ entered = false := by
  rw [word_and_writeEntered, word_eq_zero]
  exact and_iff_left rfl

theorem noReader_iff : word entered count &&& nReaders bits = 0 ↔ count = 0 := by
  rw [word_and_nReaders, word_eq_zero]
  exact and_iff_right rfl

theorem full_iff : word entered count &&& nReaders bits = nReaders bits ↔ count = BitVec.allOnes bits := by
  rw [word_and_nReaders, nReaders_eq, word_inj]
  exact and_iff_right rfl

/-! ### The critical sections -/

theorem waitReaders_word : waitReaders (word entered count) =
    if count = 0 then .holding .exclusive else .gate2 := by
  simp only [waitReaders, ne_eq, noReader_iff, ite_not]

theorem lock_entered : lock (word true count) = (word true count, .gate1 .exclusive) := by
  simp only [lock, ne_eq, noWriter_iff, Bool.true_eq_false, not_false_eq_true, if_true]

theorem lock_free : lock (word false count) =
    (word true count, if count = 0 then .holding .exclusive else .gate2) := by
  simp only [lock, ne_eq, noWriter_iff, not_true, if_false, word_or_writeEntered, waitReaders_word]

theorem tryLock_word {contended : Bool} : tryLock contended (word entered count) =
    if contended = false ∧ entered = false ∧ count = 0 then (word true 0, .holding .exclusive)
    else (word entered count, .outside) := by
  simp only [tryLock, word_eq_zero, Bool.not_eq_true', writeEntered_eq]

theorem lockShared_closed (closed : entered = true ∨ count = BitVec.allOnes bits) :
    lockShared (word entered count) = (word entered count, .gate1 .shared) := by
  simp only [lockShared, ne_eq, noWriter_iff, full_iff, Bool.not_eq_false, closed, if_true]

theorem lockShared_open (room : count ≠ BitVec.allOnes bits) :
    lockShared (word false count) = (word false (count + 1), .holding .shared) := by
  simp only [lockShared, ne_eq, noWriter_iff, full_iff, not_true, false_or, room, if_false]
  rw [word_and_nReaders, word_succ room, word_replace]

theorem tryLockShared_word {contended : Bool} : tryLockShared contended (word entered count) =
    if contended = false ∧ entered = false ∧ count ≠ BitVec.allOnes bits then
      (word false (count + 1), .holding .shared)
    else (word entered count, .outside) := by
  simp only [tryLockShared, ne_eq, noWriter_iff, full_iff, Bool.not_eq_true']
  split
  · rename_i free
    rw [word_and_nReaders, word_succ free.2.2, word_replace, free.2.1]
  · rfl

theorem unlockShared_word (positive : count ≠ 0) : unlockShared (word entered count) =
    (word entered (count - 1),
      if entered then (if count = 1 then some gate2 else none)
      else if count = BitVec.allOnes bits then some gate1 else none) := by
  have allOnes : BitVec.allOnes bits ≠ 0 := by
    intro none
    apply positive
    rw [← BitVec.and_allOnes (x := count), none]
    exact BitVec.and_zero
  have last : count - 1 = 0 ↔ count = 1 := by
    rw [BitVec.sub_eq_iff_eq_add, BitVec.ofNat_eq_ofNat, BitVec.zero_add]
  have full : count - 1 = BitVec.allOnes bits - 1 ↔ count = BitVec.allOnes bits := by
    rw [BitVec.sub_eq_iff_eq_add, BitVec.sub_add_cancel]
  simp only [unlockShared, word_and_nReaders, word_pred positive, word_replace, ne_eq, noWriter_iff]
  simp only [nReaders_eq, word_pred allOnes, word_eq_zero, word_inj, true_and, last, full]
  cases entered <;> simp

end Words
/-! ## The threads -/

structure SharedMutex (bits : Nat) where
  state : Word bits
  threads : List Phase
deriving DecidableEq, Repr

inductive Disabled where
  | disabled
deriving DecidableEq, Repr

inductive Event where
  | call (thread : Nat) (mode : Mode)                      -- `lock` or `lock_shared`
  | tryCall (thread : Nat) (mode : Mode) (contended : Bool)
  | resume (thread : Nat)                                  -- a woken thread has got `mut_` again
  | unlock (thread : Nat)
  | notifyAll (thread : Nat)
  | unlockShared (thread : Nat) (woken : Option Nat)       -- with the thread that `notify_one` picks
  | spurious (thread : Nat)                                -- a wait ends by itself
deriving DecidableEq, Repr

def Event.isUnlock : Event → Bool
  | unlock _ => true
  | _ => false

namespace SharedMutex

def start (bits threads : Nat) : SharedMutex bits where
  state := 0
  threads := List.replicate threads .outside

/-- Thread `i` has done its step and is in the phase that the step has led to. -/
def goto (s : SharedMutex bits) (i : Nat) (done : Word bits × Phase) : SharedMutex bits where
  state := done.1
  threads := s.threads.set i done.2

/-- `lock` and `lock_shared` test their condition. -/
def attempt : Mode → Word bits → Word bits × Phase
  | .exclusive => lock
  | .shared => lockShared

def tryAttempt : Mode → Bool → Word bits → Word bits × Phase
  | .exclusive => tryLock
  | .shared => tryLockShared

def act : Event → SharedMutex bits → Option (SharedMutex bits)
  | .call i mode, s =>
    match s.threads[i]? with
    | some .outside => some (s.goto i (attempt mode s.state))
    | _ => none
  | .tryCall i mode contended, s =>
    match s.threads[i]? with
    | some .outside => some (s.goto i (tryAttempt mode contended s.state))
    | _ => none
  | .resume i, s =>
    match s.threads[i]? with
    | some (.retrying mode) => some (s.goto i (attempt mode s.state))
    | some .draining => some (s.goto i (s.state, waitReaders s.state))
    | _ => none
  | .unlock i, s =>
    match s.threads[i]? with
    | some (.holding .exclusive) => some (s.goto i (0, .announcing))
    | _ => none
  | .notifyAll i, s =>
    match s.threads[i]? with
    | some .announcing => some { s with threads := ConditionVariable.notifyAll gate1 (s.threads.set i .outside) }
    | _ => none
  | .unlockShared i woken, s =>
    match s.threads[i]? with
    | some (.holding .shared) =>
      let threads := s.threads.set i .outside
      match unlockShared s.state with
      | (state, some gate) => (notifyOne gate threads woken).map (SharedMutex.mk state ·)
      | (state, none) => some ⟨state, threads⟩
    | _ => none
  | .spurious i, s =>
    (awake gate1 s.threads i <|> awake gate2 s.threads i).map (SharedMutex.mk s.state ·)

def step (event : Event) (s : SharedMutex bits) : Except Disabled (Unit × SharedMutex bits) :=
  match s.act event with
  | some next => .ok ((), next)
  | none => .error .disabled

/-! ## Counting threads -/

/-- The writer has set `write_entered_`. -/
def hasEntered : Phase → Bool
  | .gate2 | .draining | .holding .exclusive => true
  | _ => false

def entered (s : SharedMutex bits) : Nat := s.threads.countP hasEntered
def writers (s : SharedMutex bits) : Nat := s.threads.countP (· = .holding .exclusive)
def readers (s : SharedMutex bits) : Nat := s.threads.countP (· = .holding .shared)
def announcing (s : SharedMutex bits) : Nat := s.threads.countP (· = .announcing)
def atGate1 (s : SharedMutex bits) : Nat := s.threads.countP gate1.asleep
def atGate2 (s : SharedMutex bits) : Nat := s.threads.countP gate2.asleep

/-- A thread that is outside or has been woken at the first gate. -/
def Idle (phase : Phase) : Prop := phase = .outside ∨ ∃ mode, phase = .retrying mode

/-! ## What a step can do -/

/-- The steps of a mutex whose word is `word entered count`, and whether they are an
    `unlock`. -/
inductive Moves (s : SharedMutex bits) (entered : Bool) (count : BitVec bits) : Bool → SharedMutex bits → Prop
  | refuse (i : Nat) (place : s.threads[i]? = some .outside) :
      Moves s entered count false (s.goto i (s.state, .outside))
  | sleep (i : Nat) (mode : Mode) (here : Phase) (place : s.threads[i]? = some here) (idle : Idle here)
      (closed : entered = true ∨ mode = .shared ∧ count = BitVec.allOnes bits) :
      Moves s entered count false (s.goto i (s.state, .gate1 mode))
  | enter (i : Nat) (here : Phase) (place : s.threads[i]? = some here) (idle : Idle here)
      (free : entered = false) :
      Moves s entered count false (s.goto i (word true count, if count = 0 then .holding .exclusive else .gate2))
  | read (i : Nat) (here : Phase) (place : s.threads[i]? = some here) (idle : Idle here)
      (free : entered = false) (room : count ≠ BitVec.allOnes bits) :
      Moves s entered count false (s.goto i (word false (count + 1), .holding .shared))
  | drain (i : Nat) (place : s.threads[i]? = some .draining) :
      Moves s entered count false (s.goto i (s.state, if count = 0 then .holding .exclusive else .gate2))
  | unlock (i : Nat) (place : s.threads[i]? = some (.holding .exclusive)) :
      Moves s entered count true (s.goto i (0, .announcing))
  | announce (i : Nat) (place : s.threads[i]? = some .announcing) :
      Moves s entered count false { s with threads := ConditionVariable.notifyAll gate1 (s.threads.set i .outside) }
  | leave (i : Nat) (place : s.threads[i]? = some (.holding .shared))
      (quiet : if entered then count ≠ 1 else count ≠ BitVec.allOnes bits) :
      Moves s entered count false (s.goto i (word entered (count - 1), .outside))
  | leaveLast (i : Nat) (woken : Option Nat) (threads : List Phase)
      (place : s.threads[i]? = some (.holding .shared)) (isEntered : entered = true) (last : count = 1)
      (notified : notifyOne gate2 (s.threads.set i .outside) woken = some threads) :
      Moves s entered count false ⟨word entered 0, threads⟩
  | leaveFull (i : Nat) (woken : Option Nat) (threads : List Phase)
      (place : s.threads[i]? = some (.holding .shared)) (free : entered = false)
      (full : count = BitVec.allOnes bits)
      (notified : notifyOne gate1 (s.threads.set i .outside) woken = some threads) :
      Moves s entered count false ⟨word entered (count - 1), threads⟩
  | awake1 (i : Nat) (threads : List Phase) (waking : awake gate1 s.threads i = some threads) :
      Moves s entered count false ⟨s.state, threads⟩
  | awake2 (i : Nat) (threads : List Phase) (waking : awake gate2 s.threads i = some threads) :
      Moves s entered count false ⟨s.state, threads⟩

section Steps

variable {s next : SharedMutex bits} {entered : Bool} {count : BitVec bits} {i : Nat} {here : Phase}

theorem attempt_moves (mode : Mode) (state : s.state = word entered count)
    (place : s.threads[i]? = some here) (idle : Idle here) :
    Moves s entered count false (s.goto i (attempt mode s.state)) := by
  rw [state]
  cases mode with
  | exclusive =>
    cases entered with
    | true =>
      rw [attempt, lock_entered, ← state]
      exact .sleep i .exclusive here place idle (.inl rfl)
    | false =>
      rw [attempt, lock_free]
      exact .enter i here place idle rfl
  | shared =>
    by_cases closed : entered = true ∨ count = BitVec.allOnes bits
    · rw [attempt, lockShared_closed closed, ← state]
      exact .sleep i .shared here place idle (closed.imp_right fun full => ⟨rfl, full⟩)
    · obtain ⟨free, room⟩ := not_or.mp closed
      rw [Bool.not_eq_true] at free
      subst free
      rw [attempt, lockShared_open room]
      exact .read i here place idle rfl room

theorem tryAttempt_moves (mode : Mode) (contended : Bool) (state : s.state = word entered count)
    (place : s.threads[i]? = some .outside) :
    Moves s entered count false (s.goto i (tryAttempt mode contended s.state)) := by
  have idle : Idle .outside := .inl rfl
  rw [state]
  cases mode with
  | exclusive =>
    rw [tryAttempt, tryLock_word]
    split
    · rename_i free
      obtain ⟨-, free, none⟩ := free
      have moves : Moves s entered count false _ := .enter i .outside place idle free
      simpa [none] using moves
    · rw [← state]
      exact .refuse i place
  | shared =>
    rw [tryAttempt, tryLockShared_word]
    split
    · rename_i free
      exact .read i .outside place idle free.2.1 free.2.2
    · rw [← state]
      exact .refuse i place

theorem unlockShared_moves {woken : Option Nat} (state : s.state = word entered count) (positive : count ≠ 0)
    (acted : s.act (.unlockShared i woken) = some next) : Moves s entered count false next := by
  simp only [act] at acted
  split at acted
  · rename_i place
    rw [state, unlockShared_word positive] at acted
    cases entered with
    | true =>
      by_cases last : count = 1
      · subst last
        simp only [if_true, Option.map_eq_some_iff] at acted
        obtain ⟨threads, notified, rfl⟩ := acted
        rw [BitVec.sub_self]
        exact .leaveLast i woken threads place rfl rfl notified
      · simp only [last, if_true, if_false, Option.some.injEq] at acted
        subst acted
        exact .leave i place last
    | false =>
      by_cases full : count = BitVec.allOnes bits
      · simp only [full, if_true, Bool.false_eq_true, if_false, Option.map_eq_some_iff] at acted
        obtain ⟨threads, notified, rfl⟩ := acted
        rw [← full]
        exact .leaveFull i woken threads place rfl full notified
      · simp only [full, Bool.false_eq_true, if_false, Option.some.injEq] at acted
        subst acted
        exact .leave i place full
  · cases acted

/-! ## The invariant -/

/-- Who has the mutex is what its word says. -/
structure Sound (s : SharedMutex bits) (entered : Bool) (count : BitVec bits) : Prop where
  state : s.state = word entered count
  entered : s.entered = entered.toNat
  readers : s.readers = count.toNat
  alone : s.writers ≠ 0 → s.readers = 0
  waits : s.atGate2 ≠ 0 → s.readers ≠ 0

theorem act_moves {event : Event} (sound : Sound s entered count) (acted : s.act event = some next) :
    Moves s entered count event.isUnlock next := by
  cases event with
  | call i mode =>
    simp only [act] at acted
    split at acted
    · cases acted
      exact attempt_moves mode sound.state ‹_› (.inl rfl)
    · cases acted
  | tryCall i mode contended =>
    simp only [act] at acted
    split at acted
    · cases acted
      exact tryAttempt_moves mode contended sound.state ‹_›
    · cases acted
  | resume i =>
    simp only [act] at acted
    split at acted
    · rename_i mode place
      cases acted
      exact attempt_moves mode sound.state place (.inr ⟨mode, rfl⟩)
    · rename_i place
      cases acted
      have waits : waitReaders (word entered count) = _ := waitReaders_word
      rw [← sound.state] at waits
      rw [waits]
      exact .drain i place
    · cases acted
  | unlock i =>
    simp only [act] at acted
    split at acted
    · cases acted
      exact .unlock i ‹_›
    · cases acted
  | notifyAll i =>
    simp only [act] at acted
    split at acted
    · cases acted
      exact .announce i ‹_›
    · cases acted
  | unlockShared i woken =>
    refine unlockShared_moves sound.state ?_ acted
    intro none
    have readers := sound.readers
    simp only [act] at acted
    split at acted
    · rename_i place
      have one : 1 ≤ s.readers := one_le_countP place (by simp)
      simp [none] at readers
      omega
    · cases acted
  | spurious i =>
    simp only [act, Option.map_eq_some_iff] at acted
    obtain ⟨threads, waking, rfl⟩ := acted
    cases first : awake gate1 s.threads i with
    | some woken =>
      rw [first] at waking
      cases waking
      exact .awake1 i threads first
    | none =>
      rw [first] at waking
      exact .awake2 i threads waking

theorem goto_counts (place : s.threads[i]? = some here) (state : Word bits) (there : Phase) :
    (s.goto i (state, there)).entered + (hasEntered here).toNat = s.entered + (hasEntered there).toNat ∧
      (s.goto i (state, there)).readers + (decide (here = .holding .shared)).toNat =
        s.readers + (decide (there = .holding .shared)).toNat ∧
      (s.goto i (state, there)).writers + (decide (here = .holding .exclusive)).toNat =
        s.writers + (decide (there = .holding .exclusive)).toNat ∧
      (s.goto i (state, there)).atGate2 + (gate2.asleep here).toNat = s.atGate2 + (gate2.asleep there).toNat :=
  ⟨countP_move _ there place, countP_move _ there place, countP_move _ there place, countP_move _ there place⟩

theorem leave_counts (place : s.threads[i]? = some (.holding .shared)) (state : Word bits) :
    (s.goto i (state, .outside)).entered = s.entered ∧
      (s.goto i (state, .outside)).readers + 1 = s.readers ∧
      (s.goto i (state, .outside)).writers = s.writers ∧
      (s.goto i (state, .outside)).atGate2 = s.atGate2 := by
  simpa [hasEntered, gate2] using goto_counts place state .outside

theorem atGate2_add_writers_le (s : SharedMutex bits) : s.atGate2 + s.writers ≤ s.entered := by
  apply countP_add_le
  · intro phase asleep
    cases phase <;> simp_all [gate2]
  · intro phase asleep
    cases phase <;> simp_all [gate2, hasEntered]
  · intro phase writes
    have holds : phase = .holding .exclusive := by simpa using writes
    rw [holds]
    rfl

theorem Sound.of_counts (sound : Sound s entered count) (state : next.state = s.state)
    (enteredEq : next.entered = s.entered) (readersEq : next.readers = s.readers)
    (writersEq : next.writers = s.writers) (gate2Le : next.atGate2 ≤ s.atGate2) : Sound next entered count where
  state := state.trans sound.state
  entered := enteredEq.trans sound.entered
  readers := readersEq.trans sound.readers
  alone writes := by rw [readersEq]; exact sound.alone (writersEq ▸ writes)
  waits some := by rw [readersEq]; exact sound.waits (by omega)

theorem same_gate1 : (∀ phase, hasEntered (gate1.wake phase) = hasEntered phase) ∧
    (∀ mode phase, decide (gate1.wake phase = .holding mode) = decide (phase = .holding mode)) ∧
    ∀ phase, gate2.asleep (gate1.wake phase) = gate2.asleep phase := by
  refine ⟨fun phase => ?_, fun mode phase => ?_, fun phase => ?_⟩ <;>
    cases phase <;> simp [gate1, gate2, hasEntered]

theorem same_gate2 : (∀ phase, hasEntered (gate2.wake phase) = hasEntered phase) ∧
    (∀ mode phase, decide (gate2.wake phase = .holding mode) = decide (phase = .holding mode)) ∧
    ∀ phase, gate1.asleep (gate2.wake phase) = gate1.asleep phase := by
  refine ⟨fun phase => ?_, fun mode phase => ?_, fun phase => ?_⟩ <;>
    cases phase <;> simp [gate1, gate2, hasEntered]

theorem sound_start (bits n : Nat) : Sound (start bits n) false 0 where
  state := zero_eq_word
  entered := by simp [SharedMutex.entered, start, List.countP_replicate, hasEntered]
  readers := by simp [SharedMutex.readers, start, List.countP_replicate]
  alone writes := by simp [SharedMutex.readers, start, List.countP_replicate]
  waits some := by simp [atGate2, start, List.countP_replicate, gate2] at some

theorem Idle.uncounted (idle : Idle here) : hasEntered here = false ∧
    (∀ mode, decide (here = .holding mode) = false) ∧ gate1.asleep here = false ∧ gate2.asleep here = false := by
  obtain rfl | ⟨mode, rfl⟩ := idle <;> exact ⟨rfl, fun mode => rfl, rfl, rfl⟩

theorem Sound.awake {gate : Gate Phase} {threads : List Phase} (sound : Sound s entered count)
    (either : gate = gate1 ∨ gate = gate2)
    (waking : ConditionVariable.awake gate s.threads i = some threads) : Sound ⟨s.state, threads⟩ entered count := by
  obtain rfl | rfl := either
  · obtain ⟨enters, holds, waits⟩ := same_gate1
    exact sound.of_counts rfl (countP_awake enters waking) (countP_awake (holds .shared) waking)
      (countP_awake (holds .exclusive) waking) (Nat.le_of_eq (countP_awake waits waking))
  · obtain ⟨enters, holds, -⟩ := same_gate2
    have fewer := countP_asleep_awake waking
    exact sound.of_counts rfl (countP_awake enters waking) (countP_awake (holds .shared) waking)
      (countP_awake (holds .exclusive) waking) (Nat.le_of_succ_le (Nat.le_of_eq fewer))

theorem Sound.notifyOne {gate : Gate Phase} {woken : Option Nat} {threads : List Phase}
    (sound : Sound s entered count) (either : gate = gate1 ∨ gate = gate2)
    (notified : ConditionVariable.notifyOne gate s.threads woken = some threads) :
    Sound ⟨s.state, threads⟩ entered count := by
  obtain ⟨rfl, -⟩ | ⟨i, waking⟩ := notifyOne_eq notified
  · exact sound
  · exact sound.awake either waking

theorem sound_goto {entered' : Bool} {count' : BitVec bits} {there : Phase}
    (place : s.threads[i]? = some here)
    (enteredEq : s.entered + (hasEntered there).toNat = entered'.toNat + (hasEntered here).toNat)
    (readersEq : s.readers + (decide (there = .holding .shared)).toNat =
      count'.toNat + (decide (here = .holding .shared)).toNat)
    (alone : s.writers + (decide (there = .holding .exclusive)).toNat ≠
      (decide (here = .holding .exclusive)).toNat → count'.toNat = 0)
    (waits : s.atGate2 + (gate2.asleep there).toNat ≠ (gate2.asleep here).toNat →
      count'.toNat ≠ 0) :
    Sound (s.goto i (word entered' count', there)) entered' count' := by
  obtain ⟨enters, reads, writes, gates⟩ := goto_counts place (word entered' count') there
  have readers : (s.goto i (word entered' count', there)).readers = count'.toNat := by omega
  exact
    { state := rfl
      entered := by omega
      readers := readers
      alone := fun some => by rw [readers]; exact alone (by omega)
      waits := fun some => by rw [readers]; exact waits (by omega) }

theorem Sound.step {unlocks : Bool} (sound : Sound s entered count) (moves : Moves s entered count unlocks next) :
    ∃ entered' count', Sound next entered' count' := by
  have state := sound.state
  have enteredEq := sound.entered
  have readersEq := sound.readers
  have alone := sound.alone
  have waits := sound.waits
  have within := s.atGate2_add_writers_le
  cases moves with
  | refuse i place =>
    refine ⟨entered, count, state ▸ sound_goto place ?_ ?_ ?_ ?_⟩ <;> simp [gate2] <;> omega
  | sleep i mode here place idle closed =>
    obtain ⟨notEntered, notHolding, -, notAsleep⟩ := idle.uncounted
    refine ⟨entered, count, state ▸ sound_goto place ?_ ?_ ?_ ?_⟩ <;>
      simp only [notEntered, notHolding, notAsleep] <;> simp [hasEntered, gate2] <;> omega
  | enter i here place idle free =>
    obtain ⟨notEntered, notHolding, -, notAsleep⟩ := idle.uncounted
    subst free
    rw [Bool.toNat_false] at enteredEq
    by_cases none : count = 0
    · have zero := toNat_eq_zero.mpr none
      rw [if_pos none]
      refine ⟨true, count, sound_goto place ?_ ?_ ?_ ?_⟩ <;>
        simp only [notEntered, notHolding, notAsleep] <;> simp [hasEntered, gate2] <;> omega
    · have some := mt toNat_eq_zero.mp none
      rw [if_neg none]
      refine ⟨true, count, sound_goto place ?_ ?_ ?_ ?_⟩ <;>
        simp only [notEntered, notHolding, notAsleep] <;> simp [hasEntered, gate2] <;> omega
  | read i here place idle free room =>
    obtain ⟨notEntered, notHolding, -, notAsleep⟩ := idle.uncounted
    subst free
    rw [Bool.toNat_false] at enteredEq
    have more := toNat_add_one room
    refine ⟨false, count + 1, sound_goto place ?_ ?_ ?_ ?_⟩ <;>
      simp only [notEntered, notHolding, notAsleep, more] <;> simp [hasEntered, gate2] <;> omega
  | drain i place =>
    have one : 1 ≤ s.entered := one_le_countP place rfl
    by_cases none : count = 0
    · have zero := toNat_eq_zero.mpr none
      rw [if_pos none]
      refine ⟨entered, count, state ▸ sound_goto place ?_ ?_ ?_ ?_⟩ <;> simp [hasEntered, gate2] <;> omega
    · have some := mt toNat_eq_zero.mp none
      rw [if_neg none]
      refine ⟨entered, count, state ▸ sound_goto place ?_ ?_ ?_ ?_⟩ <;> simp [hasEntered, gate2] <;> omega
  | unlock i place =>
    have one : 1 ≤ s.writers := one_le_countP place (by simp)
    have most := Bool.toNat_le entered
    rw [zero_eq_word]
    refine ⟨false, 0, sound_goto place ?_ ?_ ?_ ?_⟩ <;> simp [hasEntered, gate2] <;> omega
  | announce i place =>
    obtain ⟨enters, holds, sleeps⟩ := same_gate1
    have left : Sound (s.goto i (word entered count, .outside)) entered count := by
      apply sound_goto place <;> simp [hasEntered, gate2] <;> omega
    exact ⟨entered, count, left.of_counts state (countP_notifyAll enters) (countP_notifyAll (holds .shared))
      (countP_notifyAll (holds .exclusive)) (Nat.le_of_eq (countP_notifyAll sleeps))⟩
  | leave i place quiet =>
    have one : 1 ≤ s.readers := one_le_countP place (by simp)
    have some : count.toNat ≠ 0 := by omega
    have less := toNat_sub_one (mt toNat_eq_zero.mpr some)
    generalize count - 1 = fewer at less ⊢
    refine ⟨entered, fewer, sound_goto place ?_ ?_ ?_ ?_⟩ <;> simp [hasEntered, gate2, less]
    · omega
    · omega
    · omega
    · intro sleeps last
      cases entered with
      | true => exact quiet ((toNat_eq_one some).mp (by omega))
      | false =>
        rw [Bool.toNat_false] at enteredEq
        omega
  | leaveLast i woken threads place isEntered last notified =>
    subst isEntered
    have one : 1 ≤ s.readers := one_le_countP place (by simp)
    have lastNat := (toNat_eq_one (by omega)).mpr last
    obtain ⟨enters, reads, writes, gates⟩ := leave_counts place (word true 0)
    obtain ⟨sameEntered, sameHolds, -⟩ := same_gate2
    let next : SharedMutex bits := ⟨word true 0, threads⟩
    have entersNext : next.entered = 1 :=
      (countP_notifyOne sameEntered notified).trans (enters.trans enteredEq)
    have readsNext : next.readers = 0 :=
      (countP_notifyOne (sameHolds .shared) notified).trans
        (Nat.succ.inj (reads.trans (readersEq.trans lastNat)))
    -- the writer that has entered is the only one that can have slept there
    have gatesNext : next.atGate2 = 0 := by
      refine (countP_asleep_notifyOne notified).trans (Nat.sub_eq_zero_of_le ?_)
      rw [enteredEq] at within
      exact Nat.le_trans (Nat.le_of_eq gates) (Nat.le_of_add_right_le within)
    exact ⟨true, 0, rfl, entersNext, readsNext.trans (toNat_eq_zero.mpr rfl).symm, fun _ => readsNext,
      fun some => absurd gatesNext some⟩
  | leaveFull i woken threads place free full notified =>
    subst free
    rw [Bool.toNat_false] at enteredEq
    have one : 1 ≤ s.readers := one_le_countP place (by simp)
    have some : count.toNat ≠ 0 := by omega
    have less := toNat_sub_one (mt toNat_eq_zero.mpr some)
    generalize count - 1 = fewer at less ⊢
    have left : Sound (s.goto i (word false fewer, .outside)) false fewer := by
      apply sound_goto place <;> simp [hasEntered, gate2, less] <;> omega
    exact ⟨false, fewer, left.notifyOne (.inl rfl) notified⟩
  | awake1 i threads waking => exact ⟨entered, count, sound.awake (.inl rfl) waking⟩
  | awake2 i threads waking => exact ⟨entered, count, sound.awake (.inr rfl) waking⟩

end Steps

/-! ## Whole runs -/

section Runs

variable {s next final : SharedMutex bits} {entered : Bool} {count : BitVec bits} {n : Nat}
  {events : List Event} {event : Event} {replies : List Unit}

theorem step_ok {reply : Unit} (stepped : step event s = .ok (reply, next)) : s.act event = some next := by
  unfold step at stepped
  split at stepped
  · rename_i acted
    cases stepped
    exact acted
  · cases stepped

/-- A mutex whose word is true. -/
def IsSound (s : SharedMutex bits) : Prop := ∃ entered count, Sound s entered count

theorem sound_of_runs (ran : runs step events (start bits n) = .ok (replies, s)) : IsSound s := by
  have initially : IsSound (start bits n) := ⟨false, 0, sound_start bits n⟩
  exact runs_invariant
    (fun _ _ _ _ ⟨_, _, sound⟩ stepped => sound.step (act_moves sound (step_ok stepped))) initially ran

/-- At any time at most one thread holds the mutex exclusively, and then no other one
    holds it; and the word tells whether a writer has entered and how many readers
    hold the mutex. -/
theorem exclusion (ran : runs step events (start bits n) = .ok (replies, s)) :
    (∀ (i j : Nat) mode, s.threads[i]? = some (.holding .exclusive) → s.threads[j]? = some (.holding mode) → i = j) ∧
      s.entered ≤ 1 ∧ s.readers < 2 ^ bits ∧
      (s.state &&& writeEntered bits ≠ 0 ↔ s.entered = 1) ∧
      (s.state &&& nReaders bits).toNat = s.readers := by
  obtain ⟨entered, count, sound⟩ := sound_of_runs ran
  have most : s.entered ≤ 1 := Nat.le_trans (Nat.le_of_eq sound.entered) (Bool.toNat_le entered)
  refine ⟨fun i j mode writes holds => ?_, most, sound.readers ▸ count.isLt, ?_, ?_⟩
  · have writers : 1 ≤ s.writers := one_le_countP writes (by simp)
    cases mode with
    | exclusive =>
      apply unique_of_countP_le_one (p := hasEntered) most
      · exact isAt_of_place writes
      · exact isAt_of_place holds
    | shared =>
      have reads : 1 ≤ s.readers := one_le_countP holds (by simp)
      have none := sound.alone (by omega)
      omega
  · rw [sound.state, ne_eq, noWriter_iff, sound.entered]
    cases entered <;> simp
  · rw [sound.state, word_and_nReaders, sound.readers]
    simp [word]

/-- A reader leaves, and a writer that has entered gets the mutex. -/
theorem exclusion_two : ∃ replies, ∃ s : SharedMutex 31,
    runs step [.call 0 .shared, .call 1 .exclusive, .unlockShared 0 (some 1), .resume 1] (start 31 2) =
        .ok (replies, s) ∧ s.threads = [.outside, .holding .exclusive] ∧ s.entered ≤ 1 := by
  have ran : runs step [.call 0 .shared, .call 1 .exclusive, .unlockShared 0 (some 1), .resume 1] (start 31 2) =
      .ok ([(), (), (), ()], ⟨0x80000000#32, [.outside, .holding .exclusive]⟩) := rfl
  exact ⟨_, _, ran, rfl, (exclusion ran).2.1⟩

def isReader (phase : Phase) : Bool := phase = .holding .shared

/-- While a writer has entered, no step but its `unlock` lets another thread in. -/
theorem Moves.keeps_entered (moves : Moves s true count false next) (j : Nat) :
    isAt next.threads hasEntered j = isAt s.threads hasEntered j ∧
      (isAt next.threads isReader j = true → isAt s.threads isReader j = true) := by
  have moved : ∀ {i : Nat} {here there : Phase} {state : Word bits}, s.threads[i]? = some here →
      hasEntered there = hasEntered here → isReader there = isReader here →
        isAt (s.goto i (state, there)).threads hasEntered j = isAt s.threads hasEntered j ∧
          (isAt (s.goto i (state, there)).threads isReader j = true → isAt s.threads isReader j = true) :=
    fun place enters reads => ⟨isAt_move place enters j, fun here => (isAt_move place reads j).symm.trans here⟩
  have left : ∀ {i : Nat}, s.threads[i]? = some (.holding .shared) →
      isAt (s.threads.set i .outside) hasEntered j = isAt s.threads hasEntered j ∧
        (isAt (s.threads.set i .outside) isReader j = true → isAt s.threads isReader j = true) := by
    intro i place
    refine ⟨isAt_move place (by rfl) j, fun reads => ?_⟩
    rw [isAt_set place] at reads
    split at reads
    · cases reads
    · exact reads
  cases moves with
  | refuse i place => exact moved place rfl rfl
  | sleep i mode here place idle closed =>
    obtain ⟨notEntered, notHolding, -, -⟩ := idle.uncounted
    exact moved place notEntered.symm (notHolding .shared).symm
  | drain i place => split <;> exact moved place rfl rfl
  | announce i place =>
    obtain ⟨enters, holds, -⟩ := same_gate1
    refine ⟨(isAt_notifyAll enters j).trans (isAt_move place (by rfl) j), fun reads => ?_⟩
    rw [isAt_notifyAll (holds .shared)] at reads
    exact (isAt_move place (by rfl) j).symm.trans reads
  | leave i place quiet => exact left place
  | leaveLast i woken threads place isEntered last notified =>
    obtain ⟨enters, holds, -⟩ := same_gate2
    refine ⟨(isAt_notifyOne enters notified j).trans (left place).1, fun reads => (left place).2 ?_⟩
    exact (isAt_notifyOne (holds .shared) notified j).symm.trans reads
  | awake1 i threads waking =>
    obtain ⟨enters, holds, -⟩ := same_gate1
    exact ⟨isAt_awake enters waking j, fun reads => (isAt_awake (holds .shared) waking j).symm.trans reads⟩
  | awake2 i threads waking =>
    obtain ⟨enters, holds, -⟩ := same_gate2
    exact ⟨isAt_awake enters waking j, fun reads => (isAt_awake (holds .shared) waking j).symm.trans reads⟩
  | enter i here place idle free => cases free
  | read i here place idle free room => cases free
  | leaveFull i woken threads place free full notified => cases free

/-- Once a writer has entered, until it unlocks: it stays the one that has entered,
    and whoever reads has read from then on, so no thread gets the mutex before it. -/
theorem none_enters {before : List Event} {repliesBefore : List Unit}
    (ranBefore : runs step before (start bits n) = .ok (repliesBefore, s)) (enters : s.entered ≠ 0)
    (stays : ∀ event ∈ events, event.isUnlock = false) (ran : runs step events s = .ok (replies, final)) (i : Nat) :
    isAt final.threads hasEntered i = isAt s.threads hasEntered i ∧
      (isAt final.threads isReader i = true → isAt s.threads isReader i = true) := by
  have sound := sound_of_runs ranBefore
  clear ranBefore
  induction events generalizing s replies with
  | nil =>
    cases ran
    exact ⟨rfl, id⟩
  | cons event events ih =>
    obtain ⟨reply, next, rest, stepped, ranRest, rfl⟩ := runs_cons_ok.mp ran
    obtain ⟨entered, count, sound⟩ := sound
    have isEntered : entered = true := by
      rw [sound.entered] at enters
      simpa using enters
    subst isEntered
    have moves := act_moves sound (step_ok stepped)
    rw [stays event List.mem_cons_self] at moves
    have entersNext : next.entered ≠ 0 := by
      obtain ⟨j, here⟩ := exists_isAt.mp enters
      exact exists_isAt.mpr ⟨j, (moves.keeps_entered j).1.trans here⟩
    obtain ⟨same, fewer⟩ := ih entersNext (fun later member => stays later (List.mem_cons_of_mem event member))
      ranRest (sound.step moves)
    exact ⟨same.trans (moves.keeps_entered i).1, fun reads => (moves.keeps_entered i).2 (fewer reads)⟩

theorem none_enters_three : ∃ replies, ∃ s final : SharedMutex 31,
    runs step [.call 0 .shared, .call 1 .exclusive] (start 31 3) = .ok ([(), ()], s) ∧
      runs step [.call 2 .shared, .unlockShared 0 (some 1), .resume 1] s = .ok (replies, final) ∧
      ∀ i, isAt final.threads isReader i = true → isAt s.threads isReader i = true := by
  have ranBefore : runs step [.call 0 .shared, .call 1 .exclusive] (start 31 3) =
      .ok ([(), ()], ⟨0x80000001#32, [.holding .shared, .gate2, .outside]⟩) := rfl
  have ran : runs step [.call 2 .shared, .unlockShared 0 (some 1), .resume 1]
      ⟨0x80000001#32, [.holding .shared, .gate2, .outside]⟩ =
        .ok ([(), (), ()], ⟨0x80000000#32, [.outside, .holding .exclusive, .gate1 .shared]⟩) := rfl
  exact ⟨_, _, _, ranBefore, ran, fun i => (none_enters ranBefore (by decide) (by decide) ran i).2⟩

end Runs

end SharedMutex

end Afina.Synchronization
