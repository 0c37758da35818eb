import TsSem02.Synchronization.SharedMutex

/-! # Which wakeups of the readers-writer lock may be lost

When no thread calls in any more and every thread that holds the mutex unlocks it,
the threads that are awake go on (`Event.goesOn`) until nobody is inside.

* `drains` — with at most `n_readers_ + 1` threads this is so: they stop after a
  bounded number of steps, and not before everybody has left;
* `lost_wakeup` — with one thread more a reader may sleep at the first gate forever,
  since `unlock_shared` wakes up one thread when it makes room, and none when there
  is room already.
-/

namespace Afina.Synchronization

open Runs ConditionVariable

/-- A step of a thread that is awake and inside. -/
def Event.goesOn : Event → Bool
  | resume _ | unlock _ | notifyAll _ | unlockShared _ _ => true
  | call _ _ | tryCall _ _ _ | spurious _ => false

namespace SharedMutex

variable {bits n : Nat} {s next final : SharedMutex bits} {entered : Bool} {count : BitVec bits} {i : Nat}

/-! ## Nobody sleeps unless somebody will wake it -/

/-- Whoever sleeps at the first gate waits for a writer that has entered, for a
    `notify_all` that is about to come, or for one of the readers to leave. -/
structure Attended (s : SharedMutex bits) : Prop where
  few : s.threads.length ≤ 2 ^ bits
  gate1 : s.atGate1 ≠ 0 → s.entered ≠ 0 ∨ s.announcing ≠ 0 ∨ s.readers + 1 = 2 ^ bits

theorem attended_start (few : n ≤ 2 ^ bits) : Attended (start bits n) where
  few := by simpa [start] using few
  gate1 some := by simp [atGate1, start, List.countP_replicate, Synchronization.gate1] at some

theorem goto_place {here there : Phase} (place : s.threads[i]? = some here) (state : Word bits) :
    (s.goto i (state, there)).threads[i]? = some there := by
  have bound : i < s.threads.length := (List.getElem?_eq_some_iff.mp place).1
  simp [goto, bound]

theorem goto_waits {here : Phase} (there : Phase) (place : s.threads[i]? = some here) (state : Word bits)
    (announces : decide (there = .announcing) = decide (here = .announcing))
    (asleep : Synchronization.gate1.asleep there = Synchronization.gate1.asleep here) :
    (s.goto i (state, there)).announcing = s.announcing ∧ (s.goto i (state, there)).atGate1 = s.atGate1 := by
  have announcing := countP_move (· = .announcing) there place
  have sleeping := countP_move Synchronization.gate1.asleep there place
  rw [announces] at announcing
  rw [asleep] at sleeping
  exact ⟨Nat.add_right_cancel announcing, Nat.add_right_cancel sleeping⟩

theorem atGate1_add_readers_le (s : SharedMutex bits) : s.atGate1 + s.readers ≤ s.threads.length := by
  have within := countP_add_le (p := Synchronization.gate1.asleep) (q := isReader) (r := fun _ => true)
    (fun phase asleep => by cases phase <;> simp_all [Synchronization.gate1, isReader])
    (fun _ _ => rfl) (fun _ _ => rfl) s.threads
  rw [List.countP_true] at within
  exact within

theorem goto_entered {here there : Phase} (place : s.threads[i]? = some here) (state : Word bits)
    (enters : hasEntered there = true) : (s.goto i (state, there)).entered ≠ 0 :=
  Nat.one_le_iff_ne_zero.mp (one_le_countP (goto_place place state) enters)

theorem Attended.of_counts (attended : Attended s) (length : next.threads.length = s.threads.length)
    (enteredEq : next.entered = s.entered) (announcingEq : next.announcing = s.announcing)
    (readersEq : next.readers = s.readers) (gate1Le : next.atGate1 ≤ s.atGate1) : Attended next where
  few := length ▸ attended.few
  gate1 some := by
    rw [enteredEq, announcingEq, readersEq]
    exact attended.gate1 (by omega)

theorem Moves.length {unlocks : Bool} (moves : Moves s entered count unlocks next) :
    next.threads.length = s.threads.length := by
  cases moves with
  | announce => simp
  | leaveLast i woken threads place isEntered last notified => simpa using length_notifyOne notified
  | leaveFull i woken threads place free full notified => simpa using length_notifyOne notified
  | awake1 i threads waking => exact length_awake waking
  | awake2 i threads waking => exact length_awake waking
  | refuse | sleep | enter | read | drain | unlock | leave => exact List.length_set

theorem Attended.step {unlocks : Bool} (attended : Attended s) (sound : Sound s entered count)
    (moves : Moves s entered count unlocks next) : Attended next := by
  have few := attended.few
  have fewNext : next.threads.length ≤ 2 ^ bits := moves.length ▸ few
  have gate1 := attended.gate1
  have enteredEq := sound.entered
  have readersEq := sound.readers
  have within := s.atGate1_add_readers_le
  have full : count.toNat + 1 = 2 ^ bits ↔ count = BitVec.allOnes bits := toNat_eq_full
  cases moves with
  | refuse i place =>
    obtain ⟨enters, reads, -, -⟩ := goto_counts place s.state .outside
    obtain ⟨announces, waits⟩ := goto_waits .outside place s.state rfl rfl
    refine ⟨fewNext, fun some => ?_⟩
    have before := gate1 (by omega)
    omega
  | sleep i mode here place idle closed =>
    obtain ⟨notEntered, notHolding, -, -⟩ := idle.uncounted
    obtain ⟨enters, reads, -, -⟩ := goto_counts place s.state (.gate1 mode)
    refine ⟨fewNext, fun some => ?_⟩
    rw [notEntered] at enters
    rw [notHolding] at reads
    simp [hasEntered] at enters reads
    cases closed with
    | inl isEntered =>
      rw [isEntered, Bool.toNat_true] at enteredEq
      omega
    | inr isFull =>
      have fullNat := full.mpr isFull.2
      omega
  | enter i here place idle free =>
    exact ⟨fewNext, fun some => .inl (goto_entered place _ (by split <;> rfl))⟩
  | read i here place idle free room =>
    obtain ⟨notEntered, notHolding, notAsleep, -⟩ := idle.uncounted
    have notAnnouncing : decide (here = .announcing) = false := by
      obtain rfl | ⟨mode, rfl⟩ := idle <;> rfl
    obtain ⟨announces, waits⟩ := goto_waits (.holding .shared) place (word false (count + 1))
      notAnnouncing.symm notAsleep.symm
    refine ⟨fewNext, fun some => .inr (.inl ?_)⟩
    -- with room for a reader and no writer, only a `notify_all` can be the reason
    rw [free, Bool.toNat_false] at enteredEq
    have before := gate1 (by omega)
    have notFull := mt full.mp room
    omega
  | drain i place =>
    exact ⟨fewNext, fun some => .inl (goto_entered place _ (by split <;> rfl))⟩
  | unlock i place =>
    refine ⟨fewNext, fun some => .inr (.inl ?_)⟩
    exact Nat.one_le_iff_ne_zero.mp (one_le_countP (goto_place place 0) (by simp))
  | announce i place =>
    refine ⟨fewNext, fun some => absurd ?_ some⟩
    exact countP_asleep_notifyAll
  | leave i place quiet =>
    obtain ⟨enters, reads, -, -⟩ := leave_counts place (word entered (count - 1))
    obtain ⟨announces, waits⟩ := goto_waits .outside place (word entered (count - 1)) rfl rfl
    refine ⟨fewNext, fun some => ?_⟩
    have before := gate1 (by omega)
    -- `unlock_shared` calls nobody: the readers were not full, so they were not the reason
    cases entered with
    | true =>
      rw [Bool.toNat_true] at enteredEq
      omega
    | false =>
      have notFull := mt full.mp quiet
      rw [Bool.toNat_false] at enteredEq
      omega
  | leaveLast i woken threads place isEntered last notified =>
    obtain ⟨enters, -, -, -⟩ := leave_counts place (word entered 0)
    refine ⟨fewNext, fun _ => .inl ?_⟩
    rw [isEntered, Bool.toNat_true] at enteredEq
    have same := countP_notifyOne same_gate2.1 notified
    exact ne_of_eq_of_ne (same.trans (enters.trans enteredEq)) Nat.one_ne_zero
  | leaveFull i woken threads place free isFull notified =>
    obtain ⟨announces, waits⟩ := goto_waits .outside place (word entered (count - 1)) rfl rfl
    refine ⟨fewNext, fun some => absurd ?_ some⟩
    have fullNat := full.mpr isFull
    have one : s.atGate1 ≤ 1 := by omega
    refine (countP_asleep_notifyOne notified).trans (Nat.sub_eq_zero_of_le ?_)
    exact Nat.le_trans (Nat.le_of_eq waits) one
  | awake1 i threads waking =>
    obtain ⟨enters, holds, -⟩ := same_gate1
    have fewer := countP_asleep_awake waking
    exact attended.of_counts (length_awake waking) (countP_awake enters waking)
      (countP_awake (fun phase => by cases phase <;> rfl) waking) (countP_awake (holds .shared) waking)
      (Nat.le_of_succ_le (Nat.le_of_eq fewer))
  | awake2 i threads waking =>
    obtain ⟨enters, holds, sleeps⟩ := same_gate2
    exact attended.of_counts (length_awake waking) (countP_awake enters waking)
      (countP_awake (fun phase => by cases phase <;> rfl) waking) (countP_awake (holds .shared) waking)
      (Nat.le_of_eq (countP_awake sleeps waking))

/-! ## The steps come to an end -/

/-- How far a thread of `n` is from having left. -/
def weight (n : Nat) : Phase → Nat
  | .outside => 0
  | .holding .shared => 2
  | .announcing => n + 1
  | .holding .exclusive => n + 2
  | .gate2 => n + 3
  | .draining => n + 4
  | .gate1 _ => n + 5
  | .retrying _ => n + 6

theorem weight_le (n : Nat) (phase : Phase) : weight n phase ≤ n + 6 := by
  cases phase with
  | holding mode => cases mode <;> simp [weight]
  | _ => simp [weight]

theorem weight_waitReaders (n : Nat) (state : Word bits) : weight n (waitReaders state) ≤ n + 3 := by
  unfold waitReaders
  split <;> simp [weight]

theorem weight_attempt (n : Nat) (mode : Mode) (state : Word bits) : weight n (attempt mode state).2 ≤ n + 5 := by
  cases mode with
  | exclusive =>
    simp only [attempt, lock]
    split
    · simp [weight]
    · exact Nat.le_trans (weight_waitReaders n _) (by omega)
  | shared =>
    simp only [attempt, lockShared]
    split <;> simp [weight]

theorem weight_wake (n : Nat) {gate : Gate Phase} (either : gate = Synchronization.gate1 ∨ gate = gate2)
    (phase : Phase) : weight n (gate.wake phase) ≤ weight n phase + 1 := by
  obtain rfl | rfl := either <;> cases phase <;> simp [weight, Synchronization.gate1, gate2]

theorem unlockShared_gate {state state' : Word bits} {gate : Gate Phase}
    (left : unlockShared state = (state', some gate)) : gate = Synchronization.gate1 ∨ gate = gate2 := by
  simp only [unlockShared] at left
  split at left <;> split at left <;> cases left <;> simp

/-- Whoever goes on comes nearer to its end than it takes others back. -/
theorem total_lt {event : Event} (goesOn : event.goesOn = true) (acted : s.act event = some next) :
    next.threads.length = s.threads.length ∧
      total (weight s.threads.length) next.threads < total (weight s.threads.length) s.threads := by
  cases event with
  | call | tryCall | spurious => cases goesOn
  | resume i =>
    simp only [act] at acted
    split at acted
    · rename_i mode place
      cases acted
      have moved := total_move (weight s.threads.length) (attempt mode s.state).2 place
      have bound := weight_attempt s.threads.length mode s.state
      refine ⟨List.length_set, ?_⟩
      simp only [weight, goto] at moved bound ⊢
      omega
    · rename_i place
      cases acted
      have moved := total_move (weight s.threads.length) (waitReaders s.state) place
      have bound := weight_waitReaders s.threads.length s.state
      refine ⟨List.length_set, ?_⟩
      simp only [weight, goto] at moved bound ⊢
      omega
    · cases acted
  | unlock i =>
    simp only [act] at acted
    split at acted
    · rename_i place
      cases acted
      have moved := total_move (weight s.threads.length) .announcing place
      refine ⟨List.length_set, ?_⟩
      simp only [weight, goto] at moved ⊢
      omega
    · cases acted
  | notifyAll i =>
    simp only [act] at acted
    split at acted
    · rename_i place
      cases acted
      have moved := total_move (weight s.threads.length) .outside place
      have woken := total_notifyAll (weight_wake s.threads.length (.inl rfl)) (s.threads.set i .outside)
      refine ⟨by simp, ?_⟩
      simp only [weight, List.length_set] at moved woken ⊢
      omega
    · cases acted
  | unlockShared i woken =>
    simp only [act] at acted
    split at acted
    · rename_i place
      have moved := total_move (weight s.threads.length) .outside place
      split at acted
      · rename_i state gate left
        simp only [Option.map_eq_some_iff] at acted
        obtain ⟨threads, notified, rfl⟩ := acted
        have woken := total_notifyOne (weight_wake s.threads.length (unlockShared_gate left)) notified
        refine ⟨(length_notifyOne notified).trans List.length_set, ?_⟩
        simp only [weight] at moved ⊢
        omega
      · cases acted
        refine ⟨List.length_set, ?_⟩
        simp only [weight] at moved ⊢
        omega
    · cases acted

/-! ## Somebody can go on -/

/-- Some thread that is awake and inside can go on. -/
def CanGoOn (s : SharedMutex bits) : Prop :=
  ∃ event : Event, event.goesOn = true ∧ (s.act event).isSome = true

theorem canGoOn_of_reads (place : s.threads[i]? = some (.holding .shared)) : s.CanGoOn := by
  cases left : unlockShared s.state with
  | mk state called =>
    cases called with
    | none => exact ⟨.unlockShared i none, rfl, by simp [act, place, left]⟩
    | some gate =>
      obtain ⟨woken, notified⟩ := exists_notifyOne gate (s.threads.set i .outside)
      exact ⟨.unlockShared i woken, rfl, by simpa [act, place, left] using notified⟩

theorem canGoOn_of_readers (some : s.readers ≠ 0) : s.CanGoOn := by
  obtain ⟨i, phase, place, reads⟩ := exists_place some
  rw [of_decide_eq_true reads] at place
  exact canGoOn_of_reads place

theorem canGoOn_of_entered (sound : Sound s entered count) (some : s.entered ≠ 0) : s.CanGoOn := by
  obtain ⟨i, phase, place, enters⟩ := exists_place some
  cases phase with
  | gate2 =>
    apply canGoOn_of_readers
    exact sound.waits (Nat.one_le_iff_ne_zero.mp (one_le_countP place rfl))
  | draining => exact ⟨.resume i, rfl, by simp [act, place]⟩
  | holding mode =>
    cases mode with
    | exclusive => exact ⟨.unlock i, rfl, by simp [act, place]⟩
    | shared => cases enters
  | outside | gate1 | retrying | announcing => cases enters

theorem canGoOn_of_inside (positive : 0 < bits) (attended : Attended s) (sound : Sound s entered count)
    {phase : Phase} (inside : phase ≠ .outside) (place : s.threads[i]? = some phase) : s.CanGoOn := by
  cases phase with
  | outside => exact absurd rfl inside
  | gate1 mode =>
    have sleeps : 1 ≤ s.atGate1 := one_le_countP place rfl
    obtain enters | announces | full := attended.gate1 (by omega)
    · exact canGoOn_of_entered sound enters
    · obtain ⟨j, phase, there, announces⟩ := exists_place announces
      rw [of_decide_eq_true announces] at there
      exact ⟨.notifyAll j, rfl, by simp [act, there]⟩
    · apply canGoOn_of_readers
      have wide := Nat.one_lt_two_pow_iff.mpr (Nat.ne_of_gt positive)
      omega
  | retrying mode => exact ⟨.resume i, rfl, by simp [act, place]⟩
  | gate2 => exact canGoOn_of_entered sound (Nat.one_le_iff_ne_zero.mp (one_le_countP place rfl))
  | draining => exact ⟨.resume i, rfl, by simp [act, place]⟩
  | holding mode =>
    cases mode with
    | exclusive => exact ⟨.unlock i, rfl, by simp [act, place]⟩
    | shared => exact canGoOn_of_reads place
  | announcing => exact ⟨.notifyAll i, rfl, by simp [act, place]⟩

theorem Sound.eq_start (sound : Sound s entered count) (outside : ∀ phase ∈ s.threads, phase = .outside) :
    s = start bits s.threads.length := by
  have threads : s.threads = List.replicate s.threads.length .outside := List.eq_replicate_iff.mpr ⟨rfl, outside⟩
  have enteredEq : entered.toNat = 0 := by
    rw [← sound.entered, SharedMutex.entered, threads]
    simp [List.countP_replicate, hasEntered]
  have none : count.toNat = 0 := by
    rw [← sound.readers, SharedMutex.readers, threads]
    simp [List.countP_replicate]
  have state : s.state = 0 := by
    rw [sound.state, toNat_eq_zero.mp none, zero_eq_word]
    cases entered with
    | true => cases enteredEq
    | false => rfl
  cases s with
  | mk state' threads' =>
    cases state
    exact congrArg (SharedMutex.mk 0) threads

/-! ## Whole runs -/

section Runs

variable {events more : List Event} {replies replies' : List Unit}

/-- What holds in every state of a run of `n` threads that are not too many. -/
structure Drainable (n : Nat) (s : SharedMutex bits) : Prop where
  sound : IsSound s
  attended : Attended s
  length : s.threads.length = n

theorem drainable_of_runs (few : n ≤ 2 ^ bits) (ran : runs step events (start bits n) = .ok (replies, s)) :
    Drainable n s := by
  have initially : Drainable n (start bits n) :=
    ⟨⟨false, 0, sound_start bits n⟩, attended_start few, by simp [start]⟩
  refine runs_invariant (fun event s reply next drainable stepped => ?_) initially ran
  obtain ⟨⟨entered, count, sound⟩, attended, length⟩ := drainable
  have acted := step_ok stepped
  have moves := act_moves sound acted
  exact ⟨sound.step moves, attended.step sound moves, moves.length.trans length⟩

theorem total_runs (goOn : ∀ event ∈ more, event.goesOn = true) (ran : runs step more s = .ok (replies, final)) :
    more.length + total (weight s.threads.length) final.threads ≤ total (weight s.threads.length) s.threads := by
  induction more generalizing s replies with
  | nil =>
    cases ran
    simp
  | cons event more ih =>
    obtain ⟨reply, next, rest, stepped, ranRest, rfl⟩ := runs_cons_ok.mp ran
    obtain ⟨length, less⟩ := total_lt (goOn event List.mem_cons_self) (step_ok stepped)
    have later := ih (fun event member => goOn event (List.mem_cons_of_mem _ member)) ranRest
    rw [length] at later
    rw [List.length_cons]
    omega

/-- With at most `n_readers_ + 1` threads nobody is left asleep: if no thread calls in
    any more and the holders unlock, then after a bounded number of steps everybody
    has left, and before that some thread that is awake can go on. -/
theorem drains (positive : 0 < bits) (few : n ≤ 2 ^ bits)
    (ran : runs step events (start bits n) = .ok (replies, s)) (goOn : ∀ event ∈ more, event.goesOn = true)
    (ranMore : runs step more s = .ok (replies', final)) :
    more.length ≤ n * (n + 6) ∧ (final = start bits n ∨ final.CanGoOn) := by
  have drainable := drainable_of_runs few ran
  have length := drainable.length
  constructor
  · -- every step lowers the total weight
    have steps := total_runs goOn ranMore
    have most := total_le (weight_le s.threads.length) s.threads
    rw [length] at steps most
    omega
  · have later : runs step (events ++ more) (start bits n) = .ok (replies ++ replies', final) :=
      runs_append.mpr ⟨s, replies, replies', ran, ranMore, rfl⟩
    obtain ⟨⟨entered, count, sound⟩, attended, length⟩ := drainable_of_runs few later
    by_cases outside : ∀ phase ∈ final.threads, phase = .outside
    · exact .inl (length ▸ sound.eq_start outside)
    · simp only [not_forall, exists_prop] at outside
      obtain ⟨phase, member, inside⟩ := outside
      obtain ⟨i, place⟩ := List.mem_iff_getElem?.mp member
      exact .inr (canGoOn_of_inside positive attended sound inside place)

theorem drains_three : ∃ s final : SharedMutex 31,
    runs step [.call 0 .exclusive, .call 1 .shared, .call 2 .exclusive] (start 31 3) = .ok ([(), (), ()], s) ∧
      runs step [.unlock 0, .notifyAll 0, .resume 1, .resume 2] s = .ok ([(), (), (), ()], final) ∧
      (final = start 31 3 ∨ final.CanGoOn) := by
  have ran : runs step [.call 0 .exclusive, .call 1 .shared, .call 2 .exclusive] (start 31 3) =
      .ok ([(), (), ()], ⟨0x80000000#32, [.holding .exclusive, .gate1 .shared, .gate1 .exclusive]⟩) := rfl
  have ranMore : runs step [.unlock 0, .notifyAll 0, .resume 1, .resume 2]
      ⟨0x80000000#32, [.holding .exclusive, .gate1 .shared, .gate1 .exclusive]⟩ =
        .ok ([(), (), (), ()], ⟨0x80000001#32, [.outside, .holding .shared, .gate2]⟩) := rfl
  exact ⟨_, _, ran, ranMore, (drains (by decide) (by decide) ran (by decide) ranMore).2⟩

end Runs

/-! ## A wakeup that is lost -/

section Lost

variable {readers : Nat}

abbrev reader : Phase := .holding .shared

abbrev sleeper : Phase := .gate1 .shared

theorem getElem?_front (front : List Phase) (phase : Phase) (rest : List Phase) :
    (front ++ phase :: rest)[front.length]? = some phase := by
  simp

theorem set_front (front : List Phase) (phase there : Phase) (rest : List Phase) :
    (front ++ phase :: rest).set front.length there = front ++ there :: rest := by
  simp

theorem ofNat_add_one (readers : Nat) : BitVec.ofNat bits (readers + 1) = BitVec.ofNat bits readers + 1 :=
  BitVec.ofNat_add readers 1

theorem ofNat_ne_full (room : readers + 1 < 2 ^ bits) : BitVec.ofNat bits readers ≠ BitVec.allOnes bits := by
  intro full
  have toNat := toNat_eq_full.mpr full
  rw [BitVec.toNat_ofNat, Nat.mod_eq_of_lt (by omega)] at toNat
  omega

theorem ofNat_ne_zero (room : readers + 1 < 2 ^ bits) : BitVec.ofNat bits (readers + 1) ≠ 0 := by
  intro none
  have toNat := toNat_eq_zero.mpr none
  rw [BitVec.toNat_ofNat, Nat.mod_eq_of_lt room] at toNat
  omega

def read (bits readers : Nat) (threads : List Phase) : SharedMutex bits :=
  ⟨word false (BitVec.ofNat bits readers), threads⟩

theorem act_call (room : readers + 1 < 2 ^ bits) (front rest : List Phase) :
    (read bits readers (front ++ .outside :: rest)).act (.call front.length .shared) =
      some (read bits (readers + 1) (front ++ .holding .shared :: rest)) := by
  simp only [act, read, getElem?_front, attempt, lockShared_open (ofNat_ne_full room), goto, set_front, ofNat_add_one]

theorem act_resume (room : readers + 1 < 2 ^ bits) (front rest : List Phase) :
    (read bits readers (front ++ .retrying .shared :: rest)).act (.resume front.length) =
      some (read bits (readers + 1) (front ++ .holding .shared :: rest)) := by
  simp only [act, read, getElem?_front, attempt, lockShared_open (ofNat_ne_full room), goto, set_front, ofNat_add_one]

theorem act_call_full (full : readers + 1 = 2 ^ bits) (front rest : List Phase) :
    (read bits readers (front ++ .outside :: rest)).act (.call front.length .shared) =
      some (read bits readers (front ++ .gate1 .shared :: rest)) := by
  have isFull : BitVec.ofNat bits readers = BitVec.allOnes bits := by
    apply toNat_eq_full.mp
    rw [BitVec.toNat_ofNat, Nat.mod_eq_of_lt (by omega), full]
  simp only [act, read, getElem?_front, attempt, lockShared_closed (.inr isFull), goto, set_front]

/-- A reader that leaves when there is room wakes up nobody. -/
theorem act_unlockShared (room : readers + 2 < 2 ^ bits) (front rest : List Phase) :
    (read bits (readers + 1) (front ++ .holding .shared :: rest)).act (.unlockShared front.length none) =
      some (read bits readers (front ++ .outside :: rest)) := by
  have positive : BitVec.ofNat bits (readers + 1) ≠ 0 := ofNat_ne_zero (by omega)
  have left : unlockShared (word false _) = _ := unlockShared_word positive
  rw [if_neg Bool.false_ne_true, if_neg (ofNat_ne_full room), ofNat_add_one, BitVec.add_sub_cancel] at left
  simp only [act, read, getElem?_front, set_front, ofNat_add_one, left]

/-- One that leaves when there was none wakes up one thread at the first gate. -/
theorem act_unlockShared_full (full : readers + 2 = 2 ^ bits) (front middle rest : List Phase) :
    (read bits (readers + 1) (front ++ .holding .shared :: (middle ++ .gate1 .shared :: rest))).act
        (.unlockShared front.length (some (front ++ .outside :: middle).length)) =
      some (read bits readers (front ++ .outside :: (middle ++ .retrying .shared :: rest))) := by
  have isFull : BitVec.ofNat bits (readers + 1) = BitVec.allOnes bits := by
    apply toNat_eq_full.mp
    rw [BitVec.toNat_ofNat, Nat.mod_eq_of_lt (by omega), full]
  have positive : BitVec.ofNat bits (readers + 1) ≠ 0 := ofNat_ne_zero (by omega)
  have left : unlockShared (word false _) = _ := unlockShared_word positive
  rw [if_neg Bool.false_ne_true, if_pos isFull, ofNat_add_one, BitVec.add_sub_cancel] at left
  have woken : notifyOne gate1 (front ++ .outside :: (middle ++ .gate1 .shared :: rest))
      (some (front ++ .outside :: middle).length) =
        some (front ++ .outside :: (middle ++ .retrying .shared :: rest)) := by
    rw [← List.cons_append, ← List.append_assoc, ← List.cons_append, ← List.append_assoc]
    simp only [notifyOne, awake, getElem?_front, set_front]
    rfl
  simp only [act, read, getElem?_front, set_front, ofNat_add_one, left, woken, Option.map_some]

theorem step_of_act {event : Event} (acted : s.act event = some next) : step event s = .ok ((), next) := by
  rw [step, acted]

theorem runs_step {event : Event} {events : List Event} {replies : List Unit} (acted : s.act event = some next)
    (ran : runs step events next = .ok (replies, final)) : runs step (event :: events) s = .ok (() :: replies, final) :=
  runs_cons_ok.mpr ⟨(), next, replies, step_of_act acted, ran, rfl⟩

theorem runs_enter {more : Nat} (room : readers + more < 2 ^ bits) (front rest : List Phase) :
    runs step ((List.range' front.length more).map fun i => .call i .shared)
        (read bits readers (front ++ (List.replicate more .outside ++ rest))) =
      .ok (List.replicate more (),
        read bits (readers + more) (front ++ (List.replicate more reader ++ rest))) := by
  induction more generalizing front readers with
  | zero => rfl
  | succ more ih =>
    have later : runs step _ (read bits (readers + 1) _) = _ := ih (by omega) (front ++ [reader])
    have sum : readers + 1 + more = readers + (more + 1) := by omega
    rw [List.length_append, List.length_singleton, List.append_assoc, List.append_assoc, sum] at later
    rw [List.range'_succ, List.map_cons]
    exact runs_step (act_call (by omega) front _) later

theorem runs_leave {more : Nat} (room : readers + more + 1 < 2 ^ bits) (front rest : List Phase) :
    runs step ((List.range' front.length more).map fun i => .unlockShared i none)
        (read bits (readers + more) (front ++ (List.replicate more reader ++ rest))) =
      .ok (List.replicate more (), read bits readers (front ++ (List.replicate more .outside ++ rest))) := by
  induction more generalizing front with
  | zero => rfl
  | succ more ih =>
    have later := ih (by omega) (front ++ [.outside])
    rw [List.length_append, List.length_singleton, List.append_assoc, List.append_assoc] at later
    rw [List.range'_succ, List.map_cons, ← Nat.add_assoc]
    exact runs_step (act_unlockShared (by omega) front _) later

/-- Two threads sleep while the readers are at their limit; two readers leave, of which
    the first wakes one of them up, which takes the place of the second. -/
theorem runs_full {most : Nat} (size : most + 3 = 2 ^ bits) :
    runs step [.call (most + 2) .shared, .call (most + 3) .shared, .unlockShared 0 (some (most + 2)),
        .unlockShared 1 none, .resume (most + 2)]
        (read bits (most + 2) (List.replicate (most + 2) reader ++ [.outside, .outside])) =
      .ok (List.replicate 5 (),
        read bits (most + 1) (.outside :: .outside :: (List.replicate (most + 1) reader ++ [sleeper]))) := by
  have sleep : (read bits (most + 2) (List.replicate (most + 2) reader ++ [.outside, .outside])).act
      (.call (most + 2) .shared) =
        some (read bits (most + 2) (List.replicate (most + 2) reader ++ [sleeper, .outside])) := by
    simpa using act_call_full size (List.replicate (most + 2) reader) [.outside]
  have sleepToo : (read bits (most + 2) (List.replicate (most + 2) reader ++ [sleeper, .outside])).act
      (.call (most + 3) .shared) =
        some (read bits (most + 2) (List.replicate (most + 2) reader ++ [sleeper, sleeper])) := by
    have called := act_call_full size (List.replicate (most + 2) reader ++ [sleeper]) []
    rw [List.length_append, List.length_replicate, List.append_assoc, List.append_assoc] at called
    exact called
  have leave : (read bits (most + 2) (List.replicate (most + 2) reader ++ [sleeper, sleeper])).act
      (.unlockShared 0 (some (most + 2))) =
        some (read bits (most + 1)
          (.outside :: (List.replicate (most + 1) reader ++ [.retrying .shared, sleeper]))) := by
    have left := act_unlockShared_full size [] (List.replicate (most + 1) reader) [sleeper]
    simpa [List.replicate_succ] using left
  have leaveToo : (read bits (most + 1)
      (.outside :: (List.replicate (most + 1) reader ++ [.retrying .shared, sleeper]))).act (.unlockShared 1 none) =
        some (read bits most
          (.outside :: .outside :: (List.replicate most reader ++ [.retrying .shared, sleeper]))) :=
    act_unlockShared (by omega) [.outside] _
  have resume : (read bits most
      (.outside :: .outside :: (List.replicate most reader ++ [.retrying .shared, sleeper]))).act (.resume (most + 2)) =
        some (read bits (most + 1)
          (.outside :: .outside :: (List.replicate (most + 1) reader ++ [sleeper]))) := by
    have room : most + 1 < 2 ^ bits := by omega
    have resumed := act_resume room (.outside :: .outside :: List.replicate most reader) [sleeper]
    simpa [List.replicate_succ'] using resumed
  exact runs_step sleep (runs_step sleepToo (runs_step leave (runs_step leaveToo (runs_step resume rfl))))

theorem not_canGoOn (asleep : ∀ phase ∈ s.threads, phase = .outside ∨ ∃ mode, phase = .gate1 mode) :
    ¬ s.CanGoOn := by
  rintro ⟨event, goesOn, acts⟩
  cases event with
  | call | tryCall | spurious => cases goesOn
  | resume i | unlock i | notifyAll i | unlockShared i woken =>
    cases place : s.threads[i]? with
    | none => simp [act, place] at acts
    | some phase =>
      obtain rfl | ⟨mode, rfl⟩ := asleep phase (List.mem_of_getElem? place) <;> simp [act, place] at acts

/-- With `n_readers_ + 2` threads a reader may sleep forever: nobody holds the mutex
    or is about to, and nobody wakes it. -/
theorem lost_wakeup (wide : 1 < bits) : ∃ events replies, ∃ s : SharedMutex bits,
    runs step events (start bits (2 ^ bits + 1)) = .ok (replies, s) ∧ s.state = 0 ∧
      s.threads = List.replicate (2 ^ bits) .outside ++ [.gate1 .shared] ∧ ¬ s.CanGoOn := by
  have four : 2 ^ 2 ≤ 2 ^ bits := Nat.pow_le_pow_right (by omega) wide
  obtain ⟨most, size⟩ : ∃ most, most + 3 = 2 ^ bits := ⟨2 ^ bits - 3, by omega⟩
  have starts : start bits (2 ^ bits + 1) =
      read bits 0 (List.replicate (most + 2) .outside ++ [.outside, .outside]) := by
    have threads : List.replicate (2 ^ bits + 1) Phase.outside =
        List.replicate (most + 2) .outside ++ [.outside, .outside] := by
      rw [← size, show most + 3 + 1 = (most + 2) + 2 from rfl, ← List.replicate_append_replicate]
      rfl
    rw [start, threads, zero_eq_word]
    rfl
  have fill : runs step _ (read bits 0 ([] ++ _)) = .ok (_, read bits (0 + (most + 2)) _) :=
    runs_enter (by omega) [] [.outside, .outside]
  have empty : runs step _ (read bits (0 + (most + 1)) ([.outside, .outside] ++ _)) = .ok (_, read bits 0 _) :=
    runs_leave (by omega) [.outside, .outside] [sleeper]
  rw [Nat.zero_add] at fill empty
  have rest := runs_append.mpr ⟨_, _, _, runs_full size, empty, rfl⟩
  refine ⟨_, _, _, starts ▸ runs_append.mpr ⟨_, _, _, fill, rest, rfl⟩, zero_eq_word.symm, ?_, ?_⟩
  · rw [← size, List.replicate_succ, List.replicate_succ]
    rfl
  · apply not_canGoOn
    intro phase member
    simp only [read, List.cons_append, List.nil_append, List.mem_cons, List.mem_append, List.mem_replicate,
      List.not_mem_nil, or_false] at member
    obtain rfl | rfl | ⟨-, rfl⟩ | rfl := member
    · exact .inl rfl
    · exact .inl rfl
    · exact .inl rfl
    · exact .inr ⟨.shared, rfl⟩

theorem lost_wakeup_unsigned : ∃ events replies, ∃ s : SharedMutex 31,
    runs step events (start 31 (2 ^ 31 + 1)) = .ok (replies, s) ∧ s.state = 0 ∧
      s.threads = List.replicate (2 ^ 31) .outside ++ [.gate1 .shared] ∧ ¬ s.CanGoOn :=
  lost_wakeup (by decide)

end Lost

end SharedMutex

end Afina.Synchronization
