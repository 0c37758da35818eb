import TsSem02.Library.ConditionVariable
import TsSem02.Library.Runs

/-! # The latch of the materials

`await` tests the count once: when its wait ends it returns, for whatever reason the
wait has ended.

* `step_does` — what a step does to the count, to those who sleep and to those who
  return before zero;
* `counts_down` — the count is what has been counted down, nobody sleeps at zero, and
  an `await` returns before zero only where its wait has ended by itself.
-/

namespace Afina.Synchronization.CountDownLatch

open Runs ConditionVariable

inductive Phase where
  | outside
  | waiting (timed : Bool)   -- asleep in `cv.wait` or `cv.wait_for`
  | woken (notified : Bool)  -- its wait has ended; by a notification, or by itself
deriving DecidableEq, Repr

def cv : Gate Phase where
  asleep
    | .waiting _ => true
    | _ => false
  wake
    | .waiting _ => .woken true
    | phase => phase
  asleep_wake phase := by cases phase <;> rfl
  wake_of_awake phase awake := by
    cases phase with
    | waiting => cases awake
    | _ => rfl

structure Latch where
  count : BitVec 32
  threads : List Phase
deriving DecidableEq, Repr

inductive Disabled where
  | disabled
deriving DecidableEq, Repr

inductive Event where
  | await (thread : Nat) (nanosecs : BitVec 64)
  | countDown (thread : Nat)
  | timeOut (thread : Nat)
  | spurious (thread : Nat)
  | resume (thread : Nat)  -- a thread whose wait has ended has got `lock` again, and returns
deriving DecidableEq, Repr

def Event.isCountDown : Event → Bool
  | .countDown _ => true
  | _ => false

/-- A wait that ends by itself. -/
def Event.endsItself : Event → Bool
  | .timeOut _ | .spurious _ => true
  | _ => false

namespace Latch

def start (count : BitVec 32) (threads : Nat) : Latch where
  count := count
  threads := List.replicate threads .outside

def countDown (s : Latch) : Latch :=
  if s.count = 0 then s
  else
    let count := s.count - 1
    { count, threads := if count = 0 then notifyAll cv s.threads else s.threads }

/-- A step; the reply is the count at which an `await` returns. -/
def step : Event → Latch → Except Disabled (Option (BitVec 32) × Latch)
  | .await i nanosecs, s =>
    match s.threads[i]? with
    | some .outside =>
      if s.count = 0 then .ok (some s.count, s)
      else .ok (none, { s with threads := s.threads.set i (.waiting (decide (nanosecs ≠ 0))) })
    | _ => .error .disabled
  | .countDown i, s =>
    match s.threads[i]? with
    | some .outside => .ok (none, s.countDown)
    | _ => .error .disabled
  | .timeOut i, s =>
    match s.threads[i]? with
    | some (.waiting true) => .ok (none, { s with threads := s.threads.set i (.woken false) })
    | _ => .error .disabled
  | .spurious i, s =>
    match s.threads[i]? with
    | some (.waiting _) => .ok (none, { s with threads := s.threads.set i (.woken false) })
    | _ => .error .disabled
  | .resume i, s =>
    match s.threads[i]? with
    | some (.woken _) => .ok (some s.count, { s with threads := s.threads.set i .outside })
    | _ => .error .disabled

/-! ## The invariant -/

/-- An `await` that has returned before zero. -/
def isEarly (reply : Option (BitVec 32)) : Bool := reply.any fun count => count ≠ 0

/-- Nobody sleeps at zero, and whoever has been notified finds zero. -/
structure Sound (s : Latch) : Prop where
  asleep : s.threads.countP cv.asleep ≠ 0 → s.count ≠ 0
  notified : s.threads.countP (· = .woken true) ≠ 0 → s.count = 0

theorem sound_start (count : BitVec 32) (n : Nat) : Sound (start count n) where
  asleep some := by simp [start, List.countP_replicate, cv] at some
  notified some := by simp [start, List.countP_replicate] at some

section Steps

variable {s next : Latch} {event : Event} {reply : Option (BitVec 32)}

/-- What a step does to the count, to the invariant, and to the early returns. -/
structure Does (event : Event) (s : Latch) (reply : Option (BitVec 32)) (next : Latch) : Prop where
  sound : Sound next
  count : next.count.toNat = s.count.toNat - event.isCountDown.toNat
  early : (isEarly reply).toNat + next.threads.countP (· = .woken false) ≤
    event.endsItself.toNat + s.threads.countP (· = .woken false)

theorem moves_does {i : Nat} {here there : Phase} (sound : Sound s) (place : s.threads[i]? = some here)
    (notCounts : event.isCountDown = false) (asleep : cv.asleep there = true → cv.asleep here = true ∨ s.count ≠ 0)
    (notified : there ≠ .woken true)
    (early : (isEarly reply).toNat + (decide (there = .woken false)).toNat ≤
      event.endsItself.toNat + (decide (here = .woken false)).toNat) :
    Does event s reply { s with threads := s.threads.set i there } := by
  have sleeping := countP_move cv.asleep there place
  have notifying := countP_move (· = .woken true) there place
  have ending := countP_move (· = .woken false) there place
  rw [decide_eq_false notified, Bool.toNat_false] at notifying
  refine ⟨⟨fun some => ?_, fun some => sound.notified (by dsimp only at some; omega)⟩, by simp [notCounts], ?_⟩
  · by_cases sleeps : cv.asleep there = true
    · obtain slept | positive := asleep sleeps
      · exact sound.asleep (Nat.one_le_iff_ne_zero.mp (one_le_countP place slept))
      · exact positive
    · rw [Bool.not_eq_true] at sleeps
      rw [sleeps, Bool.toNat_false] at sleeping
      exact sound.asleep (by dsimp only at some; omega)
  · dsimp only
    omega

theorem countDown_does (i : Nat) (sound : Sound s) : Does (.countDown i) s none s.countDown := by
  unfold countDown
  split
  · rename_i zero
    exact ⟨sound, by simp [zero], by simp [isEarly]⟩
  · rename_i positive
    have less : (s.count - 1).toNat = s.count.toNat - 1 := by bv_omega
    by_cases last : s.count - 1 = 0
    · simp only [last, if_true]
      rw [last] at less
      have same : (notifyAll cv s.threads).countP (· = .woken false) = s.threads.countP (· = .woken false) :=
        countP_notifyAll fun phase => by cases phase <;> rfl
      exact ⟨⟨fun some => absurd countP_asleep_notifyAll some, fun _ => rfl⟩, less, by simp [isEarly, same]⟩
    · simp only [last, if_false]
      exact ⟨⟨fun _ => last, fun some => absurd (sound.notified some) positive⟩, less, by simp [isEarly]⟩

theorem step_does (sound : Sound s) (stepped : step event s = .ok (reply, next)) : Does event s reply next := by
  cases event with
  | await i nanosecs =>
    simp only [step] at stepped
    split at stepped
    · rename_i place
      split at stepped
      · rename_i zero
        cases stepped
        exact ⟨sound, by simp [Event.isCountDown], by simp [isEarly, zero]⟩
      · rename_i positive
        cases stepped
        exact moves_does sound place rfl (fun _ => .inr positive) (by simp) (by simp [isEarly])
    · cases stepped
  | countDown i =>
    simp only [step] at stepped
    split at stepped
    · cases stepped
      exact countDown_does i sound
    · cases stepped
  | timeOut i =>
    simp only [step] at stepped
    split at stepped
    · rename_i place
      cases stepped
      exact moves_does sound place rfl (fun asleep => by cases asleep) (by simp) (by simp [isEarly, Event.endsItself])
    · cases stepped
  | spurious i =>
    simp only [step] at stepped
    split at stepped
    · rename_i timed place
      cases stepped
      exact moves_does sound place rfl (fun asleep => by cases asleep) (by simp) (by simp [isEarly, Event.endsItself])
    · cases stepped
  | resume i =>
    simp only [step] at stepped
    split at stepped
    · rename_i notified place
      cases stepped
      refine moves_does sound place rfl (fun asleep => by cases asleep) (by simp) ?_
      cases notified with
      | false =>
        have most := Bool.toNat_le (isEarly (some s.count))
        simpa [Event.endsItself] using most
      | true =>
        have zero := sound.notified (Nat.one_le_iff_ne_zero.mp (one_le_countP place (by simp)))
        simp [isEarly, zero]
    · cases stepped

end Steps

/-! ## Whole runs -/

section Runs

variable {s final : Latch} {events : List Event} {replies : List (Option (BitVec 32))} {count : BitVec 32} {n : Nat}

theorem runs_does (sound : Sound s) (ran : runs step events s = .ok (replies, final)) :
    Sound final ∧ final.count.toNat = s.count.toNat - events.countP Event.isCountDown ∧
      replies.countP isEarly + final.threads.countP (· = .woken false) ≤
        events.countP Event.endsItself + s.threads.countP (· = .woken false) := by
  induction events generalizing s replies with
  | nil =>
    cases ran
    exact ⟨sound, rfl, by simp⟩
  | cons event events ih =>
    obtain ⟨reply, next, rest, stepped, ranRest, rfl⟩ := runs_cons_ok.mp ran
    have does := step_does sound stepped
    obtain ⟨soundFinal, counted, early⟩ := ih does.sound ranRest
    have countedFirst := does.count
    have earlyFirst := does.early
    simp only [countP_cons_toNat]
    exact ⟨soundFinal, by omega, by omega⟩

/-- In every run the latch has counted down as often as it was asked to, down to zero;
    at zero nobody sleeps; and an `await` returns before zero at most as often as a
    wait has ended by itself. -/
theorem counts_down (ran : runs step events (start count n) = .ok (replies, s)) :
    s.count.toNat = count.toNat - events.countP Event.isCountDown ∧
      (count.toNat ≤ events.countP Event.isCountDown → ∀ timed, .waiting timed ∉ s.threads) ∧
      replies.countP isEarly ≤ events.countP Event.endsItself := by
  obtain ⟨sound, counted, early⟩ := runs_does (sound_start count n) ran
  have nobody : (start count n).threads.countP (· = .woken false) = 0 := by simp [start, List.countP_replicate]
  refine ⟨counted, fun enough timed sleeps => ?_, by omega⟩
  have positive := sound.asleep (Nat.one_le_iff_ne_zero.mp (List.countP_pos_iff.mpr ⟨_, sleeps, rfl⟩))
  apply positive
  apply BitVec.eq_of_toNat_eq
  rw [counted]
  exact Nat.sub_eq_zero_of_le enough

/-- Two threads wait, one of them returns at one. -/
theorem counts_down_two : ∃ replies s,
    runs step [.await 0 0, .await 1 5, .countDown 2, .timeOut 1, .resume 1, .countDown 2, .resume 0] (start 2 3) =
        .ok (replies, s) ∧ replies.countP isEarly = 1 ∧ replies.countP isEarly ≤ 1 ∧ s.count.toNat = 2 - 2 := by
  have ran : runs step [.await 0 0, .await 1 5, .countDown 2, .timeOut 1, .resume 1, .countDown 2, .resume 0]
      (start 2 3) = .ok ([none, none, none, none, some 1, none, some 0], ⟨0, [.outside, .outside, .outside]⟩) := rfl
  exact ⟨_, _, ran, by decide, (counts_down ran).2.2, (counts_down ran).1⟩

end Runs

end Latch

end Afina.Synchronization.CountDownLatch
