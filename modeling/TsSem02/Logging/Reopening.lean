import TsSem02.Library.Worklist
import TsSem02.Logging.ServiceImpl

/-! # Which files are reopened

The loop of `ServiceImpl::reopen_all` works off a work list of sinks, as long as
no `reopen` throws.  So it ends, and it has called `reopen` once for every
`ext_rotate_file_sink_mt` that is reachable through `dist_sink_st`s, which are the
classes `Start` makes, and for nothing else (`reopenAll_once`).
-/

namespace Afina.Logging

variable {Ptr : Type} {graph : Ptr → Sink Ptr} {opens : Ptr → Bool} {loggers : List (Logger Ptr)}
  {s : Reopening Ptr} {psink : Option Ptr}

/-- All sinks a distribution sink points to. -/
def Sink.sinks : Sink Ptr → List (Option Ptr)
  | .distSink _ sinks => sinks
  | .spdlogDistSink sinks => sinks
  | _ => []

/-- The sinks `reopen_all` puts into its queue. -/
def Sink.followed : Sink Ptr → List (Option Ptr)
  | .distSink .st sinks => sinks
  | _ => []

def links (graph : Ptr → Sink Ptr) (sinks : Sink Ptr → List (Option Ptr)) : Option Ptr → List (Option Ptr)
  | none => []
  | some sink => sinks (graph sink)

/-- The sinks that can be reached from a registered logger. -/
def Reachable (graph : Ptr → Sink Ptr) (sinks : Sink Ptr → List (Option Ptr)) (loggers : List (Logger Ptr))
    (sink : Ptr) : Prop :=
  Worklist.Reaches (links graph sinks) (loggers.flatMap Logger.sinks) (some sink)

/-- The sink, if it is one `reopen_all` calls `reopen` of. -/
def fileOf (graph : Ptr → Sink Ptr) (psink : Option Ptr) : Option Ptr :=
  psink.filter fun sink => graph sink matches .extRotateFileSink .mt

theorem fileOf_eq_some {file : Ptr} :
    fileOf graph psink = some file ↔ psink = some file ∧ graph file = .extRotateFileSink .mt := by
  rw [fileOf, Option.filter_eq_some_iff]
  refine and_congr_right fun _ => ?_
  cases graph file with
  | extRotateFileSink mutex => cases mutex <;> simp
  | _ => simp

def Reopening.worklist (s : Reopening Ptr) : Worklist.State (Option Ptr) := ⟨s.sinks, s.seen⟩

variable [DecidableEq Ptr]

/-! ## One round -/

theorem reopenRound_threw (threw : s.threw = true) : reopenRound graph opens s = s := by
  rw [reopenRound, if_pos threw]

/-- What a round of the loop does. -/
inductive Rounds (graph : Ptr → Sink Ptr) (opens : Ptr → Bool) (s : Reopening Ptr) : Reopening Ptr → Prop where
  | empty : s.sinks = [] → Rounds graph opens s s
  | seen (psink : Option Ptr) (sinks : List (Option Ptr)) : s.sinks = psink :: sinks → psink ∈ s.seen →
      Rounds graph opens s { s with sinks := sinks }
  | file (file : Ptr) (sinks : List (Option Ptr)) : s.sinks = some file :: sinks → some file ∉ s.seen →
      graph file = .extRotateFileSink .mt →
      Rounds graph opens s { s with
        sinks := sinks
        seen := s.seen ++ [some file]
        reopened := s.reopened ++ [file]
        threw := !opens file }
  | other (psink : Option Ptr) (sinks : List (Option Ptr)) : s.sinks = psink :: sinks → psink ∉ s.seen →
      fileOf graph psink = none →
      Rounds graph opens s { s with
        sinks := sinks ++ links graph Sink.followed psink
        seen := s.seen ++ [psink] }

theorem reopenRound_rounds (running : s.threw = false) : Rounds graph opens s (reopenRound graph opens s) := by
  rw [reopenRound, if_neg (by simp [running])]
  match queue : s.sinks with
  | [] => exact .empty queue
  | psink :: sinks =>
    dsimp only
    by_cases seen : psink ∈ s.seen
    · rw [if_pos seen]
      exact .seen psink sinks queue seen
    · rw [if_neg seen]
      have other := @Rounds.other _ graph opens s psink sinks queue seen
      cases psink with
      | none =>
        rw [links, List.append_nil] at other
        exact other rfl
      | some sink =>
        dsimp only
        rw [links, fileOf, Option.filter_some] at other
        cases kind : graph sink with
        | extRotateFileSink mutex =>
          cases mutex with
          | mt => exact .file sink sinks queue seen kind
          | st => simpa [kind, Sink.followed] using other
        | distSink mutex more => cases mutex <;> simpa [kind, Sink.followed] using other
        | spdlogDistSink more => simpa [kind, Sink.followed] using other
        | other => simpa [kind, Sink.followed] using other

theorem Rounds.worklist {s' : Reopening Ptr} (round : Rounds graph opens s s') :
    s'.worklist = Worklist.step (links graph Sink.followed) s.worklist := by
  cases round with
  | empty queue => rw [Worklist.step_nil queue]
  | seen psink sinks queue seen => rw [Worklist.step_seen queue seen]; rfl
  | file file sinks queue fresh kind =>
    have leaf : links graph Sink.followed (some file) = [] := by simp [links, kind, Sink.followed]
    rw [Worklist.step_new queue fresh, leaf, List.append_nil]
    rfl
  | other psink sinks queue fresh => rw [Worklist.step_new queue fresh]; rfl

/-! ## All rounds -/

/-- What the rounds so far have in common with a work list. -/
structure Traces (graph : Ptr → Sink Ptr) (opens : Ptr → Bool) (roots : List (Option Ptr)) (rounds : Nat)
    (s : Reopening Ptr) : Prop where
  worklist : ∃ steps, (s.threw = false → steps = rounds) ∧
    s.worklist = (Worklist.step (links graph Sink.followed))^[steps] (Worklist.start roots)
  reopened : s.reopened = s.seen.filterMap (fileOf graph)
  threw : s.threw = false ↔ ∀ file ∈ s.reopened, opens file = true

theorem Rounds.traces {roots : List (Option Ptr)} {rounds : Nat} {s' : Reopening Ptr}
    (round : Rounds graph opens s s') (running : s.threw = false) (traces : Traces graph opens roots rounds s) :
    Traces graph opens roots (rounds + 1) s' := by
  obtain ⟨⟨steps, same, worklist⟩, reopened, threw⟩ := traces
  have opened := threw.mp running
  refine ⟨⟨rounds + 1, fun _ => rfl, ?_⟩, ?_, ?_⟩
  · rw [round.worklist, worklist, same running, Function.iterate_succ_apply']
  · cases round with
    | empty => exact reopened
    | seen => exact reopened
    | file file sinks queue fresh kind =>
      have found : fileOf graph (some file) = some file := fileOf_eq_some.mpr ⟨rfl, kind⟩
      rw [List.filterMap_append, List.filterMap_cons_some found, reopened]
      rfl
    | other psink sinks queue fresh none =>
      rw [List.filterMap_append, List.filterMap_cons_none none, List.filterMap_nil, List.append_nil]
      exact reopened
  · cases round with
    | empty => exact threw
    | seen => exact threw
    | file file sinks =>
      simp only [Bool.not_eq_false', List.forall_mem_append, List.forall_mem_singleton]
      exact ⟨fun opens => ⟨opened, opens⟩, And.right⟩
    | other => exact threw

theorem iterate_traces (graph : Ptr → Sink Ptr) (opens : Ptr → Bool) (loggers : List (Logger Ptr)) (rounds : Nat) :
    Traces graph opens (loggers.flatMap Logger.sinks) rounds
      ((reopenRound graph opens)^[rounds] (collectSinks loggers)) := by
  induction rounds with
  | zero => exact ⟨⟨0, fun _ => rfl, rfl⟩, rfl, by simp [collectSinks]⟩
  | succ rounds ih =>
    rw [Function.iterate_succ_apply']
    cases running : ((reopenRound graph opens)^[rounds] (collectSinks loggers)).threw with
    | false => exact (reopenRound_rounds running).traces running ih
    | true =>
      obtain ⟨⟨steps, -, worklist⟩, reopened, threw⟩ := ih
      rw [reopenRound_threw running]
      exact ⟨⟨steps, fun running' => by simp [running] at running', worklist⟩, reopened, threw⟩

structure Reopens (graph : Ptr → Sink Ptr) (opens : Ptr → Bool) (loggers : List (Logger Ptr))
    (final : Reopening Ptr) : Prop where
  finished : final.Finished
  once : final.reopened.Nodup
  only : ∀ file ∈ final.reopened,
    graph file = .extRotateFileSink .mt ∧ Reachable graph Sink.followed loggers file
  every : (∀ file ∈ final.reopened, opens file = true) →
    ∀ file, graph file = .extRotateFileSink .mt → Reachable graph Sink.followed loggers file →
      file ∈ final.reopened

/-- Over finitely many sinks the loop is left, by an exception or because the queue
    is empty. -/
theorem reopenAll_once [Fintype Ptr] (graph : Ptr → Sink Ptr) (opens : Ptr → Bool) (loggers : List (Logger Ptr)) :
    ∃ rounds, Reopens graph opens loggers ((reopenRound graph opens)^[rounds] (collectSinks loggers)) := by
  obtain ⟨rounds, empty⟩ := Worklist.exists_finished (links graph Sink.followed) (loggers.flatMap Logger.sinks)
  refine ⟨rounds, ?_⟩
  obtain ⟨⟨steps, same, worklist⟩, reopened, threw⟩ := iterate_traces graph opens loggers rounds
  generalize (reopenRound graph opens)^[rounds] (collectSinks loggers) = final at *
  have invariant := Worklist.iterate_invariant (links graph Sink.followed) (loggers.flatMap Logger.sinks) steps
  rw [← worklist] at invariant
  have emptied (running : final.threw = false) : final.sinks = [] := by
    rw [← same running, ← worklist] at empty
    exact empty
  have member {file : Ptr} : file ∈ final.reopened ↔ some file ∈ final.seen ∧ graph file = .extRotateFileSink .mt := by
    rw [reopened, List.mem_filterMap]
    simp only [fileOf_eq_some]
    constructor
    · rintro ⟨_, seen, rfl, kind⟩
      exact ⟨seen, kind⟩
    · rintro ⟨seen, kind⟩
      exact ⟨_, seen, rfl, kind⟩
  constructor
  case finished =>
    cases running : final.threw with
    | false => exact .inl (emptied running)
    | true => exact .inr running
  case once =>
    rw [reopened]
    refine invariant.nodup.filterMap fun a b file fromA fromB => ?_
    rw [(fileOf_eq_some.mp fromA).1, (fileOf_eq_some.mp fromB).1]
  case only =>
    intro file called
    obtain ⟨seen, kind⟩ := member.mp called
    exact ⟨kind, invariant.sound _ (.inr seen)⟩
  case every =>
    intro opened file kind reachable
    have seen := (invariant.mem_seen_iff (emptied (threw.mpr opened))).mpr reachable
    exact member.mpr ⟨seen, kind⟩

/-- `reopen` is called once for every `ext_rotate_file_sink` that is reachable through
    distribution sinks, and for nothing else. -/
structure ReopensAll (graph : Ptr → Sink Ptr) (loggers : List (Logger Ptr)) (final : Reopening Ptr) : Prop where
  finished : final.Finished
  once : final.reopened.Nodup
  iff : ∀ file, file ∈ final.reopened ↔
    (∃ mutex, graph file = .extRotateFileSink mutex) ∧ Reachable graph Sink.sinks loggers file

def loggerTo (sinks : List Ptr) : Logger Ptr := ⟨ascii "root", sinks.map some, .info, [], .err⟩

/-- The cast of a file sink without a lock fails, and a file that cannot be opened
    ends the loop. -/
theorem not_reopensAll :
    (¬ ∃ rounds, ReopensAll (fun _ : Fin 1 => .extRotateFileSink .st) [loggerTo [0]]
      ((reopenRound (fun _ => .extRotateFileSink .st) fun _ => true)^[rounds] (collectSinks [loggerTo [0]]))) ∧
    ¬ ∃ rounds, ReopensAll (fun _ : Fin 2 => .extRotateFileSink .mt) [loggerTo [0, 1]]
      ((reopenRound (fun _ => .extRotateFileSink .mt) fun file => file ≠ 0)^[rounds]
        (collectSinks [loggerTo [0, 1]])) := by
  constructor
  · rintro ⟨rounds, -, -, iff⟩
    have called := (iff 0).mpr ⟨⟨.st, rfl⟩, .root (by decide)⟩
    rw [(iterate_traces _ _ _ rounds).reopened, List.mem_filterMap] at called
    obtain ⟨psink, -, found⟩ := called
    cases (fileOf_eq_some.mp found).2
  · rintro ⟨rounds, -, -, iff⟩
    have called := (iff 1).mpr ⟨⟨.mt, rfl⟩, .root (by decide)⟩
    cases rounds with
    | zero => cases called
    | succ rounds =>
      rw [Function.iterate_succ_apply, Function.iterate_fixed (reopenRound_threw rfl)] at called
      revert called
      decide

end Afina.Logging
