import TsSem02.Coroutine.Engine
import TsSem02.Library.LinkedList

/-! # The life of the coroutines

The list `alive` holds the routines that were created and have not finished, and
`cur_routine` is the one that has control (`Running`).  So no operation runs into
undefined behaviour, up to the one that finishes the last routine: `yield` then
compares two null pointers and dereferences one of them (`lifecycle_iff`).
`alive_exact` says of all states of all runs which routines the list holds.
-/

namespace Afina.Coroutine.Engine

open LinkedList Runs

/-! ## What the memory holds -/

/-- The contexts are those of `nodes`, in the list `alive`, and the idle one. -/
structure Stands (engine : Engine) (nodes : List Ptr) : Prop where
  linked : Linked engine.next engine.prev engine.alive nodes.getLast? nodes
  contexts : ∀ p, p ∈ engine.contexts ↔ p = engine.idleCtx ∨ p ∈ nodes
  idle : engine.idleCtx ∉ nodes

/-- A routine of the list has control. -/
structure Running (engine : Engine) (nodes : List Ptr) (pc : Ptr) : Prop where
  stands : engine.Stands nodes
  current : engine.curRoutine = some pc
  control : engine.control = .routine pc
  member : pc ∈ nodes

section Switching

variable {engine : Engine} {nodes : List Ptr} {pc ctx : Ptr}

theorem deref_of_mem (allocated : pc ∈ engine.contexts) : engine.deref (some pc) = .ok pc := by
  rw [deref, if_pos allocated]

theorem Stands.allocated (stands : engine.Stands nodes) (member : pc ∈ nodes) : pc ∈ engine.contexts :=
  (stands.contexts pc).mpr (.inr member)

theorem Stands.ne_idle (stands : engine.Stands nodes) (member : pc ∈ nodes) : pc ≠ engine.idleCtx := by
  rintro rfl
  exact stands.idle member

theorem Stands.congr {other : Engine} (stands : engine.Stands nodes) (next : other.next = engine.next)
    (prev : other.prev = engine.prev) (alive : other.alive = engine.alive)
    (idle : other.idleCtx = engine.idleCtx) (contexts : other.contexts = engine.contexts) :
    other.Stands nodes where
  linked := by rw [next, prev, alive]; exact stands.linked
  contexts := by rw [contexts, idle]; exact stands.contexts
  idle := by rw [idle]; exact stands.idle

theorem enter_running (stands : engine.Stands nodes)
    (current : ∀ cur, engine.curRoutine = some cur → cur ∈ nodes) (member : ctx ∈ nodes) :
    ∃ next, engine.enter ctx = .ok next ∧ next.Running nodes ctx := by
  have suspends : engine.suspend = .ok () := by
    rw [suspend]
    cases cur : engine.curRoutine with
    | none => rfl
    | some cur' =>
      have allocated := stands.allocated (current cur' cur)
      simp only [deref_of_mem allocated]
      split <;> rfl
  have restores : ({ engine with curRoutine := some ctx } : Engine).restore ctx =
      .ok { engine with curRoutine := some ctx, control := .routine ctx } := by
    have allocated : ctx ∈ ({ engine with curRoutine := some ctx } : Engine).contexts :=
      stands.allocated member
    rw [restore, deref_of_mem allocated]
    show Except.ok _ = Except.ok _
    rw [if_neg (stands.ne_idle member)]
  refine ⟨_, by rw [enter, suspends]; exact restores, ?_⟩
  exact ⟨stands.congr rfl rfl rfl rfl rfl, rfl, rfl, member⟩

theorem Running.current_mem (running : engine.Running nodes pc) :
    ∀ cur, engine.curRoutine = some cur → cur ∈ nodes := by
  intro cur same
  rw [running.current] at same
  cases same
  exact running.member

theorem yield_running (running : engine.Running nodes pc) :
    ∃ next q, engine.yield = .ok next ∧ next.Running nodes q := by
  have stands := running.stands
  obtain ⟨head, rest, rfl⟩ := List.exists_cons_of_ne_nil (List.ne_nil_of_mem running.member)
  have alive : engine.alive = some head := stands.linked.head_eq
  rw [yield, alive]
  split
  · rw [deref_of_mem (stands.allocated List.mem_cons_self)]
    have link : engine.next head = rest.head? := stands.linked.forward.1
    cases rest with
    | nil => exact ⟨engine, pc, by simp [link, Bind.bind, Except.bind]; rfl, running⟩
    | cons second rest =>
      have member : second ∈ head :: second :: rest := List.mem_cons_of_mem _ List.mem_cons_self
      obtain ⟨next, entered, runs⟩ := enter_running stands running.current_mem member
      exact ⟨next, second, by simpa [link, Bind.bind, Except.bind] using entered, runs⟩
  · have member : head ∈ head :: rest := List.mem_cons_self
    obtain ⟨next, entered, runs⟩ := enter_running stands running.current_mem member
    exact ⟨next, head, entered, runs⟩

theorem sched_running (running : engine.Running nodes pc) {routine : Option Ptr}
    (unfinished : ∀ p, routine = some p → p ∈ nodes) :
    ∃ next q, engine.sched routine = .ok next ∧ next.Running nodes q := by
  unfold sched
  split
  · exact ⟨engine, pc, rfl, running⟩
  · cases routine with
    | none => exact yield_running running
    | some ctx =>
      obtain ⟨next, entered, runs⟩ := enter_running running.stands running.current_mem (unfinished ctx rfl)
      exact ⟨next, ctx, entered, runs⟩

end Switching

/-! ## A routine is created -/

section Linking

variable {engine : Engine} {nodes before after : List Ptr} {p pc new : Ptr}

theorem setNext_of_mem (allocated : p ∈ engine.contexts) (q : Option Ptr) :
    engine.setNext (some p) q = .ok { engine with next := Function.update engine.next p q } := by
  rw [setNext, deref_of_mem allocated]
  rfl

theorem setPrev_of_mem (allocated : p ∈ engine.contexts) (q : Option Ptr) :
    engine.setPrev (some p) q = .ok { engine with prev := Function.update engine.prev p q } := by
  rw [setPrev, deref_of_mem allocated]
  rfl

theorem linkNext_ok (q : Option Ptr) {source : Option Ptr}
    (allocated : ∀ p, source = some p → p ∈ engine.contexts) :
    engine.linkNext source q = .ok { engine with next := redirect engine.next source q } := by
  rw [linkNext]
  cases source with
  | none => rfl
  | some p => exact setNext_of_mem (allocated p rfl) q

theorem linkPrev_ok (q : Option Ptr) {source : Option Ptr}
    (allocated : ∀ p, source = some p → p ∈ engine.contexts) :
    engine.linkPrev source q = .ok { engine with prev := redirect engine.prev source q } := by
  rw [linkPrev]
  cases source with
  | none => rfl
  | some p => exact setPrev_of_mem (allocated p rfl) q

theorem run_stands (stands : engine.Stands nodes) (fresh : new ∉ engine.contexts) :
    ∃ next, engine.run new = .ok next ∧ next.Stands (new :: nodes) ∧
      next.idleCtx = engine.idleCtx ∧ next.curRoutine = engine.curRoutine ∧
      next.control = engine.control := by
  obtain ⟨distinct, absent⟩ := not_or.mp (mt (stands.contexts new).mpr fresh)
  have head : ∀ first, engine.alive = some first → first ∈ nodes := by
    intro first same
    exact List.mem_of_head? (stands.linked.head_eq.symm.trans same)
  refine ⟨{ engine with
    contexts := insert new engine.contexts
    prev := redirect (Function.update engine.prev new none) engine.alive (some new)
    next := Function.update engine.next new engine.alive
    alive := some new }, ?_, ⟨?linked, ?contexts, ?idle⟩, rfl, rfl, rfl⟩
  · rw [run]
    simp only [Function.update_self]
    apply linkPrev_ok
    intro first same
    exact Finset.mem_insert_of_mem (stands.allocated (head first same))
  case linked =>
    have front := stands.linked.pushFront absent
    have last : nodes.getLast?.or (some new) = (new :: nodes).getLast? := by
      rw [List.getLast?_cons]
      cases nodes.getLast? <;> rfl
    -- the source writes `new->prev` before `head->prev`
    have apart : redirect (Function.update engine.prev new none) engine.alive (some new) =
        Function.update (redirect engine.prev engine.alive (some new)) new none := by
      cases same : engine.alive with
      | none => rfl
      | some first =>
        exact Function.update_comm (fun equal => absent (by rw [equal]; exact head first same)) ..
    rw [last] at front
    rw [apart]
    exact front
  case contexts =>
    intro p
    rw [Finset.mem_insert, stands.contexts, List.mem_cons]
    tauto
  case idle =>
    rw [List.mem_cons, not_or]
    exact ⟨fun same => distinct same.symm, stands.idle⟩

theorem run_running (running : engine.Running nodes pc) (fresh : new ∉ engine.contexts) :
    ∃ next, engine.run new = .ok next ∧ next.Running (new :: nodes) pc := by
  obtain ⟨next, ran, stands, -, current, control⟩ := run_stands running.stands fresh
  exact ⟨next, ran, stands, current.trans running.current, control.trans running.control,
    List.mem_cons_of_mem _ running.member⟩

theorem start_running {main idle : Ptr} (distinct : main ≠ idle) :
    ∃ engine, start main idle = .ok engine ∧ engine.Running [main] main := by
  let created : Engine := {
    curRoutine := none, alive := some main, idleCtx := idle, contexts := insert idle (insert main ∅)
    next := Function.update (fun _ => none) main none, prev := Function.update (fun _ => none) main none
    control := .start }
  have stands : created.Stands [main] := {
    linked := {
      nodup := List.nodup_singleton main
      head_eq := rfl
      tail_eq := rfl
      forward := by simp [created, LinkedList.Path]
      backward := by simp [created, LinkedList.Path] }
    contexts := by simp [created]
    idle := by simpa [created] using distinct.symm }
  have starts : start main idle = created.sched (some main) := by
    rw [start, run]
    simp only [Function.update_self]
    rfl
  obtain ⟨engine, entered, running⟩ := enter_running stands (by simp [created]) List.mem_cons_self
  exact ⟨engine, starts.trans entered, running⟩

/-! ## A routine finishes -/

theorem Stands.absent (stands : engine.Stands (before ++ pc :: after)) : pc ∉ before ++ after := by
  have nodup := stands.linked.nodup
  rw [List.nodup_middle, List.nodup_cons] at nodup
  exact nodup.1

theorem unlink_ok (stands : engine.Stands (before ++ pc :: after)) :
    engine.unlink pc = .ok { engine with
      next := redirect engine.next before.getLast? after.head?
      prev := redirect engine.prev after.head? before.getLast? } := by
  have allocated : ∀ p ∈ before ++ pc :: after, p ∈ engine.contexts := fun p => stands.allocated
  have prev : engine.prev pc = before.getLast? := stands.linked.prev_eq
  have next : engine.next pc = after.head? := stands.linked.next_eq
  have apart : before.getLast? ≠ some pc := by
    intro same
    exact stands.absent (List.mem_append_left _ (List.mem_of_getLast? same))
  have first : engine.linkNext (engine.prev pc) (engine.next pc) =
      .ok { engine with next := redirect engine.next before.getLast? after.head? } := by
    rw [prev, next]
    apply linkNext_ok
    intro previous last
    exact allocated previous (List.mem_append_left _ (List.mem_of_getLast? last))
  rw [unlink, deref_of_mem (allocated pc (by simp))]
  simp only [Bind.bind, Except.bind, first]
  rw [redirect_of_ne apart, next, prev]
  apply linkPrev_ok
  intro following head
  exact allocated following (List.mem_append_right _ (List.mem_cons_of_mem _ (List.mem_of_head? head)))

theorem advance_ok {other : Engine} (stands : engine.Stands (before ++ pc :: after))
    (current : other.curRoutine = some pc) (alive : other.alive = engine.alive)
    (contexts : other.contexts = engine.contexts)
    (next : other.next = redirect engine.next before.getLast? after.head?) :
    other.advance = .ok { other with alive := (before ++ after).head? } := by
  have allocated : pc ∈ other.contexts := contexts ▸ stands.allocated (by simp)
  have head : other.alive = (before ++ pc :: after).head? := alive.trans stands.linked.head_eq
  cases before with
  | nil =>
    have link : other.next pc = after.head? := by
      rw [next]
      exact stands.linked.forward.1
    have same : other.alive = other.curRoutine := head.trans current.symm
    rw [advance, if_pos same, same, current, deref_of_mem allocated]
    simp only [Bind.bind, Except.bind, link]
    rfl
  | cons first before =>
    have apart : first ≠ pc := by
      rintro rfl
      exact stands.absent List.mem_cons_self
    have first_alive : some first = other.alive := head.symm
    rw [advance, if_neg]
    · rw [List.cons_append, List.head?_cons, first_alive]
    · rw [current, ← first_alive]
      simpa using apart

theorem free_ok (allocated : pc ∈ engine.contexts) :
    engine.free pc = .ok { engine with
      curRoutine := none
      next := Function.update engine.next pc none
      prev := Function.update engine.prev pc none
      contexts := engine.contexts.erase pc } := by
  simp only [free, setNext, setPrev, deref, if_pos allocated, Bind.bind, Except.bind, pure, Except.pure]

/-- Control goes to `setjmp(idle_ctx->Environment)`, and the list is without `pc`. -/
theorem complete_stands (stands : engine.Stands (before ++ pc :: after))
    (current : engine.curRoutine = some pc) :
    ∃ next, engine.complete pc = .ok next ∧ next.Stands (before ++ after) ∧
      next.curRoutine = none ∧ next.control = .start := by
  have allocated : pc ∈ engine.contexts := stands.allocated (by simp)
  have absent := stands.absent
  have distinct : engine.idleCtx ≠ pc := fun same => stands.idle (by simp [same])
  let unlinked : Engine := { engine with
    next := redirect engine.next before.getLast? after.head?
    prev := redirect engine.prev after.head? before.getLast? }
  let advanced : Engine := { unlinked with alive := (before ++ after).head? }
  let freed : Engine := { advanced with
    curRoutine := none
    next := Function.update advanced.next pc none
    prev := Function.update advanced.prev pc none
    contexts := engine.contexts.erase pc }
  have advances : unlinked.advance = .ok advanced := advance_ok stands current rfl rfl rfl
  have frees : advanced.free pc = .ok freed := free_ok allocated
  have idle : freed.idleCtx ∈ freed.contexts :=
    Finset.mem_erase.mpr ⟨distinct, (stands.contexts _).mpr (.inl rfl)⟩
  have restores : freed.restore freed.idleCtx = .ok { freed with control := .start } := by
    rw [restore, deref_of_mem idle]
    show Except.ok _ = Except.ok _
    rw [if_pos rfl]
  refine ⟨{ freed with control := .start }, ?_, ⟨?linked, ?contexts, ?idle⟩, rfl, rfl⟩
  · rw [complete, unlink_ok stands]
    show unlinked.advance >>= _ = _
    rw [advances]
    show advanced.free pc >>= _ = _
    rw [frees]
    exact restores
  case linked =>
    refine stands.linked.unlink.congr (fun p member => ?_) (fun p member => ?_) <;>
      exact Function.update_of_ne (fun same => absent (by rw [← same]; exact member)) ..
  case contexts =>
    intro p
    show p ∈ engine.contexts.erase pc ↔ p = engine.idleCtx ∨ p ∈ before ++ after
    rw [Finset.mem_erase, stands.contexts, List.mem_append, List.mem_append, List.mem_cons]
    constructor
    · rintro ⟨other, rfl | inside⟩
      · exact .inl rfl
      · tauto
    · rintro (rfl | inside)
      · exact ⟨distinct, .inl rfl⟩
      · exact ⟨fun same => absent (by simpa [same] using inside), by tauto⟩
  case idle => exact fun member => stands.idle (by simp at member ⊢; tauto)

theorem resume_running (stands : engine.Stands nodes) (current : engine.curRoutine = none)
    (some_left : nodes ≠ []) : ∃ next q, engine.resume = .ok next ∧ next.Running nodes q := by
  obtain ⟨head, rest, rfl⟩ := List.exists_cons_of_ne_nil some_left
  have alive : engine.alive = some head := stands.linked.head_eq
  obtain ⟨next, entered, running⟩ := enter_running stands (by simp [current]) List.mem_cons_self
  have yields : engine.yield = .ok next := by
    rw [yield, alive, current, if_neg (by simp)]
    exact entered
  refine ⟨next, head, ?_, running⟩
  rw [resume, yields]
  show (if next.control = .start then _ else Except.ok next) = _
  rw [running.control, if_neg (by simp)]

/-- With nothing left, both pointers that `yield` compares are null. -/
theorem resume_empty (stands : engine.Stands []) (current : engine.curRoutine = none) :
    engine.resume = .error .nullPointer := by
  have alive : engine.alive = none := stands.linked.head_eq
  rw [resume, yield, alive, current]
  rfl

end Linking

/-! ## What a routine does -/

section Performing

variable {engine : Engine} {nodes before after : List Ptr} {pc p : Ptr} {op : Op}

theorem Stands.unfinished_iff (stands : engine.Stands nodes) : engine.Unfinished p ↔ p ∈ nodes := by
  rw [Unfinished, stands.contexts]
  constructor
  · rintro ⟨rfl | member, other⟩
    · exact absurd rfl other
    · exact member
  · exact fun member => ⟨.inr member, stands.ne_idle member⟩

/-- Every routine but the running one has finished, and now it finishes, too. -/
def LastFinish (engine : Engine) (op : Op) : Prop :=
  op = .finish ∧ ∀ p ∈ engine.contexts, p ≠ engine.idleCtx → engine.control = .routine p

instance (engine : Engine) (op : Op) : Decidable (engine.LastFinish op) :=
  inferInstanceAs (Decidable (_ ∧ _))

theorem Running.lastFinish_iff (running : engine.Running nodes pc) :
    engine.LastFinish op ↔ op = .finish ∧ nodes = [pc] := by
  refine and_congr_right fun _ => ?_
  rw [running.control]
  constructor
  · intro only
    obtain ⟨before, after, rfl⟩ := List.append_of_mem running.member
    have none_else : ∀ p, p ∉ before ++ after := by
      intro p inside
      have member : p ∈ before ++ pc :: after := by simp at inside ⊢; tauto
      have same := only p (running.stands.allocated member) (running.stands.ne_idle member)
      cases same
      exact running.stands.absent inside
    obtain ⟨rfl, rfl⟩ := List.append_eq_nil_iff.mp (List.eq_nil_iff_forall_not_mem.mpr none_else)
    rfl
  · rintro rfl p allocated other
    have member : p ∈ [pc] := running.stands.unfinished_iff.mp ⟨allocated, other⟩
    rw [List.mem_singleton.mp member]

/-- The routines that are left, newest first, when the one that has control does
    `op`. -/
def left (engine : Engine) (op : Op) (nodes : List Ptr) : List Ptr :=
  match op, engine.control with
  | .run new, _ => new :: nodes
  | .finish, .routine pc => nodes.erase pc
  | _, _ => nodes

theorem left_finish (control : engine.control = .routine pc) :
    engine.left .finish nodes = nodes.erase pc := by
  simp [left, control]

theorem Stands.erase_eq (stands : engine.Stands (before ++ pc :: after)) :
    (before ++ pc :: after).erase pc = before ++ after := by
  have notBefore : pc ∉ before := fun member => stands.absent (List.mem_append_left _ member)
  rw [List.erase_append_right _ notBefore, List.erase_cons_head]

/-- Up to the last finish some routine of the list has control. -/
theorem perform_running (running : engine.Running nodes pc) (admitted : engine.admissible op)
    (more : ¬ engine.LastFinish op) :
    ∃ next q, engine.perform pc op = .ok next ∧ next.Running (engine.left op nodes) q := by
  cases op with
  | run new =>
    obtain ⟨next, ran, running⟩ := run_running running (by simpa [admissible] using admitted)
    exact ⟨next, pc, ran, running⟩
  | yield =>
    obtain ⟨next, q, yields, running⟩ := yield_running running
    exact ⟨next, q, yields, running⟩
  | sched routine =>
    have unfinished : ∀ p, routine = some p → p ∈ nodes := by
      rintro p rfl
      exact running.stands.unfinished_iff.mp (by simpa [admissible] using admitted)
    obtain ⟨next, q, scheds, running⟩ := sched_running running unfinished
    exact ⟨next, q, scheds, running⟩
  | finish =>
    obtain ⟨before, after, rfl⟩ := List.append_of_mem running.member
    obtain ⟨idle, completes, stands, current, -⟩ := complete_stands running.stands running.current
    have someLeft : before ++ after ≠ [] := by
      intro empty
      obtain ⟨rfl, rfl⟩ := List.append_eq_nil_iff.mp empty
      exact more (running.lastFinish_iff.mpr ⟨rfl, rfl⟩)
    obtain ⟨next, q, resumes, resumed⟩ := resume_running stands current someLeft
    refine ⟨next, q, ?_, ?_⟩
    · rw [perform, completes]
      exact resumes
    · rw [left_finish running.control, running.stands.erase_eq]
      exact resumed

theorem perform_last (running : engine.Running nodes pc) (last : engine.LastFinish op) :
    engine.perform pc op = .error .nullPointer := by
  obtain ⟨rfl, rfl⟩ := running.lastFinish_iff.mp last
  have single : engine.Stands ([] ++ pc :: []) := running.stands
  obtain ⟨idle, completes, stands, current, -⟩ := complete_stands single running.current
  rw [perform, completes]
  exact resume_empty stands current

end Performing

/-! ## The whole run -/

/-- A step is performed without undefined behaviour, and `start` has returned after it
    exactly when every routine has finished. -/
structure Orderly (engine : Engine) (op : Op) : Prop where
  defined : ∀ fault, step op engine ≠ .error (.fault fault)
  returns : ∀ next, step op engine = .ok ((), next) →
    (next.control = .returned ↔ ∀ pc, ¬ next.Unfinished pc)

section Lifecycle

variable {engine next : Engine} {nodes : List Ptr} {pc : Ptr} {op : Op}

theorem step_running (running : engine.Running nodes pc) :
    step op engine = if engine.admissible op then
      match engine.perform pc op with
      | .error fault => .error (.fault fault)
      | .ok engine => .ok ((), engine)
    else .error .inadmissible := by
  rewrite [step, running.control]
  rfl

/-- Without a last finish the step goes on with some routine in control, or it is
    none that a routine may do. -/
theorem step_of_more (running : engine.Running nodes pc) (more : ¬ engine.LastFinish op) :
    step op engine = .error .inadmissible ∨
      ∃ next q, step op engine = .ok ((), next) ∧ next.Running (engine.left op nodes) q := by
  rw [step_running running]
  by_cases admitted : engine.admissible op = true
  · obtain ⟨next, q, performs, running⟩ := perform_running running admitted more
    rw [if_pos admitted, performs]
    exact .inr ⟨next, q, rfl, running⟩
  · rw [if_neg admitted]
    exact .inl rfl

theorem step_of_last (running : engine.Running nodes pc) (last : engine.LastFinish op) :
    step op engine = .error (.fault .nullPointer) := by
  have admitted : engine.admissible op = true := by
    rw [last.1]
    rfl
  rw [step_running running, if_pos admitted, perform_last running last]

theorem orderly_iff (running : engine.Running nodes pc) : Orderly engine op ↔ ¬ engine.LastFinish op := by
  constructor
  · exact fun orderly last => orderly.defined _ (step_of_last running last)
  · intro more
    obtain stopped | ⟨next, q, stepped, running⟩ := step_of_more running more
    · exact ⟨fun _ => by simp [stopped], fun _ => by simp [stopped]⟩
    · refine ⟨fun _ => by simp [stepped], fun next' same => ?_⟩
      rw [stepped] at same
      cases same
      rw [running.control]
      exact ⟨fun returned => (by cases returned),
        fun none_left => absurd (running.stands.unfinished_iff.mpr running.member) (none_left q)⟩

theorem step_keeps_running (running : engine.Running nodes pc) (stepped : step op engine = .ok ((), next)) :
    ∃ q, next.Running (engine.left op nodes) q := by
  have more : ¬ engine.LastFinish op := by
    intro last
    rw [step_of_last running last] at stepped
    cases stepped
  obtain stopped | ⟨next', q, stepped', running⟩ := step_of_more running more
  · rw [stopped] at stepped
    cases stepped
  · rw [stepped'] at stepped
    cases stepped
    exact ⟨q, running⟩

def Lives (engine : Engine) : Prop := ∃ nodes pc, engine.Running nodes pc

theorem step_keeps (lives : engine.Lives) (stepped : step op engine = .ok ((), next)) : next.Lives := by
  obtain ⟨nodes, pc, running⟩ := lives
  obtain ⟨q, running⟩ := step_keeps_running running stepped
  exact ⟨_, q, running⟩

theorem start_never_returns {main idle : Ptr} (distinct : main ≠ idle) {ops : List Op} {replies : List Unit}
    {engine final : Engine} (starts : start main idle = .ok engine)
    (ran : runs step ops engine = .ok (replies, final)) : final.control ≠ .returned := by
  obtain ⟨engine', starts', running⟩ := start_running distinct
  rw [starts'] at starts
  cases starts
  have initially : engine.Lives := ⟨_, _, running⟩
  have ends : final.Lives :=
    runs_invariant (fun op engine reply next lives stepped => step_keeps lives stepped) initially ran
  obtain ⟨nodes, pc, running⟩ := ends
  rw [running.control]
  exact fun returned => by cases returned

/-- For every program: no undefined behaviour, and a return exactly when every
    routine has finished, as long as the last one does not finish. -/
theorem lifecycle_iff {main idle : Ptr} (distinct : main ≠ idle) (ops : List Op) :
    ∃ engine, start main idle = .ok engine ∧
      (Throughout step Orderly engine ops ↔
        Throughout step (fun engine op => ¬ engine.LastFinish op) engine ops) := by
  obtain ⟨engine, starts, running⟩ := start_running distinct
  have initially : engine.Lives := ⟨_, _, running⟩
  have agree : ∀ (engine : Engine) op, engine.Lives → (Orderly engine op ↔ ¬ engine.LastFinish op) := by
    rintro engine op ⟨nodes, pc, running⟩
    exact orderly_iff running
  refine ⟨engine, starts, Throughout.congr_of_keeps ?_ agree initially ops⟩
  exact fun engine op reply next lives _ stepped => step_keeps lives stepped

/-- `Printer` up to the end of its main routine: that is at 0, `printa` at 2 and
    `printb` at 3. -/
theorem lifecycle_iff_printer :
    ∃ engine, start 0 1 = .ok engine ∧ Throughout step Orderly engine
      [.run 2, .run 3, .sched (some 2), .sched (some 3), .sched (some 2), .sched (some 3),
        .sched (some 2), .sched (some 3), .finish, .finish] := by
  obtain ⟨engine, starts, orderly_iff⟩ := lifecycle_iff (show (0 : Ptr) ≠ 1 by decide)
    [.run 2, .run 3, .sched (some 2), .sched (some 3), .sched (some 2), .sched (some 3),
      .sched (some 2), .sched (some 3), .finish, .finish]
  refine ⟨engine, starts, orderly_iff.mpr ?_⟩
  cases starts
  decide +kernel

/-! ### The list of a run -/

/-- The routines that a run has created and not finished, newest first, if it
    starts with those of `nodes`. -/
def leftBy : List Op → Engine → List Ptr → List Ptr
  | [], _, nodes => nodes
  | op :: ops, engine, nodes =>
    match step op engine with
    | .error _ => nodes
    | .ok (_, next) => leftBy ops next (engine.left op nodes)

/-- The list from `alive` on is `nodes`; the routine that has control is the
    current one and on the list, and when it finishes, the last one or not, the list
    becomes what is left of it. -/
structure AliveExact (engine : Engine) (nodes : List Ptr) : Prop where
  linked : Linked engine.next engine.prev engine.alive nodes.getLast? nodes
  current : ∃ pc ∈ nodes, engine.control = .routine pc ∧ engine.curRoutine = some pc
  completes : ∀ pc, engine.control = .routine pc → ∃ next, engine.complete pc = .ok next ∧
    Linked next.next next.prev next.alive (nodes.erase pc).getLast? (nodes.erase pc)

theorem Running.aliveExact (running : engine.Running nodes pc) : AliveExact engine nodes where
  linked := running.stands.linked
  current := ⟨pc, running.member, running.control, running.current⟩
  completes := by
    intro p control
    rw [running.control] at control
    cases control
    obtain ⟨before, after, rfl⟩ := List.append_of_mem running.member
    obtain ⟨next, completes, stands, -, -⟩ := complete_stands running.stands running.current
    refine ⟨next, completes, ?_⟩
    rw [running.stands.erase_eq]
    exact stands.linked

theorem runs_running {ops : List Op} {replies : List Unit} {final : Engine}
    (running : engine.Running nodes pc) (ran : runs step ops engine = .ok (replies, final)) :
    ∃ q, final.Running (leftBy ops engine nodes) q := by
  induction ops generalizing engine nodes pc replies with
  | nil =>
    cases ran
    exact ⟨pc, running⟩
  | cons op ops ih =>
    obtain ⟨reply, next, rest, stepped, ranRest, -⟩ := runs_cons_ok.mp ran
    obtain ⟨q, running⟩ := step_keeps_running running stepped
    rw [leftBy, stepped]
    exact ih running ranRest

/-- After any operations the list is a doubly linked one of the routines that were
    created and have not finished, newest first. -/
theorem alive_exact {main idle : Ptr} (distinct : main ≠ idle) {ops : List Op} {replies : List Unit}
    {engine final : Engine} (starts : start main idle = .ok engine)
    (ran : runs step ops engine = .ok (replies, final)) :
    AliveExact final (leftBy ops engine [main]) := by
  obtain ⟨engine', starts', running⟩ := start_running distinct
  rw [starts'] at starts
  cases starts
  obtain ⟨q, running⟩ := runs_running running ran
  exact running.aliveExact

/-- The middle one of three routines finishes. -/
theorem alive_exact_middle : ∃ engine final, start 0 1 = .ok engine ∧
    runs step [.run 2, .run 3, .sched (some 2), .finish] engine = .ok ([(), (), (), ()], final) ∧
      AliveExact final (leftBy [.run 2, .run 3, .sched (some 2), .finish] engine [0]) ∧
        leftBy [.run 2, .run 3, .sched (some 2), .finish] engine [0] = [3, 0] := by
  have ran : ∃ engine final, start 0 1 = .ok engine ∧
      runs step [.run 2, .run 3, .sched (some 2), .finish] engine = .ok ([(), (), (), ()], final) :=
    ⟨_, _, rfl, rfl⟩
  obtain ⟨engine, final, starts, ran⟩ := ran
  refine ⟨engine, final, starts, ran, alive_exact (by decide) starts ran, ?_⟩
  cases starts
  rfl

/-- `SimpleStart`. -/
theorem not_orderly_simpleStart :
    ∃ engine, start 0 1 = .ok engine ∧ step .finish engine = .error (.fault .nullPointer) ∧
      ¬ Throughout step Orderly engine [.finish] := by
  refine ⟨_, rfl, rfl, ?_⟩
  rintro ⟨orderly, -⟩
  exact orderly.defined .nullPointer rfl

end Lifecycle

end Afina.Coroutine.Engine
