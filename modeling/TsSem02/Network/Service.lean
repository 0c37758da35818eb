import TsSem02.Network.StoreRefinement
import TsSem02.Storage.Unbounded

/-! # The service

What a client gets for its requests: the responses of an interpreter of requests
over a store.  A blocking server that receives the encoded requests, cut into
reads anywhere, gives just these, and over a memory the interpreter is the one of
the abstract cache (`onRun_answers`), and the one of a dictionary while everything
fits (`onRun_unbounded`).
-/

namespace Afina.Network

open Protocol Execute Session Lockstep

section Answers

variable {Store : Type} [Storage Store]

/-- The responses to requests, and what they make of the store. -/
def answer (storage : Store) : List Request → List Bytes × Except Fault Store
  | [] => ([], .ok storage)
  | request :: requests =>
    match (request.command.execute request.data).execute Storage.call storage with
    | .error fault => ([], .error fault)
    | .ok (result, storage) => ((result ++ crlf) :: (answer storage requests).1, (answer storage requests).2)

theorem execute_parsed (request : Request) (args : Bytes) :
    request.parsed.execute args = request.command.execute args := by
  cases request with
  | storage verb fields block => cases verb <;> rfl
  | get keys => rfl
  | stats => rfl

inductive Serves (s : Session Store) (responses : List Bytes) :
    Except Fault Store → Except (Session Store × Reason) (Session Store) → Prop
  | served (t : Session Store) (answered : t.responses = s.responses ++ responses) (idle : t.Idle) :
      Serves s responses (.ok t.storage) (.ok t)
  | crashed (t : Session Store) (fault : Fault) (answered : t.responses = s.responses ++ responses) :
      Serves s responses (.error fault) (.error (t, .fault fault))

theorem feedAll_serves {s : Session Store} {requests : List Request} (idle : s.Idle)
    (wellFormed : ∀ request ∈ requests, request.WellFormed)
    (framable : ∀ request ∈ requests, Framable request) :
    Serves s (answer s.storage requests).1 (answer s.storage requests).2
      (s.feedAll always (encodeAll requests)) := by
  induction requests generalizing s with
  | nil => exact .served s (List.append_nil _).symm idle
  | cons request requests ih =>
    have answers := feedAll_encode idle (wellFormed request List.mem_cons_self)
      (framable request List.mem_cons_self)
    rw [encodeAll_cons, feedAll_append]
    generalize s.feedAll always request.encode = o at answers
    cases answers with
    | faulted t fault failed _ responses =>
      rw [execute_parsed] at failed
      simp only [answer, failed]
      exact .crashed t fault (responses.trans (List.append_nil _).symm)
    | answered t result ran idleNext _ responses _ =>
      rw [execute_parsed] at ran
      simp only [answer, ran]
      have later := ih idleNext (fun other member => wellFormed other (List.mem_cons_of_mem _ member))
        (fun other member => framable other (List.mem_cons_of_mem _ member))
      show Serves s _ _ (t.feedAll always (encodeAll requests))
      have more : ∀ {u : Session Store}, u.responses = t.responses ++ (answer t.storage requests).1 →
          u.responses = s.responses ++ (result ++ crlf) :: (answer t.storage requests).1 := by
        intro u answered
        rw [answered, responses, List.append_assoc]
        rfl
      generalize t.feedAll always (encodeAll requests) = o at later ⊢
      generalize (answer t.storage requests).2 = store at later ⊢
      cases later with
      | served u answered idleEnd => exact .served u (more answered) idleEnd
      | crashed u fault answered => exact .crashed u fault (more answered)

theorem onRun_serves {requests : List Request} {reads : List Read}
    (wellFormed : ∀ request ∈ requests, request.WellFormed) (framable : ∀ request ∈ requests, Framable request)
    (whole : received reads = encodeAll requests) (parser : Parser) (argRemains : Nat) (storage : Store) (closes : Bool) :
    ∃ o, STblocking.onRun (fun _ => true) parser argRemains storage reads closes = STblocking.outcomeOf closes o ∧
      Serves (Session.start parser argRemains storage) (answer storage requests).1 (answer storage requests).2 o := by
  refine ⟨_, ?_, feedAll_serves (start_idle parser argRemains storage) wellFormed framable⟩
  rw [STblocking.onRun_eq, whole]

end Answers

/-- How a connection over a memory ends, if the abstract one ends so. -/
def EndsAs {maxSize : Nat} (closes : Bool) (served : STblocking.Served Backend.SimpleLRU) :
    Except Fault (Backend.ByteCache maxSize) → Prop
  | .ok cache => served.ended = (if closes then .closed else .readFailed) ∧ Backend.Refines served.storage cache
  | .error fault => ∃ byte, served.ended = .failed (.fault fault) byte

/-- A client that sends requests gets the responses of the abstract cache, wherever
    the bytes are cut. -/
theorem onRun_answers {maxSize : Nat} {s : Backend.SimpleLRU} {cache : Backend.ByteCache maxSize}
    {requests : List Request} {reads : List Read} (refines : Backend.Refines s cache)
    (wellFormed : ∀ request ∈ requests, request.WellFormed)
    (framable : ∀ request ∈ requests, Framable request) (whole : received reads = encodeAll requests)
    (parser : Parser) (argRemains : Nat) (closes : Bool) :
    (STblocking.onRun (fun _ => true) parser argRemains s reads closes).responses =
        (answer cache requests).1 ∧
      EndsAs closes (STblocking.onRun (fun _ => true) parser argRemains s reads closes)
        (answer cache requests).2 := by
  have twin := STblocking.onRun_twin Backend.refines_inStep (fun _ => true) parser argRemains refines reads closes
  obtain ⟨o, ran, serves⟩ := onRun_serves wellFormed framable whole parser argRemains cache closes
  rw [ran] at twin
  generalize (answer cache requests).2 = store at serves ⊢
  rw [twin.responses]
  cases serves with
  | served t answered _ => exact ⟨answered, twin.ended, twin.storage⟩
  | crashed t fault answered => exact ⟨answered, t.consumed, twin.ended⟩

/-- A value is stored, extended and read back; the read is cut in the middle. -/
theorem onRun_answers_append :
    let reads : List Read := [⟨ascii "set k 0 0 1\r\na\r\nappe", by decide⟩,
      ⟨ascii "nd k 0 0 1\r\nb\r\nget k\r\n", by decide⟩]
    (STblocking.onRun (fun _ => true) ⟨.sName, [], [], 0, 0, 0, false, [], false⟩ 0
        (Backend.SimpleLRU.fresh 1024) reads true).responses =
      [ascii "STORED\r\n", ascii "STORED\r\n", ascii "VALUE k 0 6\r\na\r\nb\r\n\r\nEND\r\n"] := by
  intro reads
  have key : Key (ascii "k") := by unfold Key; decide
  have wellFormed : ∀ request ∈ [Request.storage .set ⟨ascii "k", 0, 0⟩ (ascii "a"),
      .storage .append ⟨ascii "k", 0, 0⟩ (ascii "b"), .get [ascii "k"]], request.WellFormed := by
    simp [Request.WellFormed, key]
  have framable : ∀ request ∈ [Request.storage .set ⟨ascii "k", 0, 0⟩ (ascii "a"),
      .storage .append ⟨ascii "k", 0, 0⟩ (ascii "b"), .get [ascii "k"]], Framable request := by
    simp [Framable, ascii]
  have refines : Backend.Refines (Backend.SimpleLRU.fresh 1024) LruCache.Cache.empty :=
    Backend.refines_fresh (by decide)
  rw [(onRun_answers refines wellFormed framable (by decide +kernel) _ 0 true).1]
  decide +kernel

/-! ## While everything fits -/

/-- No request makes the dictionary larger than a bound, or one of its values shorter. -/
def Roomy (maxSize : Nat) (dict : Backend.Unbounded) : List Request → Prop
  | [] => True
  | request :: requests =>
    dict.Roomy maxSize (request.command.execute request.data) ∧
      match (request.command.execute request.data).execute Storage.call dict with
      | .error _ => True
      | .ok (_, dict) => Roomy maxSize dict requests

theorem answer_unbounded {maxSize : Nat} {cache : Backend.ByteCache maxSize} {dict : Backend.Unbounded}
    {requests : List Request} (same : LruCache.Same cache dict) (roomy : Roomy maxSize dict requests) :
    (answer cache requests).1 = (answer dict requests).1 ∧ ∃ cache' dict', (answer cache requests).2 = .ok cache' ∧
      (answer dict requests).2 = .ok dict' ∧ LruCache.Same cache' dict' := by
  induction requests generalizing cache dict with
  | nil => exact ⟨rfl, cache, dict, rfl, rfl, same⟩
  | cons request requests ih =>
    obtain ⟨here, later⟩ := roomy
    obtain ⟨result, cacheAfter, dictAfter, ran, ran', sameAfter⟩ := Backend.execute_unbounded _ same here
    rw [ran'] at later
    obtain ⟨responses, cache', dict', final, final', same'⟩ := ih sameAfter later
    simp only [answer, ran, ran']
    exact ⟨by rw [responses], cache', dict', final, final', same'⟩

/-- As long as everything fits, and no value gets shorter, a client cannot tell the
    server from a dictionary, and neither is what the memory holds in the end
    different from it. -/
theorem onRun_unbounded {maxSize : Nat} {s : Backend.SimpleLRU} {cache : Backend.ByteCache maxSize}
    {dict : Backend.Unbounded} {requests : List Request} {reads : List Read} (refines : Backend.Refines s cache)
    (same : LruCache.Same cache dict) (wellFormed : ∀ request ∈ requests, request.WellFormed)
    (framable : ∀ request ∈ requests, Framable request) (whole : received reads = encodeAll requests)
    (roomy : Roomy maxSize dict requests) (parser : Parser) (argRemains : Nat) (closes : Bool) : ∃ served dict',
    STblocking.onRun (fun _ => true) parser argRemains s reads closes = served ∧
      served.responses = (answer dict requests).1 ∧ served.ended = (if closes then .closed else .readFailed) ∧
      (answer dict requests).2 = .ok dict' ∧ ∀ key, served.storage.valueOf key = dict'.lookup key := by
  have twin := STblocking.onRun_twin Backend.refines_inStep (fun _ => true) parser argRemains refines reads closes
  obtain ⟨o, ran, serves⟩ := onRun_serves wellFormed framable whole parser argRemains cache closes
  obtain ⟨responses, cache', dict', final, final', same'⟩ := answer_unbounded same roomy
  rw [ran] at twin
  rw [responses, final] at serves
  cases serves with
  | served t answered _ =>
    refine ⟨_, dict', rfl, twin.responses.trans answered, twin.ended, final', fun key => ?_⟩
    rw [twin.storage.valueOf_eq]
    exact same' key

/-- A value is stored and extended; the read is cut in the middle. -/
theorem onRun_unbounded_append :
    let reads : List Read := [⟨ascii "set k 0 0 1\r\na\r\nappe", by decide⟩, ⟨ascii "nd k 0 0 1\r\nb\r\n", by decide⟩]
    ∃ served dict', STblocking.onRun (fun _ => true) ⟨.sName, [], [], 0, 0, 0, false, [], false⟩ 0
        (Backend.SimpleLRU.fresh 1024) reads true = served ∧
      served.responses = [ascii "STORED\r\n", ascii "STORED\r\n"] ∧ served.ended = .closed ∧
      ∀ key, served.storage.valueOf key = Backend.Unbounded.lookup dict' key := by
  intro reads
  have key : Key (ascii "k") := by unfold Key; decide
  have wellFormed : ∀ request ∈ [Request.storage .set ⟨ascii "k", 0, 0⟩ (ascii "a"),
      .storage .append ⟨ascii "k", 0, 0⟩ (ascii "b")], request.WellFormed := by
    simp [Request.WellFormed, key]
  have framable : ∀ request ∈ [Request.storage .set ⟨ascii "k", 0, 0⟩ (ascii "a"),
      .storage .append ⟨ascii "k", 0, 0⟩ (ascii "b")], Framable request := by
    simp [Framable, ascii]
  have roomy : Roomy 1024 .empty [Request.storage .set ⟨ascii "k", 0, 0⟩ (ascii "a"),
      .storage .append ⟨ascii "k", 0, 0⟩ (ascii "b")] := by
    refine ⟨⟨?_, ?_, trivial⟩, ⟨?_, ?_, ?_, ?_, trivial⟩, trivial⟩
    all_goals decide +kernel
  have refines : Backend.Refines (Backend.SimpleLRU.fresh 1024) LruCache.Cache.empty :=
    Backend.refines_fresh (by decide)
  have whole : received reads = encodeAll [Request.storage .set ⟨ascii "k", 0, 0⟩ (ascii "a"),
      .storage .append ⟨ascii "k", 0, 0⟩ (ascii "b")] := by decide +kernel
  obtain ⟨served, dict', ran, responses, ended, -, holds⟩ :=
    onRun_unbounded refines LruCache.same_empty wellFormed framable whole roomy _ 0 true
  refine ⟨served, dict', ran, responses.trans ?_, ended, holds⟩
  decide +kernel

end Afina.Network
