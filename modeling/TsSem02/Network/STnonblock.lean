import TsSem02.Network.Framing
import TsSem02.Protocol.Feeding

/-! # The non-blocking connection

`Connection::DoRead` of `STnonblock` keeps its buffer between the calls, and the
bytes in front of an error stay there.  It agrees with the blocking server as
long as nothing is read after an error of `Parse` (`agrees_iff`).
-/

namespace Afina.Network.STnonblock

open Protocol Execute Parser Session

/-- The part of a `Connection` that `DoRead` works with. -/
structure Connection (Store : Type) where
  session : Session Store
  buffer : Bytes  -- the first `readed_bytes` of `client_buffer`
  crashed : Bool  -- undefined behaviour: there is no connection any more

/-- Keep the response for `DoWrite`; `run n` is what `server->run` says then. -/
def deliver {Store : Type} (run : Nat → Bool) : Deliver Store := fun s response =>
  (s.respond response, if run s.responses.length then none else some .shutdown)

namespace Connection

variable {Store : Type}

def start (parser : Parser) (argRemains : Nat) (storage : Store) : Connection Store where
  session := Session.start parser argRemains storage
  buffer := []
  crashed := false

/-- `sizeof(client_buffer) - readed_bytes` -/
def room (c : Connection Store) : Nat := bufferSize - c.buffer.length

variable [Storage Store]

/-- What is done with the bytes of one `read`, and what ends the call, if
    something does. -/
def receive (run : Nat → Bool) (c : Connection Store) (bytes : Bytes) :
    Connection Store × Option Reason :=
  match c.session.drain (deliver run) (c.buffer ++ bytes).length (c.buffer ++ bytes) with
  | .ok s => ({ c with session := s, buffer := [] }, none)
  | .error i =>
    match i.reason with
    | .stuck => ({ c with session := i.session, buffer := i.buffer }, none)
    | .fault fault => (⟨i.session, i.buffer, true⟩, some (.fault fault))
    | reason => ({ c with session := i.session, buffer := i.buffer }, some reason)

/-- `Connection::DoRead`, when the calls of `read` that succeed return `reads`.
    `none`: they cannot, for want of room or because the call has ended before. -/
def doRead (run : Nat → Bool) (c : Connection Store) (reads : List Bytes) : Option (Connection Store) :=
  match reads with
  | [] => some c
  | bytes :: reads =>
    if c.crashed ∨ bytes = [] ∨ c.room < bytes.length then none
    else
      match c.receive run bytes with
      | (c, none) => c.doRead run reads
      | (c, some _) => if reads = [] then some c else none

def doReads (run : Nat → Bool) (c : Connection Store) (calls : List (List Bytes)) :
    Option (Connection Store) := calls.foldlM (doRead run) c

end Connection

/-! ## Every byte is handed over once -/

section Handed

variable {Store : Type} [Storage Store] {s t : Session Store} {c : UInt8} {bytes : Bytes}

theorem runCommand_hands (s : Session Store) : (runCommand always s).1.handed = s.handed ∧
    (runCommand always s).1.consumed = s.consumed := by
  have did := runCommand_ran always s
  generalize runCommand always s = outcome at did ⊢
  cases did with
  | waits | faults => exact ⟨rfl, rfl⟩
  | answers _ _ _ _ _ _ delivered =>
    rw [← delivered]
    exact ⟨rfl, rfl⟩

omit [Storage Store] in
theorem final_outcome (o : Session Store × Option Reason) : final (outcome o) = o.1 := by
  obtain ⟨s, reason⟩ := o
  cases reason <;> rfl

theorem feed_hands (s : Session Store) (c : UInt8) :
    (final (s.feed always c)).handed = s.handed ++ [s.consumed] ∧
      ∀ t, s.feed always c = .ok t → t.consumed = s.consumed + 1 := by
  have place : ∀ {u t : Session Store}, outcome (runCommand always u) = .ok t →
      t.consumed = u.consumed := by
    intro u t ran
    have kept := (runCommand_hands u).2
    rw [outcome_ok.mp ran] at kept
    exact kept
  have did := feed_fed always s c
  generalize s.feed always c = result at did ⊢
  cases did with
  | argument _ _ _ ran =>
    rw [← ran, final_outcome, (runCommand_hands _).1]
    exact ⟨rfl, fun t ran => place ran⟩
  | throws => exact ⟨rfl, fun t same => by cases same⟩
  | rejects _ _ _ _ _ builds => exact ⟨(BuildKeeps.of_eq builds).handed, fun t same => by cases same⟩
  | parses _ _ _ _ _ builds ran =>
    have kept := BuildKeeps.of_eq builds
    rw [← ran, final_outcome, (runCommand_hands _).1]
    refine ⟨kept.handed, fun t ran => ?_⟩
    rw [place ran]
    exact congrArg (· + 1) kept.consumed

theorem feedAll_handed (inOrder : s.handed = List.range' 0 s.consumed) (bytes : Bytes) :
    ∃ n, (final (s.feedAll always bytes)).handed = List.range' 0 n := by
  induction bytes generalizing s with
  | nil => exact ⟨s.consumed, inOrder⟩
  | cons c bytes ih =>
    obtain ⟨handed, consumed⟩ := feed_hands s c
    have next : s.handed ++ [s.consumed] = List.range' 0 (s.consumed + 1) := by
      rw [inOrder, List.range'_concat, Nat.zero_add, Nat.one_mul]
    rw [feedAll_cons]
    cases took : s.feed always c with
    | error e =>
      rw [took] at handed
      exact ⟨s.consumed + 1, handed.trans next⟩
    | ok t =>
      rw [took] at handed
      apply ih
      have handed : t.handed = s.handed ++ [s.consumed] := handed
      rw [handed, next, consumed t took]

theorem feedAll_nodup (parser : Parser) (argRemains : Nat) (storage : Store) (bytes : Bytes) :
    (final ((Session.start parser argRemains storage).feedAll always bytes)).handed.Nodup := by
  obtain ⟨n, handed⟩ := @feedAll_handed Store _ (Session.start parser argRemains storage) rfl bytes
  rw [handed]
  exact List.nodup_range'

end Handed

/-! ## What an error leaves behind -/

section Left

variable {Store : Type} [Storage Store] {s t : Session Store} {c : UInt8} {bytes : Bytes}
  {i : Interrupt Store}

/-- After an error of `Parse` the bytes of its line are there to be parsed again,
    by the parser as it is. -/
structure Halfway (s : Session Store) : Prop where
  waiting : s.commandToExecute = none
  incomplete : s.parser.parseComplete = false
  again : s.consumed ∈ s.handed

/-- After an error of `Build` the parser has the same complete line. -/
structure Rejected (s : Session Store) (error : ParseError) : Prop where
  waiting : s.commandToExecute = none
  complete : s.parser.parseComplete = true
  rejects : s.parser.build.2 = .threw error

/-- What a pass can be interrupted by, and what it leaves. -/
inductive Leaves (i : Interrupt Store) : Prop
  | fault (fault : Fault) : i.reason = .fault fault → Leaves i
  | parse (error : ParseError) : i.reason = .parse error → Halfway i.session → Leaves i
  | build (error : ParseError) : i.reason = .build error → Rejected i.session error → Leaves i

theorem runCommand_fault {reason : Reason} (ran : runCommand always s = (t, some reason)) :
    ∃ fault, reason = .fault fault := by
  have did := runCommand_ran always s
  rw [ran] at did
  cases did with
  | faults _ fault => exact ⟨fault, rfl⟩
  | answers _ _ _ _ _ _ delivered => cases delivered

omit [Storage Store] in
theorem buildCommand_reason {reason : Reason} (builds : s.buildCommand = (t, some reason)) :
    (∃ fault, reason = .fault fault) ∨ ∃ error, reason = .build error := by
  simp only [buildCommand] at builds
  split at builds
  · split at builds
    · cases builds
    · cases builds
    · cases builds
      exact .inr ⟨_, rfl⟩
    · cases builds
      exact .inl ⟨_, rfl⟩
  · cases builds

omit [Storage Store] in
theorem buildCommand_rejects {error : ParseError} (builds : s.buildCommand = (t, some (.build error)))
    (waiting : s.commandToExecute = none) : Rejected t error := by
  simp only [buildCommand] at builds
  split at builds
  · next complete =>
    split at builds
    · cases builds
    · cases builds
    · next thrown rejects =>
      cases builds
      exact ⟨waiting, complete, rejects⟩
    · cases builds
  · cases builds

omit [Storage Store] in
theorem parseCommand_leaves (waiting : s.commandToExecute = none)
    (incomplete : s.parser.parseComplete = false)
    (parses : s.parseCommand (c :: bytes) = .error i) : Leaves i := by
  simp only [parseCommand] at parses
  split at parses
  · next parser error pos threw =>
    cases parses
    refine .parse error rfl ⟨waiting, parseFrom_threw_incomplete threw, ?_⟩
    show s.consumed ∈ s.handed ++ List.range' s.consumed (pos + 1)
    simp
  · next parser parsed returned =>
    have positive := parsed_pos incomplete returned
    split at parses
    · next t reason builds =>
      cases parses
      obtain ⟨fault, rfl⟩ | ⟨error, rfl⟩ := buildCommand_reason builds
      · exact .fault fault rfl
      · exact .build error rfl (buildCommand_rejects builds waiting)
    · split at parses
      · next stuck => exact absurd stuck (Nat.ne_of_gt positive)
      · cases parses

theorem pass_ready {rest : Bytes} (ready : s.Ready) (passed : s.pass always bytes = .ok (t, rest))
    (nonempty : bytes ≠ []) : t.Ready := by
  have settled : settle (s.pass always bytes) = .ok (t, rest) := by rw [passed]; rfl
  clear passed
  induction bytes generalizing s with
  | nil => exact absurd rfl nonempty
  | cons c bytes ih =>
    cases pass_cons ready with
    | inl one =>
      rw [settled] at one
      cases took : s.feed always c with
      | error e => rw [took] at one; cases one
      | ok s' =>
        rw [took] at one
        cases one
        exact feed_ready STblocking.deliver_responds ready took
    | inr more =>
      obtain ⟨s', took, remains, same⟩ := more
      exact ih (feed_ready STblocking.deliver_responds ready took) remains (same.symm.trans settled)

theorem pass_cases (s : Session Store) (buffer : Bytes) :
    (∃ i, s.commandToExecute = none ∧ s.parseCommand buffer = .error i ∧ s.pass always buffer = .error i) ∨
    ∃ u rest, (u = s ∧ rest = buffer ∨ s.parseCommand buffer = .ok (u, rest)) ∧
      ((∃ t reason, runCommand always (u.fillArgument rest).1 = (t, some reason) ∧
          s.pass always buffer = .error ⟨t, (u.fillArgument rest).2, reason, 0⟩) ∨
        ∃ t, runCommand always (u.fillArgument rest).1 = (t, none) ∧
          s.pass always buffer = .ok (t, (u.fillArgument rest).2)) := by
  -- what the pass does once it has a command, or need not have one
  have runs : ∀ (u : Session Store) (rest : Bytes) (passed : Except (Interrupt Store) (Session Store × Bytes)),
      (∀ t reason, runCommand always (u.fillArgument rest).1 = (t, some reason) →
        passed = .error ⟨t, (u.fillArgument rest).2, reason, 0⟩) →
      (∀ t, runCommand always (u.fillArgument rest).1 = (t, none) →
        passed = .ok (t, (u.fillArgument rest).2)) →
      (∃ t reason, runCommand always (u.fillArgument rest).1 = (t, some reason) ∧
        passed = .error ⟨t, (u.fillArgument rest).2, reason, 0⟩) ∨
      ∃ t, runCommand always (u.fillArgument rest).1 = (t, none) ∧ passed = .ok (t, (u.fillArgument rest).2) := by
    intro u rest passed stops goesOn
    cases ran : runCommand always (u.fillArgument rest).1 with
    | mk t reason =>
      cases reason with
      | none => exact .inr ⟨t, rfl, goesOn t ran⟩
      | some reason => exact .inl ⟨t, reason, rfl, stops t reason ran⟩
  cases waiting : s.commandToExecute with
  | some command =>
    refine .inr ⟨s, buffer, .inl ⟨rfl, rfl⟩, runs s buffer _ ?_ ?_⟩
    · intro t reason ran
      simp only [Session.pass, waiting, Option.isNone_some, Bool.false_eq_true, if_false, Bind.bind, Except.bind, ran]
    · intro t ran
      simp only [Session.pass, waiting, Option.isNone_some, Bool.false_eq_true, if_false, Bind.bind, Except.bind, ran]
  | none =>
    cases parses : s.parseCommand buffer with
    | error i =>
      refine .inl ⟨i, rfl, rfl, ?_⟩
      simp only [Session.pass, waiting, Option.isNone_none, if_true, Bind.bind, Except.bind, parses]
    | ok parsed =>
      refine .inr ⟨parsed.1, parsed.2, .inr rfl, runs _ _ _ ?_ ?_⟩
      · intro t reason ran
        simp only [Session.pass, waiting, Option.isNone_none, if_true, Bind.bind, Except.bind, parses, ran]
      · intro t ran
        simp only [Session.pass, waiting, Option.isNone_none, if_true, Bind.bind, Except.bind, parses, ran]

theorem pass_leaves (ready : s.Ready) (passed : s.pass always (c :: bytes) = .error i) : Leaves i := by
  obtain ⟨j, waiting, parses, same⟩ | ⟨u, rest, -, ⟨t, reason, ran, same⟩ | ⟨t, -, same⟩⟩ :=
    pass_cases s (c :: bytes)
  · rw [same] at passed
    cases passed
    exact parseCommand_leaves waiting (ready.incomplete waiting) parses
  · rw [same] at passed
    cases passed
    obtain ⟨fault, isFault⟩ := runCommand_fault ran
    exact .fault fault isFault
  · rw [same] at passed
    cases passed

theorem drain_leaves {fuel : Nat} (ready : s.Ready) (drained : s.drain always fuel bytes = .error i) :
    Leaves i := by
  induction fuel generalizing s bytes with
  | zero =>
    cases bytes with
    | nil => cases drained
    | cons c bytes =>
      cases drained
      exact .fault .divergence rfl
  | succ fuel ih =>
    cases bytes with
    | nil => cases drained
    | cons c bytes =>
      simp only [drain] at drained
      cases passed : s.pass always (c :: bytes) with
      | error j =>
        rw [passed] at drained
        cases drained
        exact pass_leaves ready passed
      | ok u =>
        rw [passed] at drained
        exact ih (pass_ready ready passed (List.cons_ne_nil c bytes)) drained

end Left

/-! ## One read after another -/

section Reads

variable {Store : Type} [Storage Store] {start s : Session Store} {c c' : Connection Store}
  {stream bytes : Bytes}

omit [Storage Store] in
theorem deliver_eq : (deliver (fun _ => true) : Deliver Store) = always := funext fun _ => rfl

/-- The connection has done what the stream asks for. -/
structure Matches (start : Session Store) (stream : Bytes) (c : Connection Store) : Prop where
  executed : c.session.executed = (final (start.feedAll always stream)).executed
  handed : c.session.handed = (final (start.feedAll always stream)).handed

/-- Where the connection is when it has read `stream`. -/
inductive Tracks (start : Session Store) (stream : Bytes) (c : Connection Store) : Prop
  | healthy : start.feedAll always stream = .ok c.session → c.buffer = [] → Tracks start stream c
  | rejected (t : Session Store) (error : ParseError) :
      start.feedAll always stream = .error (t, .build error) → Matches start stream c →
      Rejected c.session error → Tracks start stream c
  | crashed : c.crashed = true → Tracks start stream c
  | malformed (t : Session Store) (error : ParseError) :
      start.feedAll always stream = .error (t, .parse error) → Halfway c.session →
      Tracks start stream c
  | lost (t : Session Store) (error : ParseError) :
      start.feedAll always stream = .error (t, .parse error) → ¬ c.session.handed.Nodup →
      Tracks start stream c

theorem feedAll_append_of_error {t : Session Store} {reason : Reason}
    (failed : start.feedAll always stream = .error (t, reason)) (bytes : Bytes) :
    start.feedAll always (stream ++ bytes) = .error (t, reason) := by
  rw [feedAll_append, failed]
  rfl

theorem receive_healthy (ready : start.Ready) (fed : start.feedAll always stream = .ok c.session)
    (empty : c.buffer = []) :
    Matches start (stream ++ bytes) (c.receive (fun _ => true) bytes).1 ∧
      Tracks start (stream ++ bytes) (c.receive (fun _ => true) bytes).1 := by
  have readyNow := feedAll_ready STblocking.deliver_responds ready fed
  have continues : start.feedAll always (stream ++ bytes) = c.session.feedAll always bytes := by
    rw [feedAll_append, fed]
    rfl
  have drained : settle (c.session.drain always bytes.length bytes) = c.session.feedAll always bytes :=
    settle_drain STblocking.deliver_responds readyNow (Nat.le_refl _)
  simp only [Connection.receive, deliver_eq, empty, List.nil_append]
  rw [← drained] at continues
  cases ran : c.session.drain always bytes.length bytes with
  | ok s =>
    rw [ran] at continues
    exact ⟨⟨by rw [continues]; rfl, by rw [continues]; rfl⟩, .healthy continues rfl⟩
  | error i =>
    rw [ran] at continues
    have matching : ∀ c : Connection Store, c.session = i.session → Matches start (stream ++ bytes) c :=
      fun c same => ⟨by rw [continues, same]; rfl, by rw [continues, same]; rfl⟩
    cases drain_leaves readyNow ran with
    | fault fault reason =>
      simp only [reason]
      exact ⟨matching _ rfl, .crashed rfl⟩
    | parse error reason halfway =>
      rw [settle_error, reason] at continues
      simp only [reason]
      exact ⟨matching _ rfl, .malformed _ error continues halfway⟩
    | build error reason rejected =>
      rw [settle_error, reason] at continues
      simp only [reason]
      exact ⟨matching _ rfl, .rejected _ error continues (matching _ rfl) rejected⟩

/-- `Build` rejects the same line again, and nothing is parsed. -/
theorem drain_rejected {deliver : Deliver Store} {error : ParseError} {fuel : Nat} {b : UInt8}
    {rest : Bytes} (rejected : Rejected s error) :
    ∃ i, s.drain deliver (fuel + 1) (b :: rest) = .error i ∧ i.reason = .build error ∧
      i.session.executed = s.executed ∧ i.session.handed = s.handed ∧
      i.session.responses = s.responses ∧ Rejected i.session error := by
  have parses := @parse_complete s.parser (b :: rest) rejected.complete
  have built : ({ s.hand 0 with parser := s.parser } : Session Store).buildCommand =
      ({ s.hand 0 with argRemains := s.parser.build.1.getD s.argRemains }, some (.build error)) := by
    simp only [buildCommand, rejected.complete, if_true, rejected.rejects]
    rfl
  have parsed : s.parseCommand (b :: rest) = .error ⟨{ s.hand 0 with
      argRemains := s.parser.build.1.getD s.argRemains }, b :: rest, .build error, 0⟩ := by
    simp only [parseCommand, parses, built]
  refine ⟨⟨{ s.hand 0 with argRemains := s.parser.build.1.getD s.argRemains }, b :: rest, .build error, 0⟩,
    ?_, rfl, rfl, ?_, rfl, ⟨rejected.waiting, rejected.complete, rejected.rejects⟩⟩
  · simp only [drain, Session.pass, rejected.waiting, Option.isNone_none, if_true, parsed]
    rfl
  · show s.handed ++ List.range' s.consumed 0 = s.handed
    simp

theorem receive_rejected {t : Session Store} {error : ParseError}
    (fed : start.feedAll always stream = .error (t, .build error)) (matching : Matches start stream c)
    (rejected : Rejected c.session error) (nonempty : bytes ≠ []) :
    Matches start (stream ++ bytes) (c.receive (fun _ => true) bytes).1 ∧
      Tracks start (stream ++ bytes) (c.receive (fun _ => true) bytes).1 := by
  have same := feedAll_append_of_error fed bytes
  obtain ⟨b, rest, buffer⟩ := List.exists_cons_of_ne_nil (List.append_ne_nil_of_right_ne_nil c.buffer nonempty)
  obtain ⟨i, drained, reason, executed, handed, -, still⟩ :=
    @drain_rejected Store _ c.session always error rest.length b rest rejected
  simp only [Connection.receive, deliver_eq, buffer, List.length_cons, drained, reason]
  have matchingStill : ∀ c' : Connection Store, c'.session = i.session →
      Matches start (stream ++ bytes) c' := by
    intro c' sameSession
    refine ⟨?_, ?_⟩
    · rw [sameSession, executed, matching.executed, fed, same]
    · rw [sameSession, handed, matching.handed, fed, same]
  exact ⟨matchingStill _ rfl, .rejected t error same (matchingStill _ rfl) still⟩

/-! ## Bytes that are handed over again -/

theorem feedAll_hands (s : Session Store) (bytes : Bytes) :
    s.handed <+: (final (s.feedAll always bytes)).handed := by
  induction bytes generalizing s with
  | nil => exact List.prefix_refl _
  | cons b bytes ih =>
    have one := (feed_hands s b).1
    rw [feedAll_cons]
    cases took : s.feed always b with
    | error e =>
      rw [took] at one
      show s.handed <+: (final (.error e)).handed
      rw [one]
      exact List.prefix_append _ _
    | ok t =>
      rw [took] at one
      have one : t.handed = s.handed ++ [s.consumed] := one
      exact (List.prefix_append _ _).trans (one ▸ ih t)

theorem session_receive (c : Connection Store) (bytes : Bytes) :
    (c.receive (fun _ => true) bytes).1.session.handed = (final (settle (c.session.drain always
      (c.buffer ++ bytes).length (c.buffer ++ bytes)))).handed := by
  simp only [Connection.receive, deliver_eq]
  cases c.session.drain always (c.buffer ++ bytes).length (c.buffer ++ bytes) with
  | ok s => rfl
  | error i =>
    simp only
    split <;> rfl

/-- The line with the error is parsed again from its first byte. -/
theorem receive_halfway (halfway : Halfway c.session) (nonempty : bytes ≠ []) :
    ¬ (c.receive (fun _ => true) bytes).1.session.handed.Nodup := by
  have ready : c.session.Ready :=
    ⟨fun _ => halfway.incomplete, fun _ same => by rw [halfway.waiting] at same; cases same⟩
  have drained : settle (c.session.drain always (c.buffer ++ bytes).length (c.buffer ++ bytes)) =
      c.session.feedAll always (c.buffer ++ bytes) :=
    settle_drain STblocking.deliver_responds ready (Nat.le_refl _)
  obtain ⟨b, rest, buffer⟩ := List.exists_cons_of_ne_nil (List.append_ne_nil_of_right_ne_nil c.buffer nonempty)
  rw [session_receive, drained, buffer]
  have twice : c.session.handed ++ [c.session.consumed] <+:
      (final (c.session.feedAll always (b :: rest))).handed := by
    obtain ⟨one, -⟩ := feed_hands c.session b
    rw [← one, feedAll_cons]
    cases took : c.session.feed always b with
    | error e => exact List.prefix_refl _
    | ok t => exact feedAll_hands t rest
  intro nodup
  have once := nodup.sublist twice.sublist
  rw [List.nodup_append] at once
  exact once.2.2 _ halfway.again _ (List.mem_singleton.mpr rfl) rfl

def left {α : Type} (session : α → Session Store) : Except (Interrupt Store) α → Session Store
  | .ok a => session a
  | .error i => i.session

omit [Storage Store] in
theorem parseCommand_hands (s : Session Store) (buffer : Bytes) :
    s.handed <+: (left Prod.fst (s.parseCommand buffer)).handed := by
  simp only [parseCommand]
  split
  · exact List.prefix_append _ _
  · next parser parsed _ =>
    have kept := buildCommand_keeps ({ s.hand parsed with parser := parser } : Session Store)
    have grown : s.handed <+: s.handed ++ List.range' s.consumed parsed := List.prefix_append _ _
    split
    · next t reason builds =>
      rw [builds] at kept
      show s.handed <+: t.handed
      rw [kept.handed]
      exact grown
    · next t builds =>
      rw [builds] at kept
      split
      · show s.handed <+: t.handed
        rw [kept.handed]
        exact grown
      · show s.handed <+: t.handed
        rw [kept.handed]
        exact grown

theorem pass_hands (s : Session Store) (buffer : Bytes) :
    s.handed <+: (left Prod.fst (s.pass always buffer)).handed := by
  have filled : ∀ (u : Session Store) (rest : Bytes) t reason,
      runCommand always (u.fillArgument rest).1 = (t, reason) → u.handed <+: t.handed := by
    intro u rest t reason ran
    have grown : u.handed <+: (u.fillArgument rest).1.handed := by
      simp only [fillArgument]
      split
      · exact List.prefix_append _ _
      · exact List.prefix_refl _
    have kept := (runCommand_hands (u.fillArgument rest).1).1
    rw [ran] at kept
    exact kept ▸ grown
  have grown := parseCommand_hands s buffer
  obtain ⟨i, -, parses, same⟩ | ⟨u, rest, parsed, ran⟩ := pass_cases s buffer
  · rw [parses] at grown
    rw [same]
    exact grown
  · have start : s.handed <+: u.handed := by
      obtain ⟨rfl, -⟩ | parses := parsed
      · exact List.prefix_refl _
      · rw [parses] at grown
        exact grown
    obtain ⟨t, reason, ran, same⟩ | ⟨t, ran, same⟩ := ran
    · rw [same]
      exact start.trans (filled u rest t _ ran)
    · rw [same]
      exact start.trans (filled u rest t _ ran)

theorem drain_hands (fuel : Nat) (s : Session Store) (buffer : Bytes) :
    s.handed <+: (left id (s.drain always fuel buffer)).handed := by
  induction fuel generalizing s buffer with
  | zero => cases buffer <;> exact List.prefix_refl _
  | succ fuel ih =>
    cases buffer with
    | nil => exact List.prefix_refl _
    | cons b buffer =>
      have one := pass_hands s (b :: buffer)
      simp only [drain]
      cases passed : s.pass always (b :: buffer) with
      | error i =>
        rw [passed] at one
        exact one
      | ok u =>
        rw [passed] at one
        exact one.trans (ih u.1 u.2)

theorem receive_hands (c : Connection Store) (bytes : Bytes) :
    c.session.handed <+: (c.receive (fun _ => true) bytes).1.session.handed := by
  have grown := drain_hands (c.buffer ++ bytes).length c.session (c.buffer ++ bytes)
  rw [session_receive]
  cases drained : c.session.drain always (c.buffer ++ bytes).length (c.buffer ++ bytes) with
  | ok s => rw [drained] at grown; exact grown
  | error i => rw [drained] at grown; exact grown

/-! ## A whole run -/

def readOne (c : Connection Store) (bytes : Bytes) : Option (Connection Store) :=
  if c.crashed ∨ bytes = [] ∨ c.room < bytes.length then none
  else some (c.receive (fun _ => true) bytes).1

/-- Where the calls begin and end does not matter. -/
theorem readOne_of_doRead {reads : List Bytes} (ran : c.doRead (fun _ => true) reads = some c') :
    reads.foldlM readOne c = some c' := by
  induction reads generalizing c with
  | nil => exact ran
  | cons bytes reads ih =>
    rw [Connection.doRead] at ran
    rw [List.foldlM_cons, readOne]
    split at ran
    · cases ran
    · next possible =>
      rw [if_neg possible]
      split at ran
      · next c₁ received =>
        rw [received]
        exact ih ran
      · next c₁ reason received =>
        rw [received]
        split at ran
        · next last =>
          rw [last]
          exact ran
        · cases ran

theorem readOne_of_doReads {calls : List (List Bytes)} (ran : c.doReads (fun _ => true) calls = some c') :
    calls.flatten.foldlM readOne c = some c' := by
  induction calls generalizing c with
  | nil => exact ran
  | cons reads calls ih =>
    rw [Connection.doReads, List.foldlM_cons] at ran
    obtain ⟨c₁, called, rest⟩ := Option.bind_eq_some_iff.mp ran
    rw [List.flatten_cons, List.foldlM_append, readOne_of_doRead called]
    exact ih rest

theorem readOne_tracks (ready : start.Ready) (tracks : Tracks start stream c)
    (read : readOne c bytes = some c') : Tracks start (stream ++ bytes) c' := by
  rw [readOne] at read
  split at read
  · cases read
  · next possible =>
    cases read
    simp only [not_or] at possible
    obtain ⟨alive, nonempty, -⟩ := possible
    cases tracks with
    | healthy fed empty => exact (receive_healthy ready fed empty).2
    | rejected t error fed matching rejected => exact (receive_rejected fed matching rejected nonempty).2
    | crashed crashed => exact absurd crashed alive
    | malformed t error fed halfway =>
      exact .lost t error (feedAll_append_of_error fed bytes) (receive_halfway halfway nonempty)
    | lost t error fed twice =>
      refine .lost t error (feedAll_append_of_error fed bytes) fun once => ?_
      exact twice (once.sublist (receive_hands c bytes).sublist)

theorem reads_track (ready : start.Ready) {reads : List Bytes} (tracks : Tracks start stream c)
    (ran : reads.foldlM readOne c = some c') : Tracks start (stream ++ reads.flatten) c' := by
  induction reads generalizing c stream with
  | nil =>
    cases ran
    rw [List.flatten_nil, List.append_nil]
    exact tracks
  | cons bytes reads ih =>
    rw [List.foldlM_cons] at ran
    obtain ⟨c₁, read, rest⟩ := Option.bind_eq_some_iff.mp ran
    rw [List.flatten_cons, ← List.append_assoc]
    exact ih (readOne_tracks ready tracks read) rest

/-- Taken byte by byte, the stream has a line that `Parse` throws on. -/
def Malformed (start : Session Store) (stream : Bytes) : Prop :=
  ∃ t error, start.feedAll always stream = .error (t, .parse error)

/-- The last read repeats no byte exactly when the stream was not malformed
    before it. -/
theorem last_read_iff (ready : start.Ready) (nodup : ∀ stream, (final (start.feedAll always stream)).handed.Nodup)
    (tracks : Tracks start stream c) (read : readOne c bytes = some c') :
    (c'.session.executed = (final (start.feedAll always (stream ++ bytes))).executed ∧
      c'.session.handed.Nodup) ↔ ¬ Malformed start stream := by
  have goesWell : Matches start (stream ++ bytes) c' →
      c'.session.executed = (final (start.feedAll always (stream ++ bytes))).executed ∧
        c'.session.handed.Nodup :=
    fun matching => ⟨matching.executed, by rw [matching.handed]; exact nodup _⟩
  have tracksNext := readOne_tracks ready tracks read
  rw [readOne] at read
  split at read
  · cases read
  · next possible =>
    cases read
    simp only [not_or] at possible
    obtain ⟨alive, nonempty, -⟩ := possible
    cases tracks with
    | healthy fed empty =>
      refine iff_of_true (goesWell (receive_healthy ready fed empty).1) ?_
      rintro ⟨t, error, failed⟩
      rw [fed] at failed
      cases failed
    | rejected t error fed matching rejected =>
      refine iff_of_true (goesWell (receive_rejected fed matching rejected nonempty).1) ?_
      rintro ⟨t', error', failed⟩
      rw [fed] at failed
      cases failed
    | crashed crashed => exact absurd crashed alive
    | malformed t error fed halfway =>
      exact iff_of_false (fun once => receive_halfway halfway nonempty once.2)
        fun wellFormed => wellFormed ⟨t, error, fed⟩
    | lost t error fed twice =>
      refine iff_of_false (fun once => ?_) fun wellFormed => wellFormed ⟨t, error, fed⟩
      exact twice (once.2.sublist (receive_hands c bytes).sublist)

end Reads

/-- The non-blocking connection executes what the blocking server does, and hands
    no byte over twice, exactly when the stream was not malformed before the
    last read. -/
theorem agrees_iff {Store : Type} [Storage Store] {parser : Parser} {argRemains : Nat} {storage : Store}
    {calls : List (List Bytes)} {c : Connection Store} {reads : List Read}
    (ran : (Connection.start parser argRemains storage).doReads (fun _ => true) calls = some c)
    (same : received reads = calls.flatten.flatten) (closes : Bool) :
    (c.session.executed =
        (STblocking.onRun (fun _ => true) parser argRemains storage reads closes).executed ∧
      c.session.handed.Nodup) ↔
    ¬ Malformed (Session.start parser argRemains storage) calls.flatten.dropLast.flatten := by
  have blocking : (STblocking.onRun (fun _ => true) parser argRemains storage reads closes).executed =
      (final ((Session.start parser argRemains storage).feedAll always calls.flatten.flatten)).executed := by
    rw [STblocking.onRun_eq, same]
    cases (Session.start parser argRemains storage).feedAll always calls.flatten.flatten <;> rfl
  have ready := STblocking.start_ready parser argRemains storage
  have nodup := feedAll_nodup parser argRemains storage
  have healthy : Tracks (Session.start parser argRemains storage) []
      (Connection.start parser argRemains storage) := .healthy rfl rfl
  have read := readOne_of_doReads ran
  rw [blocking]
  generalize calls.flatten = all at read
  cases List.eq_nil_or_concat all with
  | inl empty =>
    subst empty
    cases read
    refine iff_of_true ⟨rfl, List.nodup_nil⟩ ?_
    rintro ⟨t, error, failed⟩
    cases failed
  | inr split =>
    obtain ⟨before, last, rfl⟩ := split
    rw [List.concat_eq_append] at read ⊢
    rw [List.foldlM_append] at read
    obtain ⟨c₁, readBefore, readLast⟩ := Option.bind_eq_some_iff.mp read
    have one : readOne c₁ last = some c := by
      rw [List.foldlM_cons] at readLast
      obtain ⟨c₂, readLast, rest⟩ := Option.bind_eq_some_iff.mp readLast
      cases rest
      exact readLast
    rw [List.dropLast_concat, List.flatten_append, List.flatten_singleton]
    exact last_read_iff ready nodup (reads_track ready healthy readBefore) one

/-- A command whose argument comes in two reads, another one, and a malformed line. -/
theorem agrees_get : ∃ c, (Connection.start ⟨.sName, [], [], 0, 0, 0, false, [], false⟩ 0
      (Backend.SimpleLRU.fresh 1024)).doReads (fun _ => true)
        [[ascii "set k 0 0 1\r\nv\r"], [ascii "\nget k\r\na\r\n"]] = some c ∧
    c.session.executed = (STblocking.onRun (fun _ => true) ⟨.sName, [], [], 0, 0, 0, false, [], false⟩ 0
      (Backend.SimpleLRU.fresh 1024) [⟨ascii "set k 0 0 1\r\nv\r\nget k\r\na\r\n", by decide⟩] true).executed ∧
    c.session.handed.Nodup ∧ c.session.executed.length = 2 := by
  have wellFormed : ¬ Malformed (Session.start ⟨.sName, [], [], 0, 0, 0, false, [], false⟩ 0
      (Backend.SimpleLRU.fresh 1024)) (ascii "set k 0 0 1\r\nv\r") := by
    have feeds : ((Session.start ⟨.sName, [], [], 0, 0, 0, false, [], false⟩ 0
      (Backend.SimpleLRU.fresh 1024)).feedAll always (ascii "set k 0 0 1\r\nv\r")).isOk := by decide +kernel
    rintro ⟨t, error, failed⟩
    rw [failed] at feeds
    cases feeds
  have reads : ((Connection.start ⟨.sName, [], [], 0, 0, 0, false, [], false⟩ 0
      (Backend.SimpleLRU.fresh 1024)).doReads (fun _ => true)
        [[ascii "set k 0 0 1\r\nv\r"], [ascii "\nget k\r\na\r\n"]]).map
          (fun c => c.session.executed.length) = some 2 := by decide +kernel
  obtain ⟨c, ran, two⟩ := Option.map_eq_some_iff.mp reads
  obtain ⟨executed, once⟩ := (@agrees_iff _ _ _ _ _ _ _
    [⟨ascii "set k 0 0 1\r\nv\r\nget k\r\na\r\n", by decide⟩] ran (by decide) true).mpr wellFormed
  exact ⟨c, ran, executed, once, two⟩

/-- The bytes of a malformed line are parsed again at the next read. -/
theorem not_agrees_malformed : ¬ ∀ (calls : List (List Bytes)) (c : Connection Backend.SimpleLRU)
    (reads : List Read),
    (Connection.start ⟨.sName, [], [], 0, 0, 0, false, [], false⟩ 0
      (Backend.SimpleLRU.fresh 1024)).doReads (fun _ => true) calls = some c →
    received reads = calls.flatten.flatten →
    c.session.executed = (STblocking.onRun (fun _ => true) ⟨.sName, [], [], 0, 0, 0, false, [], false⟩ 0
      (Backend.SimpleLRU.fresh 1024) reads true).executed ∧ c.session.handed.Nodup := by
  intro always
  have twice : ((Connection.start ⟨.sName, [], [], 0, 0, 0, false, [], false⟩ 0
      (Backend.SimpleLRU.fresh 1024)).doReads (fun _ => true) [[ascii "a\r\n"], [ascii "b"]]).map
        (fun c => c.session.handed) = some [0, 1, 0, 1] := by
    decide +kernel
  obtain ⟨c, ran, handed⟩ := Option.map_eq_some_iff.mp twice
  have once := (always _ c _ ran (received_byteReads _)).2
  rw [handed] at once
  exact absurd once (by decide)

end Afina.Network.STnonblock
