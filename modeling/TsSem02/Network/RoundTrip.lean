import TsSem02.Execute.Retrieval
import TsSem02.Network.Framing

/-! # What comes back over the wire

A value that is set over a connection is stored with the line break of its data
block, or not at all.  `Get` answers with the stored bytes, so a client does not
get back what it has set (`not_roundTrip`).
-/

namespace Afina.Network

open Protocol Execute Program Parser Session Backend LruCache

/-! ## Who answers -/

section Answered

variable {Store : Type}

/-- No key of the line or of the waiting command has a space. -/
structure Orderly (s : Session Store) : Prop where
  keyed : s.parser.Keyed
  spaceless : ∀ command, s.commandToExecute = some command → Spaceless command

theorem Session.Idle.orderly {s : Session Store} (idle : s.Idle) : Orderly s where
  keyed := idle.keyed
  spaceless _ same := by rw [idle.command] at same; cases same

variable [Storage Store]

/-- A command executed on the storage of `s` has answered. -/
def Answered (s : Session Store) (responses : List Bytes) : Prop :=
  ∃ command args result store, Spaceless command ∧
    (command.execute args).execute Storage.call s.storage = .ok (result, store) ∧
    responses = s.responses ++ [result ++ crlf]

variable {s : Session Store} {bytes : Bytes} {c : UInt8}

theorem outcome_answered (orderly : Orderly s) :
    Answered s (final (outcome (runCommand always s))).responses ∨
      ((final (outcome (runCommand always s))).responses = s.responses ∧
        ∀ t, outcome (runCommand always s) = .ok t → t = s) := by
  have did := runCommand_ran always s
  generalize runCommand always s = ran at did ⊢
  cases did with
  | waits => exact .inr ⟨rfl, fun t same => by cases same; rfl⟩
  | faults => exact .inr ⟨rfl, fun t same => by cases same⟩
  | answers command result store _ waiting ran delivered =>
    rw [← delivered]
    exact .inl ⟨command, _, result, store, orderly.spaceless command waiting, ran, rfl⟩

omit [Storage Store] in
theorem buildCommand_orderly (orderly : Orderly s) : Orderly s.buildCommand.1 := by
  have inserted : ∀ make command, (∀ fields, Spaceless (make fields)) →
      s.parser.insertCommand make = .command command → Spaceless command := by
    intro make command all built
    simp only [insertCommand] at built
    split at built
    · cases built
    · cases built
      exact all _
  have spaceless : ∀ command, s.parser.build.2 = .command command → Spaceless command := by
    intro command built
    simp only [build] at built
    split at built
    · cases built
    · simp only at built
      split at built
      · exact inserted .set _ (fun _ => trivial) built
      · split at built
        · exact inserted .add _ (fun _ => trivial) built
        · split at built
          · exact inserted .append _ (fun _ => trivial) built
          · split at built
            · cases built
              exact orderly.keyed.keys
            · split at built
              · cases built
                trivial
              · cases built
  simp only [buildCommand]
  split
  · cases builds : s.parser.build with
    | mk bodySize built =>
      rw [builds] at spaceless
      cases built with
      | nothing => exact ⟨orderly.keyed, fun _ same => by cases same⟩
      | command command =>
        exact ⟨orderly.keyed, fun _ same => by cases same; exact spaceless command rfl⟩
      | threw error => exact ⟨orderly.keyed, orderly.spaceless⟩
      | undefined => exact orderly
  · exact orderly

theorem feed_answered (orderly : Orderly s) :
    Answered s (final (s.feed always c)).responses ∨
      ((final (s.feed always c)).responses = s.responses ∧
        ∀ t, s.feed always c = .ok t → t.storage = s.storage ∧ Orderly t) := by
  have did := feed_fed always s c
  generalize s.feed always c = result at did ⊢
  cases did with
  | argument command _ waiting ran =>
    have orderlyNext : Orderly (s.feedArgument c) := ⟨orderly.keyed, orderly.spaceless⟩
    rw [← ran]
    cases outcome_answered orderlyNext with
    | inl answered => exact .inl answered
    | inr silent =>
      exact .inr ⟨silent.1, fun t same => by rw [silent.2 t same]; exact ⟨rfl, orderlyNext⟩⟩
  | throws => exact .inr ⟨rfl, fun t same => by cases same⟩
  | rejects _ _ _ _ _ builds =>
    exact .inr ⟨(BuildKeeps.of_eq builds).responses, fun t same => by cases same⟩
  | parses parser t _ _ stepped builds ran =>
    have orderlyNext : Orderly ({ s.hand 1 with parser := parser } : Session Store) :=
      ⟨step_keyed orderly.keyed stepped, orderly.spaceless⟩
    have built := buildCommand_orderly orderlyNext
    rw [builds] at built
    have kept := BuildKeeps.of_eq builds
    have storage : t.storage = s.storage := kept.storage
    have responses : t.responses = s.responses := kept.responses
    have orderlyLast : Orderly ({ t with consumed := t.consumed + 1 } : Session Store) :=
      ⟨built.keyed, built.spaceless⟩
    rw [← ran]
    cases outcome_answered orderlyLast with
    | inl answered =>
      obtain ⟨command, args, result, store, spaceless, ran, same⟩ := answered
      exact .inl ⟨command, args, result, store, spaceless, by rw [← storage]; exact ran,
        by rw [← responses]; exact same⟩
    | inr silent =>
      refine .inr ⟨silent.1.trans responses, fun u same => ?_⟩
      rw [silent.2 u same]
      exact ⟨storage, orderlyLast⟩

theorem feedAll_answered {response : Bytes} (orderly : Orderly s)
    (responses : (final (s.feedAll always bytes)).responses = s.responses ++ [response]) :
    Answered s (s.responses ++ [response]) := by
  induction bytes generalizing s with
  | nil =>
    have same : s.responses = s.responses ++ [response] := responses
    simp at same
  | cons c bytes ih =>
    have one := @feed_answered Store _ s c orderly
    have grows : (final (s.feed always c)).responses <+: s.responses ++ [response] := by
      rw [← responses, feedAll_cons]
      cases s.feed always c with
      | error e => exact List.prefix_refl _
      | ok t => exact (feedAll_grows t bytes).responses
    cases one with
    | inl answered =>
      obtain ⟨command, args, result, store, spaceless, ran, same⟩ := answered
      rw [same, List.prefix_append_right_inj] at grows
      obtain ⟨rest, same⟩ := grows
      exact ⟨command, args, result, store, spaceless, ran, by rw [(List.cons.inj same).1]⟩
    | inr silent =>
      rw [feedAll_cons] at responses
      cases took : s.feed always c with
      | error e =>
        rw [took] at responses silent
        have same : s.responses = s.responses ++ [response] := silent.1.symm.trans responses
        simp at same
      | ok t =>
        rw [took] at responses silent
        obtain ⟨storage, orderlyNext⟩ := silent.2 t rfl
        have unchanged : t.responses = s.responses := silent.1
        rw [← unchanged] at responses
        obtain ⟨command, args, result, store, spaceless, ran, same⟩ := ih orderlyNext responses
        exact ⟨command, args, result, store, spaceless, by rw [← storage]; exact ran,
          by rw [← unchanged]; exact same⟩

end Answered

/-! ## Setting and getting -/

section RoundTrip

variable {maxSize : Nat} {s : Session SimpleLRU} {cache : ByteCache maxSize} {key body more : Bytes}

theorem Session.Answers.continues {command : Command} {args bytes : Bytes} {n : Nat}
    (answers : Answers s command args n (s.feedAll always bytes)) (rest : Bytes)
    (more : (final (s.feedAll always (bytes ++ rest))).responses ≠ s.responses) :
    ∃ (t : Session SimpleLRU) (result : Bytes),
      executeOn command args s.storage = .ok (result, t.storage) ∧ t.Idle ∧
      t.responses = s.responses ++ [result ++ crlf] ∧
      s.feedAll always (bytes ++ rest) = t.feedAll always rest := by
  rw [feedAll_append] at more ⊢
  generalize s.feedAll always bytes = o at answers more
  cases answers with
  | faulted t fault _ _ responses => exact absurd responses more
  | answered t result ran idle _ responses _ => exact ⟨t, result, ran, idle, responses, rfl⟩

abbrev setRequest (key body : Bytes) : Request := .storage .set ⟨key, 0, 0⟩ body

abbrev appendRequest (key more : Bytes) : Request := .storage .append ⟨key, 0, 0⟩ more

def storedResponse : Bytes := ascii "STORED" ++ crlf

theorem storage_wellFormed (valid : Key key) (verb : Verb) (block : Bytes) :
    (Request.storage verb ⟨key, 0, 0⟩ block).WellFormed :=
  ⟨valid, (by decide : 0 < 2 ^ 32), (by decide : -2 ^ 31 ≤ (0 : Int)), (by decide : (0 : Int) < 2 ^ 31)⟩

theorem get_wellFormed (valid : Key key) : (Request.get [key]).WellFormed :=
  ⟨List.cons_ne_nil key [], fun other member => by rw [List.mem_singleton.mp member]; exact valid⟩

theorem refines_set {store store' : SimpleLRU} {fields : InsertCommand} {args result : Bytes}
    (refines : Refines store cache) (ran : executeOn (.set fields) args store = .ok (result, store')) :
    Refines store' (cache.put fields.key args).2 := by
  obtain ⟨-, reply, called⟩ := (executeOn_set args).mp ran
  exact (call_simulates refines called).2

theorem lookup_of_response {bytes : Bytes} (idle : s.Idle) (refines : Refines s.storage cache)
    (valid : Key key) (responses : (final (s.feedAll always bytes)).responses =
      s.responses ++ [valueResponse key body]) : cache.lookup key = some body := by
  obtain ⟨command, args, result, store, spaceless, ran, same⟩ := feedAll_answered idle.orderly responses
  have response := (List.cons.inj (List.append_cancel_left same)).1
  exact lookup_of_answer refines spaceless valid.2.1 ran response.symm

theorem exists_argument (key body : Bytes) : ∃ args left, (setRequest key body).data = args ++ left ∧
    args.length = (setRequest key body).awaited ∧
    (body ≠ [] → body.length < 2 ^ 32 → args = body ++ crlf) ∧
    (2 ^ 32 ≤ body.length → args.length < body.length) := by
  obtain ⟨atMost, -⟩ := awaited_le .set ⟨key, 0, 0⟩ body
  have length : (setRequest key body).data.length = body.length + 2 := List.length_append
  have announced : (setRequest key body).announced = body.length % 2 ^ 32 := readNumber_decimal_eq _
  have split := List.take_append_drop (setRequest key body).awaited (setRequest key body).data
  refine ⟨_, _, split.symm, ?_, ?_, ?_⟩
  · rw [List.length_take, length]
    exact Nat.min_eq_left atMost
  · intro nonempty short
    have positive : 0 < body.length := List.length_pos_iff.mpr nonempty
    apply List.take_of_length_le
    rw [length, Request.awaited, announced, Nat.mod_eq_of_lt short, if_pos positive]
  · intro long
    have wrapped := Nat.mod_lt body.length (by decide : 0 < 2 ^ 32)
    have folded := Nat.mod_le (body.length - 2 ^ 32) (2 ^ 32)
    rw [List.length_take, Request.awaited, announced, Nat.mod_eq_sub_mod long]
    split <;> omega

/-- Set and get only go well where the value was there already and the set is
    refused. -/
theorem refused_of_responses (idle : s.Idle) (refines : Refines s.storage cache) (valid : Key key)
    (nonempty : body ≠ []) (fits : nodeSize key body ≤ maxSize)
    (responses : (final (s.feedAll always (encodeAll [setRequest key body, .get [key]]))).responses =
      s.responses ++ [storedResponse, valueResponse key body]) :
    body.length < 2 ^ 32 ∧ maxSize < nodeSize key (body ++ crlf) ∧ cache.lookup key = some body := by
  obtain ⟨args, left, split, exact, whole, shorter⟩ := exists_argument key body
  have wellFormed := storage_wellFormed valid .set body
  have stream : encodeAll [setRequest key body, .get [key]] =
      ((setRequest key body).body ++ lf :: args) ++ (left ++ encodeAll [.get [key]]) := by
    rw [encodeAll_cons, Request.encode, split]
    simp only [List.append_assoc, List.cons_append]
  have readable : (setRequest key body).Readable := by
    by_contra unreadable
    obtain ⟨error, raises⟩ := @Request.not_gathered s.parser _ wellFormed unreadable
    rw [idle.parser] at raises
    obtain ⟨t, raised, silent⟩ := feedAll_raises (lf :: args ++ (left ++ encodeAll [.get [key]]))
      idle.command (idle.ready.incomplete idle.command) (Request.lf_not_mem_body wellFormed) raises
    rw [stream, List.append_assoc, raised] at responses
    have same : s.responses = s.responses ++ [storedResponse, valueResponse key body] :=
      silent.symm.trans responses
    simp at same
  rw [stream] at responses
  have answers := feedAll_answers idle wellFormed readable exact
  obtain ⟨t, result, ran, idleNext, responsesNext, continues⟩ := answers.continues
    (left ++ encodeAll [.get [key]]) (by rw [responses]; simp)
  have refinesNext : Refines t.storage (cache.put key args).2 := refines_set refines ran
  rw [continues] at responses
  have grows := (feedAll_grows t (left ++ encodeAll [.get [key]])).responses
  have first : result ++ crlf = storedResponse := by
    rw [responses, responsesNext, List.prefix_append_right_inj] at grows
    exact (List.cons_prefix_cons.mp grows).1
  have found : (cache.put key args).2.lookup key = some body := by
    apply lookup_of_response idleNext refinesNext valid
    rw [responses, responsesNext, first]
    simp
  by_cases short : body.length < 2 ^ 32
  · have same := whole nonempty short
    subst same
    have refused : maxSize < nodeSize key (body ++ crlf) := by
      apply Nat.lt_of_not_le
      intro accepted
      rw [Cache.lookup_put_self.mpr accepted] at found
      have longer := congrArg List.length (Option.some.inj found)
      rw [List.length_append] at longer
      exact absurd longer (Nat.ne_of_gt (Nat.lt_add_of_pos_right (by decide)))
    rw [Cache.lookup_put_of_refused refused] at found
    exact ⟨short, refused, found⟩
  · have less := shorter (Nat.not_lt.mp short)
    have accepted : nodeSize key args ≤ maxSize :=
      Nat.le_trans (Nat.add_le_add_left (Nat.le_of_lt less) _) fits
    rw [Cache.lookup_put_self.mpr accepted] at found
    rw [Option.some.inj found] at less
    exact absurd less (Nat.lt_irrefl _)

theorem refines_get {store store' : SimpleLRU} {keys : List Bytes} {args result : Bytes}
    (refines : Refines store cache) (ran : executeOn (.get keys) args store = .ok (result, store')) :
    ∃ cache' : ByteCache maxSize, Refines store' cache' ∧ ∀ other, cache'.lookup other = cache.lookup other := by
  obtain ⟨store'', cache', executed, refines', same⟩ := Get.execute_items refines keys [] []
  have agrees : executeOn (.get keys) args store = _ := executed
  rw [ran] at agrees
  cases agrees
  exact ⟨cache', refines', same⟩

theorem refines_append {store store' : SimpleLRU} {fields : InsertCommand} {args result old : Bytes}
    (refines : Refines store cache) (found : cache.lookup fields.key = some old)
    (refused : maxSize < nodeSize fields.key (old ++ args))
    (ran : executeOn (.append fields) args store = .ok (result, store')) :
    ∃ cache' : ByteCache maxSize, Refines store' cache' ∧ ∀ other, cache'.lookup other = cache.lookup other := by
  obtain ⟨store₁, called, refines₁⟩ := call_get refines fields.key
  rw [found] at called
  obtain ⟨-, reply, written⟩ : ascii "STORED" = result ∧
      ∃ reply, Storage.call (.put fields.key (old ++ args)) store₁ = .ok (reply, store') :=
    (executeOn_present fields.key called).mp ran
  refine ⟨_, (call_simulates refines₁ written).2, fun other => ?_⟩
  show ((cache.touch fields.key).put fields.key (old ++ args)).2.lookup other = _
  rw [Cache.lookup_put_of_refused refused, Cache.lookup_touch]

/-- Where set and get go well, appending does not. -/
theorem append_unanswered (idle : s.Idle) (refines : Refines s.storage cache) (valid : Key key)
    (nonempty : body ≠ []) (short : body.length < 2 ^ 32) (refused : maxSize < nodeSize key (body ++ crlf))
    (found : cache.lookup key = some body) (fits : nodeSize key (body ++ more) ≤ maxSize) :
    (final (s.feedAll always (encodeAll
      [setRequest key body, .get [key], appendRequest key more, .get [key]]))).responses ≠
      s.responses ++ [storedResponse, valueResponse key body, storedResponse,
        valueResponse key (body ++ more)] := by
  intro responses
  have setAnswers := feedAll_encode idle (storage_wellFormed valid .set body)
    (show Framable (setRequest key body) from ⟨nonempty, short⟩)
  rw [encodeAll_cons] at responses
  obtain ⟨t₁, result₁, ran₁, idle₁, responses₁, continues₁⟩ := setAnswers.continues
    (encodeAll [.get [key], appendRequest key more, .get [key]]) (by rw [responses]; simp)
  have refines₁ : Refines t₁.storage (cache.put key (body ++ crlf)).2 := refines_set refines ran₁
  have found₁ := (Cache.lookup_put_of_refused refused key).trans found
  rw [continues₁, encodeAll_cons] at responses
  have getAnswers := feedAll_encode idle₁ (get_wellFormed valid) trivial
  obtain ⟨t₂, result₂, ran₂, idle₂, responses₂, continues₂⟩ := getAnswers.continues
    (encodeAll [appendRequest key more, .get [key]]) (by rw [responses, responses₁]; simp)
  obtain ⟨cache₂, refines₂, same₂⟩ := refines_get refines₁ ran₂
  have found₂ := (same₂ key).trans found₁
  rw [continues₂, encodeAll_cons] at responses
  have sizes : nodeSize key (body ++ crlf) = key.length + (body.length + 2) :=
    congrArg (key.length + ·) List.length_append
  have sizes' : nodeSize key (body ++ more) = key.length + (body.length + more.length) :=
    congrArg (key.length + ·) List.length_append
  cases more with
  | nil =>
    -- the line break of the empty block is an error
    have stream : (appendRequest key []).encode ++ encodeAll [.get [key]] =
        ((appendRequest key []).body ++ lf :: []) ++ (crlf ++ encodeAll [.get [key]]) := by
      simp only [Request.encode, Request.data, List.append_assoc, List.cons_append, List.nil_append]
    have readable : (appendRequest key []).Readable := (readNumber_decimal (by decide : 0 < 2 ^ 32)).1
    have answers := @feedAll_answers _ _ t₂ (appendRequest key []) [] idle₂
      (storage_wellFormed valid .append []) readable rfl
    rw [stream] at responses
    obtain ⟨t₃, result₃, ran₃, idle₃, responses₃, continues₃⟩ := answers.continues
      (crlf ++ encodeAll [.get [key]]) (by rw [responses, responses₂, responses₁]; simp)
    obtain ⟨t, raised, silent⟩ := feedAll_crlf idle₃ (encodeAll [.get [key]])
    rw [continues₃, raised] at responses
    have all := congrArg List.length (silent.symm.trans responses)
    rw [responses₃, responses₂, responses₁] at all
    simp at all
  | cons c more =>
    have one : more.length = 0 := by
      rw [List.length_cons] at sizes'
      omega
    have answers := feedAll_encode idle₂ (storage_wellFormed valid .append (c :: more))
      (show Framable (appendRequest key (c :: more)) from
        ⟨List.cons_ne_nil c more, by rw [List.length_cons, one]; decide⟩)
    obtain ⟨t₃, result₃, ran₃, idle₃, responses₃, continues₃⟩ := answers.continues
      (encodeAll [.get [key]]) (by rw [responses, responses₂, responses₁]; simp)
    have large : maxSize < nodeSize key (body ++ (c :: more ++ crlf)) := by
      have length : (body ++ (c :: more ++ crlf)).length = body.length + (more.length + 1 + 2) := by
        rw [List.length_append, List.length_append, List.length_cons]
        rfl
      show maxSize < key.length + (body ++ (c :: more ++ crlf)).length
      omega
    obtain ⟨cache₃, refines₃, same₃⟩ := refines_append refines₂ found₂ large ran₃
    have found₃ := (same₃ key).trans found₂
    rw [continues₃] at responses
    have last : (final (t₃.feedAll always (encodeAll [.get [key]]))).responses =
        t₃.responses ++ [valueResponse key (body ++ c :: more)] := by
      obtain ⟨rest, grows⟩ := (feedAll_grows t₃ (encodeAll [.get [key]])).responses
      rw [← grows]
      rw [responses, responses₃, responses₂, responses₁] at grows
      simp only [List.append_assoc, List.append_cancel_left_eq, List.cons_append, List.nil_append,
        List.cons.injEq] at grows
      rw [grows.2.2.2]
    have answered := lookup_of_response idle₃ refines₃ valid last
    rw [found₃] at answered
    have same := congrArg List.length (Option.some.inj answered)
    rw [List.length_append, List.length_cons] at same
    omega

/-- What a client expects: its value back, and with more bytes appended the
    longer value. -/
structure RoundTrip (key body more : Bytes) (setGet appendGet : STblocking.Served SimpleLRU) : Prop where
  set : setGet.responses = [storedResponse, valueResponse key body]
  append : appendGet.responses = [storedResponse, valueResponse key body, storedResponse,
    valueResponse key (body ++ more)]

theorem responses_onRun (parser : Parser) (argRemains : Nat) (storage : SimpleLRU) (reads : List Read)
    (closes : Bool) :
    (STblocking.onRun (fun _ => true) parser argRemains storage reads closes).responses =
      (final ((Session.start parser argRemains storage).feedAll always (received reads))).responses := by
  rw [STblocking.onRun_eq]
  cases (Session.start parser argRemains storage).feedAll always (received reads) with
  | ok t => rfl
  | error e => rfl

end RoundTrip

/-- No client gets back what it sets and appends. -/
theorem not_roundTrip {maxSize : Nat} {s : SimpleLRU} {key body more : Bytes} {reads reads' : List Read}
    (bounded : maxSize < 2 ^ 63) (reachable : Reachable maxSize s) (valid : Key key)
    (nonempty : body ≠ []) (fits : nodeSize key (body ++ more) ≤ maxSize)
    (setGet : received reads = encodeAll [setRequest key body, .get [key]])
    (appendGet : received reads' =
      encodeAll [setRequest key body, .get [key], appendRequest key more, .get [key]])
    (parser : Parser) (argRemains : Nat) (closes : Bool) :
    ¬ RoundTrip key body more (STblocking.onRun (fun _ => true) parser argRemains s reads closes)
      (STblocking.onRun (fun _ => true) parser argRemains s reads' closes) := by
  intro roundTrip
  obtain ⟨cache, refines⟩ := reachable.refines bounded
  have setBack := roundTrip.set
  have appendBack := roundTrip.append
  rw [responses_onRun, setGet] at setBack
  rw [responses_onRun, appendGet] at appendBack
  have idle := start_idle parser argRemains s
  have bodyFits : nodeSize key body ≤ maxSize := by
    have sizes : nodeSize key (body ++ more) = key.length + (body.length + more.length) :=
      congrArg (key.length + ·) List.length_append
    show key.length + body.length ≤ maxSize
    omega
  obtain ⟨short, refused, found⟩ := refused_of_responses idle refines valid nonempty bodyFits setBack
  exact append_unanswered idle refines valid nonempty short refused found fits appendBack

/-- On an empty cache, with reads of one byte. -/
theorem not_roundTrip_foobar :
    let parser : Parser := ⟨.sName, [], [], 0, 0, 0, false, [], false⟩
    let setGet := [setRequest (ascii "foo") (ascii "foobar"), .get [ascii "foo"]]
    let appendGet := setGet ++ [appendRequest (ascii "foo") (ascii "!"), .get [ascii "foo"]]
    ¬ RoundTrip (ascii "foo") (ascii "foobar") (ascii "!")
      (STblocking.onRun (fun _ => true) parser 0 (SimpleLRU.fresh 1024) (byteReads (encodeAll setGet)) true)
      (STblocking.onRun (fun _ => true) parser 0 (SimpleLRU.fresh 1024) (byteReads (encodeAll appendGet)) true) := by
  have key : Key (ascii "foo") := by unfold Key; decide
  have fits : nodeSize (ascii "foo") (ascii "foobar" ++ ascii "!") ≤ 1024 := by decide
  exact not_roundTrip (by decide) ⟨[], [], rfl⟩ key (by decide) fits (received_byteReads _)
    (received_byteReads _) _ _ _

/-- The line break of the data block comes back as part of the value. -/
theorem not_always_roundTrip : ¬ ∀ reads reads' : List Read,
    received reads = ascii "set foo 0 0 6\r\nfoobar\r\nget foo\r\n" →
    received reads' =
      ascii "set foo 0 0 6\r\nfoobar\r\nget foo\r\nappend foo 0 0 1\r\n!\r\nget foo\r\n" →
    RoundTrip (ascii "foo") (ascii "foobar") (ascii "!")
      (STblocking.onRun (fun _ => true) ⟨.sName, [], [], 0, 0, 0, false, [], false⟩ 0
        (SimpleLRU.fresh 1024) reads true)
      (STblocking.onRun (fun _ => true) ⟨.sName, [], [], 0, 0, 0, false, [], false⟩ 0
        (SimpleLRU.fresh 1024) reads' true) := by
  intro always
  have setBack := (always _ _ (received_byteReads _) (received_byteReads _)).set
  have answered : (STblocking.onRun (fun _ => true) ⟨.sName, [], [], 0, 0, 0, false, [], false⟩ 0
      (SimpleLRU.fresh 1024) (byteReads (ascii "set foo 0 0 6\r\nfoobar\r\nget foo\r\n")) true).responses =
      [ascii "STORED\r\n", ascii "VALUE foo 0 8\r\nfoobar\r\n\r\nEND\r\n"] := by
    decide +kernel
  rw [answered] at setBack
  exact absurd setBack (by decide +kernel)

end Afina.Network
