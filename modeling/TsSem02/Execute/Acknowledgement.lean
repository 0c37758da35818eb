import TsSem02.Execute.Command
import TsSem02.Storage.Reachable

/-! # What an answer says about the store

`STORED` promises that the key now has the value the command asked for, and
`NOT_STORED` that nothing was changed.  `Add` keeps this promise; the others do
not look at the reply of their write, and keep it exactly when the value they
are asked to store fits the cache (`truthful_iff_fits`).
-/

namespace Afina.Execute

open Program Backend LruCache

abbrev executeOn (command : Command) (args : Bytes) (s : SimpleLRU) :
    Except Fault (Bytes × SimpleLRU) :=
  (command.execute args).execute Storage.call s

inductive Stores : Command → Bytes → Prop
  | set (command : InsertCommand) : Stores (.set command) command.key
  | add (command : InsertCommand) : Stores (.add command) command.key
  | append (command : InsertCommand) : Stores (.append command) command.key
  | replace (command : InsertCommand) : Stores (.replace command) command.key

/-- The value a storage command is asked to give its key. -/
def askedValue (s : SimpleLRU) (command : Command) (args : Bytes) : Bytes :=
  match command with
  | .append command => (s.valueOf command.key).getD [] ++ args
  | _ => args

/-- If the command completes, its answer is true. -/
structure Truthful (s : SimpleLRU) (command : Command) (key args : Bytes) : Prop where
  stored : ∀ s', executeOn command args s = .ok (ascii "STORED", s') →
    ∃ s'', Storage.call (.get key) s' = .ok (⟨true, some (askedValue s command args)⟩, s'')
  notStored : ∀ s', executeOn command args s = .ok (ascii "NOT_STORED", s') →
    ∀ other, s'.valueOf other = s.valueOf other

/-- Where the reply of the write is dropped, the value to write fits the cache. -/
def Fits (s : SimpleLRU) (command : Command) (args : Bytes) : Prop :=
  match command with
  | .set command => nodeSize command.key args ≤ s.maxSize
  | .append command => ∀ old, s.valueOf command.key = some old →
      nodeSize command.key (old ++ args) ≤ s.maxSize
  | .replace command => (s.valueOf command.key).isSome → nodeSize command.key args ≤ s.maxSize
  | _ => True

section Answers

variable {maxSize : Nat} {s s' : SimpleLRU} {cache : ByteCache maxSize} {key value : Bytes}

theorem call_get (refines : Refines s cache) (key : Bytes) :
    ∃ s', Storage.call (.get key) s = .ok (.found (cache.lookup key), s') ∧
      Refines s' (cache.touch key) := by
  have keeps : ¬ s.Shrinks (.get key) := by
    rintro ⟨_, _, _, overwrites, _⟩
    cases overwrites with
    | inl isPut => cases isPut
    | inr isSet => cases isSet
  exact call_refines refines keeps

theorem get_returns_iff (refines : Refines s cache) :
    (∃ s', Storage.call (.get key) s = .ok (⟨true, some value⟩, s')) ↔
      cache.lookup key = some value := by
  obtain ⟨s', called, -⟩ := call_get refines key
  rw [called]
  constructor
  · rintro ⟨_, same⟩
    cases found : cache.lookup key with
    | none => rw [found] at same; cases same
    | some value' => rw [found] at same; cases same; rfl
  · intro found
    rw [found]
    exact ⟨s', rfl⟩

/-- A write whose reply nobody looks at: the value is there afterwards, whenever
    the call completes, exactly when it fits. -/
theorem written_iff {op : StorageCall} (refines : Refines s cache)
    (overwrites : op.Overwrites key value)
    (writes : (ByteCache.call op cache).2 = (cache.put key value).2) :
    (∀ reply s', Storage.call op s = .ok (reply, s') →
      ∃ s'', Storage.call (.get key) s' = .ok (⟨true, some value⟩, s'')) ↔
      nodeSize key value ≤ maxSize := by
  constructor
  · intro found
    by_cases shrinks : s.Shrinks op
    · -- a value that gets shorter fits, since the old one does
      obtain ⟨key', value', old, overwrites', present, shorter⟩ := shrinks
      obtain ⟨rfl, rfl⟩ := overwrites'.unique overwrites
      rw [refines.valueOf_eq] at present
      have oldFits : nodeSize key' old ≤ maxSize := Cache.weight_le_of_lookup present
      exact Nat.le_trans (Nat.add_le_add_left (Nat.le_of_lt shorter) _) oldFits
    · obtain ⟨s', called, refines'⟩ := call_refines refines shrinks
      rw [writes] at refines'
      exact Cache.lookup_put_self.mp ((get_returns_iff refines').mp (found _ s' called))
  · intro fits reply s' called
    have refines' := (call_simulates refines called).2
    rw [writes] at refines'
    exact (get_returns_iff refines').mpr (Cache.lookup_put_self.mpr fits)

theorem values_eq {cache' : ByteCache maxSize} (refines : Refines s cache)
    (refines' : Refines s' cache') (same : ∀ other, cache'.lookup other = cache.lookup other)
    (other : Bytes) : s'.valueOf other = s.valueOf other := by
  rw [refines'.valueOf_eq, refines.valueOf_eq, same]

end Answers

theorem stored_ne_notStored : ascii "STORED" ≠ ascii "NOT_STORED" := by decide

/-! ## The commands -/

section Commands

variable {maxSize : Nat} {s : SimpleLRU} {cache : ByteCache maxSize} (key args : Bytes)

theorem executeOn_set {command : InsertCommand} {answer : Bytes} {s' : SimpleLRU} :
    executeOn (.set command) args s = .ok (answer, s') ↔
      ascii "STORED" = answer ∧ ∃ reply, Storage.call (.put command.key args) s = .ok (reply, s') := by
  show (step (.put command.key args) fun _ => done (ascii "STORED")).execute Storage.call s = _ ↔ _
  rw [execute_step_ok]
  constructor
  · rintro ⟨reply, s₁, called, ended⟩
    cases ended
    exact ⟨rfl, reply, called⟩
  · rintro ⟨answered, reply, called⟩
    exact ⟨reply, s', called, by rw [execute_done, answered]⟩

/-- `Append` and `Replace` on a missing key answer after the read. -/
theorem executeOn_missing {s₁ : SimpleLRU} {write : StorageReply → StorageCall}
    (called : Storage.call (.get key) s = .ok (.found none, s₁)) :
    (step (.get key) fun reply => if reply.ok then step (write reply) fun _ => done (ascii "STORED")
        else done (ascii "NOT_STORED") : StorageProgram).execute Storage.call s =
      .ok (ascii "NOT_STORED", s₁) := by
  rw [execute_step_of_ok called]
  rfl

theorem executeOn_present {s₁ s' : SimpleLRU} {write : StorageReply → StorageCall} {value answer : Bytes}
    (called : Storage.call (.get key) s = .ok (.found (some value), s₁)) :
    (step (.get key) fun reply => if reply.ok then step (write reply) fun _ => done (ascii "STORED")
        else done (ascii "NOT_STORED") : StorageProgram).execute Storage.call s = .ok (answer, s') ↔
      ascii "STORED" = answer ∧
        ∃ reply, Storage.call (write (.found (some value))) s₁ = .ok (reply, s') := by
  rw [execute_step_of_ok called]
  show (step (write (.found (some value))) fun _ => done (ascii "STORED")).execute Storage.call s₁ = _ ↔ _
  rw [execute_step_ok]
  constructor
  · rintro ⟨reply, _, written, ended⟩
    cases ended
    exact ⟨rfl, reply, written⟩
  · rintro ⟨answered, reply, written⟩
    exact ⟨reply, s', written, by rw [execute_done, answered]⟩

/-- Both `Append` and `Replace`: a read, and a write of `value` if the key is
    present. -/
theorem truthful_of_readThenWrite {command : Command} (write : StorageReply → StorageCall)
    (refines : Refines s cache)
    (executes : executeOn command args s =
      (step (.get key) fun reply => if reply.ok then step (write reply) fun _ => done (ascii "STORED")
        else done (ascii "NOT_STORED") : StorageProgram).execute Storage.call s)
    (overwrites : ∀ old, cache.lookup key = some old →
      (write (.found (some old))).Overwrites key (askedValue s command args))
    (writes : ∀ old, cache.lookup key = some old →
      (ByteCache.call (write (.found (some old))) (cache.touch key)).2 =
        ((cache.touch key).put key (askedValue s command args)).2) :
    Truthful s command key args ↔
      ∀ old, cache.lookup key = some old → nodeSize key (askedValue s command args) ≤ maxSize := by
  obtain ⟨s₁, called, refines₁⟩ := call_get refines key
  cases found : cache.lookup key with
  | none =>
    rw [found] at called
    have missing := executes.trans (executeOn_missing key called)
    constructor
    · intro _ old present
      cases present
    · intro _
      refine ⟨fun s' stored => ?_, fun s' notStored => ?_⟩
      · rw [missing] at stored
        cases stored
      · rw [missing] at notStored
        cases notStored
        exact values_eq refines refines₁ (Cache.lookup_touch cache key)
  | some old =>
    rw [found] at called
    have present := fun answer s' =>
      (Iff.of_eq (congrArg (· = .ok (answer, s')) executes)).trans (executeOn_present key called)
    have written := written_iff refines₁ (overwrites old found) (writes old found)
    constructor
    · intro truthful _ _
      apply written.mp
      intro reply s' called'
      exact truthful.stored s' ((present _ s').mpr ⟨rfl, reply, called'⟩)
    · intro fits
      refine ⟨fun s' stored => ?_, fun s' notStored => ?_⟩
      · obtain ⟨-, reply, called'⟩ := (present _ s').mp stored
        exact written.mpr (fits old rfl) reply s' called'
      · exact absurd ((present _ s').mp notStored).1 stored_ne_notStored

variable {args}

theorem truthful_set (command : InsertCommand) (refines : Refines s cache) :
    Truthful s (.set command) command.key args ↔ nodeSize command.key args ≤ maxSize := by
  have overwrites : (StorageCall.put command.key args).Overwrites command.key args := .inl rfl
  have written := written_iff refines overwrites rfl
  constructor
  · intro truthful
    apply written.mp
    intro reply s' called
    exact truthful.stored s' ((executeOn_set args).mpr ⟨rfl, reply, called⟩)
  · intro fits
    refine ⟨fun s' stored => ?_, fun s' notStored => ?_⟩
    · obtain ⟨-, reply, called⟩ := (executeOn_set args).mp stored
      exact written.mpr fits reply s' called
    · exact absurd ((executeOn_set args).mp notStored).1 stored_ne_notStored

theorem truthful_add (command : InsertCommand) (refines : Refines s cache) :
    Truthful s (.add command) command.key args := by
  have keeps : ¬ s.Shrinks (.putIfAbsent command.key args) := by
    rintro ⟨_, _, _, overwrites, _⟩
    cases overwrites with
    | inl isPut => cases isPut
    | inr isSet => cases isSet
  obtain ⟨s₁, called, refines₁⟩ := call_refines refines keeps
  have answers : executeOn (.add command) args s =
      .ok (if (cache.putIfAbsent command.key args).1 then ascii "STORED" else ascii "NOT_STORED", s₁) := by
    show (step (.putIfAbsent command.key args) fun reply =>
      done (if reply.ok then ascii "STORED" else ascii "NOT_STORED")).execute Storage.call s = _
    rw [execute_step_of_ok called, execute_done]
    rfl
  have refines₁ : Refines s₁ (cache.putIfAbsent command.key args).2 := refines₁
  cases accepted : (cache.putIfAbsent command.key args).1 with
  | true =>
    rw [accepted] at answers
    have found := Cache.lookup_putIfAbsent_of_accepted accepted
    refine ⟨fun s' stored => ?_, fun s' notStored => ?_⟩
    · rw [answers] at stored
      cases stored
      exact (get_returns_iff refines₁).mpr found
    · rw [answers] at notStored
      cases notStored
  | false =>
    rw [accepted] at answers
    have unchanged := Cache.lookup_putIfAbsent_of_refused accepted
    refine ⟨fun s' stored => ?_, fun s' notStored => ?_⟩
    · rw [answers] at stored
      cases stored
    · rw [answers] at notStored
      cases notStored
      exact values_eq refines refines₁ unchanged

theorem truthful_append (command : InsertCommand) (refines : Refines s cache) :
    Truthful s (.append command) command.key args ↔
      ∀ old, cache.lookup command.key = some old → nodeSize command.key (old ++ args) ≤ maxSize := by
  have asked : ∀ old, cache.lookup command.key = some old →
      askedValue s (.append command) args = old ++ args := by
    intro old found
    rw [askedValue, refines.valueOf_eq, found]
    rfl
  rw [truthful_of_readThenWrite command.key args
    (fun reply => .put command.key (reply.value.getD [] ++ args)) refines rfl]
  · exact forall_congr' fun old => imp_congr_right fun found => by rw [asked old found]
  · intro old found
    rw [asked old found]
    exact .inl rfl
  · intro old found
    rw [asked old found]
    rfl

theorem truthful_replace (command : InsertCommand) (refines : Refines s cache) :
    Truthful s (.replace command) command.key args ↔
      ∀ old, cache.lookup command.key = some old → nodeSize command.key args ≤ maxSize := by
  apply truthful_of_readThenWrite command.key args (fun _ => .set command.key args) refines rfl
  · intro old _
    exact .inr rfl
  · intro old found
    show ((cache.touch command.key).set command.key args).2 = _
    rw [Cache.set, Cache.lookup_touch, found]
    rfl

end Commands

/-- The answer is true exactly when the value a blind write stores fits the cache. -/
theorem truthful_iff_fits {maxSize : Nat} {s : SimpleLRU} {command : Command} {key : Bytes}
    (bounded : maxSize < 2 ^ 63) (reachable : Reachable maxSize s) (stores : Stores command key)
    (args : Bytes) : Truthful s command key args ↔ Fits s command args := by
  obtain ⟨cache, refines⟩ := reachable.refines bounded
  have maxSize_eq := refines.maxSize_eq
  have lookup_eq := refines.valueOf_eq key
  cases stores with
  | set command =>
    rw [truthful_set command refines, Fits, maxSize_eq]
  | add command =>
    exact iff_of_true (truthful_add command refines) trivial
  | append command =>
    rw [truthful_append command refines, Fits, maxSize_eq, lookup_eq]
  | replace command =>
    rw [truthful_replace command refines, Fits, maxSize_eq, lookup_eq, Option.isSome_iff_exists]
    exact ⟨fun fits ⟨old, found⟩ => fits old found, fun fits old found => fits ⟨old, found⟩⟩

/-- A value that fits, set on an empty cache. -/
theorem truthful_set_fresh :
    Truthful (SimpleLRU.fresh 1024) (.set ⟨ascii "k", 0, 0⟩) (ascii "k") (ascii "v") :=
  (truthful_iff_fits (by decide) ⟨[], [], rfl⟩ (.set ⟨ascii "k", 0, 0⟩) (ascii "v")).mpr (by
    show nodeSize (ascii "k") (ascii "v") ≤ 1024
    decide)

/-- Eight bytes do not fit a cache of four, and are acknowledged. -/
theorem not_truthful_large : ¬ ∀ maxSize < 2 ^ 63, ∀ s, Reachable maxSize s →
    ∀ command key, Stores command key → ∀ args, Truthful s command key args := by
  intro always
  have truthful := always 4 (by decide) (SimpleLRU.fresh 4) ⟨[], [], rfl⟩ _ _
    (.set ⟨ascii "key", 0, 0⟩) (ascii "value")
  obtain ⟨s'', called⟩ := truthful.stored _ rfl
  cases called

end Afina.Execute
