import TsSem02.Library.Interleaving
import TsSem02.Library.LruOrder
import TsSem02.Execute.Acknowledgement

/-! # Connections that share a store

Every connection executes its commands one after another, on one
`ThreadSafeSimplLRU`: a call holds `storage_lock` for as long as it takes, a
command does not hold it from one call to the next.

`Append` reads and then writes.  What it writes was right when it read, so a
write of another connection in between is lost (`not_serializable_appends`).
Where the calls in between change nothing under its key and evict nothing that
its read may have saved the key from, it does not matter that they came in
between (`serializable_of_undisturbed`).
-/

namespace Afina.Execute

open Program Backend LruCache Interleaving

/-- The connections of a server, with the commands they still have to execute
    and the responses they have sent. -/
abbrev Server (ι : Type) := World ι (Command × Bytes) StorageCall StorageReply Bytes SimpleLRU

/-- A command with its argument, and the line break behind the answer. -/
def respond (task : Command × Bytes) : StorageProgram := do
  let result ← task.1.execute task.2
  return result ++ crlf

/-- The commands of interest: those that store, and `get` of a single key. -/
inductive Supported : Command → Prop
  | set (command : InsertCommand) : Supported (.set command)
  | add (command : InsertCommand) : Supported (.add command)
  | append (command : InsertCommand) : Supported (.append command)
  | get (key : Bytes) : Supported (.get [key])

def SameValues (s s' : SimpleLRU) : Prop := ∀ key, s.valueOf key = s'.valueOf key

/-- In the recency order of `s`, the entry of `other` is behind the one of `key`. -/
def LessRecent (s : SimpleLRU) (key other : Bytes) : Prop :=
  ∀ entries, Holds s entries → [key, other].Sublist (entries.map Prod.fst)

/-- A call does not come between the read and the write of an `Append` to `key`,
    which read when the store was `seen`: what is stored under `key` stays, and
    all that is evicted was due for eviction before `key`. -/
structure SparesKey (s : SimpleLRU) (call : StorageCall) (seen : SimpleLRU) (key : Bytes) : Prop where
  unchanged : ∀ reply s', Storage.call call s = .ok (reply, s') → s'.valueOf key = s.valueOf key
  evictsOlder : ∀ reply s' other, Storage.call call s = .ok (reply, s') →
    (s.valueOf other).isSome → s'.valueOf other = none → LessRecent seen key other

def Spares (s : SimpleLRU) (call : StorageCall) (seen : SimpleLRU) (task : Command × Bytes) : Prop :=
  ∀ command, task.1 = .append command → SparesKey s call seen command.key

/-! ## The calls of a command -/

section Responses

variable (command : InsertCommand) (args : Bytes)

theorem respond_set : respond (.set command, args) =
    step (.put command.key args) fun _ => done (ascii "STORED" ++ crlf) := rfl

theorem respond_add : respond (.add command, args) =
    step (.putIfAbsent command.key args) fun reply =>
      done ((if reply.ok then ascii "STORED" else ascii "NOT_STORED") ++ crlf) := rfl

/-- The write of an `Append` that has read `value`. -/
def appendWrite (command : InsertCommand) (value : Bytes) : StorageProgram :=
  step (.put command.key value) fun _ => done (ascii "STORED" ++ crlf)

theorem respond_append : respond (.append command, args) =
    step (.get command.key) fun reply =>
      if reply.ok then appendWrite command (reply.value.getD [] ++ args)
      else done (ascii "NOT_STORED" ++ crlf) := by
  show step _ _ = step _ _
  congr 1
  funext ⟨ok, value⟩
  cases ok <;> rfl

theorem respond_get (key : Bytes) : ∃ answer : StorageReply → Bytes,
    respond (.get [key], args) = step (.get key) fun reply => done (answer reply) := by
  refine ⟨fun reply => (if reply.ok then Get.item key (reply.value.getD []) else []) ++
    ascii "END" ++ crlf, ?_⟩
  show step _ _ = step _ _
  congr 1
  funext ⟨ok, value⟩
  cases ok <;> rfl

end Responses

/-! ## The serial order

The commands are executed in the order of their last calls. -/

section Serialized

variable {ι : Type}

/-- Connection `i` is between the read and the write of an `Append` to `key`. -/
def Pending (server : Server ι) (i : ι) (key : Bytes) : Prop :=
  ∃ command args, (server.workers i).Halfway (.append command, args) ∧ command.key = key

/-- The pairs of keys whose order in the cache is the one of the serial run: an
    entry whose `Append` is pending has been moved up already. -/
def Fixed (seen : ι → SimpleLRU) (server : Server ι) (key other : Bytes) : Prop :=
  (∀ j, ¬ Pending server j other) ∧ ∀ j, Pending server j key → LessRecent (seen j) key other

/-- What is left of an `Append` that has read `value`. -/
def Writing (server : Server ι) (i : ι) (program : StorageProgram) : Prop :=
  ∃ command args rest value, (server.workers i).queue = (.append command, args) :: rest ∧
    program = appendWrite command (value ++ args) ∧
    server.state.valueOf command.key = some value

structure Serialized (maxSize : Nat) (seen : ι → SimpleLRU) (server serial : Server ι) : Prop where
  queues : ∀ i, (serial.workers i).queue = (server.workers i).queue
  results : ∀ i, (serial.workers i).results = (server.workers i).results
  supported : ∀ i, ∀ task ∈ (server.workers i).queue, Supported task.1
  writing : ∀ i program, (server.workers i).inFlight = some program → Writing server i program
  stores : ∃ cache other : ByteCache maxSize, Refines server.state cache ∧
    Refines serial.state other ∧ Follows (Fixed seen server) cache.entries other.entries

theorem LessRecent.sublist {maxSize : Nat} {s : SimpleLRU} {cache : ByteCache maxSize}
    {key other : Bytes} (lessRecent : LessRecent s key other) (refines : Refines s cache) :
    [key, other].Sublist (cache.entries.map Prod.fst) :=
  lessRecent cache.entries refines.holds

section Stores

variable {maxSize : Nat} {s t s' : SimpleLRU} {cache other : ByteCache maxSize}
  {fixed : Bytes → Bytes → Prop} {op : StorageCall} {reply : StorageReply}

theorem sameValues_of_follows (refines : Refines s cache) (refines' : Refines t other)
    (follows : Follows fixed cache.entries other.entries) : SameValues t s := by
  intro key
  rw [refines.valueOf_eq, refines'.valueOf_eq, follows.lookup_eq]

theorem call_follows (refines : Refines s cache) (refines' : Refines t other)
    (follows : Follows fixed cache.entries other.entries)
    (called : Storage.call op s = .ok (reply, s')) :
    ∃ t', Storage.call op t = .ok ((ByteCache.call op other).1, t') ∧
      Refines t' (ByteCache.call op other).2 := by
  apply call_refines refines'
  rintro ⟨key, value, old, overwrites, found, shorter⟩
  have shrinks : s.Shrinks op :=
    ⟨key, value, old, overwrites, sameValues_of_follows refines refines' follows key ▸ found, shorter⟩
  rw [call_faults refines shrinks] at called
  cases called

end Stores

section Finish

variable [DecidableEq ι] {maxSize : Nat} {seen : ι → SimpleLRU} {server serial : Server ι} {i : ι}
  {s t : SimpleLRU} {task : Command × Bytes} {rest : List (Command × Bytes)} {result key : Bytes}

theorem pending_done {j : ι} :
    Pending (server.proceed i s (.done result)) j key ↔ j ≠ i ∧ Pending server j key := by
  by_cases same : j = i
  · subst same
    simp [Pending, Worker.Halfway, Worker.proceed]
  · simp [Pending, same]

omit [DecidableEq ι] in
theorem key_of_pending {command : InsertCommand} {args : Bytes}
    (waiting : (server.workers i).queue = (.append command, args) :: rest)
    (pending : Pending server i key) : command.key = key := by
  obtain ⟨command', args', ⟨-, first⟩, keyEq⟩ := pending
  rw [waiting] at first
  cases first
  exact keyEq

theorem fixed_done {a b : Bytes} (aOther : ¬ Pending server i a) (bOther : ¬ Pending server i b)
    (fix : Fixed (Function.update seen i server.state) (server.proceed i s (.done result)) a b) :
    Fixed seen server a b := by
  obtain ⟨free, behind⟩ := fix
  constructor
  · intro j pending
    by_cases same : j = i
    · exact bOther (same ▸ pending)
    · exact free j (pending_done.mpr ⟨same, pending⟩)
  · intro j pending
    have other : j ≠ i := fun same => aOther (same ▸ pending)
    have lessRecent := behind j (pending_done.mpr ⟨other, pending⟩)
    rwa [Function.update_of_ne other] at lessRecent

theorem Serialized.finish {cache other : ByteCache maxSize}
    (serialized : Serialized maxSize seen server serial)
    (spared : ∀ j ≠ i, ∀ key, Pending server j key → s.valueOf key = server.state.valueOf key)
    (refines : Refines s cache) (refines' : Refines t other)
    (follows : Follows (Fixed (Function.update seen i server.state)
      (server.proceed i s (.done result))) cache.entries other.entries) :
    Serialized maxSize (Function.update seen i server.state) (server.proceed i s (.done result))
      (serial.proceed i t (.done result)) where
  queues j := by
    by_cases same : j = i
    · subst same
      simp [Worker.proceed, serialized.queues]
    · simp [same, serialized.queues]
  results j := by
    by_cases same : j = i
    · subst same
      simp [Worker.proceed, serialized.results]
    · simp [same, serialized.results]
  supported j task member := by
    by_cases same : j = i
    · subst same
      rw [World.proceed_self] at member
      exact serialized.supported j task (List.mem_of_mem_tail member)
    · rw [World.proceed_of_ne _ same] at member
      exact serialized.supported j task member
  writing j program inFlight := by
    by_cases same : j = i
    · subst same
      rw [World.proceed_self] at inFlight
      cases inFlight
    · rw [World.proceed_of_ne _ same] at inFlight
      obtain ⟨command, args, rest, value, waiting, programEq, found⟩ :=
        serialized.writing j program inFlight
      have pending : Pending server j command.key :=
        ⟨command, args, ⟨by rw [inFlight]; rfl, by rw [waiting]; rfl⟩, rfl⟩
      refine ⟨command, args, rest, value, ?_, programEq, ?_⟩
      · rw [World.proceed_of_ne _ same, waiting]
      · rw [World.proceed_state, spared j same _ pending, found]
  stores := ⟨cache, other, refines, refines', follows⟩

theorem evicts_of_spares {cache cache' : ByteCache maxSize} {op : StorageCall}
    {reply : StorageReply} (refines : Refines server.state cache) (refines' : Refines s cache')
    (called : Storage.call op server.state = .ok (reply, s))
    (own : ∀ k, Pending server i k → k = key)
    (stays : ∀ k, Pending server i k → (cache'.lookup k).isSome)
    (spares : ∀ j ≠ i, ∀ k, Pending server j k → SparesKey server.state op (seen j) k) :
    Follows.Evicts (Fixed seen server) cache cache' key := by
  intro a b aOther present evicted
  constructor
  · intro j pending
    by_cases same : j = i
    · subst same
      -- a call of the connection itself does not evict the key it is about
      have kept := stays b pending
      simp [evicted] at kept
    · have unchanged := (spares j same b pending).unchanged reply s called
      rw [refines.valueOf_eq, refines'.valueOf_eq, evicted] at unchanged
      simp [← unchanged] at present
  · intro j pending
    have other : j ≠ i := fun same => aOther (own a (same ▸ pending))
    refine (spares j other a pending).evictsOlder reply s b called ?_ ?_
    · rwa [refines.valueOf_eq]
    · rwa [refines'.valueOf_eq]

omit [DecidableEq ι] in
theorem not_pending_of_idle (idle : (server.workers i).inFlight = none) (key : Bytes) :
    ¬ Pending server i key := by
  rintro ⟨_, _, ⟨halfway, _⟩, _⟩
  simp [idle] at halfway

end Finish

/-! ### One step -/

inductive Single : StorageCall → Bytes → Prop
  | put (key value : Bytes) : Single (.put key value) key
  | putIfAbsent (key value : Bytes) : Single (.putIfAbsent key value) key
  | get (key : Bytes) : Single (.get key) key

theorem single_follows {maxSize : Nat} {cache other : ByteCache maxSize} {op : StorageCall}
    {key : Bytes} {fixed fixed' : Bytes → Bytes → Prop} (single : Single op key)
    (follows : Follows fixed cache.entries other.entries)
    (weaker : ∀ a b, fixed' a b → fixed a b)
    (evicts : Follows.Evicts fixed cache (ByteCache.call op cache).2 key) :
    (ByteCache.call op cache).1 = (ByteCache.call op other).1 ∧
      Follows fixed' (ByteCache.call op cache).2.entries (ByteCache.call op other).2.entries := by
  cases single with
  | put key value =>
    obtain ⟨same, follows'⟩ := follows.put (fun a b _ _ => weaker a b) evicts
    exact ⟨congrArg StorageReply.flag same, follows'⟩
  | putIfAbsent key value =>
    obtain ⟨same, follows'⟩ := follows.putIfAbsent weaker evicts
    exact ⟨congrArg StorageReply.flag same, follows'⟩
  | get key =>
    exact ⟨congrArg StorageReply.found (follows.lookup_eq key),
      follows.touch fun a b _ _ => weaker a b⟩

section Step

variable [DecidableEq ι] {maxSize : Nat} {seen : ι → SimpleLRU} {server serial next : Server ι}
  {i : ι}

/-- What the serial server has to do for a step of the other. -/
def Matched (maxSize : Nat) (seen : ι → SimpleLRU) (server serial next : Server ι) (i : ι) : Prop :=
  ∃ (order : List ι) (serial' : Server ι),
    order.foldlM (serialStep respond Storage.call) serial = .ok serial' ∧
      Serialized maxSize (Function.update seen i server.state) next serial'

theorem matched_of_serialStep {serial' : Server ι}
    (ran : serialStep respond Storage.call serial i = .ok serial')
    (serialized : Serialized maxSize (Function.update seen i server.state) next serial') :
    Matched maxSize seen server serial next i :=
  ⟨[i], serial', foldlM_cons_ok.mpr ⟨serial', ran, rfl⟩, serialized⟩

/-- No call of the other connections' `Append`s is disturbed by `op`. -/
def SparesAll (seen : ι → SimpleLRU) (server : Server ι) (i : ι) (op : StorageCall) : Prop :=
  ∀ j ≠ i, ∀ key, Pending server j key → SparesKey server.state op (seen j) key

theorem Serialized.callOnce {op : StorageCall} {key : Bytes} {reply : StorageReply} {s : SimpleLRU}
    (serialized : Serialized maxSize seen server serial)
    (idle : (server.workers i).inFlight = none) (single : Single op key)
    (spares : SparesAll seen server i op) (called : Storage.call op server.state = .ok (reply, s)) :
    ∃ t, Storage.call op serial.state = .ok (reply, t) ∧ ∀ result,
      Serialized maxSize (Function.update seen i server.state) (server.proceed i s (.done result))
        (serial.proceed i t (.done result)) := by
  obtain ⟨cache, other, refines, refines', follows⟩ := serialized.stores
  obtain ⟨replied, refinesNext⟩ := call_simulates refines called
  obtain ⟨t, calledSerial, refinesNext'⟩ := call_follows refines refines' follows called
  have notPending := not_pending_of_idle idle
  have evicts : Follows.Evicts (Fixed seen server) cache (ByteCache.call op cache).2 key :=
    evicts_of_spares refines refinesNext called (fun k pending => absurd pending (notPending k))
      (fun k pending => absurd pending (notPending k)) spares
  have same := (single_follows single follows (fun _ _ => id) evicts).1
  rw [← same, replied] at calledSerial
  refine ⟨t, calledSerial, fun result => ?_⟩
  have weaker : ∀ a b, Fixed (Function.update seen i server.state)
      (server.proceed i s (done result)) a b → Fixed seen server a b :=
    fun a b fix => fixed_done (notPending a) (notPending b) fix
  refine serialized.finish ?_ refinesNext refinesNext' (single_follows single follows weaker evicts).2
  intro j other key pending
  exact (spares j other key pending).unchanged reply s called

theorem Serialized.single {op : StorageCall} {key : Bytes} {answer : StorageReply → Bytes}
    {task : Command × Bytes} {rest : List (Command × Bytes)}
    (serialized : Serialized maxSize seen server serial)
    (idle : (server.workers i).inFlight = none) (waiting : (server.workers i).queue = task :: rest)
    (loads : respond task = step op fun reply => done (answer reply)) (single : Single op key)
    (spares : SparesAll seen server i op)
    (stepped : interleave respond Storage.call server i = .ok next) :
    Matched maxSize seen server serial next i := by
  have program : (server.workers i).program respond =
      some (step op fun reply => done (answer reply)) := by
    simp [Worker.program, idle, waiting, loads]
  obtain ⟨reply, s, called, rfl⟩ := interleave_of_call program stepped
  obtain ⟨t, calledSerial, serialized'⟩ := serialized.callOnce idle single spares called
  have executed : (respond task).execute Storage.call serial.state = .ok (answer reply, t) := by
    rw [loads, execute_step_of_ok calledSerial, execute_done]
  exact matched_of_serialStep (serialStep_of_execute (serialized.queues i ▸ waiting) executed)
    (serialized' (answer reply))

theorem pending_begun {command : InsertCommand} {args value key : Bytes} {s : SimpleLRU}
    {rest : List (Command × Bytes)} {j : ι} (idle : (server.workers i).inFlight = none)
    (waiting : (server.workers i).queue = (.append command, args) :: rest) :
    Pending (server.proceed i s (appendWrite command value)) j key ↔
      j = i ∧ command.key = key ∨ Pending server j key := by
  by_cases same : j = i
  · subst same
    simp [Pending, Worker.Halfway, Worker.proceed, appendWrite, waiting, idle]
  · simp [Pending, same]

theorem Serialized.beginAppend {command : InsertCommand} {args value : Bytes} {s : SimpleLRU}
    {rest : List (Command × Bytes)} {cache other : ByteCache maxSize}
    (serialized : Serialized maxSize seen server serial)
    (idle : (server.workers i).inFlight = none)
    (waiting : (server.workers i).queue = (.append command, args) :: rest)
    (refines : Refines server.state cache) (refines' : Refines serial.state other)
    (follows : Follows (Fixed seen server) cache.entries other.entries)
    (found : cache.lookup command.key = some value)
    (refinesNext : Refines s (cache.touch command.key)) :
    Serialized maxSize (Function.update seen i server.state)
      (server.proceed i s (appendWrite command (value ++ args))) serial where
  queues j := by
    by_cases same : j = i
    · subst same
      simp [Worker.proceed, appendWrite, serialized.queues]
    · simp [same, serialized.queues]
  results j := by
    by_cases same : j = i
    · subst same
      simp [Worker.proceed, appendWrite, serialized.results]
    · simp [same, serialized.results]
  supported j task member := by
    by_cases same : j = i
    · subst same
      rw [World.proceed_self] at member
      exact serialized.supported j task member
    · rw [World.proceed_of_ne _ same] at member
      exact serialized.supported j task member
  writing j program inFlight := by
    by_cases same : j = i
    · subst same
      rw [World.proceed_self] at inFlight
      cases inFlight
      refine ⟨command, args, rest, value, ?_, rfl, ?_⟩
      · rw [World.proceed_self]
        exact waiting
      · rw [World.proceed_state, refinesNext.valueOf_eq, Cache.lookup_touch, found]
    · rw [World.proceed_of_ne _ same] at inFlight
      obtain ⟨command', args', rest', value', waiting', programEq, found'⟩ :=
        serialized.writing j program inFlight
      refine ⟨command', args', rest', value', ?_, programEq, ?_⟩
      · rw [World.proceed_of_ne _ same, waiting']
      · rw [World.proceed_state, refinesNext.valueOf_eq, Cache.lookup_touch, ← refines.valueOf_eq,
          found']
  stores := by
    refine ⟨cache.touch command.key, other, refinesNext, refines', follows.touch_left ?_ ?_⟩
    · intro a b ⟨free, behind⟩
      constructor
      · intro j pending
        exact free j ((pending_begun idle waiting).mpr (.inr pending))
      · intro j pending
        have other : j ≠ i := fun same => not_pending_of_idle idle a (same ▸ pending)
        have lessRecent := behind j ((pending_begun idle waiting).mpr (.inr pending))
        rwa [Function.update_of_ne other] at lessRecent
    · -- only what was less recent than the key before the read is fixed against it
      intro b ⟨_, behind⟩
      have lessRecent := behind i ((pending_begun idle waiting).mpr (.inl ⟨rfl, rfl⟩))
      rw [Function.update_self] at lessRecent
      exact lessRecent.sublist refines

/-- The first call of an `Append`: the whole command when the key is missing, and
    nothing in the serial server when there is a value to append to. -/
theorem Serialized.appendRead {command : InsertCommand} {args : Bytes}
    {rest : List (Command × Bytes)} (serialized : Serialized maxSize seen server serial)
    (idle : (server.workers i).inFlight = none)
    (waiting : (server.workers i).queue = (.append command, args) :: rest)
    (spares : SparesAll seen server i (.get command.key))
    (stepped : interleave respond Storage.call server i = .ok next) :
    Matched maxSize seen server serial next i := by
  have program : (server.workers i).program respond = some (respond (.append command, args)) := by
    simp [Worker.program, idle, waiting]
  rw [respond_append] at program
  obtain ⟨reply, s, called, rfl⟩ := interleave_of_call program stepped
  obtain ⟨t, calledSerial, serialized'⟩ :=
    serialized.callOnce idle (.get command.key) spares called
  obtain ⟨cache, other, refines, refines', follows⟩ := serialized.stores
  obtain ⟨replied, refinesNext⟩ := call_simulates refines called
  have replied : StorageReply.found (cache.lookup command.key) = reply := replied
  cases found : cache.lookup command.key with
  | none =>
    rw [found] at replied
    subst replied
    have executed : (respond (.append command, args)).execute Storage.call serial.state =
        .ok (ascii "NOT_STORED" ++ crlf, t) := by
      rw [respond_append, execute_step_of_ok calledSerial]
      rfl
    exact matched_of_serialStep (serialStep_of_execute (serialized.queues i ▸ waiting) executed)
      (serialized' _)
  | some value =>
    rw [found] at replied
    subst replied
    exact ⟨[], serial, rfl, serialized.beginAppend idle waiting refines refines' follows found refinesNext⟩

theorem Serialized.commitAppend {program : StorageProgram}
    (serialized : Serialized maxSize seen server serial)
    (inFlight : (server.workers i).inFlight = some program)
    (spares : ∀ call next, (server.workers i).program respond = some (step call next) →
      SparesAll seen server i call)
    (stepped : interleave respond Storage.call server i = .ok next) :
    Matched maxSize seen server serial next i := by
  obtain ⟨command, args, rest, value, waiting, rfl, found⟩ := serialized.writing i program inFlight
  have program : (server.workers i).program respond = some (appendWrite command (value ++ args)) := by
    simp [Worker.program, inFlight]
  have spares := spares _ _ program
  obtain ⟨reply, s, called, rfl⟩ := interleave_of_call program stepped
  obtain ⟨cache, other, refines, refines', follows⟩ := serialized.stores
  obtain ⟨replied, refinesNext⟩ := call_simulates refines called
  rw [refines.valueOf_eq] at found
  have pending : Pending server i command.key :=
    ⟨command, args, ⟨by rw [inFlight]; rfl, by rw [waiting]; rfl⟩, rfl⟩
  -- the serial server reads what the other one read, and moves the entry up as well
  obtain ⟨t, read, refinesRead⟩ := call_get refines' command.key
  rw [← follows.lookup_eq, found] at read
  have followsRead : Follows (Fixed seen server) cache.entries (other.touch command.key).entries :=
    follows.touch_right fun a fix => fix.1 i pending
  obtain ⟨u, wrote, refinesWrote⟩ := call_follows refines refinesRead followsRead called
  have executed : (respond (.append command, args)).execute Storage.call serial.state =
      .ok (ascii "STORED" ++ crlf, u) := by
    rw [respond_append, execute_step_of_ok read]
    exact execute_step_of_ok wrote
  have own : ∀ k, Pending server i k → k = command.key :=
    fun k pending => (key_of_pending waiting pending).symm
  have evicts : Follows.Evicts (Fixed seen server) cache
      (cache.put command.key (value ++ args)).2 command.key := by
    refine evicts_of_spares refines refinesNext called own ?_ spares
    intro k pending
    rw [own k pending]
    exact Cache.isSome_lookup_put (by rw [found]; rfl)
  have weaker : ∀ a b, a ≠ command.key → b ≠ command.key →
      Fixed (Function.update seen i server.state)
        (server.proceed i s (done (ascii "STORED" ++ crlf))) a b → Fixed seen server a b :=
    fun a b aOther bOther fix =>
      fixed_done (fun pending => aOther (own a pending)) (fun pending => bOther (own b pending)) fix
  have follows' := (followsRead.put weaker evicts).2
  refine matched_of_serialStep (serialStep_of_execute (serialized.queues i ▸ waiting) executed)
    (serialized.finish ?_ refinesNext refinesWrote follows')
  intro j other key pending
  exact (spares j other key pending).unchanged reply s called

/-- Every undisturbed step has its counterpart in the serial order. -/
theorem Serialized.step (serialized : Serialized maxSize seen server serial)
    (spares : ∀ call next, (server.workers i).program respond = some (step call next) →
      SparesAll seen server i call)
    (stepped : interleave respond Storage.call server i = .ok next) :
    Matched maxSize seen server serial next i := by
  cases inFlight : (server.workers i).inFlight with
  | some program => exact serialized.commitAppend inFlight spares stepped
  | none =>
    cases waiting : (server.workers i).queue with
    | nil =>
      have idle : (server.workers i).program respond = none := by
        simp [Worker.program, inFlight, waiting]
      rw [interleave_idle idle] at stepped
      cases stepped
    | cons task rest =>
      have program : (server.workers i).program respond = some (respond task) := by
        simp [Worker.program, inFlight, waiting]
      obtain ⟨command, args⟩ := task
      have supported : Supported command :=
        serialized.supported i (command, args) (by rw [waiting]; exact List.mem_cons_self)
      cases supported with
      | set command =>
        exact serialized.single inFlight waiting (respond_set command args) (.put _ _)
          (spares _ _ program) stepped
      | add command =>
        exact serialized.single inFlight waiting (respond_add command args) (.putIfAbsent _ _)
          (spares _ _ program) stepped
      | append command =>
        rw [respond_append] at program
        exact serialized.appendRead inFlight waiting (spares _ _ program) stepped
      | get key =>
        obtain ⟨answer, loads⟩ := respond_get args key
        rw [loads] at program
        exact serialized.single inFlight waiting loads (.get key) (spares _ _ program) stepped

end Step

/-! ### All steps -/

section Run

variable [DecidableEq ι] {maxSize : Nat} {s : SimpleLRU} {queues : ι → List (Command × Bytes)}

omit [DecidableEq ι] in
theorem serialized_start (bounded : maxSize < 2 ^ 63) (reachable : Reachable maxSize s)
    (supported : ∀ i, ∀ task ∈ queues i, Supported task.1) :
    Serialized maxSize (fun _ => s) (World.start s queues : Server ι) (World.start s queues) where
  queues _ := rfl
  results _ := rfl
  supported := supported
  writing i program inFlight := by cases inFlight
  stores := by
    obtain ⟨cache, refines⟩ := reachable.refines bounded
    exact ⟨cache, cache, refines, refines, Follows.refl _ _⟩

theorem serializable_of_undisturbed {schedule : List ι} {reached : Server ι}
    (bounded : maxSize < 2 ^ 63) (reachable : Reachable maxSize s)
    (supported : ∀ i, ∀ task ∈ queues i, Supported task.1)
    (undisturbed : Undisturbed respond Storage.call Spares (fun _ => s) (World.start s queues) schedule)
    (ran : schedule.foldlM (interleave respond Storage.call) (World.start s queues) = .ok reached) :
    Serializable respond Storage.call SameValues (World.start s queues) reached := by
  have simulated : ∀ seen (server serial : Server ι) i next,
      Serialized maxSize seen server serial →
      (∀ call rest, (server.workers i).program respond = some (step call rest) →
        ∀ j ≠ i, ∀ task, (server.workers j).Halfway task → Spares server.state call (seen j) task) →
      interleave respond Storage.call server i = .ok next →
      Matched maxSize seen server serial next i := by
    intro seen server serial i next serialized spares stepped
    refine serialized.step ?_ stepped
    rintro call rest program j other key ⟨command, args, halfway, rfl⟩
    exact spares call rest program j other _ halfway command rfl
  obtain ⟨order, serial, seen, ranSerial, serialized⟩ :=
    simulation simulated (serialized_start bounded reachable supported) undisturbed ran
  obtain ⟨cache, other, refines, refines', follows⟩ := serialized.stores
  exact ⟨order, serial, ranSerial, fun i => ⟨serialized.queues i, serialized.results i⟩,
    sameValues_of_follows refines refines' follows⟩

end Run

/-- One connection sets a key and appends to it, the other executes `command`. -/
def beside (command : Command × Bytes) : Bool → List (Command × Bytes)
  | false => [(.set ⟨ascii "k", 0, 0⟩, ascii "v"), (.append ⟨ascii "k", 0, 0⟩, ascii "a")]
  | true => [command]

theorem supported_beside {command : Command × Bytes} (supported : Supported command.1) :
    ∀ i, ∀ task ∈ beside command i, Supported task.1 := by
  intro i task member
  cases i with
  | false =>
    rcases List.mem_pair.mp member with rfl | rfl
    · exact .set _
    · exact .append _
  | true =>
    cases List.mem_singleton.mp member
    exact supported

/-- Between the read and the write of an `Append`, the other connection asks for a
    key that is not there. -/
theorem serializable_get_between : ∃ reached : Server Bool,
    [false, false, true, false].foldlM (interleave respond Storage.call)
        (World.start (SimpleLRU.fresh 1024) (beside (.get [ascii "j"], []))) = .ok reached ∧
      Serializable respond Storage.call SameValues
        (World.start (SimpleLRU.fresh 1024) (beside (.get [ascii "j"], []))) reached := by
  obtain ⟨reached, ran⟩ : ∃ reached : Server Bool,
      [false, false, true, false].foldlM (interleave respond Storage.call)
        (World.start (SimpleLRU.fresh 1024) (beside (.get [ascii "j"], []))) = .ok reached :=
    ⟨_, rfl⟩
  refine ⟨reached, ran, serializable_of_undisturbed (by decide) ⟨[], [], rfl⟩
    (supported_beside (.get _)) ?_ ran⟩
  refine ⟨?_, fun _ stepped => ?_⟩
  · rintro _ _ _ (_ | _) other _ ⟨halfway, _⟩ <;> cases halfway
  cases stepped
  refine ⟨?_, fun _ stepped => ?_⟩
  · rintro _ _ _ (_ | _) other _ ⟨halfway, _⟩ <;> cases halfway
  cases stepped
  refine ⟨?_, fun _ stepped => ?_⟩
  · intro _ _ program j other task _ command isAppend
    cases program
    constructor
    · intro reply s' called
      cases called
      rfl
    · intro reply s' key called present evicted
      cases called
      rw [evicted] at present
      cases present
  cases stepped
  refine ⟨?_, fun _ stepped => trivial⟩
  rintro _ _ _ (_ | _) other _ ⟨halfway, _⟩
  · exact absurd rfl other
  · cases halfway

/-- Two connections append to the same key, and the second write overwrites what
    the first one wrote. -/
theorem not_serializable_appends : ¬ ∀ (ι : Type) (_ : DecidableEq ι) (maxSize : Nat),
    maxSize < 2 ^ 63 → ∀ s, Reachable maxSize s → ∀ queues : ι → List (Command × Bytes),
    (∀ i, ∀ task ∈ queues i, Supported task.1) → ∀ (schedule : List ι) (reached : Server ι),
    schedule.foldlM (interleave respond Storage.call) (World.start s queues) = .ok reached →
    Serializable respond Storage.call SameValues (World.start s queues) reached := by
  intro always
  obtain ⟨reached, ran, first, second, value⟩ : ∃ reached : Server Bool,
      [false, false, true, false, true].foldlM (interleave respond Storage.call)
        (World.start (SimpleLRU.fresh 1024) (beside (.append ⟨ascii "k", 0, 0⟩, ascii "b"))) =
          .ok reached ∧ (reached.workers false).queue = [] ∧ (reached.workers true).queue = [] ∧
        reached.state.valueOf (ascii "k") = some (ascii "vb") :=
    ⟨_, rfl, rfl, rfl, by decide +kernel⟩
  obtain ⟨order, serial, ranSerial, answered, same⟩ := always Bool inferInstance 1024 (by decide)
    (SimpleLRU.fresh 1024) ⟨[], [], rfl⟩ _ (supported_beside (.append _)) _ reached ran
  have first := (answered false).1.trans first
  have second := (answered true).1.trans second
  have value := (same (ascii "k")).trans value
  clear answered same ran always
  rcases order with _ | ⟨_ | _, _ | ⟨_ | _, _ | ⟨_ | _, _ | ⟨_ | _, order⟩⟩⟩⟩ <;> cases ranSerial
  all_goals first
    | cases first; done
    | cases second; done
    | exact absurd value (by decide +kernel)

end Serialized

end Afina.Execute
