import TsSem02.Library.Buffer
import TsSem02.Library.Runs

/-! # The echo server of the materials

`echo.c` serves every connection from an `EchoEvent`: what a read has put into `data`
is written back, in as many writes as it takes, before the next read.  A write that
takes only a part moves `offset` on, and nothing ever moves it back.

A client gets back what it has sent as long as every message is read at offset 0, and
it can rely on the next one exactly if no write so far was short (`echoes`).
-/

namespace Echo

open Runs

def maxLen : Nat := 255

/-- What epoll is asked for. -/
inductive Interest
  | epollin
  | epollout
deriving DecidableEq, Repr

/-- `struct EchoEvent`, with the event that the connection is in epoll for. -/
structure EchoEvent where
  event : Interest
  data : Nat → UInt8
  length : Nat
  offset : Nat

inductive Wrote
  | taken (count : Nat)
  | interrupted          -- -1, with `EINTR`
  | failed               -- -1, with another `errno`
deriving DecidableEq, Repr

def Wrote.ret : Wrote → Int
  | .taken count => count
  | .interrupted | .failed => -1

/-- What `epoll_wait` reports for a connection, with the result of the call that
    `handle` makes then. -/
inductive Occasion
  | hangup                                   -- `EPOLLHUP` or `EPOLLERR`
  | readable (bytes : Option (List UInt8))   -- none: `read` gives -1
  | writable (wrote : Wrote)
deriving Repr

structure Traffic where
  received : List UInt8
  sent : List UInt8
deriving DecidableEq, Repr

inductive Stopped
  | impossible   -- the kernel does not report this, or there is no connection
  | overrun      -- `write` is given bytes from behind `data`
deriving DecidableEq, Repr

/-- `calloc`, and the read event of `main`. -/
def EchoEvent.accepted : EchoEvent := ⟨.epollin, fun _ => 0, 0, 0⟩

/-- `handle` of a read event; nothing is left of a connection that is closed. -/
def EchoEvent.handleRead (echoEvent : EchoEvent) : Option (List UInt8) → Option EchoEvent
  | none | some [] => none
  | some bytes =>
    some { echoEvent with
      event := .epollout
      data := Buffer.write echoEvent.data 0 bytes
      length := bytes.length }

/-- `handle` of a write event. -/
def EchoEvent.handleWrite (echoEvent : EchoEvent) (wrote : Wrote) : Option EchoEvent :=
  if (wrote.ret = -1 ∧ wrote = .interrupted) ∨ wrote.ret < echoEvent.length then
    if wrote.ret ≠ -1 then
      some { echoEvent with
        event := .epollout
        length := echoEvent.length - wrote.ret.toNat
        offset := echoEvent.offset + wrote.ret.toNat }
    else
      some { echoEvent with event := .epollout }
  else if wrote.ret = -1 then
    none
  else
    some { echoEvent with event := .epollin }

def step : Occasion → Option EchoEvent → Except Stopped (Traffic × Option EchoEvent)
  | _, none => .error .impossible
  | .hangup, some _ => .ok (⟨[], []⟩, none)
  | .readable bytes, some echoEvent =>
    if echoEvent.event = .epollin ∧ (bytes.getD []).length ≤ maxLen then
      .ok (⟨bytes.getD [], []⟩, echoEvent.handleRead bytes)
    else
      .error .impossible
  | .writable wrote, some echoEvent =>
    if echoEvent.event = .epollout ∧ wrote.ret ≤ echoEvent.length then
      if echoEvent.offset + echoEvent.length ≤ maxLen then
        .ok (⟨[], Buffer.read echoEvent.data echoEvent.offset wrote.ret.toNat⟩, echoEvent.handleWrite wrote)
      else
        .error .overrun
    else
      .error .impossible

/-! ## What is still to be sent -/

def EchoEvent.pending (echoEvent : EchoEvent) : List UInt8 :=
  match echoEvent.event with
  | .epollin => []
  | .epollout => Buffer.read echoEvent.data echoEvent.offset echoEvent.length

def received (replies : List Traffic) : List UInt8 := (replies.map Traffic.received).flatten

def sent (replies : List Traffic) : List UInt8 := (replies.map Traffic.sent).flatten

/-- What was received is what was sent and what is still to be sent. -/
def Balanced (replies : List Traffic) : Option EchoEvent → Prop
  | some echoEvent => sent replies ++ echoEvent.pending = received replies
  | none => sent replies <+: received replies

/-- A message is read at offset 0. -/
def ReadsFresh : Option EchoEvent → Occasion → Prop
  | some echoEvent, .readable (some _) => echoEvent.offset = 0
  | _, _ => True

/-- A write takes a part of what it is given. -/
def Short : Option EchoEvent → Occasion → Prop
  | some echoEvent, .writable (.taken count) => 0 < count ∧ count < echoEvent.length
  | _, _ => False

instance : ∀ s op, Decidable (ReadsFresh s op)
  | some echoEvent, .readable (some _) => inferInstanceAs (Decidable (echoEvent.offset = 0))
  | none, _ | some _, .hangup | some _, .readable none | some _, .writable _ => .isTrue trivial

instance : ∀ s op, Decidable (Short s op)
  | some echoEvent, .writable (.taken count) => inferInstanceAs (Decidable (0 < count ∧ count < echoEvent.length))
  | none, _ | some _, .hangup | some _, .readable _ | some _, .writable .interrupted | some _, .writable .failed =>
    .isFalse id

section Write

variable {echoEvent : EchoEvent} {count : Nat}

/-- A write that failed is tried again, whatever the reason: the branch that would
    close the connection is never taken. -/
theorem handleWrite_error {wrote : Wrote} (failed : wrote.ret = -1) :
    echoEvent.handleWrite wrote = some { echoEvent with event := .epollout } := by
  have less : wrote.ret < echoEvent.length := by omega
  rw [EchoEvent.handleWrite, if_pos (.inr less), if_neg fun other => other failed]

theorem handleWrite_short (short : count < echoEvent.length) :
    echoEvent.handleWrite (.taken count) =
      some { echoEvent with
        event := .epollout, length := echoEvent.length - count, offset := echoEvent.offset + count } := by
  have less : (Wrote.taken count).ret < echoEvent.length := Int.ofNat_lt.mpr short
  have counted : (Wrote.taken count).ret ≠ -1 := by simp [Wrote.ret]
  rw [EchoEvent.handleWrite, if_pos (.inr less), if_pos counted]
  rfl

theorem handleWrite_whole : echoEvent.handleWrite (.taken echoEvent.length) =
    some { echoEvent with event := .epollin } := by
  have notLess : ¬ (Wrote.taken echoEvent.length).ret < echoEvent.length := Int.lt_irrefl _
  have counted : (Wrote.taken echoEvent.length).ret ≠ -1 := by simp [Wrote.ret]
  rw [EchoEvent.handleWrite, if_neg, if_neg counted]
  rintro (⟨failed, -⟩ | less)
  · exact counted failed
  · exact notLess less

end Write

/-! ## One occasion -/

inductive Steps (echoEvent : EchoEvent) : Occasion → Traffic → Option EchoEvent → Prop
  | closed (op : Occasion) (silent : ∀ bytes, op = .readable (some bytes) → bytes = [])
      (idle : ∀ wrote, op ≠ .writable wrote) : Steps echoEvent op ⟨[], []⟩ none
  | read (bytes : List UInt8) (filled : bytes ≠ []) (armed : echoEvent.event = .epollin) :
      Steps echoEvent (.readable bytes) ⟨bytes, []⟩
        (some { echoEvent with
          event := .epollout, data := Buffer.write echoEvent.data 0 bytes, length := bytes.length })
  | again (wrote : Wrote) (failed : wrote.ret = -1) (armed : echoEvent.event = .epollout) :
      Steps echoEvent (.writable wrote) ⟨[], []⟩ (some echoEvent)
  | short (count : Nat) (less : count < echoEvent.length) (armed : echoEvent.event = .epollout) :
      Steps echoEvent (.writable (.taken count)) ⟨[], Buffer.read echoEvent.data echoEvent.offset count⟩
        (some { echoEvent with length := echoEvent.length - count, offset := echoEvent.offset + count })
  | whole (armed : echoEvent.event = .epollout) :
      Steps echoEvent (.writable (.taken echoEvent.length))
        ⟨[], Buffer.read echoEvent.data echoEvent.offset echoEvent.length⟩ (some { echoEvent with event := .epollin })

theorem step_cases {s : Option EchoEvent} {op : Occasion} {reply : Traffic} {next : Option EchoEvent}
    (stepped : step op s = .ok (reply, next)) : ∃ echoEvent, s = some echoEvent ∧ Steps echoEvent op reply next := by
  cases s with
  | none => cases op <;> cases stepped
  | some echoEvent =>
    refine ⟨echoEvent, rfl, ?_⟩
    cases op with
    | hangup =>
      cases stepped
      exact .closed .hangup (fun _ other => by cases other) fun _ other => by cases other
    | readable bytes =>
      rw [step] at stepped
      split at stepped
      · rename_i reported
        cases stepped
        match bytes with
        | none => exact .closed _ (fun _ other => by cases other) fun _ other => by cases other
        | some [] => exact .closed _ (fun _ same => by cases same; rfl) fun _ other => by cases other
        | some (byte :: bytes) => exact .read (byte :: bytes) (List.cons_ne_nil _ _) reported.1
      · cases stepped
    | writable wrote =>
      rw [step] at stepped
      split at stepped
      · rename_i reported
        obtain ⟨armed, bounded⟩ := reported
        split at stepped
        · cases stepped
          have kept : { echoEvent with event := .epollout } = echoEvent := by rw [← armed]
          cases wrote with
          | taken count =>
            have atMost : count ≤ echoEvent.length := Int.ofNat_le.mp bounded
            cases Nat.lt_or_eq_of_le atMost with
            | inl less =>
              rw [handleWrite_short less, ← armed]
              exact .short count less armed
            | inr equal =>
              subst equal
              rw [handleWrite_whole]
              exact .whole armed
          | interrupted =>
            rw [handleWrite_error rfl, kept]
            exact .again .interrupted rfl armed
          | failed =>
            rw [handleWrite_error rfl, kept]
            exact .again .failed rfl armed
        · cases stepped
      · cases stepped

/-! ## All occasions -/

@[simp] theorem received_append (replies more : List Traffic) :
    received (replies ++ more) = received replies ++ received more := by
  simp [received]

@[simp] theorem sent_append (replies more : List Traffic) : sent (replies ++ more) = sent replies ++ sent more := by
  simp [sent]

@[simp] theorem received_singleton (reply : Traffic) : received [reply] = reply.received := by simp [received]

@[simp] theorem sent_singleton (reply : Traffic) : sent [reply] = reply.sent := by simp [sent]

theorem balanced_step (earlier : List Traffic) (op : Occasion) (s : Option EchoEvent) (reply : Traffic)
    (next : Option EchoEvent) (balanced : Balanced earlier s) (fresh : ReadsFresh s op)
    (stepped : step op s = .ok (reply, next)) : Balanced (earlier ++ [reply]) next := by
  obtain ⟨echoEvent, rfl, steps⟩ := step_cases stepped
  have balance : sent earlier ++ echoEvent.pending = received earlier := balanced
  cases steps with
  | closed => simp [Balanced, ← balance]
  | read bytes _ armed =>
    have empty : echoEvent.pending = [] := by rw [EchoEvent.pending, armed]
    have first : echoEvent.offset = 0 := fresh
    rw [empty, List.append_nil] at balance
    simp [Balanced, EchoEvent.pending, first, balance]
  | again => simpa [Balanced] using balance
  | short count less armed =>
    have split : echoEvent.pending = Buffer.read echoEvent.data echoEvent.offset count ++
        Buffer.read echoEvent.data (echoEvent.offset + count) (echoEvent.length - count) := by
      rw [EchoEvent.pending, armed, ← Buffer.read_add, Nat.add_sub_cancel' (Nat.le_of_lt less)]
    rw [split] at balance
    simp [Balanced, EchoEvent.pending, armed, ← balance]
  | whole armed =>
    have all : echoEvent.pending = Buffer.read echoEvent.data echoEvent.offset echoEvent.length := by
      rw [EchoEvent.pending, armed]
    rw [all] at balance
    simp [Balanced, EchoEvent.pending, balance]

theorem balanced_of_runs {ops : List Occasion} {replies : List Traffic} {s : Option EchoEvent}
    (ran : runs step ops (some .accepted) = .ok (replies, s))
    (fresh : Throughout step ReadsFresh (some .accepted) ops) : Balanced replies s := by
  have initially : Balanced [] (some .accepted) := rfl
  exact runs_history balanced_step initially fresh ran

/-! ## The offset -/

section Offset

variable {echoEvent next : EchoEvent} {op : Occasion} {reply : Traffic}

theorem offset_step (steps : Steps echoEvent op reply (some next)) :
    next.offset = 0 ↔ ¬ Short (some echoEvent) op ∧ echoEvent.offset = 0 := by
  cases steps with
  | read => exact ⟨fun zero => ⟨id, zero⟩, And.right⟩
  | again wrote failed =>
    cases wrote with
    | taken count => exact absurd failed (by simp [Wrote.ret])
    | interrupted | failed => exact ⟨fun zero => ⟨id, zero⟩, And.right⟩
  | short count less =>
    show echoEvent.offset + count = 0 ↔ ¬ (0 < count ∧ count < echoEvent.length) ∧ echoEvent.offset = 0
    omega
  | whole =>
    show echoEvent.offset = 0 ↔ ¬ (0 < echoEvent.length ∧ echoEvent.length < echoEvent.length) ∧ echoEvent.offset = 0
    omega

/-- The offset remembers every short write. -/
theorem offset_of_runs {ops : List Occasion} {replies : List Traffic}
    (ran : runs step ops (some echoEvent) = .ok (replies, some next)) :
    next.offset = 0 ↔ Throughout step (fun s op => ¬ Short s op) (some echoEvent) ops ∧ echoEvent.offset = 0 := by
  induction ops generalizing echoEvent replies with
  | nil =>
    cases ran
    exact ⟨fun zero => ⟨trivial, zero⟩, And.right⟩
  | cons op ops ih =>
    obtain ⟨reply, middle, rest, stepped, ranRest, -⟩ := runs_cons_ok.mp ran
    obtain ⟨_, same, steps⟩ := step_cases stepped
    cases same
    cases middle with
    | none => cases ops <;> cases ranRest
    | some middle =>
      rw [ih ranRest, offset_step steps]
      constructor
      · rintro ⟨later, here, zero⟩
        refine ⟨⟨here, fun reply' next' stepped' => ?_⟩, zero⟩
        rw [stepped] at stepped'
        cases stepped'
        exact later
      · rintro ⟨⟨here, later⟩, zero⟩
        exact ⟨later _ _ stepped, here, zero⟩

end Offset

/-! ## The next message -/

section Message

variable {echoEvent : EchoEvent} {bytes : List UInt8} {count : Nat}

/-- The first write for a message sends the beginning of it. -/
def Echoes (echoEvent : EchoEvent) (bytes : List UInt8) (count : Nat) : Prop :=
  ∃ replies s, runs step [.readable (some bytes), .writable (.taken count)] (some echoEvent) = .ok (replies, s) ∧
    sent replies = bytes.take count

def EchoEvent.loaded (echoEvent : EchoEvent) (bytes : List UInt8) : EchoEvent :=
  ⟨.epollout, Buffer.write echoEvent.data 0 bytes, bytes.length, echoEvent.offset⟩

theorem step_read (reading : echoEvent.event = .epollin) (fits : bytes.length ≤ maxLen) (filled : bytes ≠ []) :
    step (.readable (some bytes)) (some echoEvent) = .ok (⟨bytes, []⟩, some (echoEvent.loaded bytes)) := by
  cases bytes with
  | nil => exact absurd rfl filled
  | cons byte bytes => exact if_pos ⟨reading, fits⟩

theorem step_write (part : count ≤ bytes.length) :
    step (.writable (.taken count)) (some (echoEvent.loaded bytes)) =
      if echoEvent.offset + bytes.length ≤ maxLen then
        .ok (⟨[], Buffer.read (Buffer.write echoEvent.data 0 bytes) echoEvent.offset count⟩,
          (echoEvent.loaded bytes).handleWrite (.taken count))
      else
        .error .overrun :=
  if_pos ⟨rfl, Int.ofNat_le.mpr part⟩

theorem echoes_iff (reading : echoEvent.event = .epollin) (fits : bytes.length ≤ maxLen) (positive : 0 < count)
    (part : count ≤ bytes.length) : Echoes echoEvent bytes count ↔ echoEvent.offset + bytes.length ≤ maxLen ∧
      Buffer.read (Buffer.write echoEvent.data 0 bytes) echoEvent.offset count = bytes.take count := by
  have filled : bytes ≠ [] := List.ne_nil_of_length_pos (Nat.lt_of_lt_of_le positive part)
  constructor
  · rintro ⟨replies, s, ran, same⟩
    obtain ⟨_, _, rest, stepped, ranRest, rfl⟩ := runs_cons_ok.mp ran
    rw [step_read reading fits filled] at stepped
    cases stepped
    obtain ⟨_, _, _, stepped, done, rfl⟩ := runs_cons_ok.mp ranRest
    cases done
    rw [step_write part] at stepped
    split at stepped
    · rename_i inside
      cases stepped
      exact ⟨inside, by simpa [sent] using same⟩
    · cases stepped
  · rintro ⟨inside, same⟩
    refine ⟨_, _, runs_cons_ok.mpr ⟨_, _, _, step_read reading fits filled,
      runs_cons_ok.mpr ⟨_, _, _, (step_write part).trans (if_pos inside), rfl, rfl⟩, rfl⟩, ?_⟩
    simpa [sent] using same

theorem echoes_next_iff (reading : echoEvent.event = .epollin) :
    (∀ bytes count, bytes.length ≤ maxLen → 0 < count → count ≤ bytes.length → Echoes echoEvent bytes count) ↔
      echoEvent.offset = 0 := by
  constructor
  · intro echoes
    by_contra moved
    -- the one byte of the message lies in front of the offset, and what is sent is an older one
    let old := echoEvent.data echoEvent.offset
    have one : [old + 1].length ≤ maxLen := by simp [maxLen]
    have echoed := echoes [old + 1] 1 one Nat.one_pos (Nat.le_refl 1)
    obtain ⟨-, same⟩ := (echoes_iff reading one Nat.one_pos (Nat.le_refl 1)).mp echoed
    have kept : Buffer.write echoEvent.data 0 [old + 1] echoEvent.offset = old :=
      Buffer.write_outside (.inr (Nat.one_le_iff_ne_zero.mpr moved))
    rw [Buffer.read, List.range'_one, List.map_singleton, kept] at same
    have equal : old = old + 1 := (List.cons.inj same).1
    simp at equal
  · intro first bytes count fits positive part
    refine (echoes_iff reading fits positive part).mpr ⟨by rwa [first, Nat.zero_add], ?_⟩
    rw [first, ← Buffer.take_read part, Buffer.read_write]

end Message

/-- A client gets back what it has sent, as long as every message is read at offset 0;
    it can rely on the next message exactly if no write so far was short. -/
theorem echoes {ops : List Occasion} {replies : List Traffic} {echoEvent : EchoEvent}
    (ran : runs step ops (some .accepted) = .ok (replies, some echoEvent)) (reading : echoEvent.event = .epollin) :
    (Throughout step ReadsFresh (some .accepted) ops → sent replies = received replies) ∧
      ((∀ bytes count, bytes.length ≤ maxLen → 0 < count → count ≤ bytes.length → Echoes echoEvent bytes count) ↔
        Throughout step (fun s op => ¬ Short s op) (some .accepted) ops) := by
  constructor
  · intro fresh
    have balance : sent replies ++ echoEvent.pending = received replies := balanced_of_runs ran fresh
    rwa [EchoEvent.pending, reading, List.append_nil] at balance
  · rw [echoes_next_iff reading, offset_of_runs ran]
    exact and_iff_left rfl

/-- A message of two bytes is sent back in two writes. -/
theorem echoes_once : ∃ replies echoEvent,
    runs step [.readable (some [1, 2]), .writable (.taken 1), .writable .interrupted, .writable (.taken 1)]
        (some .accepted) = .ok (replies, some echoEvent) ∧
      sent replies = received replies ∧ ¬ ∀ bytes count, bytes.length ≤ maxLen → 0 < count → count ≤ bytes.length →
        Echoes echoEvent bytes count := by
  have ran : runs step [.readable (some [1, 2]), .writable (.taken 1), .writable .interrupted, .writable (.taken 1)]
      (some .accepted) = .ok (_, some _) := rfl
  obtain ⟨whole, next⟩ := echoes ran rfl
  exact ⟨_, _, ran, whole (by decide), fun always => absurd (next.mp always) (by decide)⟩

end Echo
