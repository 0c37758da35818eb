import TsSem02.Library.Buffer
import TsSem02.Library.CInt
import TsSem02.Storage.Storage

/-! # The copy of a stack

`Engine::Store` and `Engine::Restore` of one context.  The stack is memory as a
function from addresses to bytes; the array of the context lies elsewhere.

`Store` passes the array to `memcpy` as the source and the stack as the target.
So it saves the stack exactly when the array holds these bytes already, and then
`Restore` is right unless the array has become longer than the stack is
(`roundTrip_iff`).
-/

namespace Afina.Coroutine

open CInt Runs

/-- The part of `Engine::context` that the two functions work with. -/
structure Context where
  low : Nat
  hight : Nat
  buffer : Bytes  -- the array of `Stack`
  size : Nat      -- `uint32_t`
  ordered : low ≤ hight
  sized : buffer.length = size

/-- The context, and the memory around it. -/
structure Stack where
  memory : Nat → UInt8
  ctx : Context
  saved : Bytes  -- what `[Low, Hight)` held at the last call of `Store`

/-- What happens to a context. -/
inductive StackOp where
  | program (memory : Nat → UInt8)  -- other code has run, and leaves this behind
  -- the address of the variable `stack_end`, and what a new array happens to hold
  | store (stackEnd : Nat) (fresh : Nat → UInt8)
  -- the addresses of `stack_end` in `Restore` and the calls it makes of itself
  | restore (stackEnds : List Nat)

namespace Context

def new : Context where
  low := 0
  hight := 0
  buffer := []
  size := 0
  ordered := Nat.le_refl 0
  sized := rfl

def depth (ctx : Context) : Nat := ctx.hight - ctx.low

/-- `Low` and `Hight` for a stack that reaches from `stackBottom` to `stackEnd`. -/
def mark (ctx : Context) (stackBottom stackEnd : Nat) : Context :=
  if above : stackEnd > stackBottom then
    { ctx with hight := stackEnd, low := stackBottom, ordered := Nat.le_of_lt above }
  else
    { ctx with low := stackEnd, hight := stackBottom, ordered := Nat.le_of_not_lt above }

/-- `uint32_t new_size = ctx.Hight - ctx.Low` -/
def newSize (ctx : Context) : Nat := toUnsigned 32 (ctx.hight - ctx.low)

/-- A new array, if the old one is too small. -/
def grow (ctx : Context) (newSize : Nat) (fresh : Nat → UInt8) : Context :=
  if newSize > ctx.size then
    { ctx with buffer := Buffer.read fresh 0 newSize, size := newSize, sized := Buffer.length_read }
  else ctx

end Context

namespace Stack

def start (memory : Nat → UInt8) : Stack where
  memory := memory
  ctx := .new
  saved := []

def store (stackBottom stackEnd : Nat) (fresh : Nat → UInt8) (s : Stack) : Stack :=
  let ctx := s.ctx.mark stackBottom stackEnd
  let grown := ctx.grow ctx.newSize fresh
  -- `memcpy(ctx.Low, stack_buffer, new_size)`
  { memory := Buffer.write s.memory ctx.low (grown.buffer.take ctx.newSize)
    ctx := grown
    saved := Buffer.read s.memory ctx.low ctx.depth }

/-- `Engine::Restore`, up to `longjmp`, from where it does not return. -/
def restore (s : Stack) : List Nat → Except Fault Stack
  | [] => .error .divergence  -- no more calls fit on the stack
  | stackEnd :: deeper =>
    if stackEnd ≥ s.ctx.low ∧ stackEnd ≤ s.ctx.hight then s.restore deeper
    else .ok { s with memory := Buffer.write s.memory s.ctx.low (s.ctx.buffer.take s.ctx.size) }

def step (stackBottom : Nat) : StackOp → Stack → Except Fault (Unit × Stack)
  | .program memory, s => .ok ((), { s with memory := memory })
  | .store stackEnd fresh, s => .ok ((), s.store stackBottom stackEnd fresh)
  | .restore stackEnds, s => (s.restore stackEnds).map fun s => ((), s)

/-! ## What the functions are for -/

/-- What `[Low, Hight)` holds. -/
def live (memory : Nat → UInt8) (ctx : Context) : Bytes := Buffer.read memory ctx.low ctx.depth

/-- `Store` leaves the stack as it is and has its bytes in the array. -/
structure Saves (s t : Stack) : Prop where
  unchanged : live t.memory t.ctx = live s.memory t.ctx
  copied : t.ctx.buffer.take t.ctx.depth = live s.memory t.ctx

/-- `Restore` brings back the bytes of the last `Store`, and changes no others. -/
structure Restores (s t : Stack) : Prop where
  back : live t.memory s.ctx = s.saved
  outside : ∀ address, address < s.ctx.low ∨ s.ctx.hight ≤ address → t.memory address = s.memory address

/-- An operation does what it is for. -/
def Right (stackBottom : Nat) (s : Stack) : StackOp → Prop
  | .program _ => True
  | .store stackEnd fresh => Saves s (s.store stackBottom stackEnd fresh)
  | .restore stackEnds => ∀ t, s.restore stackEnds = .ok t → Restores s t

/-- There is nothing to copy: the array `Store` uses begins with the bytes of the
    stack, and what `Restore` writes behind the stack is there already. -/
def Coincides (stackBottom : Nat) (s : Stack) : StackOp → Prop
  | .program _ => True
  | .store stackEnd fresh =>
    let ctx := s.ctx.mark stackBottom stackEnd
    if ctx.size < ctx.depth then
      ctx.depth < 2 ^ 32 ∧ Buffer.read fresh 0 ctx.depth = live s.memory ctx
    else ctx.buffer.take ctx.depth = live s.memory ctx
  | .restore stackEnds =>
    (∃ stackEnd ∈ stackEnds, stackEnd < s.ctx.low ∨ s.ctx.hight < stackEnd) →
      s.ctx.buffer.drop s.ctx.depth = Buffer.read s.memory s.ctx.hight (s.ctx.size - s.ctx.depth)

/-! ## One operation -/

section Operations

variable {s t : Stack} {stackBottom stackEnd : Nat} {fresh : Nat → UInt8} {ctx : Context}

@[simp] theorem length_live (memory : Nat → UInt8) (ctx : Context) : (live memory ctx).length = ctx.depth :=
  Buffer.length_read

theorem newSize_eq (small : ctx.depth < 2 ^ 32) : ctx.newSize = ctx.depth := by
  have ordered := ctx.ordered
  unfold Context.depth at small
  rw [Context.newSize, toUnsigned_of_lt (by omega) (by omega), Context.depth]
  omega

/-- The size of 32 bits may be too small, but not too large. -/
theorem newSize_le (ctx : Context) : ctx.newSize ≤ ctx.depth := by
  by_cases small : ctx.depth < 2 ^ 32
  · exact Nat.le_of_eq (newSize_eq small)
  · have bound : ctx.newSize < 2 ^ 32 := toUnsigned_lt 32 _
    omega

@[simp] theorem grow_low (newSize : Nat) : (ctx.grow newSize fresh).low = ctx.low := by
  rw [Context.grow]
  split <;> rfl

@[simp] theorem grow_hight (newSize : Nat) : (ctx.grow newSize fresh).hight = ctx.hight := by
  rw [Context.grow]
  split <;> rfl

@[simp] theorem grow_depth (newSize : Nat) : (ctx.grow newSize fresh).depth = ctx.depth := by
  simp [Context.depth]

theorem grow_holds_iff {bytes : Bytes} (length : bytes.length = ctx.depth) :
    (ctx.grow ctx.newSize fresh).buffer.take ctx.depth = bytes ↔
      if ctx.size < ctx.depth then ctx.depth < 2 ^ 32 ∧ Buffer.read fresh 0 ctx.depth = bytes
      else ctx.buffer.take ctx.depth = bytes := by
  have most := newSize_le ctx
  by_cases short : ctx.size < ctx.depth
  · rw [if_pos short]
    by_cases small : ctx.depth < 2 ^ 32
    · simp only [Context.grow, newSize_eq small, gt_iff_lt, if_pos short]
      rw [Buffer.take_read (Nat.le_refl _), and_iff_right small]
    · -- neither the old array nor a new one is long enough
      have bound : ctx.newSize < 2 ^ 32 := toUnsigned_lt 32 _
      have tooShort : (ctx.grow ctx.newSize fresh).buffer.length < ctx.depth := by
        have sized := ctx.sized
        simp only [Context.grow]
        split
        · simp only [Buffer.length_read]
          omega
        · omega
      refine iff_of_false (fun same => ?_) fun same => small same.1
      have lengths := congrArg List.length same
      rw [List.length_take, length] at lengths
      omega
  · have kept : ¬ ctx.newSize > ctx.size := by omega
    rw [if_neg short]
    simp [Context.grow, kept]

theorem saves_iff : Saves s (s.store stackBottom stackEnd fresh) ↔
    s.Coincides stackBottom (.store stackEnd fresh) := by
  simp only [Coincides]
  rw [← grow_holds_iff (length_live _ _)]
  generalize marked : s.ctx.mark stackBottom stackEnd = ctx
  have sameLive : ∀ memory, live memory (ctx.grow ctx.newSize fresh) = live memory ctx := by
    intro memory
    simp [live]
  constructor
  · intro saves
    have copied := saves.copied
    simpa only [store, marked, grow_depth, sameLive] using copied
  · intro holds
    -- a size that wrapped around copies less, but still only equal bytes
    have equal : (ctx.grow ctx.newSize fresh).buffer.take ctx.newSize =
        Buffer.read s.memory ctx.low ctx.newSize := by
      have front := congrArg (List.take ctx.newSize) holds
      rw [List.take_take, Nat.min_eq_left (newSize_le ctx), live, Buffer.take_read (newSize_le ctx)] at front
      exact front
    have same : Buffer.write s.memory ctx.low ((ctx.grow ctx.newSize fresh).buffer.take ctx.newSize) =
        s.memory := by
      rw [equal]
      exact Buffer.write_eq_iff.mpr (by rw [Buffer.length_read])
    refine ⟨?_, ?_⟩
    · simp only [store, marked, same]
    · simpa only [store, marked, grow_depth, sameLive] using holds

/-- `Restore` gets to the copy as soon as one of the calls is off the stack. -/
theorem restore_eq {stackEnds : List Nat} :
    s.restore stackEnds = if ∃ stackEnd ∈ stackEnds, stackEnd < s.ctx.low ∨ s.ctx.hight < stackEnd then
      .ok { s with memory := Buffer.write s.memory s.ctx.low s.ctx.buffer } else .error .divergence := by
  induction stackEnds with
  | nil => simp [restore]
  | cons stackEnd deeper ih =>
    have whole : s.ctx.buffer.take s.ctx.size = s.ctx.buffer := by rw [← s.ctx.sized, List.take_length]
    simp only [restore, whole]
    by_cases inside : stackEnd ≥ s.ctx.low ∧ stackEnd ≤ s.ctx.hight
    · have stays : ¬ (stackEnd < s.ctx.low ∨ s.ctx.hight < stackEnd) := by omega
      rw [if_pos inside, ih]
      simp [stays]
    · have leaves : stackEnd < s.ctx.low ∨ s.ctx.hight < stackEnd := by omega
      rw [if_neg inside, if_pos ⟨stackEnd, List.mem_cons_self, leaves⟩]

/-- The array holds what the last `Store` has found. -/
structure Held (s : Stack) : Prop where
  whole : s.saved.length = s.ctx.depth
  copied : s.ctx.buffer.take s.ctx.depth = s.saved

theorem Held.depth_le (held : s.Held) : s.ctx.depth ≤ s.ctx.size := by
  have lengths := congrArg List.length held.copied
  rw [List.length_take, held.whole, s.ctx.sized] at lengths
  omega

/-- What is written comes back within the stack; the rest of it is behind. -/
theorem restores_iff (held : s.Held) :
    Restores s { s with memory := Buffer.write s.memory s.ctx.low s.ctx.buffer } ↔
      s.ctx.buffer.drop s.ctx.depth = Buffer.read s.memory s.ctx.hight (s.ctx.size - s.ctx.depth) := by
  have ordered := s.ctx.ordered
  have sized := s.ctx.sized
  have inside := held.depth_le
  have height : s.ctx.low + s.ctx.depth = s.ctx.hight := Nat.add_sub_cancel' ordered
  have written := Buffer.read_write s.memory s.ctx.low s.ctx.buffer
  rw [sized] at written
  have front : live (Buffer.write s.memory s.ctx.low s.ctx.buffer) s.ctx = s.saved := by
    rw [← held.copied, live, ← Buffer.take_read inside, written]
  have behind : Buffer.read (Buffer.write s.memory s.ctx.low s.ctx.buffer) s.ctx.hight
      (s.ctx.size - s.ctx.depth) = s.ctx.buffer.drop s.ctx.depth := by
    rw [← height, ← Buffer.drop_read, written]
  rw [← behind, Buffer.read_eq_iff]
  constructor
  · -- what is outside unchanged is so just behind the stack
    intro restores place from' _
    exact restores.outside place (.inr from')
  · intro unchanged
    refine ⟨front, fun address out => ?_⟩
    by_cases written : s.ctx.hight ≤ address ∧ address < s.ctx.hight + (s.ctx.size - s.ctx.depth)
    · exact unchanged address written.1 written.2
    · exact Buffer.write_outside (by omega)

theorem right_iff (held : s.Held) (op : StackOp) : s.Right stackBottom op ↔ s.Coincides stackBottom op := by
  cases op with
  | program memory => exact Iff.rfl
  | store stackEnd fresh => exact saves_iff
  | restore stackEnds =>
    simp only [Right, Coincides, restore_eq]
    by_cases leaves : ∃ stackEnd ∈ stackEnds, stackEnd < s.ctx.low ∨ s.ctx.hight < stackEnd
    · rw [← restores_iff held]
      simp [leaves]
    · simp [leaves]

theorem right_held {op : StackOp} {reply : Unit} (held : s.Held) (right : s.Right stackBottom op)
    (stepped : step stackBottom op s = .ok (reply, t)) : t.Held := by
  cases op with
  | program memory =>
    cases stepped
    exact ⟨held.whole, held.copied⟩
  | store stackEnd fresh =>
    cases stepped
    have copied : _ = live s.memory _ := right.copied
    refine ⟨by simp [store], ?_⟩
    rw [copied]
    simp [store, live]
  | restore stackEnds =>
    simp only [step, restore_eq] at stepped
    split at stepped
    · cases stepped
      exact ⟨held.whole, held.copied⟩
    · cases stepped

end Operations

/-- In a sequence of calls each does what it is for exactly when it has nothing to copy. -/
theorem roundTrip_iff (stackBottom : Nat) (memory : Nat → UInt8) (ops : List StackOp) :
    Throughout (step stackBottom) (Right stackBottom) (start memory) ops ↔
      Throughout (step stackBottom) (Coincides stackBottom) (start memory) ops :=
  Throughout.congr_of_keeps (fun _ _ _ _ held right stepped => right_held held right stepped)
    (fun _ op held => right_iff held op) (⟨rfl, rfl⟩ : (start memory).Held) ops

/-- The first `Store` of a context overwrites the stack. -/
theorem store_overwrites : ¬ ∀ (stackBottom : Nat) (memory : Nat → UInt8) (ops : List StackOp),
    Throughout (step stackBottom) (Right stackBottom) (start memory) ops := by
  intro always
  have first := (always 1000 (fun _ => 0) [.store 996 fun _ => 170, .restore [900]]).1
  have unchanged := first.unchanged
  exact absurd unchanged (by decide)

end Stack

end Afina.Coroutine
