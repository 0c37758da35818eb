import TsSem02.Library.CInt
import TsSem02.Library.Chunks
import TsSem02.Storage.Storage

/-! # Responses that wait to be written

The vector `responses` of a non-blocking `Connection` and the index `data_start`
of the first byte in it that the socket has not accepted.  `writev` may accept
any part of what it is offered; `advance` is what `DoWrite` does with the count.

`data_start` is an `int` that is compared with, and reduced by, unsigned sizes.
`advance_eq` says that this is the arithmetic of a cursor (`Chunks.advance`) as
long as fewer than 2 ^ 31 bytes are pending.
-/

namespace Afina.Network.Nonblock

open CInt

structure Outgoing where
  responses : List Bytes
  dataStart : Int
deriving DecidableEq, Repr

/-- What `writev` returns: a negative value, with or without `EAGAIN`, or a count. -/
inductive Writev where
  | failed (again : Bool)
  | wrote (count : Nat)
deriving DecidableEq, Repr

namespace Outgoing

def respBufSize : Nat := 64

/-- What `writev` is offered. -/
def iovecs (o : Outgoing) : List Bytes :=
  match o.responses.take respBufSize with
  | [] => []
  | first :: rest => first.drop o.dataStart.toNat :: rest

/-- The loop over the responses that are written completely. -/
def skip : Int → List Bytes → Outgoing
  | dataStart, [] => ⟨[], dataStart⟩
  | dataStart, first :: rest =>
    -- `data_start >= it->size()` converts `data_start` to `size_t`
    if toUnsigned 64 dataStart ≥ first.length then
      skip (toSigned 32 (toUnsigned 64 ((toUnsigned 64 dataStart : Int) - first.length))) rest
    else ⟨first :: rest, dataStart⟩

/-- `data_start += written`, and what follows. -/
def advance (o : Outgoing) (written : Nat) : Outgoing :=
  skip (toSigned 32 (o.dataStart + written)) o.responses

/-- The bytes that the socket has not accepted. -/
def pending (o : Outgoing) : Bytes := o.responses.flatten.drop o.dataStart.toNat

/-- `data_start` is in the first response, and there is nothing to be written of an
    empty one. -/
structure Sound (o : Outgoing) : Prop where
  nonempty : ∀ response ∈ o.responses, response ≠ []
  atStart : o.responses = [] → o.dataStart = 0
  inside : ∀ first rest, o.responses = first :: rest → 0 ≤ o.dataStart ∧ o.dataStart < first.length
  small : ∀ first rest, o.responses = first :: rest → o.dataStart = 0 ∨ first.length < 2 ^ 31

/-! ## What is offered -/

section Offered

variable {o : Outgoing}

theorem iovecs_isPrefix (sound : o.Sound) : o.iovecs.flatten <+: o.pending := by
  unfold iovecs pending
  cases split : o.responses with
  | nil => simp
  | cons first rest =>
    obtain ⟨nonneg, inside⟩ := sound.inside first rest split
    have within : o.dataStart.toNat ≤ first.length := by omega
    simp only [respBufSize, List.take_succ_cons, List.flatten_cons,
      List.drop_append_of_le_length within]
    apply (List.prefix_append_right_inj _).mpr
    obtain ⟨others, taken⟩ := List.take_prefix 63 rest
    exact ⟨others.flatten, by rw [← List.flatten_append, taken]⟩

end Offered

/-! ## The arithmetic -/

section Arithmetic

/-- Without overflow, the loop moves a cursor. -/
theorem skip_eq {n : Nat} {responses : List Bytes} (small : n < 2 ^ 31) :
    skip n responses =
      ⟨(Chunks.advance n responses).2, ((Chunks.advance n responses).1 : Nat)⟩ := by
  induction responses generalizing n with
  | nil => rfl
  | cons first rest ih =>
    have value : toUnsigned 64 (n : Int) = n := toUnsigned_natCast (by omega)
    rw [skip, value]
    by_cases behind : first.length ≤ n
    · have difference : (n : Int) - first.length = ((n - first.length : Nat) : Int) := by omega
      have unsigned : toUnsigned 64 ((n - first.length : Nat) : Int) = n - first.length :=
        toUnsigned_natCast (by omega)
      have signed : toSigned 32 ((n - first.length : Nat) : Int) = ((n - first.length : Nat) : Int) :=
        @toSigned_of_inRange 31 _ (by omega) (by omega)
      rw [if_pos behind, Chunks.advance_of_le behind, difference, unsigned, signed]
      exact ih (by omega)
    · rw [if_neg behind, Chunks.advance_of_lt (Nat.lt_of_not_le behind)]

/-- `data_start` may overflow by the addition, but not beyond the first response. -/
theorem skip_overflow {n : Nat} {first : Bytes} {rest : List Bytes} (above : 2 ^ 31 ≤ n)
    (small : first.length < 2 ^ 31) (bound : n - first.length < 2 ^ 31) :
    skip (toSigned 32 n) (first :: rest) =
      ⟨(Chunks.advance n (first :: rest)).2, ((Chunks.advance n (first :: rest)).1 : Nat)⟩ := by
  have wrapped : toSigned 32 (n : Int) = (n : Int) - 2 * 2 ^ 31 :=
    @toSigned_of_above 31 _ (by omega) (by omega)
  -- as a `size_t` the negative sum is above every length, so the first response is skipped
  have negative : (n : Int) - 2 * 2 ^ 31 = -((2 ^ 32 - n : Nat) : Int) := by omega
  have value : toUnsigned 64 ((n : Int) - 2 * 2 ^ 31) = 2 ^ 64 - (2 ^ 32 - n) := by
    rw [negative]
    exact toUnsigned_neg (by omega) (by omega)
  have behind : first.length ≤ n := by omega
  rw [wrapped, skip, value, if_pos (by omega), Chunks.advance_of_le behind]
  have difference : ((2 ^ 64 - (2 ^ 32 - n) : Nat) : Int) - first.length =
      ((2 ^ 64 - (2 ^ 32 - n) - first.length : Nat) : Int) := by omega
  have unsigned : toUnsigned 64 ((2 ^ 64 - (2 ^ 32 - n) - first.length : Nat) : Int) =
      2 ^ 64 - (2 ^ 32 - n) - first.length := toUnsigned_natCast (by omega)
  have signed : toSigned 32 ((2 ^ 64 - (2 ^ 32 - n) - first.length : Nat) : Int) =
      ((n - first.length : Nat) : Int) := by
    -- the difference is too large by a multiple of 2 ^ 32, and the conversion back to `int` drops it
    have multiple : ((2 ^ 64 - (2 ^ 32 - n) - first.length : Nat) : Int) =
        ((n - first.length : Nat) : Int) + (2 ^ 32 : Nat) * (2 ^ 32 - 1 : Int) := by omega
    rw [multiple, toSigned, Int.add_mul_bmod_self_left]
    exact @toSigned_of_inRange 31 _ (by omega) (by omega)
  rw [difference, unsigned, signed]
  exact skip_eq bound

theorem advance_eq {o : Outgoing} {written : Nat} (sound : o.Sound) (waiting : o.responses ≠ [])
    (bounded : o.pending.length < 2 ^ 31) (accepted : written ≤ o.pending.length) :
    o.advance written =
      ⟨(Chunks.advance (o.dataStart.toNat + written) o.responses).2,
        ((Chunks.advance (o.dataStart.toNat + written) o.responses).1 : Nat)⟩ := by
  obtain ⟨first, rest, split⟩ := List.exists_cons_of_ne_nil waiting
  obtain ⟨nonneg, inside⟩ := sound.inside first rest split
  have sum : o.dataStart + written = ((o.dataStart.toNat + written : Nat) : Int) := by omega
  rw [advance, sum, split]
  by_cases small : o.dataStart.toNat + written < 2 ^ 31
  · rw [@toSigned_of_inRange 31 _ (by omega) (by omega)]
    exact skip_eq small
  · have short : first.length < 2 ^ 31 := by
      rcases sound.small first rest split with atStart | short
      · omega
      · exact short
    exact skip_overflow (Nat.le_of_not_lt small) short (by omega)

end Arithmetic

/-! ## Writing and pushing -/

section Changes

variable {o : Outgoing}

theorem advance_pending {written : Nat} (sound : o.Sound) (waiting : o.responses ≠ [])
    (bounded : o.pending.length < 2 ^ 31) (accepted : written ≤ o.pending.length) :
    (o.advance written).pending = o.pending.drop written := by
  rw [advance_eq sound waiting bounded accepted, pending, pending, List.drop_drop]
  exact Chunks.drop_advance _ _

/-- A response of which nothing was written, or all that is in front of it. -/
theorem length_lt_of_pending (sound : o.Sound) (bounded : o.pending.length < 2 ^ 31) :
    ∀ response ∈ o.responses, response.length < 2 ^ 31 := by
  intro response member
  cases split : o.responses with
  | nil => simp [split] at member
  | cons first rest =>
    obtain ⟨nonneg, inside⟩ := sound.inside first rest split
    rw [split] at member
    rw [pending, split, List.flatten_cons, List.drop_append_of_le_length (by omega),
      List.length_append, List.length_drop] at bounded
    rcases List.mem_cons.mp member with rfl | behind
    · rcases sound.small response rest split with atStart | small
      · omega
      · exact small
    · have part : response.length ≤ rest.flatten.length :=
        (List.sublist_flatten_of_mem behind).length_le
      omega

theorem advance_sound {written : Nat} (sound : o.Sound) (waiting : o.responses ≠ [])
    (bounded : o.pending.length < 2 ^ 31) (accepted : written ≤ o.pending.length) :
    (o.advance written).Sound := by
  have subset := (Chunks.advance_suffix (o.dataStart.toNat + written) o.responses).subset
  rw [advance_eq sound waiting bounded accepted]
  constructor
  · intro response member
    exact sound.nonempty response (subset member)
  · intro exhausted
    have within : o.dataStart.toNat + written ≤ o.responses.flatten.length := by
      obtain ⟨first, rest, split⟩ := List.exists_cons_of_ne_nil waiting
      obtain ⟨nonneg, inside⟩ := sound.inside first rest split
      rw [pending, List.length_drop] at accepted
      rw [split, List.flatten_cons, List.length_append] at accepted ⊢
      omega
    rw [Chunks.advance_eq_zero within exhausted]
    rfl
  · intro first rest split
    have inside := Chunks.advance_lt split
    dsimp only
    omega
  · intro first rest split
    right
    apply length_lt_of_pending sound bounded
    apply subset
    dsimp only at split
    rw [split]
    exact List.mem_cons_self

theorem push_pending (sound : o.Sound) (more : List Bytes) :
    (⟨o.responses ++ more, o.dataStart⟩ : Outgoing).pending = o.pending ++ more.flatten := by
  rw [pending, pending, List.flatten_append]
  cases split : o.responses with
  | nil => simp [sound.atStart split]
  | cons first rest =>
    obtain ⟨nonneg, inside⟩ := sound.inside first rest split
    apply List.drop_append_of_le_length
    rw [List.flatten_cons, List.length_append]
    dsimp only
    omega

theorem push_sound {more : List Bytes} (sound : o.Sound)
    (nonempty : ∀ response ∈ more, response ≠ []) :
    (⟨o.responses ++ more, o.dataStart⟩ : Outgoing).Sound := by
  have positive : ∀ response ∈ more, 0 < response.length :=
    fun response member => List.length_pos_iff.mpr (nonempty response member)
  constructor
  · intro response member
    rcases List.mem_append.mp member with old | new
    · exact sound.nonempty response old
    · exact nonempty response new
  · intro none
    exact sound.atStart (List.append_eq_nil_iff.mp none).1
  · intro first rest split
    cases old : o.responses with
    | nil =>
      simp only [old, List.nil_append] at split
      have length := positive first (by simp [split])
      simp only [sound.atStart old]
      omega
    | cons first' rest' =>
      simp only [old, List.cons_append, List.cons.injEq] at split
      exact split.1 ▸ sound.inside first' rest' old
  · intro first rest split
    cases old : o.responses with
    | nil => exact .inl (sound.atStart old)
    | cons first' rest' =>
      simp only [old, List.cons_append, List.cons.injEq] at split
      exact split.1 ▸ sound.small first' rest' old

end Changes

end Outgoing

end Afina.Network.Nonblock
