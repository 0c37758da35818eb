import Mathlib.Data.List.Basic

/-! # A cursor in a list of chunks

`advance n chunks` moves a cursor `n` elements ahead and drops the chunks it has
left behind; what remains are the chunks from the cursor on and its offset in the
first of them.
-/

namespace Chunks

variable {α : Type}

def advance : Nat → List (List α) → Nat × List (List α)
  | n, [] => (n, [])
  | n, chunk :: chunks =>
    if chunk.length ≤ n then advance (n - chunk.length) chunks else (n, chunk :: chunks)

variable {n : Nat} {chunk : List α} {chunks : List (List α)}

theorem advance_of_le (behind : chunk.length ≤ n) :
    advance n (chunk :: chunks) = advance (n - chunk.length) chunks := by
  rw [advance, if_pos behind]

theorem advance_of_lt (inside : n < chunk.length) :
    advance n (chunk :: chunks) = (n, chunk :: chunks) := by
  rw [advance, if_neg (Nat.not_le_of_lt inside)]

theorem drop_advance (n : Nat) (chunks : List (List α)) :
    (advance n chunks).2.flatten.drop (advance n chunks).1 = chunks.flatten.drop n := by
  induction chunks generalizing n with
  | nil => rfl
  | cons chunk chunks ih =>
    by_cases behind : chunk.length ≤ n
    · rw [advance_of_le behind, ih, List.flatten_cons, List.drop_append,
        List.drop_eq_nil_of_le behind, List.nil_append]
    · rw [advance_of_lt (Nat.lt_of_not_le behind)]

theorem advance_lt {first : List α} {rest : List (List α)}
    (ahead : (advance n chunks).2 = first :: rest) : (advance n chunks).1 < first.length := by
  induction chunks generalizing n with
  | nil => cases ahead
  | cons chunk chunks ih =>
    by_cases behind : chunk.length ≤ n
    · rw [advance_of_le behind] at ahead ⊢
      exact ih ahead
    · rw [advance_of_lt (Nat.lt_of_not_le behind)] at ahead ⊢
      cases ahead
      exact Nat.lt_of_not_le behind

theorem advance_eq_zero (within : n ≤ chunks.flatten.length) (exhausted : (advance n chunks).2 = []) :
    (advance n chunks).1 = 0 := by
  induction chunks generalizing n with
  | nil => exact Nat.le_zero.mp within
  | cons chunk chunks ih =>
    rw [List.flatten_cons, List.length_append] at within
    by_cases behind : chunk.length ≤ n
    · rw [advance_of_le behind] at exhausted ⊢
      exact ih (by omega) exhausted
    · rw [advance_of_lt (Nat.lt_of_not_le behind)] at exhausted
      cases exhausted

theorem advance_suffix (n : Nat) (chunks : List (List α)) : (advance n chunks).2 <:+ chunks := by
  induction chunks generalizing n with
  | nil => exact List.suffix_rfl
  | cons chunk chunks ih =>
    by_cases behind : chunk.length ≤ n
    · rw [advance_of_le behind]
      exact (ih _).trans (List.suffix_cons chunk chunks)
    · rewrite [advance_of_lt (Nat.lt_of_not_le behind)]
      exact List.suffix_rfl

end Chunks
