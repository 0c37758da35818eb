import Mathlib

/-! # Memory as a function

A stretch of memory can be read as a list, and a list can be written to a place.

* `read_write` — what has been written is read again;
* `write_outside` — a write changes nothing outside its stretch;
* `write_eq_iff` — exactly a write of what was there before changes nothing.
-/

namespace Buffer

variable {α : Type} {memory memory' : Nat → α} {start count first second place : Nat} {elements : List α}

def read (memory : Nat → α) (start count : Nat) : List α := (List.range' start count).map memory

def write (memory : Nat → α) (start : Nat) (elements : List α) : Nat → α := fun place =>
  if place < start then memory place else elements.getD (place - start) (memory place)

/-- `count` elements are copied from one place to another; the two stretches may
    overlap. -/
def move (memory : Nat → α) (target source count : Nat) : Nat → α :=
  write memory target (read memory source count)

/-! ## Reading -/

@[simp] theorem length_read : (read memory start count).length = count := by simp [read]

theorem read_add (memory : Nat → α) (start first second : Nat) :
    read memory start (first + second) = read memory start first ++ read memory (start + first) second := by
  rw [read, ← List.range'_append_1, List.map_append]
  rfl

theorem take_read (inside : first ≤ count) : (read memory start count).take first = read memory start first := by
  obtain ⟨second, rfl⟩ := Nat.exists_eq_add_of_le inside
  rw [read_add, List.take_left' length_read]

theorem drop_read (memory : Nat → α) (start count first : Nat) :
    (read memory start count).drop first = read memory (start + first) (count - first) := by
  rw [read, ← List.map_drop, List.drop_range', Nat.mul_one]
  rfl

theorem read_eq_iff : read memory start count = read memory' start count ↔
    ∀ place, start ≤ place → place < start + count → memory place = memory' place := by
  simp only [read, List.map_inj_left, List.mem_range'_1, and_imp]

/-! ## Writing -/

theorem write_inside (inside : start ≤ place) (bound : place - start < elements.length) :
    write memory start elements place = elements[place - start] := by
  simp [write, Nat.not_lt.mpr inside, bound]

theorem write_outside (outside : place < start ∨ start + elements.length ≤ place) :
    write memory start elements place = memory place := by
  by_cases front : place < start
  · simp [write, front]
  · have behind : ¬ place - start < elements.length := by omega
    simp [write, front, behind]

@[simp] theorem read_write (memory : Nat → α) (start : Nat) (elements : List α) :
    read (write memory start elements) start elements.length = elements := by
  apply List.ext_getElem
  · simp
  · intro i inLeft inRight
    simp [read, write, inRight]

theorem read_write_outside (outside : start + count ≤ first ∨ first + elements.length ≤ start) :
    read (write memory first elements) start count = read memory start count := by
  rw [read_eq_iff]
  intro place front behind
  exact write_outside (by omega)

theorem write_eq_iff : write memory start elements = memory ↔ read memory start elements.length = elements := by
  constructor
  · intro same
    rw [← same, same, ← same, read_write]
  · intro same
    funext place
    by_cases inside : start ≤ place ∧ place - start < elements.length
    · rw [write_inside inside.1 inside.2, List.getElem_of_eq same.symm]
      simp [read, Nat.add_sub_cancel' inside.1]
    · exact write_outside (by omega)

end Buffer
