import Mathlib.Data.List.Nodup
import Mathlib.Data.List.Perm.Basic

/-! # Descriptors that are used again

The kernel hands out any descriptor that is not open, also one that was used
before, and `close` closes what is open under a descriptor, whoever calls it.

`Table.Sound` says that whatever was opened is either open or has been closed once,
by the one it was opened for; `Sound.closes` is what an owner has to know.
-/

namespace Descriptors

/-- What has been opened: its descriptor, and how many were opened before.  A
    descriptor is used again, a number is not. -/
structure File where
  descriptor : Nat
  number : Nat
deriving DecidableEq, Repr

structure Table where
  count : Nat
  opened : List File
  closed : List (File × File)  -- who called `close`, and what was closed
deriving DecidableEq, Repr

namespace Table

def empty : Table where
  count := 0
  opened := []
  closed := []

def open? (t : Table) (descriptor : Nat) : Option (File × Table) :=
  if ∀ other ∈ t.opened, other.descriptor ≠ descriptor then
    some (⟨descriptor, t.count⟩, { t with
      count := t.count + 1
      opened := t.opened ++ [⟨descriptor, t.count⟩] })
  else none

/-- `close`, called for `file`; `none` for a descriptor that is not open. -/
def close (t : Table) (file : File) : Option Table :=
  match t.opened.find? fun other => other.descriptor = file.descriptor with
  | none => none
  | some there =>
    some { t with
      opened := t.opened.filter fun other => other.descriptor ≠ file.descriptor
      closed := t.closed ++ [(file, there)] }

/-- Nothing is lost, and nothing is closed by another than its owner. -/
structure Sound (t : Table) : Prop where
  descriptors : (t.opened.map File.descriptor).Nodup
  numbers : (t.closed.map (·.1.number) ++ t.opened.map File.number).Perm (List.range t.count)
  own : ∀ entry ∈ t.closed, entry.1 = entry.2

theorem sound_empty : empty.Sound where
  descriptors := List.nodup_nil
  numbers := .refl _
  own _ member := by cases member

variable {t next : Table} {file : File} {descriptor : Nat}

theorem Sound.nodup (sound : t.Sound) : t.opened.Nodup := sound.descriptors.of_map _

theorem Sound.opens (sound : t.Sound) (opens : t.open? descriptor = some (file, next)) :
    next.Sound ∧ next.opened = t.opened ++ [file] ∧ file.number = t.count ∧ next.count = t.count + 1 := by
  unfold open? at opens
  split at opens
  · rename_i fresh
    cases opens
    refine ⟨⟨?_, ?_, sound.own⟩, rfl, rfl, rfl⟩
    · rw [List.map_append, List.map_singleton, List.nodup_append_comm]
      refine List.nodup_cons.mpr ⟨?_, sound.descriptors⟩
      intro member
      obtain ⟨other, there, same⟩ := List.mem_map.mp member
      exact fresh other there same
    · rw [List.map_append, ← List.append_assoc, List.range_succ]
      exact sound.numbers.append_right _
  · cases opens

theorem Sound.close_eq (sound : t.Sound) (member : file ∈ t.opened) :
    t.close file = some { t with opened := t.opened.erase file, closed := t.closed ++ [(file, file)] } := by
  have unique : ∀ other ∈ t.opened, other.descriptor = file.descriptor → other = file :=
    fun other there same => List.inj_on_of_nodup_map sound.descriptors there member same
  have found : (t.opened.find? fun other => other.descriptor = file.descriptor) = some file := by
    cases found : t.opened.find? fun other => other.descriptor = file.descriptor with
    | none =>
      have absent := List.find?_eq_none.mp found file member
      simp at absent
    | some other =>
      have same := List.find?_some found
      rw [unique other (List.mem_of_find?_eq_some found) (of_decide_eq_true same)]
  have erased : (t.opened.filter fun other => other.descriptor ≠ file.descriptor) = t.opened.erase file := by
    rw [sound.nodup.erase_eq_filter]
    apply List.filter_congr
    intro other there
    have same : other.descriptor = file.descriptor ↔ other = file :=
      ⟨unique other there, fun same => by rw [same]⟩
    rw [Bool.eq_iff_iff]
    simp [same]
  simp only [close, found, erased]

theorem Sound.closes (sound : t.Sound) (member : file ∈ t.opened) :
    ∃ next, t.close file = some next ∧ next.Sound ∧ next.count = t.count ∧
      ∀ rest, t.opened.Perm (file :: rest) → next.opened.Perm rest := by
  have first := List.perm_cons_erase member
  refine ⟨_, sound.close_eq member, ⟨?_, ?_, ?_⟩, rfl, fun rest opened => (first.symm.trans opened).cons_inv⟩
  · exact sound.descriptors.sublist (List.erase_sublist.map _)
  · rw [List.map_append, List.map_cons, List.map_nil, List.append_assoc, List.singleton_append]
    refine List.Perm.trans ?_ sound.numbers
    exact (first.map _).symm.append_left _
  · intro entry member
    cases List.mem_append.mp member with
    | inl before => exact sound.own entry before
    | inr last =>
      cases List.mem_singleton.mp last
      rfl

end Table

end Descriptors
