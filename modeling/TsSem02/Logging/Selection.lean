import TsSem02.Logging.ServiceImpl

/-! # Which logger is selected

The loggers form a tree by their names: `a.b` lies below `a`.  `select` gives the
logger of the name itself or else of the closest name above it (`select_selects`).
-/

namespace Afina.Logging

open CInt

variable {name above other : Bytes} {c : UInt8} {behind : Bytes}

/-- `above` is a nonempty proper prefix of the name that ends in front of a dot. -/
def IsAbove (above name : Bytes) : Prop := above ≠ [] ∧ ∃ behind, name = above ++ dot :: behind

inductive Selects {Pointee : Type} (get : Bytes → Option Pointee) (root : Option Pointee) (name : Bytes) :
    Option Pointee → Prop where
  | own (logger : Pointee) : get name = some logger → Selects get root name (some logger)
  | above (above : Bytes) (logger : Pointee) : get name = none → IsAbove above name → get above = some logger →
      (∀ longer, IsAbove longer name → above.length < longer.length → get longer = none) →
      Selects get root name (some logger)
  | root : get name = none → (∀ above, IsAbove above name → get above = none) → Selects get root name root

/-! ## The last dot -/

theorem exists_last (member : c ∈ name) : ∃ before behind, name = before ++ c :: behind ∧ c ∉ behind := by
  obtain ⟨before, behind, split, first⟩ := List.eq_append_cons_of_mem (List.mem_reverse.mpr member)
  refine ⟨behind.reverse, before.reverse, ?_, by simpa using first⟩
  rw [← List.reverse_reverse name, split]
  simp

theorem findLastOf_eq (last : c ∉ behind) : findLastOf (above ++ c :: behind) c = above.length := by
  rw [findLastOf, if_pos (by simp), List.reverse_append, List.reverse_cons, List.append_assoc,
    List.idxOf_append_of_notMem (by simpa using last)]
  simp

/-- Without a dot `find_last_of` gives `npos`, which is what `-1` becomes. -/
theorem truncate_of_not_mem (plain : dot ∉ name) : truncate name = [] := by
  rw [truncate, findLastOf, if_neg plain]
  rfl

theorem truncate_eq (last : dot ∉ behind) (sized : (above ++ dot :: behind).length < 2 ^ 64) :
    truncate (above ++ dot :: behind) = above := by
  have inside : above.length ≠ toUnsigned 64 (-1) := by
    have all : toUnsigned 64 (-1) = 2 ^ 64 - 1 := by decide
    rw [List.length_append, List.length_cons] at sized
    omega
  rw [truncate, findLastOf_eq last, if_neg inside, List.take_left]

/-- The names above a name are the one in front of its last dot and those above
    that. -/
theorem isAbove_iff (last : dot ∉ behind) :
    IsAbove other (above ++ dot :: behind) ↔ other ≠ [] ∧ (other = above ∨ IsAbove other above) := by
  refine and_congr_right fun nonempty => ?_
  constructor
  · rintro ⟨rest, split⟩
    rcases List.append_eq_append_iff.mp split with ⟨more, rfl, after⟩ | ⟨more, rfl, after⟩
    · cases more with
      | nil => exact .inl (by simp)
      | cons c more =>
        rw [List.cons_append] at after
        obtain ⟨-, rfl⟩ := List.cons.inj after
        exact absurd (by simp) last
    · cases more with
      | nil => exact .inl (by simp)
      | cons c more =>
        rw [List.cons_append] at after
        obtain ⟨rfl, -⟩ := List.cons.inj after
        exact .inr ⟨nonempty, more, rfl⟩
  · rintro (rfl | ⟨-, rest, rfl⟩)
    · exact ⟨behind, rfl⟩
    · exact ⟨rest ++ dot :: behind, by simp⟩

/-! ## The lookup -/

section Select

variable {Pointee : Type} {get : Bytes → Option Pointee} {root result : Option Pointee}

theorem IsAbove.length_lt (isAbove : IsAbove above name) : above.length < name.length := by
  obtain ⟨-, rest, rfl⟩ := isAbove
  simp

/-- What is selected for the name in front of the last dot is selected for the
    whole name, if that has no logger itself. -/
theorem Selects.extend (last : dot ∉ behind) (nonempty : above ≠ []) (absent : get (above ++ dot :: behind) = none)
    (selects : Selects get root above result) : Selects get root (above ++ dot :: behind) result := by
  cases selects with
  | own logger found =>
    refine .above above logger absent ((isAbove_iff last).mpr ⟨nonempty, .inl rfl⟩) found ?_
    intro longer isAbove longest
    rcases ((isAbove_iff last).mp isAbove).2 with rfl | shorter
    · exact absurd longest (Nat.lt_irrefl _)
    · exact absurd shorter.length_lt (Nat.lt_asymm longest)
  | above found logger missing isAbove registered longest =>
    refine .above found logger absent ((isAbove_iff last).mpr ⟨isAbove.1, .inr isAbove⟩) registered ?_
    intro longer isAbove'
    rcases ((isAbove_iff last).mp isAbove').2 with rfl | shorter
    · exact fun _ => missing
    · exact longest longer shorter
  | root missing none =>
    refine .root absent fun other isAbove => ?_
    rcases ((isAbove_iff last).mp isAbove).2 with rfl | shorter
    · exact missing
    · exact none other shorter

theorem selects_of_sized (get : Bytes → Option Pointee) (root : Option Pointee) (sized : name.length < 2 ^ 64) :
    Selects get root name (select get root name) := by
  induction name using select.induct get with
  | case1 name logger found =>
    rw [select, found]
    exact .own logger found
  | case2 name absent empty =>
    rw [select, absent, if_pos empty]
    refine .root absent fun above isAbove => ?_
    obtain ⟨nonempty, rest, split⟩ := isAbove
    have dotted : dot ∈ name := by simp [split]
    obtain ⟨before, behind, rfl, last⟩ := exists_last dotted
    rw [truncate_eq last sized] at empty
    rcases ((isAbove_iff last).mp ⟨nonempty, rest, split⟩).2 with rfl | ⟨-, more, rfl⟩
    · exact absurd empty nonempty
    · simp at empty
  | case3 name absent nonempty ih =>
    have dotted : dot ∈ name := by
      by_contra plain
      exact nonempty (truncate_of_not_mem plain)
    obtain ⟨above, behind, rfl, last⟩ := exists_last dotted
    rw [select, absent, if_neg nonempty]
    rw [truncate_eq last sized] at nonempty ih ⊢
    refine (ih ?_).extend last nonempty absent
    rw [List.length_append] at sized
    omega

/-- `select` gives the logger of the closest name. -/
theorem select_selects (get : Bytes → Option Pointee) (root : Option Pointee) (name : StdString) :
    Selects get root name.bytes (select get root name.bytes) :=
  selects_of_sized get root name.sized

end Select

end Afina.Logging
