import Mathlib.Order.Basic
import Mathlib.Tactic

/-! # A running minimum

A loop that keeps the lightest item it has seen, with its weight, and of several the
first.  Loops behind one another are one loop (`lighter_lightest`), and an item no
lighter than what is kept already does not count (`lightest_skip`).

`FirstLightest` says of a list what such a loop finds in it.
-/

namespace RunningMinimum

variable {Item W : Type*} [LinearOrder W]

def lighter (best other : Item × W) : Item × W := if other.2 < best.2 then other else best

def lightest (best : Item × W) (others : List (Item × W)) : Item × W := others.foldl lighter best

variable {best other last : Item × W} {others more : List (Item × W)}

theorem lighter_of_lt (light : other.2 < best.2) : lighter best other = other := if_pos light

theorem lighter_of_le (heavy : best.2 ≤ other.2) : lighter best other = best := if_neg heavy.not_gt

theorem lighter_le_left (best other : Item × W) : (lighter best other).2 ≤ best.2 := by
  rcases lt_or_ge other.2 best.2 with light | heavy
  · rw [lighter_of_lt light]
    exact light.le
  · rw [lighter_of_le heavy]

theorem lighter_assoc (best other last : Item × W) :
    lighter (lighter best other) last = lighter best (lighter other last) := by
  rcases lt_or_ge last.2 other.2 with light | heavy
  · rw [lighter_of_lt light]
    rcases lt_or_ge other.2 best.2 with first | second
    · rw [lighter_of_lt first, lighter_of_lt light, lighter_of_lt (light.trans first)]
    · rw [lighter_of_le second]
  · rw [lighter_of_le heavy]
    rcases lt_or_ge other.2 best.2 with first | second
    · rw [lighter_of_lt first, lighter_of_le heavy]
    · rw [lighter_of_le second, lighter_of_le (second.trans heavy)]

theorem lightest_cons (best other : Item × W) (others : List (Item × W)) :
    lightest best (other :: others) = lightest (lighter best other) others := rfl

theorem lightest_append (best : Item × W) (others more : List (Item × W)) :
    lightest best (others ++ more) = lightest (lightest best others) more := List.foldl_append

theorem lighter_lightest (best other : Item × W) (others : List (Item × W)) :
    lighter best (lightest other others) = lightest (lighter best other) others := by
  induction others generalizing other with
  | nil => rfl
  | cons next others ih => rw [lightest_cons, lightest_cons, ih, lighter_assoc]

theorem lightest_le_left (best : Item × W) (others : List (Item × W)) : (lightest best others).2 ≤ best.2 := by
  induction others generalizing best with
  | nil => exact le_rfl
  | cons other others ih => exact (ih (lighter best other)).trans (lighter_le_left best other)

theorem lightest_skip (heavy : best.2 ≤ other.2) (others : List (Item × W)) :
    lighter best (lightest other others) = lightest best others := by
  rw [lighter_lightest, lighter_of_le heavy]

/-! ## A bound on what counts -/

/-- The same, as far as weights up to a bound are concerned. -/
def AgreeUpTo (bound : W) (left right : Item × W) : Prop := left = right ∨ bound < left.2 ∧ bound < right.2

variable {bound : W} {left right : Item × W}

theorem AgreeUpTo.lighter (agree : AgreeUpTo bound left right) (other : Item × W) :
    AgreeUpTo bound (lighter left other) (lighter right other) := by
  rcases agree with rfl | ⟨heavy, heavy'⟩
  · exact .inl rfl
  · rcases le_or_gt other.2 bound with light | heavy''
    · rw [lighter_of_lt (light.trans_lt heavy), lighter_of_lt (light.trans_lt heavy')]
      exact .inl rfl
    · refine .inr ⟨?_, ?_⟩
      · rw [RunningMinimum.lighter]
        split <;> assumption
      · rw [RunningMinimum.lighter]
        split <;> assumption

theorem AgreeUpTo.lightest (agree : AgreeUpTo bound left right) (others : List (Item × W)) :
    AgreeUpTo bound (lightest left others) (lightest right others) := by
  induction others generalizing left right with
  | nil => exact agree
  | cons other others ih => exact ih (agree.lighter other)

theorem agreeUpTo_lighter (heavy : bound < other.2) (best : Item × W) : AgreeUpTo bound (lighter best other) best := by
  rcases lt_or_ge other.2 best.2 with light | _
  · rw [lighter_of_lt light]
    exact .inr ⟨heavy, heavy.trans light⟩
  · rw [lighter_of_le ‹_›]
    exact .inl rfl

/-! ## The first of the lightest -/

/-- Everything before the item is heavier and nothing behind it is lighter. -/
def FirstLightest (weight : Item → W) (items : List Item) (item : Item) : Prop :=
  ∃ before after, items = before ++ item :: after ∧ (∀ other ∈ before, weight item < weight other) ∧
    ∀ other ∈ after, weight item ≤ weight other

variable {weight : Item → W} {items : List Item} {item item' : Item}

theorem FirstLightest.mem (first : FirstLightest weight items item) : item ∈ items := by
  obtain ⟨before, after, rfl, -, -⟩ := first
  simp

theorem FirstLightest.le (first : FirstLightest weight items item) (member : item' ∈ items) :
    weight item ≤ weight item' := by
  obtain ⟨before, after, rfl, heavy, light⟩ := first
  rcases List.mem_append.mp member with member | member
  · exact (heavy _ member).le
  · rcases List.mem_cons.mp member with rfl | member
    · exact le_rfl
    · exact light _ member

theorem FirstLightest.unique (first : FirstLightest weight items item) (first' : FirstLightest weight items item') :
    item = item' := by
  have least := first.le first'.mem
  have least' := first'.le first.mem
  obtain ⟨before, after, rfl, heavy, -⟩ := first
  obtain ⟨before', after', same, heavy', -⟩ := first'
  rcases List.append_eq_append_iff.mp same with ⟨between, rfl, rest⟩ | ⟨between, rfl, rest⟩
  · cases between with
    | nil => exact (List.cons.inj rest).1
    | cons next between =>
      obtain rfl := (List.cons.inj rest).1
      exact absurd (heavy' item (by simp)) least.not_gt
  · cases between with
    | nil => exact (List.cons.inj rest).1.symm
    | cons next between =>
      obtain rfl := (List.cons.inj rest).1
      exact absurd (heavy item' (by simp)) least'.not_gt

theorem FirstLightest.eq_head (first : FirstLightest weight (item :: items) item')
    (light : weight item ≤ weight item') : item' = item := by
  obtain ⟨before, after, split, heavy, -⟩ := first
  cases before with
  | nil => exact (List.cons.inj split).1.symm
  | cons _ before =>
    obtain ⟨rfl, -⟩ := List.cons.inj split
    exact absurd (heavy item List.mem_cons_self) light.not_gt

theorem lightest_firstLightest (weight : Item → W) (item : Item) (items : List Item) :
    ∃ found, lightest (item, weight item) (items.map fun other => (other, weight other)) = (found, weight found) ∧
      FirstLightest weight (item :: items) found := by
  induction items generalizing item with
  | nil => exact ⟨item, rfl, [], [], rfl, nofun, nofun⟩
  | cons next items ih =>
    rw [List.map_cons, lightest_cons]
    rcases lt_or_ge (weight next) (weight item) with light | heavy
    · rw [lighter_of_lt light]
      obtain ⟨found, same, first⟩ := ih next
      have least := first.le List.mem_cons_self
      obtain ⟨before, after, split, heavy, behind⟩ := first
      refine ⟨found, same, item :: before, after, by rw [split]; rfl, fun other member => ?_, behind⟩
      rcases List.mem_cons.mp member with rfl | member
      · exact least.trans_lt light
      · exact heavy other member
    · rw [lighter_of_le heavy]
      obtain ⟨found, same, before, after, split, before_heavy, behind⟩ := ih item
      refine ⟨found, same, ?_⟩
      cases before with
      | nil =>
        obtain ⟨rfl, rfl⟩ := List.cons.inj split
        refine ⟨[], next :: items, rfl, nofun, fun other member => ?_⟩
        rcases List.mem_cons.mp member with rfl | member
        · exact heavy
        · exact behind other member
      | cons _ before =>
        obtain ⟨rfl, rfl⟩ := List.cons.inj split
        have first := before_heavy item List.mem_cons_self
        refine ⟨item :: next :: before, after, rfl, fun other member => ?_, behind⟩
        rcases List.mem_cons.mp member with rfl | member
        · exact first
        · rcases List.mem_cons.mp member with rfl | member
          · exact first.trans_le heavy
          · exact before_heavy other (List.mem_cons_of_mem _ member)

end RunningMinimum
