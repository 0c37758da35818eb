import Mathlib.Data.Finset.Dedup
import Mathlib.Data.List.Basic
import Mathlib.Tactic

/-! # The first of each kind

The kinds that occur in a list, in the order in which they first occur.  In a
sorted list the kinds are then sorted by their first items (`firsts_pairwise`), also
if only some of them are taken (`exists_first_of_mem_take`).
-/

namespace FirstOfKind

variable {Item Kind : Type*} [DecidableEq Kind]

/-- The kinds of the items, without those that have been seen before. -/
def firsts (kind : Item → Kind) : List Kind → List Item → List Kind
  | _, [] => []
  | seen, item :: items =>
    if kind item ∈ seen then firsts kind seen items else kind item :: firsts kind (seen ++ [kind item]) items

variable {kind : Item → Kind} {seen : List Kind} {item : Item} {items : List Item} {a b : Kind}

theorem firsts_seen (known : kind item ∈ seen) : firsts kind seen (item :: items) = firsts kind seen items := by
  rw [firsts, if_pos known]

theorem firsts_new (fresh : kind item ∉ seen) :
    firsts kind seen (item :: items) = kind item :: firsts kind (seen ++ [kind item]) items := by
  rw [firsts, if_neg fresh]

theorem mem_firsts : a ∈ firsts kind seen items ↔ a ∉ seen ∧ ∃ item ∈ items, kind item = a := by
  induction items generalizing seen with
  | nil => simp [firsts]
  | cons item items ih =>
    by_cases known : kind item ∈ seen
    · rw [firsts_seen known, ih]
      refine and_congr_right fun fresh => ?_
      have other : kind item ≠ a := fun same => fresh (same ▸ known)
      simp [other]
    · rw [firsts_new known, List.mem_cons, ih, List.mem_append, List.mem_singleton]
      by_cases same : a = kind item
      · subst same
        simp [known]
      · simp [same, Ne.symm same]

theorem firsts_nodup (kind : Item → Kind) (seen : List Kind) (items : List Item) : (firsts kind seen items).Nodup := by
  induction items generalizing seen with
  | nil => exact List.nodup_nil
  | cons item items ih =>
    by_cases known : kind item ∈ seen
    · rw [firsts_seen known]
      exact ih seen
    · rw [firsts_new known]
      refine List.nodup_cons.mpr ⟨fun again => ?_, ih _⟩
      exact (mem_firsts.mp again).1 (by simp)

theorem length_firsts (kind : Item → Kind) (items : List Item) :
    (firsts kind [] items).length = (items.map kind).toFinset.card := by
  rw [← List.toFinset_card_of_nodup (firsts_nodup kind [] items)]
  congr 1
  ext a
  simp [mem_firsts]

variable {R : Item → Item → Prop} [Std.Refl R]

theorem firsts_pairwise (sorted : items.Pairwise R) :
    (firsts kind seen items).Pairwise fun a b => ∃ x ∈ items, kind x = a ∧ ∀ y ∈ items, kind y = b → R x y := by
  induction items generalizing seen with
  | nil => exact .nil
  | cons item items ih =>
    obtain ⟨first, sorted⟩ := List.pairwise_cons.mp sorted
    have skip (seen : List Kind) (known : kind item ∈ seen) : (firsts kind seen items).Pairwise fun a b =>
        ∃ x ∈ item :: items, kind x = a ∧ ∀ y ∈ item :: items, kind y = b → R x y := by
      refine (ih sorted).imp_of_mem fun {a b} _ later => ?_
      rintro ⟨x, member, same, before⟩
      refine ⟨x, List.mem_cons_of_mem _ member, same, fun y inside kind_eq => ?_⟩
      rcases List.mem_cons.mp inside with rfl | inside
      · exact absurd (kind_eq ▸ known) (mem_firsts.mp later).1
      · exact before y inside kind_eq
    by_cases known : kind item ∈ seen
    · rw [firsts_seen known]
      exact skip seen known
    · rw [firsts_new known]
      refine List.pairwise_cons.mpr ⟨fun b _ => ⟨item, List.mem_cons_self, rfl, fun y inside _ => ?_⟩, skip _ (by simp)⟩
      rcases List.mem_cons.mp inside with rfl | inside
      · exact refl_of R y
      · exact first y inside

theorem exists_first_of_mem_take (sorted : items.Pairwise R) {count : Nat}
    (taken : a ∈ (firsts kind [] items).take count) (left : b ∉ (firsts kind [] items).take count) :
    ∃ x ∈ items, kind x = a ∧ ∀ y ∈ items, kind y = b → R x y := by
  have ordered : (firsts kind [] items).Pairwise fun a b =>
      ∃ x ∈ items, kind x = a ∧ ∀ y ∈ items, kind y = b → R x y := firsts_pairwise sorted
  rw [← List.take_append_drop count (firsts kind [] items)] at ordered
  by_cases occurs : b ∈ firsts kind [] items
  · rw [← List.take_append_drop count (firsts kind [] items), List.mem_append] at occurs
    exact (List.pairwise_append.mp ordered).2.2 a taken b (occurs.resolve_left left)
  · obtain ⟨-, x, member, same⟩ := mem_firsts.mp (List.mem_of_mem_take taken)
    refine ⟨x, member, same, fun y inside kind_eq => ?_⟩
    exact absurd (mem_firsts.mpr ⟨List.not_mem_nil, y, inside, kind_eq⟩) occurs

end FirstOfKind
