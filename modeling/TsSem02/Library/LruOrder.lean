import TsSem02.Library.LruCache

/-! # Caches that differ in the order of some entries

Two lists of entries may hold the same entries in different orders.
`Follows fixed left right` says that they do, and that wherever `fixed a b`, if
the entry of `a` comes before the one of `b` on the left, it does so on the right.

* `Follows.fit` — both keep the same entries when the order of the entries that
  are dropped is fixed;
* `Follows.touch`, `Follows.put`, `Follows.putIfAbsent` — the same operation on
  both caches;
* `Follows.touch_left` — an entry that is moved on one side only.
-/

open Association

namespace LruCache

/-! ## Pairs of a list -/

section Pairs

variable {Entry : Type*} {x y : Entry} {left right : List Entry}

/-- A pair whose second element is not behind the split is in front of it. -/
theorem pair_sublist_of_append (pair : [x, y].Sublist (left ++ right)) (absent : y ∉ right) :
    [x, y].Sublist left := by
  obtain ⟨front, back, split, inLeft, inRight⟩ := List.sublist_append_iff.mp pair
  cases List.eq_nil_or_concat back with
  | inl empty =>
    subst empty
    rw [List.append_nil] at split
    exact split ▸ inLeft
  | inr concat =>
    obtain ⟨init, last, rfl⟩ := concat
    have lasts : (front ++ init) ++ [last] = [x] ++ [y] := by simp [split]
    obtain ⟨-, same⟩ := List.append_inj' lasts rfl
    cases same
    exact absurd (inRight.subset (by simp)) absent

theorem pair_sublist_cons_of_mem (member : y ∈ left) : [x, y].Sublist (x :: left) :=
  (List.singleton_sublist.mpr member).cons_cons x

theorem eq_concat_of_last (nodup : left.Nodup) (member : y ∈ left)
    (last : ∀ x ∈ left, x ≠ y → [x, y].Sublist left) : ∃ init, left = init ++ [y] := by
  cases List.eq_nil_or_concat left with
  | inl empty =>
    subst empty
    cases member
  | inr concat =>
    obtain ⟨init, z, split⟩ := concat
    rw [List.concat_eq_append] at split
    subst split
    by_cases same : z = y
    · subst same
      exact ⟨init, rfl⟩
    · have pair : [z, y].Sublist init :=
        pair_sublist_of_append (last z (by simp) same) (by simpa [eq_comm] using same)
      have twice : z ∈ init := pair.subset (by simp)
      rw [List.nodup_append] at nodup
      exact absurd rfl (nodup.2.2 z twice z (by simp))

end Pairs

section Fit

variable {Entry : Type*} (weight : Entry → Nat)

theorem total_perm {left right : List Entry} (perm : left.Perm right) :
    total weight left = total weight right :=
  (perm.map weight).sum_eq

/-- Two orders of the same entries keep the same entries within a budget, when
    they agree on what precedes an entry that is dropped. -/
theorem fit_perm {budget : Nat} {left right : List Entry} (nodup : left.Nodup)
    (perm : left.Perm right)
    (ordered : ∀ x y, y ∈ left → y ∉ fit weight budget left →
      [x, y].Sublist left → [x, y].Sublist right) :
    (fit weight budget left).Perm (fit weight budget right) := by
  induction left using List.reverseRecOn generalizing right with
  | nil =>
    rw [List.nil_perm.mp perm]
  | append_singleton left entry ih =>
    by_cases within : total weight (left ++ [entry]) ≤ budget
    · rw [fit_eq_self weight within, fit_eq_self weight (total_perm weight perm ▸ within)]
      exact perm
    · have exceeds := Nat.lt_of_not_le within
      rw [fit_concat weight exceeds]
      have nodup' := List.nodup_append.mp nodup
      have notLeft : entry ∉ left := fun member => nodup'.2.2 entry member entry (by simp) rfl
      have dropped : ∀ y, y ∉ fit weight budget left → y ∉ fit weight budget (left ++ [entry]) := by
        intro y
        rw [fit_concat weight exceeds]
        exact id
      have entryDropped : entry ∉ fit weight budget left :=
        fun member => notLeft ((fit_isPrefix weight budget left).subset member)
      obtain ⟨init, rfl⟩ : ∃ init, right = init ++ [entry] := by
        apply eq_concat_of_last (perm.nodup_iff.mp nodup) (perm.subset (by simp))
        intro x member other
        have inLeft : x ∈ left := by simpa [other] using perm.symm.subset member
        exact ordered x entry (by simp) (dropped entry entryDropped)
          ((List.singleton_sublist.mpr inLeft).append (List.Sublist.refl [entry]))
      have perm' : left.Perm init := (List.perm_append_right_iff [entry]).mp perm
      rw [total_perm weight perm] at exceeds
      rw [fit_concat weight exceeds]
      refine ih nodup'.1 perm' ?_
      intro x y member notKept pair
      have inRight := ordered x y (by simp [member]) (dropped y notKept)
        (pair.trans (List.sublist_append_left left [entry]))
      refine pair_sublist_of_append inRight ?_
      rw [List.mem_singleton]
      rintro rfl
      exact notLeft member

end Fit

/-! ## The order of a cache -/

section Orders

variable {κ ν : Type*}

theorem pair_of_keys {entries : List (κ × ν)} {x y : κ × ν} (nodup : (entries.map Prod.fst).Nodup)
    (xMember : x ∈ entries) (yMember : y ∈ entries)
    (pair : [x.1, y.1].Sublist (entries.map Prod.fst)) : [x, y].Sublist entries := by
  obtain ⟨listed, sublist, equal⟩ := List.sublist_map_iff.mp pair
  obtain ⟨x', rest, rfl, xSame, equal⟩ := List.map_eq_cons_iff.mp equal.symm
  obtain ⟨y', rest, rfl, ySame, equal⟩ := List.map_eq_cons_iff.mp equal
  cases List.map_eq_nil_iff.mp equal
  have xEq : x' = x := List.inj_on_of_nodup_map nodup (sublist.subset (by simp)) xMember xSame
  have yEq : y' = y := List.inj_on_of_nodup_map nodup (sublist.subset (by simp)) yMember ySame
  exact xEq ▸ yEq ▸ sublist

namespace Cache

variable {weight : κ × ν → Nat} {capacity : Nat}

theorem entries_nodup (cache : Cache weight capacity) : cache.entries.Nodup :=
  cache.keysNodup.of_map Prod.fst

variable [DecidableEq κ] {cache : Cache weight capacity} {key : κ} {value : ν}

theorem mem_of_lookup (found : cache.lookup key = some value) :
    (key, value) ∈ cache.entries := by
  obtain ⟨before, after, split⟩ := exists_split_of_lookup found
  simp [split]

theorem perm_touch (cache : Cache weight capacity) (key : κ) :
    (cache.touch key).entries.Perm cache.entries := by
  cases found : cache.lookup key with
  | none => rw [Cache.touch_of_absent found]
  | some value =>
    rw [Cache.entries_touch found]
    obtain ⟨before, after, split⟩ := exists_split_of_lookup found
    have nodup := cache.keysNodup
    rw [split] at nodup ⊢
    rw [without_middle nodup]
    exact List.perm_middle.symm

theorem lookup_store_of_dropped {entry : κ × ν} (fits : weight (key, value) ≤ capacity)
    (member : entry ∈ without key cache.entries)
    (dropped : entry ∉
      fit weight (capacity - weight (key, value)) (without key cache.entries)) :
    (cache.store key value fits).lookup entry.1 = none := by
  apply lookup_eq_none_iff_absent.mpr
  intro listed
  obtain ⟨kept, keptMember, same⟩ := List.mem_map.mp listed
  rw [Cache.entries_store] at keptMember
  rcases List.mem_cons.mp keptMember with rfl | keptMember
  · exact (mem_without.mp member).2 same.symm
  · have listed := (fit_isPrefix weight _ _).subset keptMember
    have nodup : ((without key cache.entries).map Prod.fst).Nodup := keys_nodup_without cache.keysNodup
    have equal := List.inj_on_of_nodup_map nodup listed member same
    exact dropped (equal ▸ keptMember)

end Cache

end Orders

/-! ## Two orders of the same entries -/

structure Follows {κ ν : Type*} (fixed : κ → κ → Prop) (left right : List (κ × ν)) : Prop where
  perm : left.Perm right
  ordered : ∀ x y, fixed x.1 y.1 → [x, y].Sublist left → [x, y].Sublist right

namespace Follows

section Lists

variable {κ ν : Type*} {fixed fixed' : κ → κ → Prop} {left right : List (κ × ν)}

theorem refl (fixed : κ → κ → Prop) (entries : List (κ × ν)) : Follows fixed entries entries :=
  ⟨List.Perm.refl _, fun _ _ _ pair => pair⟩

theorem mono (follows : Follows fixed left right)
    (weaker : ∀ x ∈ left, ∀ y ∈ left, fixed' x.1 y.1 → fixed x.1 y.1) :
    Follows fixed' left right where
  perm := follows.perm
  ordered x y fix pair :=
    follows.ordered x y (weaker x (pair.subset (by simp)) y (pair.subset (by simp)) fix) pair

theorem cons (follows : Follows fixed left right) (entry : κ × ν) :
    Follows fixed (entry :: left) (entry :: right) where
  perm := follows.perm.cons entry
  ordered := by
    intro x y fix pair
    rw [List.sublist_cons_iff] at pair
    rcases pair with behind | ⟨rest, split, inLeft⟩
    · exact (follows.ordered x y fix behind).cons entry
    · cases split
      exact pair_sublist_cons_of_mem (follows.perm.subset (inLeft.subset (by simp)))

variable [DecidableEq κ]

theorem without (follows : Follows fixed left right) (key : κ) :
    Follows fixed (without key left) (without key right) where
  perm := follows.perm.filter _
  ordered := by
    intro x y fix pair
    have inRight := follows.ordered x y fix (pair.trans (without_sublist key left))
    have xOther := (mem_without.mp (pair.subset (by simp : x ∈ [x, y]))).2
    have yOther := (mem_without.mp (pair.subset (by simp : y ∈ [x, y]))).2
    have kept : LruCache.without key [x, y] = [x, y] := by
      simp [LruCache.without, xOther, yOther]
    rw [← kept]
    exact inRight.filter _

omit [DecidableEq κ] in
theorem fit (weight : κ × ν → Nat) {budget : Nat} (follows : Follows fixed left right)
    (nodup : left.Nodup)
    (dropped : ∀ x ∈ left, ∀ y ∈ left, y ∉ fit weight budget left → fixed x.1 y.1) :
    Follows fixed (fit weight budget left) (fit weight budget right) where
  perm := by
    apply fit_perm weight nodup follows.perm
    intro x y member notKept pair
    exact follows.ordered x y (dropped x (pair.subset (by simp)) y member notKept) pair
  ordered := by
    intro x y fix pair
    have kept := (fit_perm weight nodup follows.perm fun x y member notKept pair =>
      follows.ordered x y (dropped x (pair.subset (by simp)) y member notKept) pair).subset
        (pair.subset (by simp : y ∈ [x, y]))
    have inRight := follows.ordered x y fix (pair.trans (fit_isPrefix weight budget left).sublist)
    obtain ⟨rest, split⟩ := fit_isPrefix weight budget right
    have nodupRight := follows.perm.nodup_iff.mp nodup
    rw [← split] at inRight nodupRight
    exact pair_sublist_of_append inRight fun member =>
      (List.nodup_append.mp nodupRight).2.2 y kept y member rfl

end Lists

section Caches

variable {κ ν : Type*} [DecidableEq κ] {weight : κ × ν → Nat} {capacity : Nat}
  {fixed fixed' : κ → κ → Prop} {cache other : Cache weight capacity} {key : κ}

theorem lookup_eq (follows : Follows fixed cache.entries other.entries) (key : κ) :
    cache.lookup key = other.lookup key := by
  apply Option.ext
  intro value
  have found_iff : ∀ cache : Cache weight capacity,
      cache.lookup key = some value ↔ (key, value) ∈ cache.entries :=
    fun cache => ⟨Cache.mem_of_lookup, lookup_of_mem cache.keysNodup⟩
  rw [found_iff, found_iff, follows.perm.mem_iff]

theorem touch (follows : Follows fixed cache.entries other.entries)
    (weaker : ∀ a b, a ≠ key → b ≠ key → fixed' a b → fixed a b) :
    Follows fixed' (cache.touch key).entries (other.touch key).entries := by
  cases found : cache.lookup key with
  | none =>
    have absent := lookup_eq_none_iff_absent.mp found
    rw [Cache.touch_of_absent found, Cache.touch_of_absent (follows.lookup_eq key ▸ found)]
    apply follows.mono
    intro x xMember y yMember
    apply weaker
    · rintro rfl
      exact absent (List.mem_map_of_mem xMember)
    · rintro rfl
      exact absent (List.mem_map_of_mem yMember)
  | some value =>
    rw [Cache.entries_touch found, Cache.entries_touch (follows.lookup_eq key ▸ found)]
    refine ((follows.without key).mono ?_).cons _
    intro x xMember y yMember
    exact weaker x.1 y.1 (mem_without.mp xMember).2 (mem_without.mp yMember).2

/-- Touching a key on one side: the order stays that of the other entries, and
    that of the key and those that were behind it. -/
theorem touch_left (follows : Follows fixed cache.entries other.entries)
    (weaker : ∀ a b, fixed' a b → fixed a b)
    (behind : ∀ b, fixed' key b → [key, b].Sublist (cache.entries.map Prod.fst)) :
    Follows fixed' (cache.touch key).entries other.entries := by
  cases found : cache.lookup key with
  | none =>
    rw [Cache.touch_of_absent found]
    exact follows.mono fun x _ y _ => weaker x.1 y.1
  | some value =>
    constructor
    · exact (Cache.perm_touch cache key).trans follows.perm
    · intro x y fix pair
      rw [Cache.entries_touch found, List.sublist_cons_iff] at pair
      apply follows.ordered x y (weaker _ _ fix)
      rcases pair with notKey | ⟨rest, equal, inLeft⟩
      · exact notKey.trans (without_sublist key cache.entries)
      · cases equal
        have yListed := (without_sublist key cache.entries).subset (inLeft.subset (by simp : y ∈ [y]))
        have keyListed := Cache.mem_of_lookup found
        exact pair_of_keys cache.keysNodup keyListed yListed (behind y.1 fix)

theorem touch_right (follows : Follows fixed cache.entries other.entries)
    (notFixed : ∀ a, ¬ fixed a key) : Follows fixed cache.entries (other.touch key).entries := by
  cases found : other.lookup key with
  | none =>
    rw [Cache.touch_of_absent found]
    exact follows
  | some value =>
    constructor
    · exact follows.perm.trans (Cache.perm_touch other key).symm
    · intro x y fix pair
      rw [Cache.entries_touch found]
      have inRight := follows.ordered x y fix pair
      have yOther : y.1 ≠ key := fun same => notFixed x.1 (same ▸ fix)
      have yListed := mem_without.mpr ⟨inRight.subset (by simp : y ∈ [x, y]), yOther⟩
      by_cases same : x.1 = key
      · have equal : x = (key, value) :=
          List.inj_on_of_nodup_map other.keysNodup (inRight.subset (by simp)) (Cache.mem_of_lookup found) same
        exact equal ▸ pair_sublist_cons_of_mem yListed
      · refine List.Sublist.cons _ ?_
        have kept : LruCache.without key [x, y] = [x, y] := by
          simp [LruCache.without, same, yOther]
        rw [← kept]
        exact inRight.filter _

/-- The order of what a write evicts is fixed. -/
def Evicts (fixed : κ → κ → Prop) (cache cache' : Cache weight capacity) (key : κ) : Prop :=
  ∀ a b, a ≠ key → (cache.lookup b).isSome → cache'.lookup b = none → fixed a b

theorem put {value : ν} (follows : Follows fixed cache.entries other.entries)
    (weaker : ∀ a b, a ≠ key → b ≠ key → fixed' a b → fixed a b)
    (evicts : Evicts fixed cache (cache.put key value).2 key) :
    (cache.put key value).1 = (other.put key value).1 ∧
      Follows fixed' (cache.put key value).2.entries (other.put key value).2.entries := by
  by_cases fits : weight (key, value) ≤ capacity
  · rw [Cache.put, dif_pos fits] at evicts
    rw [Cache.put, dif_pos fits, Cache.put, dif_pos fits]
    refine ⟨rfl, ?_⟩
    have nodup := (Cache.entries_nodup cache).sublist (without_sublist key cache.entries)
    have kept : Follows fixed
        (LruCache.fit weight (capacity - weight (key, value)) (LruCache.without key cache.entries))
        (LruCache.fit weight (capacity - weight (key, value)) (LruCache.without key other.entries)) :=
      (follows.without key).fit weight nodup ?_
    · rw [Cache.entries_store, Cache.entries_store]
      refine (kept.mono ?_).cons _
      intro x xMember y yMember
      have xListed := (fit_isPrefix weight _ _).subset xMember
      have yListed := (fit_isPrefix weight _ _).subset yMember
      exact weaker x.1 y.1 (mem_without.mp xListed).2 (mem_without.mp yListed).2
    · intro x xMember y yMember dropped
      refine evicts x.1 y.1 (mem_without.mp xMember).2 ?_
        (Cache.lookup_store_of_dropped fits yMember dropped)
      rw [Cache.lookup, lookup_of_mem cache.keysNodup (mem_without.mp yMember).1]
      rfl
  · rw [Cache.put, dif_neg fits, Cache.put, dif_neg fits]
    exact ⟨rfl, follows.touch weaker⟩

theorem putIfAbsent {value : ν} (follows : Follows fixed cache.entries other.entries)
    (weaker : ∀ a b, fixed' a b → fixed a b)
    (evicts : Evicts fixed cache (cache.putIfAbsent key value).2 key) :
    (cache.putIfAbsent key value).1 = (other.putIfAbsent key value).1 ∧
      Follows fixed' (cache.putIfAbsent key value).2.entries
        (other.putIfAbsent key value).2.entries := by
  rw [Cache.putIfAbsent] at evicts
  rw [Cache.putIfAbsent, Cache.putIfAbsent, ← follows.lookup_eq key]
  split at evicts
  · rename_i present
    rw [if_pos present, if_pos present]
    exact ⟨rfl, follows.mono fun x _ y _ => weaker x.1 y.1⟩
  · rename_i absent
    rw [if_neg absent, if_neg absent]
    exact follows.put (fun a b _ _ => weaker a b) evicts

end Caches

end Follows

end LruCache
