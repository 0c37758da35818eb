import TsSem02.Library.WorkingSet
import TsSem02.Storage.Reachable

/-! # What a `SimpleLRU` does not evict

An entry that was made the most recent one stays, with its value, while it and
everything used after it fit in the cache (`stays_of_fits`).  What was used is
counted by its keys, with the largest entry each of them had or was offered.
-/

namespace Afina

/-! ## Keys that are used -/

namespace StorageCall

/-- The key that a call makes the most recent one, if it is or comes to be present. -/
def names : StorageCall → Option Bytes
  | put key _ | putIfAbsent key _ | set key _ | get key => some key
  | delete _ => none

/-- The entry a call offers to the cache. -/
def offers : StorageCall → Option (Bytes × Bytes)
  | put key value | putIfAbsent key value | set key value => some (key, value)
  | delete _ | get _ => none

/-- The call neither deletes `key` nor writes an accepted value under it. -/
def Spares (op : StorageCall) (maxSize : Nat) (key : Bytes) : Prop :=
  op ≠ delete key ∧ ∀ value, op.Overwrites key value → maxSize < Backend.nodeSize key value

end StorageCall

namespace Backend

open Association LruCache SimpleLRU Runs

/-- The keys that some of the calls name. -/
def namedBy (ops : List StorageCall) : Finset Bytes := (ops.filterMap StorageCall.names).toFinset

/-- The size of the largest entry of `key` that some of the calls offer. -/
def largestOffer (key : Bytes) : List StorageCall → Nat
  | [] => 0
  | op :: ops =>
    match op.offers with
    | some (other, value) =>
      if other = key then max (nodeSize key value) (largestOffer key ops) else largestOffer key ops
    | none => largestOffer key ops

/-- The size of the largest entry that `key` has in `s` or is offered by one of the
    calls made then.  What it has later, it was offered. -/
def SimpleLRU.largest (s : SimpleLRU) (ops : List StorageCall) (key : Bytes) : Nat :=
  max ((s.valueOf key).elim 0 (nodeSize key)) (largestOffer key ops)

/-- A call whose reply shows that it made `key` the most recent entry, with `value`. -/
inductive MakesRecent (key value : Bytes) : StorageCall → StorageReply → Prop
  | put : MakesRecent key value (.put key value) (.flag true)
  | set : MakesRecent key value (.set key value) (.flag true)
  | putIfAbsent : MakesRecent key value (.putIfAbsent key value) (.flag true)
  | get : MakesRecent key value (.get key) (.found (some value))

section Bounds

variable {key value : Bytes} {op : StorageCall} {ops : List StorageCall}

theorem mem_namedBy : key ∈ namedBy ops ↔ ∃ op ∈ ops, op.names = some key := by
  simp [namedBy]

theorem nodeSize_le_largestOffer (member : op ∈ ops) (offers : op.offers = some (key, value)) :
    nodeSize key value ≤ largestOffer key ops := by
  induction ops with
  | nil => cases member
  | cons first ops ih =>
    rw [largestOffer]
    cases List.mem_cons.mp member with
    | inl same =>
      subst same
      simp only [offers, if_true]
      exact Nat.le_max_left _ _
    | inr later =>
      have rest := ih later
      split
      · split
        · exact Nat.le_trans rest (Nat.le_max_right _ _)
        · exact rest
      · exact rest

end Bounds

/-! ## One call -/

section Call

variable {maxSize : Nat} {cache : ByteCache maxSize} {key value : Bytes} {op : StorageCall}
  {reply : StorageReply} {named : Finset Bytes} {bound : Bytes → Nat}

theorem head_of_makesRecent (made : MakesRecent key value op reply)
    (replied : (ByteCache.call op cache).1 = reply) :
    ∃ rest, (ByteCache.call op cache).2.entries = (key, value) :: rest := by
  have putHead : (cache.put key value).1 = true →
      ∃ rest, (cache.put key value).2.entries = (key, value) :: rest := by
    intro accepted
    rw [Cache.put] at accepted ⊢
    split at accepted
    · next fits =>
      rw [dif_pos fits]
      exact ⟨_, Cache.entries_store cache key value fits⟩
    · cases accepted
  cases made with
  | put => exact putHead (StorageReply.flag_inj.mp replied)
  | set =>
    have accepted : (cache.set key value).1 = true := StorageReply.flag_inj.mp replied
    show ∃ rest, (cache.set key value).2.entries = _
    rw [Cache.set] at accepted ⊢
    split at accepted
    · next present => rw [if_pos present]; exact putHead accepted
    · cases accepted
  | putIfAbsent =>
    have accepted : (cache.putIfAbsent key value).1 = true := StorageReply.flag_inj.mp replied
    show ∃ rest, (cache.putIfAbsent key value).2.entries = _
    rw [Cache.putIfAbsent] at accepted ⊢
    split at accepted
    · cases accepted
    · next absent => rw [if_neg absent]; exact putHead accepted
  | get =>
    have found : cache.lookup key = some value := StorageReply.found_inj.mp replied
    exact ⟨_, Cache.entries_touch found⟩

/-- A call that spares the key and names and offers only what is allowed keeps the
    entry. -/
theorem guards_call (guards : cache.Guards key value (named.erase key) bound)
    (budget : nodeSize key value + (named.erase key).sum bound ≤ maxSize)
    (spares : op.Spares maxSize key) (names : ∀ other, op.names = some other → other ∈ named)
    (offers : ∀ other new, op.offers = some (other, new) → nodeSize other new ≤ bound other) :
    (ByteCache.call op cache).2.Guards key value (named.erase key) bound := by
  have namedOther : ∀ other, op.names = some other → other = key ∨ other ∈ named.erase key := by
    intro other isNamed
    by_cases same : other = key
    · exact .inl same
    · exact .inr (Finset.mem_erase.mpr ⟨same, names other isNamed⟩)
  have guardsPut : ∀ other new, op.names = some other → op.offers = some (other, new) →
      (other = key → maxSize < nodeSize key new) →
        (cache.put other new).2.Guards key value (named.erase key) bound := by
    intro other new isNamed isOffered refused
    by_cases same : other = key
    · subst same
      have large : ¬ entrySize (other, new) ≤ maxSize := Nat.not_le.mpr (refused rfl)
      rw [Cache.put, dif_neg large]
      exact guards.touch (.inl rfl)
    · exact guards.put same ((namedOther other isNamed).resolve_left same)
        (offers other new isOffered) budget
  cases op with
  | put other new =>
    exact guardsPut other new rfl rfl fun same => spares.2 new (same ▸ .inl rfl)
  | set other new =>
    show (cache.set other new).2.Guards key value (named.erase key) bound
    rw [Cache.set]
    split
    · exact guardsPut other new rfl rfl fun same => spares.2 new (same ▸ .inr rfl)
    · exact guards
  | putIfAbsent other new =>
    show (cache.putIfAbsent other new).2.Guards key value (named.erase key) bound
    rw [Cache.putIfAbsent]
    split
    · exact guards
    · next absent =>
      refine guardsPut other new rfl rfl fun same => absurd ?_ absent
      rw [same, guards.lookup]
      rfl
  | delete other =>
    have distinct : other ≠ key := fun same => spares.1 (same ▸ rfl)
    exact guards.erase distinct
  | get other => exact guards.touch (namedOther other rfl)

end Call

/-! ## Any number of calls -/

theorem valueOf_of_guards {maxSize : Nat} {s s' : SimpleLRU} {cache : ByteCache maxSize}
    {ops : List StorageCall} {replies : List StorageReply} {key value : Bytes} {named : Finset Bytes}
    {bound : Bytes → Nat} (refines : Refines s cache)
    (guards : cache.Guards key value (named.erase key) bound)
    (budget : nodeSize key value + (named.erase key).sum bound ≤ maxSize)
    (spared : ∀ op ∈ ops, op.Spares maxSize key)
    (names : ∀ op ∈ ops, ∀ other, op.names = some other → other ∈ named)
    (offers : ∀ op ∈ ops, ∀ other new, op.offers = some (other, new) → nodeSize other new ≤ bound other)
    (ran : runs Storage.call ops s = .ok (replies, s')) : s'.valueOf key = some value := by
  induction ops generalizing s cache replies with
  | nil =>
    cases ran
    rw [refines.valueOf_eq, guards.lookup]
  | cons op ops ih =>
    obtain ⟨reply, next, rest, stepped, ranRest, -⟩ := runs_cons_ok.mp ran
    simp only [List.forall_mem_cons] at spared names offers
    have kept := guards_call guards budget spared.1 names.1 offers.1
    exact ih (call_simulates refines stepped).2 kept spared.2 names.2 offers.2 ranRest

/-- An entry that has just become the most recent one stays as long as nothing is
    written under its key and it fits in the cache together with the largest entry
    of every other key that is named since. -/
theorem stays_of_fits {maxSize : Nat} {s₁ s₀ s : SimpleLRU} {op : StorageCall} {later : List StorageCall}
    {reply : StorageReply} {replies : List StorageReply} {key value : Bytes} (bounded : maxSize < 2 ^ 63)
    (reachable : Reachable maxSize s₁) (called : Storage.call op s₁ = .ok (reply, s₀))
    (made : MakesRecent key value op reply) (ran : runs Storage.call later s₀ = .ok (replies, s))
    (spared : ∀ op ∈ later, op.Spares maxSize key)
    (fits : nodeSize key value + ((namedBy later).erase key).sum (s₀.largest later) ≤ maxSize) :
    s.valueOf key = some value := by
  obtain ⟨cache₁, refines₁⟩ := reachable.refines bounded
  obtain ⟨replied, refines₀⟩ := call_simulates refines₁ called
  obtain ⟨rest, head⟩ := head_of_makesRecent made replied
  have guards₀ : (ByteCache.call op cache₁).2.Guards key value ((namedBy later).erase key)
      (s₀.largest later) := by
    refine Cache.guards_of_head head fun entry member _ => ?_
    have held := lookup_of_mem (ByteCache.call op cache₁).2.keysNodup member
    have valueOf : s₀.valueOf entry.1 = some entry.2 := (refines₀.valueOf_eq entry.1).trans held
    rw [largest, valueOf]
    exact Nat.le_max_left _ _
  refine valueOf_of_guards refines₀ guards₀ fits spared ?_ ?_ ran
  · exact fun op member other isNamed => mem_namedBy.mpr ⟨op, member, isNamed⟩
  · exact fun op member other new isOffered =>
      Nat.le_trans (nodeSize_le_largestOffer member isOffered) (Nat.le_max_right _ _)

/-- An entry of two bytes stays in a cache of five, while one of three bytes is
    written, read and written again, and pushes an older one out. -/
theorem stays_of_fits_five : ∃ s₁ s₀ s,
    runs Storage.call [.put [7] [7]] (SimpleLRU.fresh 5) = .ok ([.flag true], s₁) ∧
      Storage.call (.put [1] [9]) s₁ = .ok (.flag true, s₀) ∧
      runs Storage.call [.put [2] [0, 0], .get [2], .put [2] [1, 1]] s₀ =
        .ok ([.flag true, .found (some [0, 0]), .flag true], s) ∧
      s.valueOf [1] = some [9] := by
  have five : 5 < 2 ^ 63 := by decide
  have spared : ∀ op ∈ ([.put [2] [0, 0], .get [2], .put [2] [1, 1]] : List StorageCall), op.Spares 5 [1] := by
    intro op member
    simp only [List.mem_cons, List.not_mem_nil, or_false] at member
    rcases member with rfl | rfl | rfl <;> simp [StorageCall.Spares, StorageCall.Overwrites]
  exact ⟨_, _, _, rfl, rfl, rfl,
    stays_of_fits five ⟨[.put [7] [7]], _, rfl⟩ rfl .put rfl spared (by decide +kernel)⟩

end Backend

end Afina
