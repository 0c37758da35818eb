import TsSem02.Library.Association

/-! # Dictionaries

* `mapValues` — other values for the same keys;
* `insertAll` — the loop that makes a value for every entry of a dictionary and inserts
  it into another one, unless one of them cannot be made.
-/

namespace Dictionary

variable {Key Value Other Fault : Type} [DecidableEq Key]

def mapValues (f : Key → Value → Other) (dict : AList fun _ : Key => Value) : AList fun _ : Key => Other where
  entries := dict.entries.map fun entry => ⟨entry.1, f entry.1 entry.2⟩
  nodupKeys := by
    have keys : (dict.entries.map Sigma.fst).Nodup := dict.nodupKeys
    show ((dict.entries.map _).map Sigma.fst).Nodup
    rwa [List.map_map]

theorem lookup_mapValues (f : Key → Value → Other) (dict : AList fun _ : Key => Value) (key : Key) :
    (mapValues f dict).lookup key = (dict.lookup key).map (f key) := by
  cases found : dict.lookup key with
  | none =>
    rw [AList.lookup_eq_none] at found
    rw [Option.map_none, AList.lookup_eq_none]
    intro member
    apply found
    rw [AList.mem_keys, AList.keys, List.keys] at member ⊢
    simpa [mapValues] using member
  | some value =>
    have there := AList.mem_lookup_iff.mp found
    apply AList.mem_lookup_iff.mpr
    exact List.mem_map.mpr ⟨_, there, rfl⟩

/-! ## A loop over the entries -/

/-- `table[key] = make(key, value)` for every entry. -/
def insertAll (make : (AList fun _ : Key => Other) → Key → Value → Except Fault Other) :
    List (Sigma fun _ : Key => Value) → (AList fun _ : Key => Other) → Except Fault (AList fun _ : Key => Other)
  | [], table => .ok table
  | entry :: entries, table =>
    match make table entry.1 entry.2 with
    | .error fault => .error fault
    | .ok other => insertAll make entries (table.insert entry.1 other)

variable {make : (AList fun _ : Key => Other) → Key → Value → Except Fault Other}
  {entries : List (Sigma fun _ : Key => Value)} {table final : AList fun _ : Key => Other}

theorem insertAll_cons {entry : Sigma fun _ : Key => Value} (ran : insertAll make (entry :: entries) table = .ok final) :
    ∃ other, make table entry.1 entry.2 = .ok other ∧ insertAll make entries (table.insert entry.1 other) = .ok final := by
  rw [insertAll] at ran
  cases made : make table entry.1 entry.2 with
  | error fault =>
    rw [made] at ran
    cases ran
  | ok other =>
    rw [made] at ran
    exact ⟨other, rfl, ran⟩

theorem lookup_insertAll_of_notMem (ran : insertAll make entries table = .ok final) {key : Key}
    (absent : key ∉ entries.map Sigma.fst) : final.lookup key = table.lookup key := by
  induction entries generalizing table with
  | nil =>
    cases ran
    rfl
  | cons entry entries ih =>
    obtain ⟨other, -, later⟩ := insertAll_cons ran
    simp only [List.map_cons, List.mem_cons, not_or] at absent
    rw [ih later absent.2, AList.lookup_insert_ne absent.1]

theorem lookup_insertAll (ran : insertAll make entries table = .ok final) (distinct : (entries.map Sigma.fst).Nodup)
    {key : Key} {value : Value} (member : ⟨key, value⟩ ∈ entries) :
    ∃ before other, make before key value = .ok other ∧ final.lookup key = some other := by
  induction entries generalizing table with
  | nil => cases member
  | cons entry entries ih =>
    obtain ⟨other, made, later⟩ := insertAll_cons ran
    rw [List.map_cons, List.nodup_cons] at distinct
    cases member with
    | head =>
      refine ⟨table, other, made, ?_⟩
      rw [lookup_insertAll_of_notMem later distinct.1, AList.lookup_insert]
    | tail _ member => exact ih later distinct.2 member

/-! ## Association lists -/

def pairs (dict : AList fun _ : Key => Value) : List (Key × Value) := dict.entries.map fun entry => (entry.1, entry.2)

omit [DecidableEq Key] in
theorem keys_pairs (dict : AList fun _ : Key => Value) : (pairs dict).map Prod.fst = dict.keys := by
  rw [pairs, List.map_map]
  rfl

theorem mem_pairs {dict : AList fun _ : Key => Value} {key : Key} {value : Value} :
    (key, value) ∈ pairs dict ↔ dict.lookup key = some value := by
  rw [pairs, List.mem_map]
  constructor
  · rintro ⟨entry, member, same⟩
    cases same
    exact AList.mem_lookup_iff.mpr member
  · intro found
    exact ⟨_, AList.mem_lookup_iff.mp found, rfl⟩

theorem perm_pairs {entries : List (Key × Value)} {dict : AList fun _ : Key => Value}
    (nodup : (entries.map Prod.fst).Nodup) (same : ∀ key, entries.lookup key = dict.lookup key) :
    entries.Perm (pairs dict) := by
  have nodup' : ((pairs dict).map Prod.fst).Nodup := by
    rw [keys_pairs]
    exact dict.keys_nodup
  refine (List.perm_ext_iff_of_nodup nodup.of_map nodup'.of_map).mpr fun entry => ?_
  rw [← Association.lookup_eq_some_iff_mem nodup, same, ← mem_pairs]

end Dictionary
