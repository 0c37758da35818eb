import TsSem02.Logging.ServiceImpl

/-! # Variables in a pattern

`ServiceImpl::create` is to replace each `%X{key}` of a pattern by the value the
map has for the key (`expand`).  The scan writes the key, and doubles the brace of
every `%X{` it leaves alone; it reads past the end of a pattern that stops inside
of a `%X`; and it passes over a `%` that comes right behind another sequence.
`Clean` patterns are those in which it meets none of this.
-/

namespace Afina.Logging

variable {mdc : Bytes → Option Bytes} {c d e : UInt8} {pattern key value behind written next output : Bytes}

/-! ## What the scan is for -/

/-- The value to put in for the `%X{key}` at the front of a text, if the key is
    known, and what is behind it. -/
def placeholder (mdc : Bytes → Option Bytes) : Bytes → Option (Bytes × Bytes)
  | c :: d :: e :: rest =>
    if c = percent ∧ d = bigX ∧ e = openBrace then
      (splitAtBrace rest).bind fun (key, behind) => (mdc key).map fun value => (value, behind)
    else none
  | _ => none

theorem placeholder_some (found : placeholder mdc pattern = some (value, behind)) :
    ∃ key, closeBrace ∉ key ∧ mdc key = some value ∧
      pattern = percent :: bigX :: openBrace :: (key ++ closeBrace :: behind) := by
  unfold placeholder at found
  split at found
  · split at found
    · next starts =>
      obtain ⟨rfl, rfl, rfl⟩ := starts
      obtain ⟨⟨key, _⟩, split, mapped⟩ := Option.bind_eq_some_iff.mp found
      obtain ⟨_, known, same⟩ := Option.map_eq_some_iff.mp mapped
      cases same
      obtain ⟨open', rfl⟩ := splitAtBrace_some split
      exact ⟨key, open', known, rfl⟩
    · cases found
  · cases found

/-- The pattern with each `%X{key}` of a known key replaced. -/
def expand (mdc : Bytes → Option Bytes) : Bytes → Bytes
  | [] => []
  | c :: pattern =>
    match _found : placeholder mdc (c :: pattern) with
    | some (value, behind) => value ++ expand mdc behind
    | none => c :: expand mdc pattern
termination_by pattern => pattern.length
decreasing_by
  · obtain ⟨key, -, -, same⟩ := placeholder_some _found
    rw [same]
    simp only [List.length_cons, List.length_append]
    omega
  · exact Nat.lt_succ_self _

theorem expand_replaced (found : placeholder mdc pattern = some (value, behind)) :
    expand mdc pattern = value ++ expand mdc behind := by
  obtain ⟨key, -, -, rfl⟩ := placeholder_some found
  rw [expand, found]

theorem expand_copied (absent : placeholder mdc (c :: pattern) = none) :
    expand mdc (c :: pattern) = c :: expand mdc pattern := by
  rw [expand, absent]

@[simp] theorem expand_nil : expand mdc [] = [] := by
  rw [expand]

theorem placeholder_of_ne (other : c ≠ percent) : placeholder mdc (c :: pattern) = none := by
  cases found : placeholder mdc (c :: pattern) with
  | none => rfl
  | some result =>
    obtain ⟨key, -, -, same⟩ := placeholder_some found
    cases same
    exact absurd rfl other

theorem expand_plain (other : c ≠ percent) : expand mdc (c :: pattern) = c :: expand mdc pattern :=
  expand_copied (placeholder_of_ne other)

/-! ## The rounds of the scan -/

theorem splitAtBrace_append (absent : closeBrace ∉ key) :
    splitAtBrace (key ++ closeBrace :: behind) = some (key, behind) := by
  induction key with
  | nil => rw [List.nil_append, splitAtBrace, if_pos rfl]
  | cons c key ih =>
    rw [List.mem_cons, not_or] at absent
    obtain ⟨other, absent⟩ := absent
    rw [List.cons_append, splitAtBrace, if_neg (Ne.symm other), ih absent]
    rfl

/-- The forms of what the iterator may have in front of it. -/
inductive Form (mdc : Bytes → Option Bytes) : Bytes → Prop where
  | done : Form mdc []
  | plain (c : UInt8) (pattern : Bytes) : c ≠ percent → Form mdc (c :: pattern)
  | sequence (d : UInt8) (pattern : Bytes) : d ≠ bigX → Form mdc (percent :: d :: pattern)
  | bare (e : UInt8) (pattern : Bytes) : e ≠ openBrace → Form mdc (percent :: bigX :: e :: pattern)
  | unknown (pattern : Bytes) : placeholder mdc (percent :: bigX :: openBrace :: pattern) = none →
      Form mdc (percent :: bigX :: openBrace :: pattern)
  | known (key value behind : Bytes) : closeBrace ∉ key → mdc key = some value →
      Form mdc (percent :: bigX :: openBrace :: (key ++ closeBrace :: behind))
  | endsInPercent : Form mdc [percent]
  | endsInX : Form mdc [percent, bigX]

theorem form (mdc : Bytes → Option Bytes) (pattern : Bytes) : Form mdc pattern := by
  match pattern with
  | [] => exact .done
  | c :: rest =>
    by_cases isPercent : c = percent
    · subst isPercent
      match rest with
      | [] => exact .endsInPercent
      | d :: rest =>
        by_cases isX : d = bigX
        · subst isX
          match rest with
          | [] => exact .endsInX
          | e :: rest =>
            by_cases isBrace : e = openBrace
            · subst isBrace
              cases found : placeholder mdc (percent :: bigX :: openBrace :: rest) with
              | none => exact .unknown rest found
              | some result =>
                obtain ⟨key, absent, known, same⟩ := placeholder_some found
                cases same
                exact .known key _ _ absent known
            · exact .bare e rest isBrace
        · exact .sequence d rest isX
    · exact .plain c rest isPercent

theorem placeholder_known (absent : closeBrace ∉ key) (known : mdc key = some value) :
    placeholder mdc (percent :: bigX :: openBrace :: (key ++ closeBrace :: behind)) = some (value, behind) := by
  simp [placeholder, splitAtBrace_append absent, known]

theorem placeholder_of_ne_bigX (other : d ≠ bigX) : placeholder mdc (percent :: d :: pattern) = none := by
  cases found : placeholder mdc (percent :: d :: pattern) with
  | none => rfl
  | some result =>
    obtain ⟨key, -, -, same⟩ := placeholder_some found
    cases same
    exact absurd rfl other

theorem placeholder_of_ne_openBrace (other : e ≠ openBrace) :
    placeholder mdc (percent :: bigX :: e :: pattern) = none := by
  cases found : placeholder mdc (percent :: bigX :: e :: pattern) with
  | none => rfl
  | some result =>
    obtain ⟨key, -, -, same⟩ := placeholder_some found
    cases same
    exact absurd rfl other

theorem expand_sequence (other : d ≠ bigX) :
    expand mdc (percent :: d :: pattern) = percent :: expand mdc (d :: pattern) :=
  expand_copied (placeholder_of_ne_bigX other)

theorem expand_bare (other : e ≠ openBrace) :
    expand mdc (percent :: bigX :: e :: pattern) = percent :: bigX :: expand mdc (e :: pattern) := by
  rw [expand_copied (placeholder_of_ne_openBrace other), expand_plain (by decide)]

theorem expand_unknown (unknown : placeholder mdc (percent :: bigX :: openBrace :: pattern) = none) :
    expand mdc (percent :: bigX :: openBrace :: pattern) =
      percent :: bigX :: openBrace :: expand mdc pattern := by
  rw [expand_copied unknown, expand_plain (by decide), expand_plain (by decide)]

theorem expand_known (absent : closeBrace ∉ key) (known : mdc key = some value) :
    expand mdc (percent :: bigX :: openBrace :: (key ++ closeBrace :: behind)) = value ++ expand mdc behind :=
  expand_replaced (placeholder_known absent known)

theorem scan_step (round : scanRound mdc pattern = .ok (written, next)) :
    scan mdc pattern = (scan mdc next).map (written ++ ·) := by
  cases pattern with
  | nil => cases round
  | cons c pattern => rw [scan, round]

@[simp] theorem scan_nil : scan mdc [] = .ok [] := by
  rw [scan]

theorem scan_plain (other : c ≠ percent) : scan mdc (c :: pattern) = (scan mdc pattern).map ([c] ++ ·) :=
  scan_step (by simp [scanRound, other])

theorem scan_sequence (other : d ≠ bigX) :
    scan mdc (percent :: d :: pattern) = (scan mdc pattern).map ([percent, d] ++ ·) :=
  scan_step (by simp [scanRound, other])

theorem scan_bare (other : e ≠ openBrace) :
    scan mdc (percent :: bigX :: e :: pattern) = (scan mdc pattern).map ([percent, bigX, e] ++ ·) :=
  scan_step (by simp [scanRound, other])

theorem scan_unknown (unknown : placeholder mdc (percent :: bigX :: openBrace :: pattern) = none) :
    scan mdc (percent :: bigX :: openBrace :: pattern) =
      (scan mdc pattern).map ([percent, bigX, openBrace, openBrace] ++ ·) := by
  refine scan_step ?_
  simp only [scanRound, ne_eq, not_true, if_false]
  cases split : splitAtBrace pattern with
  | none => rfl
  | some result =>
    rw [placeholder, if_pos ⟨rfl, rfl, rfl⟩, split, Option.bind_some, Option.map_eq_none_iff] at unknown
    simp only [unknown]

theorem scan_known (absent : closeBrace ∉ key) (known : mdc key = some value) :
    scan mdc (percent :: bigX :: openBrace :: (key ++ closeBrace :: behind)) =
      (scan mdc behind).map (key ++ ·) := by
  refine scan_step ?_
  simp only [scanRound, ne_eq, not_true, if_false, splitAtBrace_append absent, known]

theorem scan_endsInPercent : scan mdc [percent] = .error .pastTheEnd := by
  rw [scan]
  rfl

theorem scan_endsInX : scan mdc [percent, bigX] = .error .pastTheEnd := by
  rw [scan]
  rfl

theorem scan_rest {scanned : Except LoggingFault Bytes} (succeeds : scanned.map (written ++ ·) = .ok output) :
    ∃ rest, scanned = .ok rest ∧ output = written ++ rest := by
  cases scanned with
  | error fault => cases succeeds
  | ok rest =>
    cases succeeds
    exact ⟨rest, rfl, rfl⟩

/-! ## Patterns the scan is right for -/

/-- The scan comes to no `%X{` but those of a known key that is its own value, it
    copies no percent sign of a placeholder, and it does not stop inside of `%` or
    `%X`. -/
inductive Clean (mdc : Bytes → Option Bytes) : Bytes → Prop where
  | done : Clean mdc []
  | plain (c : UInt8) {pattern : Bytes} : c ≠ percent → Clean mdc pattern → Clean mdc (c :: pattern)
  | sequence (d : UInt8) {pattern : Bytes} : d ≠ bigX → placeholder mdc (d :: pattern) = none →
      Clean mdc pattern → Clean mdc (percent :: d :: pattern)
  | bare (e : UInt8) {pattern : Bytes} : e ≠ openBrace → placeholder mdc (e :: pattern) = none →
      Clean mdc pattern → Clean mdc (percent :: bigX :: e :: pattern)
  | known (key : Bytes) {behind : Bytes} : closeBrace ∉ key → mdc key = some key →
      Clean mdc behind → Clean mdc (percent :: bigX :: openBrace :: (key ++ closeBrace :: behind))

theorem Clean.scan (clean : Clean mdc pattern) : scan mdc pattern = .ok (expand mdc pattern) := by
  induction clean with
  | done => rw [scan_nil, expand_nil]
  | plain c other _ ih =>
    rw [scan_plain other, ih, expand_plain other]
    rfl
  | sequence d other copied _ ih =>
    rw [scan_sequence other, ih, expand_sequence other, expand_copied copied]
    rfl
  | bare e other copied _ ih =>
    rw [scan_bare other, ih, expand_bare other, expand_copied copied]
    rfl
  | known key absent known _ ih =>
    rw [scan_known absent known, ih, expand_known absent known]
    rfl

/-! ## All other patterns -/

/-- A map whose replacements show: no key has a percent sign, and each value is no
    longer than its key or has a byte that the pattern does not have. -/
def Telling (mdc : Bytes → Option Bytes) (pattern : Bytes) : Prop :=
  ∀ key value, mdc key = some value →
    percent ∉ key ∧ (value.length ≤ key.length ∨ ∃ byte ∈ value, byte ∉ pattern)

inductive Scans (mdc : Bytes → Option Bytes) : Bytes → Bytes → Prop where
  | done : Scans mdc [] []
  | plain (c : UInt8) {pattern output : Bytes} : c ≠ percent → Scans mdc pattern output →
      Scans mdc (c :: pattern) (c :: output)
  | sequence (d : UInt8) {pattern output : Bytes} : d ≠ bigX → Scans mdc pattern output →
      Scans mdc (percent :: d :: pattern) (percent :: d :: output)
  | bare (e : UInt8) {pattern output : Bytes} : e ≠ openBrace → Scans mdc pattern output →
      Scans mdc (percent :: bigX :: e :: pattern) (percent :: bigX :: e :: output)
  | unknown {pattern output : Bytes} : placeholder mdc (percent :: bigX :: openBrace :: pattern) = none →
      Scans mdc pattern output →
      Scans mdc (percent :: bigX :: openBrace :: pattern) (percent :: bigX :: openBrace :: openBrace :: output)
  | known (key value : Bytes) {behind output : Bytes} : closeBrace ∉ key → mdc key = some value →
      Scans mdc behind output →
      Scans mdc (percent :: bigX :: openBrace :: (key ++ closeBrace :: behind)) (key ++ output)

theorem scans_of_scan (scanned : scan mdc pattern = .ok output) : Scans mdc pattern output := by
  induction size : pattern.length using Nat.strongRecOn generalizing pattern output with
  | ind size ih =>
    subst size
    cases form mdc pattern with
    | done =>
      cases scan_nil.symm.trans scanned
      exact .done
    | plain c pattern other =>
      obtain ⟨rest, later, rfl⟩ := scan_rest ((scan_plain other).symm.trans scanned)
      exact .plain c other (ih _ (by simp) later rfl)
    | sequence d pattern other =>
      obtain ⟨rest, later, rfl⟩ := scan_rest ((scan_sequence other).symm.trans scanned)
      exact .sequence d other (ih _ (by simp) later rfl)
    | bare e pattern other =>
      obtain ⟨rest, later, rfl⟩ := scan_rest ((scan_bare other).symm.trans scanned)
      exact .bare e other (ih _ (by simp; omega) later rfl)
    | unknown pattern unknown =>
      obtain ⟨rest, later, rfl⟩ := scan_rest ((scan_unknown unknown).symm.trans scanned)
      exact .unknown unknown (ih _ (by simp; omega) later rfl)
    | known key value behind absent known =>
      obtain ⟨rest, later, rfl⟩ := scan_rest ((scan_known absent known).symm.trans scanned)
      exact .known key value absent known (ih _ (by simp; omega) later rfl)
    | endsInPercent => cases scan_endsInPercent.symm.trans scanned
    | endsInX => cases scan_endsInX.symm.trans scanned

theorem Scans.subset (scans : Scans mdc pattern output) : output ⊆ pattern := by
  induction scans with
  | done => exact List.Subset.refl _
  | plain c _ _ ih => exact List.cons_subset_cons c ih
  | sequence d _ _ ih => exact List.cons_subset_cons _ (List.cons_subset_cons d ih)
  | bare e _ _ ih => exact List.cons_subset_cons _ (List.cons_subset_cons _ (List.cons_subset_cons e ih))
  | unknown _ _ ih =>
    refine List.cons_subset_cons _ (List.cons_subset_cons _ (List.cons_subset.mpr ⟨by simp, ?_⟩))
    exact List.cons_subset_cons _ ih
  | known key value _ _ _ ih =>
    intro byte member
    rcases List.mem_append.mp member with inKey | inRest
    · simp [inKey]
    · simp [ih inRest]

theorem Scans.of_plain (other : c ≠ percent) (scans : Scans mdc (c :: pattern) output) :
    ∃ rest, output = c :: rest ∧ Scans mdc pattern rest := by
  cases scans with
  | plain c _ scans => exact ⟨_, rfl, scans⟩
  | sequence => exact absurd rfl other
  | bare => exact absurd rfl other
  | unknown => exact absurd rfl other
  | known => exact absurd rfl other

theorem Scans.of_append {text : Bytes} (plain : percent ∉ text) (scans : Scans mdc (text ++ pattern) output) :
    ∃ rest, output = text ++ rest ∧ Scans mdc pattern rest := by
  induction text generalizing output with
  | nil => exact ⟨output, rfl, scans⟩
  | cons c text ih =>
    rw [List.mem_cons, not_or] at plain
    obtain ⟨later, rfl, copies⟩ := Scans.of_plain (Ne.symm plain.1) scans
    obtain ⟨rest, rfl, after⟩ := ih plain.2 copies
    exact ⟨rest, rfl, after⟩

/-- What a pattern is to become is no longer than what the scan writes, and if they
    are the same, the pattern is clean. -/
def Bounds (mdc : Bytes → Option Bytes) (pattern output : Bytes) : Prop :=
  (expand mdc pattern).length ≤ output.length ∧ (expand mdc pattern = output → Clean mdc pattern)

section Telling

variable {whole : Bytes}

theorem Telling.length_le (telling : Telling mdc whole) (known : mdc key = some value)
    (inside : value ⊆ whole) : value.length ≤ key.length := by
  rcases (telling key value known).2 with short | ⟨byte, member, absent⟩
  · exact short
  · exact absurd (inside member) absent

/-- A byte that is copied behind another sequence: it is copied rightly, or the value
    that is missing makes what is to be written shorter. -/
theorem Telling.copied (telling : Telling mdc whole) (inside : expand mdc (d :: pattern) ⊆ whole)
    (scans : Scans mdc pattern output)
    (bounds : ∀ {shorter rest}, shorter.length ≤ pattern.length → expand mdc shorter ⊆ whole →
      Scans mdc shorter rest → Bounds mdc shorter rest) :
    (expand mdc (d :: pattern)).length ≤ output.length + 1 ∧
      (expand mdc (d :: pattern) = d :: output → placeholder mdc (d :: pattern) = none ∧ Clean mdc pattern) := by
  cases found : placeholder mdc (d :: pattern) with
  | none =>
    rw [expand_copied found] at inside ⊢
    obtain ⟨shorter, clean⟩ := bounds (Nat.le_refl _) (List.cons_subset.mp inside).2 scans
    exact ⟨Nat.succ_le_succ shorter, fun same => ⟨rfl, clean (List.cons.inj same).2⟩⟩
  | some result =>
    obtain ⟨value, behind⟩ := result
    obtain ⟨key, -, known, same⟩ := placeholder_some found
    cases same
    rw [expand_replaced found] at inside ⊢
    rw [List.append_subset] at inside
    have valueLength := telling.length_le known inside.1
    have plain : percent ∉ bigX :: openBrace :: (key ++ [closeBrace]) := by
      simp [(telling key value known).1]
      decide
    have text : bigX :: openBrace :: (key ++ closeBrace :: behind) =
        bigX :: openBrace :: (key ++ [closeBrace]) ++ behind := by simp
    rw [text] at scans
    obtain ⟨rest, rfl, later⟩ := scans.of_append plain
    obtain ⟨restLength, -⟩ := bounds (by simp; omega) inside.2 later
    simp only [List.length_append, List.length_cons]
    refine ⟨by omega, fun same => ?_⟩
    have lengths := congrArg List.length same
    simp only [List.length_append, List.length_cons] at lengths
    omega

theorem Telling.bounds (telling : Telling mdc whole) (inside : expand mdc pattern ⊆ whole)
    (scans : Scans mdc pattern output) : Bounds mdc pattern output := by
  induction size : pattern.length using Nat.strongRecOn generalizing pattern output with
  | ind size ih =>
    subst size
    cases scans with
    | done => exact ⟨by simp, fun _ => .done⟩
    | plain c other scans =>
      rw [expand_plain other] at inside
      obtain ⟨shorter, clean⟩ := ih _ (by simp) (List.cons_subset.mp inside).2 scans rfl
      rw [Bounds, expand_plain other]
      exact ⟨Nat.succ_le_succ shorter, fun same => .plain c other (clean (List.cons.inj same).2)⟩
    | sequence d other scans =>
      rw [expand_sequence other] at inside
      obtain ⟨shorter, copied⟩ := telling.copied (List.cons_subset.mp inside).2 scans
        fun size inside scans => ih _ (by simp; omega) inside scans rfl
      rw [Bounds, expand_sequence other]
      refine ⟨Nat.succ_le_succ shorter, fun same => ?_⟩
      obtain ⟨absent, clean⟩ := copied (List.cons.inj same).2
      exact .sequence d other absent clean
    | bare e other scans =>
      rw [expand_bare other, List.cons_subset, List.cons_subset] at inside
      obtain ⟨shorter, copied⟩ := telling.copied inside.2.2 scans
        fun size inside scans => ih _ (by simp; omega) inside scans rfl
      rw [Bounds, expand_bare other]
      refine ⟨Nat.succ_le_succ (Nat.succ_le_succ shorter), fun same => ?_⟩
      obtain ⟨absent, clean⟩ := copied (List.cons.inj (List.cons.inj same).2).2
      exact .bare e other absent clean
    | unknown unknown scans =>
      rw [expand_unknown unknown, List.cons_subset, List.cons_subset, List.cons_subset] at inside
      obtain ⟨shorter, -⟩ := ih _ (by simp; omega) inside.2.2.2 scans rfl
      rw [Bounds, expand_unknown unknown]
      simp only [List.length_cons]
      refine ⟨by omega, fun same => ?_⟩
      -- what is written has a brace too many
      have lengths := congrArg List.length same
      simp only [List.length_cons] at lengths
      omega
    | known key value absent known scans =>
      rw [expand_known absent known, List.append_subset] at inside
      have valueLength := telling.length_le known inside.1
      obtain ⟨shorter, clean⟩ := ih _ (by simp; omega) inside.2 scans rfl
      rw [Bounds, expand_known absent known, List.length_append, List.length_append]
      refine ⟨by omega, fun same => ?_⟩
      have lengths := congrArg List.length same
      rw [List.length_append, List.length_append] at lengths
      obtain ⟨rfl, rest⟩ := List.append_inj same (by omega)
      exact .known value absent known (clean rest)

end Telling

/-! ## `create` -/

section Create

variable {Ptr : Type} {get : Bytes → Option (Logger Ptr)} {root : Option (Logger Ptr)} {name : Bytes}
  {base : Logger Ptr}

/-- `create` makes a logger with the pattern of `base` in which each `%X{key}` of a
    known key is replaced, and its scan stays inside of the pattern. -/
def Expands (base : Logger Ptr) (mdc : Bytes → Option Bytes) (created : Except LoggingFault (Logger Ptr)) : Prop :=
  ∃ logger, created = .ok logger ∧ logger.pattern = expand mdc base.pattern

theorem expands_iff_scan (selected : select get root name = some base) :
    Expands base mdc (create get root name mdc) ↔ scan mdc base.pattern = .ok (expand mdc base.pattern) := by
  rw [create, selected, Expands]
  cases scanned : scan mdc base.pattern with
  | error fault => simp [scanned, Except.map]
  | ok pattern => simp [scanned, Except.map]

/-- A clean pattern is expanded, and no other is, as far as one can tell from the
    replacements. -/
theorem create_expands (selected : select get root name = some base) :
    (Clean mdc base.pattern → Expands base mdc (create get root name mdc)) ∧
      (Telling mdc base.pattern → Expands base mdc (create get root name mdc) → Clean mdc base.pattern) := by
  rw [expands_iff_scan selected]
  refine ⟨Clean.scan, fun telling scanned => ?_⟩
  have scans := scans_of_scan scanned
  exact (telling.bounds scans.subset scans).2 rfl

/-- A known key, whose value is the key itself, and a sequence of spdlog. -/
theorem create_expands_level : ∃ base : Logger Nat, base.pattern = ascii "%X\x7buser\x7d%l" ∧
    Expands base (fun key => if key = ascii "user" then some (ascii "user") else none)
      (create (fun _ => some base) none (ascii "network")
        fun key => if key = ascii "user" then some (ascii "user") else none) := by
  refine ⟨⟨ascii "root", [], .info, ascii "%X\x7buser\x7d%l", .err⟩, rfl, ?_⟩
  refine (create_expands (by rw [select])).1 (.known (ascii "user") (by decide) (by decide) ?_)
  exact .sequence _ (by decide) (by decide) .done

/-- The value of `user` is to be written, and `user` is. -/
theorem writes_key : ¬ ∀ (base : Logger Nat) (mdc : Bytes → Option Bytes),
    Expands base mdc (create (fun _ => some base) none (ascii "root") mdc) := by
  intro always
  have expands := always ⟨ascii "root", [], .info, ascii "%X\x7buser\x7d", .err⟩
    fun key => if key = ascii "user" then some (ascii "bob") else none
  rw [expands_iff_scan (by rw [select])] at expands
  exact absurd expands (by decide +kernel)

end Create

/-- By chance the value makes up for the second brace, and for the key in its place. -/
example : scan (fun key => if key = ascii "a" then some (ascii "\x7ba") else none) (ascii "%X\x7b%X\x7ba\x7d\x7d") =
    .ok (expand (fun key => if key = ascii "a" then some (ascii "\x7ba") else none) (ascii "%X\x7b%X\x7ba\x7d\x7d")) := by
  decide +kernel

end Afina.Logging
