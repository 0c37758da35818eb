import TsSem02.Protocol.Fields

/-! # The lines the parser accepts

`Line` is the language of command lines.  `Tolerated` is what the parser
accepts (`accepts_iff_tolerated`): every command line (`Line.tolerated`), and
lines with bytes between and inside their fields that the parser passes over.
-/

namespace Afina.Protocol

open CInt Execute Protocol.Parser

/-- A call of `Parse` on `input` consumes all of it and reports a command. -/
def Accepts (parser : Parser) (input : Bytes) : Prop :=
  ∃ parser', parser.parse input = (parser', .returned input.length) ∧ parser'.parseComplete = true

theorem crlf_eq : crlf = [cr, lf] := by decide

/-! ## The languages -/

def Key (key : Bytes) : Prop := key ≠ [] ∧ space ∉ key ∧ cr ∉ key ∧ lf ∉ key

def Digits (field : Bytes) : Prop := field ≠ [] ∧ ∀ c ∈ field, isDigit c

/-- The number a string of digits denotes. -/
def decimalValue (field : Bytes) : Nat := field.foldl (fun number c => number * 10 + digit c) 0

def sign (negative : Bool) : Bytes := if negative then [minus] else []

inductive Line : Bytes → Prop
  | stats : Line (ascii "stats" ++ crlf)
  | retrieval (name : Bytes) (keys : List Bytes) : name ∈ retrievalNames → keys ≠ [] →
      (∀ key ∈ keys, Key key) → Line (name ++ (keys.flatMap (fun key => space :: key) ++ crlf))
  | storage (name key flags : Bytes) (negative : Bool) (exptime bytes : Bytes) :
      name ∈ storageNames → Key key → Digits flags → decimalValue flags < 2 ^ 32 →
      Digits exptime → -2 ^ 31 ≤ signed negative (decimalValue exptime) →
      signed negative (decimalValue exptime) < 2 ^ 31 →
      Digits bytes → decimalValue bytes < 2 ^ 32 →
      Line (name ++ space :: (key ++ space :: (flags ++ space :: (sign negative ++ (exptime ++
        space :: (bytes ++ crlf))))))

/-- The first byte of an expiration time and the ones behind it; the digits are
    added up. -/
def ToleratedTime (first : UInt8) (field : Bytes) : Prop :=
  first = minus ∧ digitSum field ≤ 2 ^ 31 ∨ isDigit first ∧ digit first + digitSum field < 2 ^ 31

/-- What the parser takes for a command line. -/
inductive Tolerated : Bytes → Prop
  | stats (separator : UInt8) : separator = space ∨ separator = cr →
      Tolerated (ascii "stats" ++ separator :: [lf])
  | retrieval (name : Bytes) (separator : UInt8) (keys : Bytes) : name ∈ retrievalNames →
      separator = space ∨ separator = cr → cr ∉ keys →
      Tolerated (name ++ separator :: (keys ++ crlf))
  | storage (name : Bytes) (separator : UInt8) (key flags skipped : Bytes) (first : UInt8)
      (exptime bytes : Bytes) : name ∈ storageNames → separator = space ∨ separator = cr →
      space ∉ key → space ∉ flags → NeverDrops 0 flags →
      (∀ c ∈ skipped, ¬ (c = minus ∨ isDigit c)) → space ∉ exptime → ToleratedTime first exptime →
      cr ∉ bytes → NeverDrops 0 bytes →
      Tolerated (name ++ separator :: (key ++ space :: (flags ++ space :: (skipped ++ first ::
        (exptime ++ space :: (bytes ++ crlf))))))

/-! ## Reaching the line feed -/

/-- After `body` the parser waits for the line feed. -/
def Reaches (parser : Parser) (body : Bytes) : Prop :=
  ∃ parser', parser.steps body = .ok parser' ∧ parser'.state = .sLF ∧ parser'.parseComplete = false

section Reaches

variable {parser : Parser}

theorem reaches_cons {c : UInt8} {body : Bytes} :
    Reaches parser (c :: body) ↔ ∃ next, parser.step c = .ok next ∧ Reaches next body := by
  constructor
  · rintro ⟨parser', ran, waits⟩
    obtain ⟨next, stepped, ranRest⟩ := steps_cons_ok.mp ran
    exact ⟨next, stepped, parser', ranRest, waits⟩
  · rintro ⟨next, stepped, parser', ranRest, waits⟩
    exact ⟨parser', steps_cons_ok.mpr ⟨next, stepped, ranRest⟩, waits⟩

theorem not_reaches_of_complete {body : Bytes} (complete : parser.parseComplete = true) :
    ¬ Reaches parser body := by
  induction body generalizing parser with
  | nil =>
    rintro ⟨parser', ran, _, incomplete⟩
    cases ran
    rw [complete] at incomplete
    cases incomplete
  | cons c body ih =>
    intro reaches
    obtain ⟨next, stepped, rest⟩ := reaches_cons.mp reaches
    exact ih (step_complete complete stepped) rest

theorem reaches_of_sLF (state : parser.state = .sLF) (incomplete : parser.parseComplete = false)
    {body : Bytes} : Reaches parser body ↔ body = [] := by
  cases body with
  | nil => exact iff_of_true ⟨parser, rfl, state, incomplete⟩ rfl
  | cons c body =>
    rw [reaches_cons]
    constructor
    · rintro ⟨next, stepped, rest⟩
      rw [step_sLF state] at stepped
      split at stepped
      · cases stepped
        exact absurd rest (not_reaches_of_complete rfl)
      · cases stepped
    · intro empty
      cases empty

theorem cons_eq_concat {c : UInt8} {input : Bytes} :
    (∃ body, c :: input = body ++ [lf] ∧ Reaches parser body) ↔
      (c = lf ∧ input = [] ∧ Reaches parser []) ∨
        ∃ body, input = body ++ [lf] ∧ Reaches parser (c :: body) := by
  constructor
  · rintro ⟨body, same, reaches⟩
    cases body with
    | nil =>
      simp only [List.nil_append, List.cons.injEq] at same
      exact .inl ⟨same.1, same.2, reaches⟩
    | cons first body =>
      simp only [List.cons_append, List.cons.injEq] at same
      obtain ⟨rfl, rfl⟩ := same
      exact .inr ⟨body, rfl, reaches⟩
  · intro either
    cases either with
    | inl last =>
      obtain ⟨rfl, rfl, reaches⟩ := last
      exact ⟨[], rfl, reaches⟩
    | inr inner =>
      obtain ⟨body, rfl, reaches⟩ := inner
      exact ⟨c :: body, rfl, reaches⟩

theorem parseFrom_accepts {input : Bytes} (pos : Nat) (incomplete : parser.parseComplete = false) :
    (∃ parser', parser.parseFrom pos input = (parser', .returned (pos + input.length)) ∧
      parser'.parseComplete = true) ↔ ∃ body, input = body ++ [lf] ∧ Reaches parser body := by
  induction input generalizing parser pos with
  | nil =>
    constructor
    · rintro ⟨parser', same, complete⟩
      cases same
      rw [incomplete] at complete
      cases complete
    · rintro ⟨body, same, _⟩
      simp at same
  | cons c input ih =>
    have waitsOnly : Reaches parser [] ↔ parser.state = .sLF := by
      constructor
      · rintro ⟨parser', ran, state, _⟩
        cases ran
        exact state
      · intro state
        exact ⟨parser, rfl, state, incomplete⟩
    rw [cons_eq_concat, waitsOnly]
    simp only [reaches_cons]
    cases stepped : parser.step c with
    | error error =>
      rw [parseFrom_cons_error incomplete stepped]
      constructor
      · rintro ⟨_, same, _⟩
        cases same
      · intro either
        cases either with
        | inl last =>
          obtain ⟨rfl, -, state⟩ := last
          rw [step_sLF state] at stepped
          cases stepped
        | inr inner =>
          obtain ⟨_, _, _, same, _⟩ := inner
          cases same
    | ok next =>
      have length : pos + (c :: input).length = pos + 1 + input.length := by
        rw [List.length_cons]
        omega
      rw [parseFrom_cons_ok incomplete stepped, length]
      cases complete : next.parseComplete with
      | false =>
        rw [ih (pos + 1) complete]
        constructor
        · rintro ⟨body, same, reaches⟩
          exact .inr ⟨body, same, next, rfl, reaches⟩
        · intro either
          cases either with
          | inl last =>
            obtain ⟨rfl, -, state⟩ := last
            rw [step_sLF state] at stepped
            cases stepped
            cases complete
          | inr inner =>
            obtain ⟨body, same, _, isNext, reaches⟩ := inner
            cases isNext
            exact ⟨body, same, reaches⟩
      | true =>
        have state : parser.state = .sLF := by
          by_contra other
          rw [step_incomplete other stepped, incomplete] at complete
          cases complete
        have isLf : c = lf := by
          rw [step_sLF state] at stepped
          split at stepped
          · assumption
          · cases stepped
        cases input with
        | nil => exact iff_of_true ⟨next, rfl, complete⟩ (.inl ⟨isLf, rfl, state⟩)
        | cons second input =>
          rw [parseFrom_complete complete]
          constructor
          · rintro ⟨_, same, _⟩
            simp at same
          · intro either
            cases either with
            | inl last => cases last.2.1
            | inr inner =>
              obtain ⟨body, _, _, isNext, reaches⟩ := inner
              cases isNext
              exact absurd reaches (not_reaches_of_complete complete)

theorem accepts_iff_reaches {input : Bytes} (incomplete : parser.parseComplete = false) :
    Accepts parser input ↔ ∃ body, input = body ++ [lf] ∧ Reaches parser body := by
  rw [← parseFrom_accepts 0 incomplete, Nat.zero_add]
  rfl

/-- A body is a field, the byte that ends it, and what the next state makes of
    the rest. -/
theorem reaches_iff {body : Bytes} (state : parser.state ≠ .sLF) :
    Reaches parser body ↔ ∃ field c rest middle next, body = field ++ c :: rest ∧
      (∀ inside ∈ field, ¬ stops parser.state inside) ∧ stops parser.state c ∧
      parser.steps field = .ok middle ∧ middle.step c = .ok next ∧ Reaches next rest := by
  induction body generalizing parser with
  | nil =>
    constructor
    · rintro ⟨parser', ran, waits, _⟩
      cases ran
      exact absurd waits state
    · rintro ⟨field, c, rest, _, _, same, _⟩
      simp at same
  | cons c body ih =>
    rw [reaches_cons]
    constructor
    · rintro ⟨next, stepped, reaches⟩
      by_cases ends : stops parser.state c
      · exact ⟨[], c, body, parser, next, rfl, by simp, ends, rfl, stepped, reaches⟩
      · -- the byte belongs to the field
        obtain ⟨stays, -⟩ := step_stays ends stepped
        obtain ⟨field, c', rest, middle, last, rfl, inside, ends', ran, stepped', reaches'⟩ :=
          (ih (by rw [stays]; exact state)).mp reaches
        rw [stays] at inside ends'
        refine ⟨c :: field, c', rest, middle, last, rfl, ?_, ends',
          steps_cons_ok.mpr ⟨next, stepped, ran⟩, stepped', reaches'⟩
        intro d member
        cases List.mem_cons.mp member with
        | inl first => rw [first]; exact ends
        | inr member => exact inside d member
    · rintro ⟨field, c', rest, middle, last, same, inside, ends, ran, stepped, reaches⟩
      cases field with
      | nil =>
        cases ran
        simp only [List.nil_append, List.cons.injEq] at same
        obtain ⟨rfl, rfl⟩ := same
        exact ⟨last, stepped, reaches⟩
      | cons first field =>
        simp only [List.cons_append, List.cons.injEq] at same
        obtain ⟨rfl, rfl⟩ := same
        obtain ⟨next, steppedFirst, ranRest⟩ := steps_cons_ok.mp ran
        obtain ⟨stays, -⟩ := step_stays (inside c List.mem_cons_self) steppedFirst
        refine ⟨next, steppedFirst, (ih (by rw [stays]; exact state)).mpr
          ⟨field, c', rest, middle, last, rfl, ?_, ?_, ranRest, stepped, reaches⟩⟩
        · rw [stays]
          exact fun d member => inside d (List.mem_cons_of_mem _ member)
        · rw [stays]
          exact ends

end Reaches

/-! ## State by state -/

section States

variable {parser : Parser} {body : Bytes}

theorem reaches_of_bytes (state : parser.state = .spBytes)
    (incomplete : parser.parseComplete = false) :
    Reaches parser body ↔
      ∃ bytes, body = bytes ++ [cr] ∧ cr ∉ bytes ∧ NeverDrops parser.bytes bytes := by
  rw [reaches_iff (by rw [state]; decide)]
  simp only [state, stops]
  constructor
  · rintro ⟨bytes, c, rest, middle, next, same, inside, isCr, ran, stepped, reaches⟩
    have noCr : cr ∉ bytes := fun member => inside cr member rfl
    obtain ⟨neverDrops, rfl⟩ := (steps_bytes state noCr).mp ran
    rw [isCr, @step_endBytes { parser with bytes := readNumber parser.bytes bytes } state] at stepped
    cases stepped
    have ended := (@reaches_of_sLF { parser with
      bytes := readNumber parser.bytes bytes, state := .sLF } rfl incomplete rest).mp reaches
    exact ⟨bytes, by rw [same, isCr, ended], noCr, neverDrops⟩
  · rintro ⟨bytes, same, noCr, neverDrops⟩
    exact ⟨bytes, cr, [], _, _, same, fun c member isCr => noCr (isCr ▸ member), rfl,
      (steps_bytes state noCr).mpr ⟨neverDrops, rfl⟩,
      @step_endBytes { parser with bytes := readNumber parser.bytes bytes } state,
      (@reaches_of_sLF { parser with
        bytes := readNumber parser.bytes bytes, state := .sLF } rfl incomplete []).mpr rfl⟩

theorem reaches_of_exprTime (state : parser.state = .spExprTime)
    (incomplete : parser.parseComplete = false)
    (range : TimeInRange parser.negative parser.exprtime) :
    Reaches parser body ↔ ∃ exptime bytes, body = exptime ++ space :: (bytes ++ [cr]) ∧
      space ∉ exptime ∧
      TimeInRange parser.negative (parser.exprtime + signed parser.negative (digitSum exptime)) ∧
      cr ∉ bytes ∧ NeverDrops parser.bytes bytes := by
  rw [reaches_iff (by rw [state]; decide)]
  simp only [state, stops]
  constructor
  · rintro ⟨exptime, c, rest, middle, next, same, inside, isSpace, ran, stepped, reaches⟩
    have noSpace : space ∉ exptime := fun member => inside space member rfl
    obtain ⟨rangeSum, rfl⟩ := (steps_exprTime state noSpace range).mp ran
    rw [isSpace, @step_endExprTime { parser with
      exprtime := parser.exprtime + signed parser.negative (digitSum exptime) } state] at stepped
    cases stepped
    obtain ⟨bytes, rfl, noCr, neverDrops⟩ := (@reaches_of_bytes { parser with
      exprtime := parser.exprtime + signed parser.negative (digitSum exptime)
      state := .spBytes } rest rfl incomplete).mp reaches
    exact ⟨exptime, bytes, by rw [same, isSpace], noSpace, rangeSum, noCr, neverDrops⟩
  · rintro ⟨exptime, bytes, same, noSpace, rangeSum, noCr, neverDrops⟩
    exact ⟨exptime, space, bytes ++ [cr], _, _, same,
      fun c member isSpace => noSpace (isSpace ▸ member), rfl,
      (steps_exprTime state noSpace range).mpr ⟨rangeSum, rfl⟩,
      @step_endExprTime { parser with
        exprtime := parser.exprtime + signed parser.negative (digitSum exptime) } state,
      (@reaches_of_bytes { parser with
        exprtime := parser.exprtime + signed parser.negative (digitSum exptime)
        state := .spBytes } _ rfl incomplete).mpr ⟨bytes, rfl, noCr, neverDrops⟩⟩

theorem reaches_of_exprTimeStart (state : parser.state = .spExprTimeStart)
    (incomplete : parser.parseComplete = false) (notNegative : parser.negative = false)
    (zero : parser.exprtime = 0) :
    Reaches parser body ↔ ∃ skipped first exptime bytes,
      body = skipped ++ first :: (exptime ++ space :: (bytes ++ [cr])) ∧
      (∀ c ∈ skipped, ¬ (c = minus ∨ isDigit c)) ∧ space ∉ exptime ∧ ToleratedTime first exptime ∧
      cr ∉ bytes ∧ NeverDrops parser.bytes bytes := by
  have afterMinus : ∀ rest, Reaches { parser with negative := true, state := .spExprTime } rest ↔
      ∃ exptime bytes, rest = exptime ++ space :: (bytes ++ [cr]) ∧ space ∉ exptime ∧
        digitSum exptime ≤ 2 ^ 31 ∧ cr ∉ bytes ∧ NeverDrops parser.bytes bytes := by
    intro rest
    rw [@reaches_of_exprTime { parser with negative := true, state := .spExprTime } rest rfl
      incomplete (by simp [TimeInRange, zero])]
    have range : ∀ field, TimeInRange true (parser.exprtime + signed true (digitSum field)) ↔
        digitSum field ≤ 2 ^ 31 := by
      intro field
      simp only [TimeInRange, signed, if_true, zero]
      omega
    simp only [range]
  have afterDigit : ∀ first rest, isDigit first →
      (Reaches { parser with exprtime := digit first, state := .spExprTime } rest ↔
        ∃ exptime bytes, rest = exptime ++ space :: (bytes ++ [cr]) ∧ space ∉ exptime ∧
          digit first + digitSum exptime < 2 ^ 31 ∧ cr ∉ bytes ∧
          NeverDrops parser.bytes bytes) := by
    intro first rest numeric
    have bound := digit_le numeric
    rw [@reaches_of_exprTime { parser with exprtime := digit first, state := .spExprTime } rest rfl
      incomplete (by
        simp only [TimeInRange, notNegative, Bool.false_eq_true, if_false]
        omega)]
    have range : ∀ field, TimeInRange parser.negative
        ((digit first : Int) + signed parser.negative (digitSum field)) ↔
        digit first + digitSum field < 2 ^ 31 := by
      intro field
      simp only [TimeInRange, signed, notNegative, Bool.false_eq_true, if_false]
      omega
    simp only [range]
  rw [reaches_iff (by rw [state]; decide)]
  simp only [state, stops]
  constructor
  · rintro ⟨skipped, first, rest, middle, next, same, inside, starts, ran, stepped, reaches⟩
    rw [steps_exprTimeStart state inside] at ran
    cases ran
    cases starts with
    | inl isMinus =>
      rw [isMinus, step_minus state] at stepped
      cases stepped
      obtain ⟨exptime, bytes, rfl, noSpace, sum, noCr, neverDrops⟩ := (afterMinus rest).mp reaches
      exact ⟨skipped, first, exptime, bytes, same, inside, noSpace, .inl ⟨isMinus, sum⟩, noCr, neverDrops⟩
    | inr numeric =>
      rw [step_firstDigit state numeric] at stepped
      cases stepped
      obtain ⟨exptime, bytes, rfl, noSpace, sum, noCr, neverDrops⟩ :=
        (afterDigit first rest numeric).mp reaches
      exact ⟨skipped, first, exptime, bytes, same, inside, noSpace, .inr ⟨numeric, sum⟩, noCr, neverDrops⟩
  · rintro ⟨skipped, first, exptime, bytes, same, inside, noSpace, time, noCr, neverDrops⟩
    have ran := steps_exprTimeStart state inside
    cases time with
    | inl negative =>
      obtain ⟨rfl, sum⟩ := negative
      exact ⟨skipped, minus, _, parser, _, same, inside, .inl rfl, ran, step_minus state,
        (afterMinus _).mpr ⟨exptime, bytes, rfl, noSpace, sum, noCr, neverDrops⟩⟩
    | inr positive =>
      obtain ⟨numeric, sum⟩ := positive
      exact ⟨skipped, first, _, parser, _, same, inside, .inr numeric, ran,
        step_firstDigit state numeric,
        (afterDigit first _ numeric).mpr ⟨exptime, bytes, rfl, noSpace, sum, noCr, neverDrops⟩⟩

/-- What may follow the flags of a storage line, up to its line feed. -/
def TimeAndBytes (body : Bytes) : Prop :=
  ∃ skipped first exptime bytes, body = skipped ++ first :: (exptime ++ space :: (bytes ++ [cr])) ∧
    (∀ c ∈ skipped, ¬ (c = minus ∨ isDigit c)) ∧ space ∉ exptime ∧ ToleratedTime first exptime ∧
    cr ∉ bytes ∧ NeverDrops 0 bytes

/-- What may follow the name of a storage line. -/
def Fields (body : Bytes) : Prop :=
  ∃ key flags rest, body = key ++ space :: (flags ++ space :: rest) ∧ space ∉ key ∧
    space ∉ flags ∧ NeverDrops 0 flags ∧ TimeAndBytes rest

theorem reaches_of_flags (state : parser.state = .spFlags)
    (incomplete : parser.parseComplete = false) (flags_eq : parser.flags = 0)
    (time_eq : parser.exprtime = 0) (bytes_eq : parser.bytes = 0) :
    Reaches parser body ↔ ∃ flags rest, body = flags ++ space :: rest ∧ space ∉ flags ∧
      NeverDrops 0 flags ∧ TimeAndBytes rest := by
  have afterSpace : ∀ flags rest, Reaches { parser with
      flags := readNumber parser.flags flags, negative := false, state := .spExprTimeStart } rest ↔
      TimeAndBytes rest := by
    intro flags rest
    rw [@reaches_of_exprTimeStart { parser with
      flags := readNumber parser.flags flags, negative := false, state := .spExprTimeStart } rest rfl
      incomplete rfl time_eq]
    simp only [bytes_eq, TimeAndBytes]
  rw [reaches_iff (by rw [state]; decide)]
  simp only [state, stops]
  constructor
  · rintro ⟨flags, c, rest, middle, next, same, inside, isSpace, ran, stepped, reaches⟩
    have noSpace : space ∉ flags := fun member => inside space member rfl
    obtain ⟨neverDrops, rfl⟩ := (steps_flags state noSpace).mp ran
    rw [isSpace, @step_endFlags { parser with flags := readNumber parser.flags flags } state] at stepped
    cases stepped
    exact ⟨flags, rest, by rw [same, isSpace], noSpace, flags_eq ▸ neverDrops,
      (afterSpace flags rest).mp reaches⟩
  · rintro ⟨flags, rest, same, noSpace, neverDrops, tail⟩
    exact ⟨flags, space, rest, _, _, same, fun c member isSpace => noSpace (isSpace ▸ member), rfl,
      (steps_flags state noSpace).mpr ⟨flags_eq.symm ▸ neverDrops, rfl⟩,
      @step_endFlags { parser with flags := readNumber parser.flags flags } state,
      (afterSpace flags rest).mpr tail⟩

theorem reaches_of_key (state : parser.state = .spKey) (incomplete : parser.parseComplete = false)
    (flags_eq : parser.flags = 0) (time_eq : parser.exprtime = 0) (bytes_eq : parser.bytes = 0) :
    Reaches parser body ↔ Fields body := by
  have afterSpace : ∀ key rest, Reaches { parser with
      curKey := parser.curKey ++ key, keys := parser.keys ++ [parser.curKey ++ key],
      state := .spFlags } rest ↔ ∃ flags tail, rest = flags ++ space :: tail ∧ space ∉ flags ∧
        NeverDrops 0 flags ∧ TimeAndBytes tail :=
    fun key rest => @reaches_of_flags { parser with
      curKey := parser.curKey ++ key, keys := parser.keys ++ [parser.curKey ++ key],
      state := .spFlags } rest rfl incomplete flags_eq time_eq bytes_eq
  rw [reaches_iff (by rw [state]; decide)]
  simp only [state, stops]
  constructor
  · rintro ⟨key, c, rest, middle, next, same, inside, isSpace, ran, stepped, reaches⟩
    have noSpace : space ∉ key := fun member => inside space member rfl
    rw [steps_key state noSpace] at ran
    cases ran
    rw [isSpace, @step_endKey { parser with curKey := parser.curKey ++ key } state] at stepped
    cases stepped
    obtain ⟨flags, tail, rfl, noSpaceFlags, neverDrops, tailOk⟩ := (afterSpace key rest).mp reaches
    exact ⟨key, flags, tail, by rw [same, isSpace], noSpace, noSpaceFlags, neverDrops, tailOk⟩
  · rintro ⟨key, flags, tail, same, noSpace, noSpaceFlags, neverDrops, tailOk⟩
    exact ⟨key, space, flags ++ space :: tail, _, _, same,
      fun c member isSpace => noSpace (isSpace ▸ member), rfl, steps_key state noSpace,
      @step_endKey { parser with curKey := parser.curKey ++ key } state,
      (afterSpace key _).mpr ⟨flags, tail, rfl, noSpaceFlags, neverDrops, tailOk⟩⟩

theorem reaches_of_sgKey (state : parser.state = .sgKey)
    (incomplete : parser.parseComplete = false) :
    Reaches parser body ↔ ∃ keys, body = keys ++ [cr] ∧ cr ∉ keys := by
  rw [reaches_iff (by rw [state]; decide)]
  simp only [state, stops]
  constructor
  · rintro ⟨field, c, rest, middle, next, same, inside, isCr, ran, stepped, reaches⟩
    have noCr : cr ∉ field := fun member => inside cr member rfl
    obtain ⟨keys, curKey, ran'⟩ := steps_sgKeys state noCr
    rw [ran'] at ran
    cases ran
    rw [isCr, @step_endSgKey { parser with keys := keys, curKey := curKey } state] at stepped
    cases stepped
    have ended := (@reaches_of_sLF { parser with
      keys := keys ++ [curKey], curKey := [], state := .sLF } rfl incomplete rest).mp reaches
    exact ⟨field, by rw [same, isCr, ended], noCr⟩
  · rintro ⟨field, same, noCr⟩
    obtain ⟨keys, curKey, ran⟩ := steps_sgKeys state noCr
    exact ⟨field, cr, [], _, _, same, fun c member isCr => noCr (isCr ▸ member), rfl, ran,
      @step_endSgKey { parser with keys := keys, curKey := curKey } state,
      (@reaches_of_sLF { parser with
        keys := keys ++ [curKey], curKey := [], state := .sLF } rfl incomplete []).mpr rfl⟩

theorem name_inside {name : Bytes}
    (known : name ∈ storageNames ∨ name ∈ retrievalNames ∨ name = ascii "stats") :
    ∀ c ∈ name, ¬ (c = space ∨ c = cr) := by
  have all : ∀ name ∈ storageNames ++ retrievalNames ++ [ascii "stats"],
      ∀ c ∈ name, ¬ (c = space ∨ c = cr) := by decide +kernel
  apply all
  simp only [List.mem_append, List.mem_singleton, or_assoc]
  exact known

theorem retrieval_not_storage {name : Bytes} (retrieval : name ∈ retrievalNames) :
    name ∉ storageNames := by
  have all : ∀ name ∈ retrievalNames, name ∉ storageNames := by decide
  exact all name retrieval

theorem reaches_of_name (state : parser.state = .sName) (incomplete : parser.parseComplete = false)
    (name_eq : parser.name = []) (flags_eq : parser.flags = 0) (time_eq : parser.exprtime = 0)
    (bytes_eq : parser.bytes = 0) :
    Reaches parser body ↔ ∃ name c rest, body = name ++ c :: rest ∧ (c = space ∨ c = cr) ∧
      (name ∈ storageNames ∧ Fields rest ∨
        name ∈ retrievalNames ∧ (∃ keys, rest = keys ++ [cr] ∧ cr ∉ keys) ∨
        name = ascii "stats" ∧ rest = []) := by
  have afterStorage : ∀ name rest, Reaches { parser with name := name, state := .spKey } rest ↔
      Fields rest :=
    fun name rest => @reaches_of_key { parser with name := name, state := .spKey } rest rfl incomplete
      flags_eq time_eq bytes_eq
  have afterRetrieval : ∀ name rest, Reaches { parser with name := name, state := .sgKey } rest ↔
      ∃ keys, rest = keys ++ [cr] ∧ cr ∉ keys :=
    fun name rest => @reaches_of_sgKey { parser with name := name, state := .sgKey } rest rfl incomplete
  have afterStats : ∀ name rest, Reaches { parser with name := name, state := .sLF } rest ↔
      rest = [] :=
    fun name rest => @reaches_of_sLF { parser with name := name, state := .sLF } rfl incomplete rest
  have named : ∀ name, (∀ c ∈ name, ¬ (c = space ∨ c = cr)) →
      parser.steps name = .ok { parser with name := name } := by
    intro name inside
    rw [steps_name state inside, name_eq, List.nil_append]
  rw [reaches_iff (by rw [state]; decide)]
  simp only [state, stops]
  constructor
  · rintro ⟨name, c, rest, middle, next, same, inside, ends, ran, stepped, reaches⟩
    rw [named name inside] at ran
    cases ran
    rw [@step_endName { parser with name := name } c state ends] at stepped
    refine ⟨name, c, rest, same, ends, ?_⟩
    split at stepped
    · rename_i storage
      cases stepped
      exact .inl ⟨storage, (afterStorage name rest).mp reaches⟩
    · split at stepped
      · rename_i retrieval
        cases stepped
        exact .inr (.inl ⟨retrieval, (afterRetrieval name rest).mp reaches⟩)
      · split at stepped
        · rename_i stats
          cases stepped
          exact .inr (.inr ⟨stats, (afterStats name rest).mp reaches⟩)
        · cases stepped
  · rintro ⟨name, c, rest, same, ends, kind⟩
    have known : name ∈ storageNames ∨ name ∈ retrievalNames ∨ name = ascii "stats" :=
      kind.imp And.left (Or.imp And.left And.left)
    have inside := name_inside known
    have stepped := @step_endName { parser with name := name } c state ends
    cases kind with
    | inl storage =>
      obtain ⟨storage, fields⟩ := storage
      rw [if_pos storage] at stepped
      exact ⟨name, c, rest, _, _, same, inside, ends, named name inside, stepped,
        (afterStorage name rest).mpr fields⟩
    | inr others =>
      cases others with
      | inl retrieval =>
        obtain ⟨retrieval, keys⟩ := retrieval
        rw [if_neg (retrieval_not_storage retrieval), if_pos retrieval] at stepped
        exact ⟨name, c, rest, _, _, same, inside, ends, named name inside, stepped,
          (afterRetrieval name rest).mpr keys⟩
      | inr stats =>
        obtain ⟨rfl, ended⟩ := stats
        have notStorage : ascii "stats" ∉ storageNames := by decide
        have notRetrieval : ascii "stats" ∉ retrievalNames := by decide
        rw [if_neg notStorage, if_neg notRetrieval, if_pos rfl] at stepped
        exact ⟨ascii "stats", c, rest, _, _, same, inside, ends, named _ inside, stepped,
          (afterStats _ rest).mpr ended⟩

end States

/-! ## The whole line -/

/-- A freshly reset parser accepts exactly the tolerated lines. -/
theorem accepts_iff_tolerated (parser : Parser) (w : Bytes) :
    Accepts parser.reset w ↔ Tolerated w := by
  have reaches := fun body => @reaches_of_name parser.reset body rfl rfl rfl rfl rfl rfl
  rw [accepts_iff_reaches rfl]
  simp only [reaches]
  constructor
  · rintro ⟨body, same, name, c, rest, bodyEq, separator, kind⟩
    subst same bodyEq
    cases kind with
    | inl storage =>
      obtain ⟨storage, key, flags, _, rfl, noSpace, noSpaceFlags, neverDrops, skipped, first, exptime,
        bytes, rfl, skips, noSpaceTime, time, noCr, neverDropsBytes⟩ := storage
      have line := Tolerated.storage name c key flags skipped first exptime bytes storage separator
        noSpace noSpaceFlags neverDrops skips noSpaceTime time noCr neverDropsBytes
      simpa [crlf_eq] using line
    | inr others =>
      cases others with
      | inl retrieval =>
        obtain ⟨retrieval, keys, rfl, noCr⟩ := retrieval
        have line := Tolerated.retrieval name c keys retrieval separator noCr
        simpa [crlf_eq] using line
      | inr stats =>
        obtain ⟨rfl, rfl⟩ := stats
        have line := Tolerated.stats c separator
        simpa using line
  · intro tolerated
    cases tolerated with
    | stats separator ends =>
      exact ⟨ascii "stats" ++ [separator], by simp, _, separator, [], rfl, ends, .inr (.inr ⟨rfl, rfl⟩)⟩
    | retrieval name separator keys retrieval ends noCr =>
      exact ⟨name ++ separator :: (keys ++ [cr]), by simp [crlf_eq], name, separator, keys ++ [cr], rfl,
        ends, .inr (.inl ⟨retrieval, keys, rfl, noCr⟩)⟩
    | storage name separator key flags skipped first exptime bytes storage ends noSpace noSpaceFlags
        neverDrops skips noSpaceTime time noCr neverDropsBytes =>
      exact ⟨name ++ separator :: (key ++ space :: (flags ++ space :: (skipped ++ first :: (exptime ++
          space :: (bytes ++ [cr]))))), by simp [crlf_eq], name, separator, _, rfl, ends,
        .inl ⟨storage, key, flags, _, rfl, noSpace, noSpaceFlags, neverDrops, skipped, first, exptime,
          bytes, rfl, skips, noSpaceTime, time, noCr, neverDropsBytes⟩⟩

/-! ## Command lines are tolerated -/

/-- The number read so far is at most the number in the end. -/
theorem le_decimalFold (number : Nat) (field : Bytes) :
    number + digitSum field ≤ field.foldl (fun number c => number * 10 + digit c) number := by
  induction field generalizing number with
  | nil => exact Nat.le_refl _
  | cons c field ih =>
    have rest := ih (number * 10 + digit c)
    rw [List.foldl_cons]
    by_cases numeric : isDigit c
    · rw [digitSum_digit numeric]
      omega
    · rw [digitSum_other numeric]
      omega

theorem neverDrops_of_lt {number : Nat} {field : Bytes} (digits : ∀ c ∈ field, isDigit c)
    (bound : field.foldl (fun number c => number * 10 + digit c) number < 2 ^ 32) :
    NeverDrops number field ∧
      readNumber number field = field.foldl (fun number c => number * 10 + digit c) number := by
  induction field generalizing number with
  | nil => exact ⟨trivial, rfl⟩
  | cons c field ih =>
    have numeric := digits c List.mem_cons_self
    have fits : number * 10 + digit c < 2 ^ 32 := by
      have grows := le_decimalFold (number * 10 + digit c) field
      rw [List.foldl_cons] at bound
      omega
    have shifted : shiftIn number c = number * 10 + digit c := toUnsigned_natCast fits
    have rest := ih (fun d member => digits d (List.mem_cons_of_mem _ member)) bound
    rw [neverDrops_digit numeric, readNumber_digit numeric, shifted, List.foldl_cons]
    exact ⟨⟨by omega, rest.1⟩, rest.2⟩

theorem Digits.inside {field : Bytes} {c : UInt8} (digits : Digits field) (other : ¬ isDigit c) :
    c ∉ field := fun member => other (digits.2 c member)

theorem digitSum_le_decimalValue (field : Bytes) : digitSum field ≤ decimalValue field := by
  have grows := le_decimalFold 0 field
  rw [Nat.zero_add] at grows
  exact grows

theorem Line.tolerated {w : Bytes} (line : Line w) : Tolerated w := by
  cases line with
  | stats => exact Tolerated.stats cr (.inr rfl)
  | retrieval name keys retrieval nonempty valid =>
    cases keys with
    | nil => exact absurd rfl nonempty
    | cons key keys =>
      have noCr : cr ∉ key ++ keys.flatMap fun key => space :: key := by
        intro member
        rcases List.mem_append.mp member with member | member
        · exact (valid key List.mem_cons_self).2.2.1 member
        · obtain ⟨other, listed, member⟩ := List.mem_flatMap.mp member
          rcases List.mem_cons.mp member with isSpace | member
          · cases isSpace
          · exact (valid other (List.mem_cons_of_mem _ listed)).2.2.1 member
      have tolerated := Tolerated.retrieval name space _ retrieval (.inl rfl) noCr
      simpa using tolerated
  | storage name key flags negative exptime bytes storage valid flagDigits flagBound timeDigits lower
      upper byteDigits byteBound =>
    have sum := digitSum_le_decimalValue exptime
    have noSpaceTime : space ∉ exptime := timeDigits.inside (by decide)
    have neverDrops := (neverDrops_of_lt flagDigits.2 flagBound).1
    have neverDropsBytes := (neverDrops_of_lt byteDigits.2 byteBound).1
    cases negative with
    | true =>
      simp only [signed, if_true] at lower
      exact Tolerated.storage name space key flags [] minus exptime bytes storage (.inl rfl) valid.2.1
        (flagDigits.inside (by decide)) neverDrops (by simp) noSpaceTime (.inl ⟨rfl, by omega⟩)
        (byteDigits.inside (by decide)) neverDropsBytes
    | false =>
      simp only [signed, Bool.false_eq_true, if_false] at upper
      cases exptime with
      | nil => exact absurd rfl timeDigits.1
      | cons first exptime =>
        have numeric := timeDigits.2 first List.mem_cons_self
        rw [digitSum_digit numeric] at sum
        exact Tolerated.storage name space key flags [] first exptime bytes storage (.inl rfl)
          valid.2.1 (flagDigits.inside (by decide)) neverDrops (by simp)
          (fun member => noSpaceTime (List.mem_cons_of_mem _ member)) (.inr ⟨numeric, by omega⟩)
          (byteDigits.inside (by decide)) neverDropsBytes

/-- The parser is right about a byte string exactly when the string is not a
    malformed line that it tolerates. -/
theorem accepts_iff_line_iff (parser : Parser) (w : Bytes) :
    (Accepts parser.reset w ↔ Line w) ↔ ¬ (Tolerated w ∧ ¬ Line w) := by
  rw [accepts_iff_tolerated]
  constructor
  · intro same ⟨tolerated, malformed⟩
    exact malformed (same.mp tolerated)
  · intro notTolerated
    refine ⟨fun tolerated => ?_, Line.tolerated⟩
    by_contra malformed
    exact notTolerated ⟨tolerated, malformed⟩

/-- No command line starts with `get` and a line break. -/
theorem Line.take_ne {w : Bytes} (line : Line w) : w.take 4 ≠ ascii "get\r" := by
  have named : ∀ name ∈ storageNames ++ retrievalNames, ∀ rest : Bytes,
      (name ++ space :: rest).take 4 ≠ ascii "get\r" := by
    have all : ∀ name ∈ storageNames ++ retrievalNames,
        4 ≤ (name ++ [space]).length ∧ (name ++ [space]).take 4 ≠ ascii "get\r" := by decide
    intro name member rest
    obtain ⟨long, other⟩ := all name member
    rw [List.append_cons, List.take_append_of_le_length long]
    exact other
  cases line with
  | stats => decide
  | retrieval name keys retrieval nonempty valid =>
    cases keys with
    | nil => exact absurd rfl nonempty
    | cons key keys => exact named name (List.mem_append_right _ retrieval) _
  | storage name key flags negative exptime bytes storage =>
    exact named name (List.mem_append_left _ storage) _

/-- A `get` without a key takes the following line for its keys. -/
theorem accepts_two_lines : ¬ ∀ (parser : Parser) (w : Bytes), Accepts parser.reset w ↔ Line w := by
  intro always
  have accepted := always ⟨.sCR, [], [], 0, 0, 0, false, [], false⟩ (ascii "get\r\nget k\r\n")
  exact (accepted.mp ⟨_, rfl, rfl⟩).take_ne (by decide)

end Afina.Protocol
