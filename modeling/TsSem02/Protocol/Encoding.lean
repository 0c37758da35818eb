import TsSem02.Protocol.Acceptance

/-! # Requests on the wire

A client writes a request as a command line, and behind the line of a storage
command its data block.  What the parser has gathered at the end of such a line
is what the request says, but for the expiration time, of which it has the sum
of the digits.
-/

namespace Afina.Protocol

open CInt Execute Protocol.Parser

/-! ## Decimal numbers -/

section Decimal

theorem toUInt8_of_isDigit {c : Char} (numeric : c.isDigit) :
    c.toUInt8.toNat = c.toNat ∧ 48 ≤ c.toNat ∧ c.toNat ≤ 57 := by
  have bounds : 48 ≤ c.toNat ∧ c.toNat ≤ 57 := by
    simp only [Char.isDigit, Bool.and_eq_true, decide_eq_true_eq] at numeric
    exact ⟨numeric.1, numeric.2⟩
  refine ⟨?_, bounds⟩
  show c.toNat % 256 = c.toNat
  omega

theorem decimal_eq (n : Nat) : decimal n = (Nat.toDigits 10 n).map Char.toUInt8 := by
  simp [decimal, ascii]

theorem decimal_digits (n : Nat) : Digits (decimal n) := by
  rw [decimal_eq]
  constructor
  · simp [Nat.toDigits_ne_nil]
  · intro c member
    obtain ⟨char, listed, rfl⟩ := List.mem_map.mp member
    obtain ⟨same, lower, upper⟩ := toUInt8_of_isDigit
      (Nat.isDigit_of_mem_toDigits (by decide) (by decide) listed)
    simp only [isDigit, Bool.and_eq_true, decide_eq_true_eq, UInt8.le_iff_toNat_le, same]
    exact ⟨lower, upper⟩

theorem decimalValue_decimal (n : Nat) : decimalValue (decimal n) = n := by
  have sameFold : ∀ (chars : List Char) (number : Nat), (∀ char ∈ chars, char.isDigit) →
      (chars.map Char.toUInt8).foldl (fun number c => number * 10 + digit c) number =
        Nat.ofDigitChars 10 chars number := by
    intro chars
    induction chars with
    | nil => intro number _; rfl
    | cons char chars ih =>
      intro number numeric
      have same := (toUInt8_of_isDigit (numeric char List.mem_cons_self)).1
      have rest := ih (number * 10 + digit char.toUInt8)
        fun char member => numeric char (List.mem_cons_of_mem _ member)
      rw [List.map_cons, List.foldl_cons, rest, Nat.ofDigitChars_cons, digit, same, Nat.mul_comm]
      rfl
  rw [decimal_eq, decimalValue, sameFold]
  · exact Nat.ofDigitChars_ten_toDigits
  · intro char listed
    exact Nat.isDigit_of_mem_toDigits (by decide) (by decide) listed

theorem decimal_inj {m n : Nat} (same : decimal m = decimal n) : m = n := by
  rw [← decimalValue_decimal m, same, decimalValue_decimal]

theorem signedDecimal_eq (n : Int) :
    signedDecimal n = sign (decide (n < 0)) ++ decimal n.natAbs := by
  simp only [signedDecimal, sign]
  by_cases negative : n < 0
  · rw [if_pos negative, decide_eq_true negative]
    rfl
  · rw [if_neg negative, decide_eq_false negative]
    rfl

theorem digitSum_append (left right : Bytes) :
    digitSum (left ++ right) = digitSum left + digitSum right := by
  simp [digitSum]

theorem digitSum_decimal_le (n : Nat) : digitSum (decimal n) ≤ n := by
  have atMost := digitSum_le_decimalValue (decimal n)
  rw [decimalValue_decimal] at atMost
  exact atMost

/-- Adding up digits is reading a number only if there is just one of them. -/
theorem digitSum_decimal_iff (n : Nat) : digitSum (decimal n) = n ↔ n ≤ 9 := by
  constructor
  · intro same
    by_contra large
    have twoParts : decimal n = decimal (n / 10) ++ decimal (n % 10) := by
      rw [decimal_eq, decimal_eq, decimal_eq, ← List.map_append,
        Nat.toDigits_append_toDigits (by decide) (by omega) (by omega), Nat.div_add_mod]
    rw [twoParts, digitSum_append] at same
    have front := digitSum_decimal_le (n / 10)
    have back := digitSum_decimal_le (n % 10)
    omega
  · have small : ∀ n ≤ 9, digitSum (decimal n) = n := by decide
    exact small n

theorem readNumber_decimal {n : Nat} (bound : n < 2 ^ 32) :
    NeverDrops 0 (decimal n) ∧ readNumber 0 (decimal n) = n := by
  have value := decimalValue_decimal n
  have fits : decimalValue (decimal n) < 2 ^ 32 := by rw [value]; exact bound
  have reads := neverDrops_of_lt (decimal_digits n).2 fits
  rw [← decimalValue, value] at reads
  exact reads

theorem shiftIn_eq (number : Nat) (c : UInt8) : shiftIn number c = (number * 10 + digit c) % 2 ^ 32 := by
  have cast : ((2 ^ 32 : Nat) : Int) = 2 ^ 32 := by decide
  simp only [shiftIn, toUnsigned]
  omega

/-- A longer number is read modulo `2 ^ 32`. -/
theorem readNumber_eq {field : Bytes} (digits : ∀ c ∈ field, isDigit c) :
    readNumber 0 field = decimalValue field % 2 ^ 32 := by
  have wraps : ∀ (field : Bytes) (number : Nat), (∀ c ∈ field, isDigit c) →
      readNumber (number % 2 ^ 32) field =
        field.foldl (fun number c => number * 10 + digit c) number % 2 ^ 32 := by
    intro field
    induction field with
    | nil => intro number _; rfl
    | cons c field ih =>
      intro number digits
      have next : shiftIn (number % 2 ^ 32) c = (number * 10 + digit c) % 2 ^ 32 := by
        rw [shiftIn_eq]
        omega
      rw [readNumber_digit (digits c List.mem_cons_self), next, List.foldl_cons]
      exact ih (number * 10 + digit c) fun d member => digits d (List.mem_cons_of_mem _ member)
  exact wraps field 0 digits

theorem readNumber_decimal_eq (n : Nat) : readNumber 0 (decimal n) = n % 2 ^ 32 := by
  rw [readNumber_eq (decimal_digits n).2, decimalValue_decimal]

end Decimal

/-! ## Storage lines -/

/-- The commands with a data block that `Build` knows. -/
inductive Verb where
  | set
  | add
  | append
deriving DecidableEq, Repr

def Verb.name : Verb → Bytes
  | set => ascii "set"
  | add => ascii "add"
  | append => ascii "append"

def Verb.command : Verb → InsertCommand → Command
  | set => .set
  | add => .add
  | append => .append

/-- The line of a storage command, field by field as it is written.  What is
    written in the numeric fields is digits, but maybe too many of them. -/
structure StorageLine where
  verb : Verb
  key : Bytes
  flags : Bytes
  negative : Bool
  exptime : Bytes
  bytes : Bytes
  noSpace : space ∉ key
  flagsDigits : Digits flags
  exptimeDigits : Digits exptime
  bytesDigits : Digits bytes

section Steps

variable {parser middle next : Parser} {c : UInt8} {left right : Bytes}

theorem steps_then (ran : parser.steps left = .ok middle) :
    parser.steps (left ++ right) = middle.steps right := by
  simp only [steps, List.foldlM_append]
  rw [show left.foldlM step parser = .ok middle from ran]
  rfl

theorem step_then (stepped : parser.step c = .ok next) : parser.steps (c :: right) = next.steps right := by
  rw [steps_cons, stepped]
  rfl

end Steps

namespace StorageLine

def body (line : StorageLine) : Bytes :=
  line.verb.name ++ space :: (line.key ++ space :: (line.flags ++ space ::
    (sign line.negative ++ (line.exptime ++ space :: (line.bytes ++ [cr])))))

/-- No overflow check of the parser fails. -/
def Passes (line : StorageLine) : Prop :=
  NeverDrops 0 line.flags ∧ TimeInRange line.negative (signed line.negative (digitSum line.exptime)) ∧
    NeverDrops 0 line.bytes

/-! The parser at the beginning of each numeric field, and at the end. -/

def atFlags (line : StorageLine) (negative : Bool) : Parser :=
  { state := .spFlags
    name := line.verb.name
    keys := [line.key]
    flags := 0
    exprtime := 0
    bytes := 0
    negative := negative
    curKey := line.key
    parseComplete := false }

def atTime (line : StorageLine) : Parser :=
  { line.atFlags false with state := .spExprTimeStart, flags := readNumber 0 line.flags }

def atBytes (line : StorageLine) : Parser :=
  { line.atTime with
    state := .spBytes
    negative := line.negative
    exprtime := signed line.negative (digitSum line.exptime) }

def gathered (line : StorageLine) : Parser :=
  { line.atBytes with state := .sLF, bytes := readNumber 0 line.bytes }

variable {line : StorageLine} {parser parser' : Parser}

theorem steps_toFlags (line : StorageLine) (parser : Parser) :
    parser.reset.steps (line.verb.name ++ space :: (line.key ++ [space])) =
      .ok (line.atFlags parser.negative) := by
  have storage : line.verb.name ∈ storageNames := by cases line.verb <;> decide
  have inside : ∀ c ∈ line.verb.name, ¬ (c = space ∨ c = cr) := by cases line.verb <;> decide +kernel
  have named : parser.reset.steps line.verb.name = .ok { parser.reset with name := line.verb.name } :=
    steps_name rfl inside
  have afterName : Parser.step { parser.reset with name := line.verb.name } space =
      .ok { parser.reset with name := line.verb.name, state := .spKey } := by
    rw [step_endName rfl (.inl rfl), if_pos storage]
  rw [steps_then named, step_then afterName, steps_then (steps_key rfl line.noSpace),
    step_then (step_endKey rfl)]
  rfl

theorem steps_flagsField (line : StorageLine) (negative : Bool) :
    (line.atFlags negative).steps line.flags = .ok parser' ↔ NeverDrops 0 line.flags ∧
      parser' = { line.atFlags negative with flags := readNumber 0 line.flags } :=
  steps_flags rfl (line.flagsDigits.inside (by decide))

/-- The sign or the first digit opens the expiration time, and the digits that
    are left decide. -/
theorem steps_timeField (line : StorageLine) : ∃ front field middle,
    sign line.negative ++ line.exptime = front ++ field ∧ line.atTime.steps front = .ok middle ∧
      middle.state = .spExprTime ∧ middle.parseComplete = false ∧ space ∉ field ∧
      ∀ parser', middle.steps field = .ok parser' ↔
        TimeInRange line.negative (signed line.negative (digitSum line.exptime)) ∧
          parser' = { line.atBytes with state := .spExprTime } := by
  have digits := line.exptimeDigits
  cases negative : line.negative with
  | true =>
    have ran := fun parser' => @steps_exprTime { line.atTime with negative := true, state := .spExprTime }
      parser' line.exptime rfl (digits.inside (by decide)) (by simp [TimeInRange, atTime, atFlags])
    refine ⟨[minus], line.exptime, _, rfl, step_then (step_minus rfl), rfl, rfl,
      digits.inside (by decide), fun parser' => (ran parser').trans ?_⟩
    simp only [atBytes, negative, atTime, atFlags, Int.zero_add]
  | false =>
    -- without a sign the first digit opens the field, and is not added to what was there
    obtain ⟨first, more, split⟩ := List.exists_cons_of_ne_nil digits.1
    rw [split] at digits
    have numeric := digits.2 first List.mem_cons_self
    have noSpace : space ∉ more :=
      fun member => digits.inside (by decide) (List.mem_cons_of_mem first member)
    have initially : TimeInRange false (digit first) := by
      have small := digit_le numeric
      simp only [TimeInRange, Bool.false_eq_true, if_false]
      omega
    have ran := fun parser' => @steps_exprTime
      { line.atTime with exprtime := digit first, state := .spExprTime } parser' more rfl noSpace initially
    refine ⟨[first], more, _, by rw [split]; rfl, step_then (step_firstDigit rfl numeric), rfl, rfl,
      noSpace, fun parser' => (ran parser').trans ?_⟩
    rw [split, digitSum_digit numeric, signed_add]
    simp only [atBytes, negative, split, digitSum_digit numeric, signed_add, atTime, atFlags]
    rfl

theorem steps_bytesField (line : StorageLine) : line.atBytes.steps line.bytes = .ok parser' ↔
    NeverDrops 0 line.bytes ∧ parser' = { line.atBytes with bytes := readNumber 0 line.bytes } :=
  steps_bytes rfl (line.bytesDigits.inside (by decide))

/-- A storage line ends well unless one of its numbers is refused. -/
theorem steps_body : parser.reset.steps line.body = .ok parser' ↔ line.Passes ∧ parser' = line.gathered := by
  obtain ⟨front, field, middle, split, toField, _, _, _, timeField⟩ := line.steps_timeField
  have cut : line.body = (line.verb.name ++ space :: (line.key ++ [space])) ++ (line.flags ++ (space ::
      (front ++ (field ++ (space :: (line.bytes ++ [cr])))))) := by
    rw [← List.append_assoc front, ← split]
    simp [body]
  have afterFlags : Parser.step { line.atFlags parser.negative with flags := readNumber 0 line.flags }
      space = .ok line.atTime := step_endFlags rfl
  have afterTime : Parser.step { line.atBytes with state := .spExprTime } space = .ok line.atBytes :=
    step_endExprTime rfl
  have afterBytes : Parser.step { line.atBytes with bytes := readNumber 0 line.bytes } cr =
      .ok line.gathered := step_endBytes rfl
  rw [cut, steps_then (steps_toFlags line parser), steps_append_ok]
  simp only [steps_flagsField]
  constructor
  · rintro ⟨_, ⟨flags, rfl⟩, ran⟩
    rw [step_then afterFlags, steps_then toField] at ran
    obtain ⟨_, ranTime, ran⟩ := steps_append_ok.mp ran
    obtain ⟨time, rfl⟩ := (timeField _).mp ranTime
    rw [step_then afterTime] at ran
    obtain ⟨_, ranBytes, ran⟩ := steps_append_ok.mp ran
    obtain ⟨bytes, rfl⟩ := line.steps_bytesField.mp ranBytes
    rw [step_then afterBytes] at ran
    cases ran
    exact ⟨⟨flags, time, bytes⟩, rfl⟩
  · rintro ⟨⟨flags, time, bytes⟩, rfl⟩
    refine ⟨_, ⟨flags, rfl⟩, ?_⟩
    rw [step_then afterFlags, steps_then toField, steps_then ((timeField _).mpr ⟨time, rfl⟩),
      step_then afterTime, steps_then (line.steps_bytesField.mpr ⟨bytes, rfl⟩), step_then afterBytes]
    rfl

end StorageLine

/-! ## Requests -/

/-- The sum of the digits of a number, with its sign. -/
def digitTime (n : Int) : Int := signed (decide (n < 0)) (digitSum (decimal n.natAbs))

theorem digitTime_eq_iff (n : Int) : digitTime n = n ↔ -9 ≤ n ∧ n ≤ 9 := by
  have sum := digitSum_decimal_iff n.natAbs
  rw [digitTime]
  by_cases negative : n < 0
  · rw [decide_eq_true negative, signed, if_pos rfl]
    omega
  · rw [decide_eq_false negative, signed, if_neg Bool.false_ne_true]
    omega

inductive Request where
  | storage (verb : Verb) (fields : InsertCommand) (block : Bytes)
  | get (keys : List Bytes)
  | stats
deriving DecidableEq, Repr

namespace Request

def body : Request → Bytes
  | storage verb fields block => verb.name ++ space :: (fields.key ++ space :: (decimal fields.flags ++
      space :: (signedDecimal fields.expire ++ space :: (decimal block.length ++ [cr]))))
  | get keys => ascii "get" ++ (keys.flatMap (fun key => space :: key) ++ [cr])
  | stats => ascii "stats" ++ [cr]

def data : Request → Bytes
  | storage _ _ block => block ++ crlf
  | _ => []

def encode (request : Request) : Bytes := request.body ++ lf :: request.data

def command : Request → Command
  | storage verb fields _ => verb.command fields
  | get keys => .get keys
  | stats => .stats

/-- The command the parser makes of it. -/
def parsed : Request → Command
  | storage verb fields _ => verb.command { fields with expire := digitTime fields.expire }
  | get keys => .get keys
  | stats => .stats

/-- The number of bytes the parser takes the data block to have. -/
def announced : Request → Nat
  | storage _ _ block => readNumber 0 (decimal block.length)
  | _ => 0

/-- The number of bytes the connection then waits for. -/
def awaited (request : Request) : Nat :=
  if request.announced > 0 then request.announced + 2 else request.announced

/-- The length of the data block gets past the overflow check. -/
def Readable : Request → Prop
  | storage _ _ block => NeverDrops 0 (decimal block.length)
  | _ => True

/-- What a client may ask for. -/
def WellFormed : Request → Prop
  | storage _ fields _ => Key fields.key ∧ fields.flags < 2 ^ 32 ∧
      -2 ^ 31 ≤ fields.expire ∧ fields.expire < 2 ^ 31
  | get keys => keys ≠ [] ∧ ∀ key ∈ keys, Key key
  | stats => True

theorem lf_not_mem_body {request : Request} (wellFormed : request.WellFormed) : lf ∉ request.body := by
  -- only what the client chooses could hold a line feed, and keys do not
  have decimals : ∀ n, lf ∉ decimal n := fun n => (decimal_digits n).inside (by decide)
  have signs : ∀ n, lf ∉ signedDecimal n := by
    intro n member
    rw [signedDecimal_eq] at member
    cases List.mem_append.mp member with
    | inl inSign =>
      have noLf : ∀ negative, lf ∉ sign negative := by decide
      exact noLf _ inSign
    | inr inDigits => exact decimals _ inDigits
  cases request with
  | storage verb fields block =>
    have named : lf ∉ verb.name := by cases verb <;> decide
    have notSpace : lf ≠ space := by decide
    have notCr : lf ≠ cr := by decide
    simp only [body, List.mem_append, List.mem_cons, not_or]
    exact ⟨named, notSpace, wellFormed.1.2.2.2, notSpace, decimals _, notSpace, signs _, notSpace,
      decimals _, notCr, List.not_mem_nil⟩
  | get keys =>
    have named : lf ∉ ascii "get" := by decide
    have inKeys : ∀ key ∈ keys, lf ∉ key := fun key member => (wellFormed.2 key member).2.2.2
    simp only [body, List.mem_append, List.mem_flatMap, List.mem_cons, not_or, not_exists, not_and]
    exact ⟨named, fun key member => ⟨by decide, inKeys key member⟩, by decide, List.not_mem_nil⟩
  | stats => decide

end Request

/-! ## What the parser gathers -/

section Gathers

variable {parser middle next : Parser} {c : UInt8} {left right : Bytes}

/-- The storage line of a request. -/
def Request.storageLine (verb : Verb) (fields : InsertCommand) (block : Bytes) (noSpace : space ∉ fields.key) :
    StorageLine where
  verb := verb
  key := fields.key
  flags := decimal fields.flags
  negative := decide (fields.expire < 0)
  exptime := decimal fields.expire.natAbs
  bytes := decimal block.length
  noSpace := noSpace
  flagsDigits := decimal_digits _
  exptimeDigits := decimal_digits _
  bytesDigits := decimal_digits _

theorem timeInRange_digitTime {n : Int} (lower : -2 ^ 31 ≤ n) (upper : n < 2 ^ 31) :
    TimeInRange (decide (n < 0)) (digitTime n) := by
  have sum := digitSum_decimal_le n.natAbs
  rw [digitTime]
  by_cases negative : n < 0
  · rw [decide_eq_true negative]
    simp only [TimeInRange, signed, if_true]
    omega
  · rw [decide_eq_false negative]
    simp only [TimeInRange, signed, Bool.false_eq_true, if_false]
    omega

theorem steps_storage {verb : Verb} {fields : InsertCommand} {block : Bytes} {parser' : Parser}
    (wellFormed : (Request.storage verb fields block).WellFormed) :
    parser.reset.steps (Request.storage verb fields block).body = .ok parser' ↔
      NeverDrops 0 (decimal block.length) ∧
        parser' =
          { state := .sLF
            name := verb.name
            keys := [fields.key]
            flags := fields.flags
            exprtime := digitTime fields.expire
            bytes := readNumber 0 (decimal block.length)
            negative := decide (fields.expire < 0)
            curKey := fields.key
            parseComplete := false } := by
  obtain ⟨key, flagsBound, lower, upper⟩ := wellFormed
  obtain ⟨neverDrops, reads⟩ := readNumber_decimal flagsBound
  have time := timeInRange_digitTime lower upper
  have sameBody : (Request.storage verb fields block).body =
      (Request.storageLine verb fields block key.2.1).body := by
    simp [Request.body, StorageLine.body, Request.storageLine, signedDecimal_eq]
  rw [sameBody, StorageLine.steps_body]
  refine and_congr ?_ ?_
  · simp only [StorageLine.Passes, Request.storageLine]
    exact ⟨fun passes => passes.2.2, fun passes => ⟨neverDrops, time, passes⟩⟩
  · simp only [StorageLine.gathered, StorageLine.atBytes, StorageLine.atTime, StorageLine.atFlags,
      Request.storageLine, reads, digitTime]

theorem steps_keyList {key : Bytes} {keys : List Bytes} (state : parser.state = .sgKey)
    (empty : parser.curKey = []) (valid : ∀ k ∈ key :: keys, Key k) :
    parser.steps (key ++ (keys.flatMap (fun key => space :: key) ++ [cr])) =
      .ok { parser with state := .sLF, keys := parser.keys ++ key :: keys, curKey := [] } := by
  have first := valid key List.mem_cons_self
  rw [steps_then (steps_sgKey state first.2.1 first.2.2.1), empty, List.nil_append]
  induction keys generalizing parser key with
  | nil =>
    show Parser.steps { parser with curKey := key } [cr] = _
    rw [step_then (@step_endSgKey { parser with curKey := key } state)]
    rfl
  | cons next keys ih =>
    have validRest := fun k member => valid k (List.mem_cons_of_mem _ member)
    have nextKey := validRest next List.mem_cons_self
    have pushed := @step_sgKey { parser with curKey := key } space state (by decide)
    rw [if_pos rfl] at pushed
    show Parser.steps { parser with curKey := key }
      (space :: (next ++ (keys.flatMap fun key => space :: key)) ++ [cr]) = _
    rw [List.cons_append, List.append_assoc, step_then pushed,
      steps_then (@steps_sgKey { parser with keys := parser.keys ++ [key], curKey := [] } next state
        nextKey.2.1 nextKey.2.2.1), List.nil_append]
    have rest := @ih { parser with keys := parser.keys ++ [key], curKey := [] } next state rfl validRest
      nextKey
    rw [List.append_assoc] at rest
    exact rest

theorem steps_get {keys : List Bytes} (wellFormed : (Request.get keys).WellFormed) :
    parser.reset.steps (Request.get keys).body = .ok { parser.reset with
      state := .sLF, name := ascii "get", keys := keys } := by
  obtain ⟨nonempty, valid⟩ := wellFormed
  obtain ⟨key, keys, rfl⟩ := List.exists_cons_of_ne_nil nonempty
  have inside : ∀ c ∈ ascii "get", ¬ (c = space ∨ c = cr) := by decide +kernel
  have notStorage : ascii "get" ∉ storageNames := by decide
  have retrieval : ascii "get" ∈ retrievalNames := by decide
  have named : parser.reset.steps (ascii "get") = .ok { parser.reset with name := ascii "get" } :=
    steps_name rfl inside
  have afterName : Parser.step { parser.reset with name := ascii "get" } space =
      .ok { parser.reset with name := ascii "get", state := .sgKey } := by
    rw [step_endName rfl (.inl rfl), if_neg notStorage, if_pos retrieval]
  show parser.reset.steps (ascii "get" ++
    (space :: (key ++ keys.flatMap fun key => space :: key) ++ [cr])) = _
  rw [steps_then named, List.cons_append, List.append_assoc, step_then afterName]
  exact steps_keyList rfl rfl valid

theorem steps_stats : parser.reset.steps Request.stats.body = .ok { parser.reset with
    state := .sLF, name := ascii "stats" } := by
  have inside : ∀ c ∈ ascii "stats", ¬ (c = space ∨ c = cr) := by decide +kernel
  have notStorage : ascii "stats" ∉ storageNames := by decide
  have notRetrieval : ascii "stats" ∉ retrievalNames := by decide
  have named : parser.reset.steps (ascii "stats") = .ok { parser.reset with name := ascii "stats" } :=
    steps_name rfl inside
  have afterName : Parser.step { parser.reset with name := ascii "stats" } cr =
      .ok { parser.reset with name := ascii "stats", state := .sLF } := by
    rw [step_endName rfl (.inr rfl), if_neg notStorage, if_neg notRetrieval, if_pos rfl]
  rw [Request.body, steps_then named, step_then afterName]
  rfl

theorem Request.gathered {request : Request} (wellFormed : request.WellFormed)
    (readable : request.Readable) :
    ∃ parser', parser.reset.steps request.body = .ok parser' ∧ parser'.state = .sLF ∧
      parser'.parseComplete = false ∧
      parser'.build = (some request.announced, .command request.parsed) := by
  cases request with
  | storage verb fields block =>
    refine ⟨_, (steps_storage wellFormed).mpr ⟨readable, rfl⟩, rfl, rfl, ?_⟩
    cases verb <;> rfl
  | get keys => exact ⟨_, steps_get wellFormed, rfl, rfl, rfl⟩
  | stats => exact ⟨_, steps_stats, rfl, rfl, rfl⟩

theorem Request.not_gathered {request : Request} (wellFormed : request.WellFormed)
    (unreadable : ¬ request.Readable) : ∃ error, parser.reset.steps request.body = .error error := by
  cases request with
  | storage verb fields block =>
    cases ran : parser.reset.steps (Request.storage verb fields block).body with
    | error error => exact ⟨error, rfl⟩
    | ok parser' => exact absurd ((steps_storage wellFormed).mp ran).1 unreadable
  | get keys => exact absurd trivial unreadable
  | stats => exact absurd trivial unreadable

end Gathers

end Afina.Protocol
