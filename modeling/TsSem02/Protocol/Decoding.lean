import TsSem02.Protocol.Encoding
import TsSem02.Protocol.Feeding

/-! # What a command line is decoded to

A storage line whose numbers get past the overflow checks is taken whole,
however it is cut into chunks and whatever follows it (`StorageLine.parseChunks_passes`);
any other makes `Parse` throw (`StorageLine.parseChunks_refused`).  From these two:

* `decode_encode` — kind, keys, flags and size of the data block are the ones
  that were written;
* `expire_iff` — the expiration time is right only with a single digit;
* `rejectsOverflow_iff` — a number of more than 32 bits is refused if and only
  if it gets smaller modulo `2 ^ 32` at one of its digits.
-/

namespace Afina.Protocol

open CInt Execute Protocol.Parser

/-! ## Numbers of more than 32 bits -/

/-- Modulo `2 ^ 32`, no digit makes the number smaller. -/
def Undetected (field : Bytes) : Prop :=
  ∀ front c back, field = front ++ c :: back →
    decimalValue front % 2 ^ 32 ≤ decimalValue (front ++ [c]) % 2 ^ 32

theorem decimalValue_concat (field : Bytes) (c : UInt8) :
    decimalValue (field ++ [c]) = decimalValue field * 10 + digit c := by
  simp [decimalValue]

theorem neverDrops_iff {field : Bytes} (digits : ∀ c ∈ field, isDigit c) :
    NeverDrops 0 field ↔ Undetected field := by
  have behind : ∀ (field done : Bytes), (∀ c ∈ field, isDigit c) →
      (NeverDrops (decimalValue done % 2 ^ 32) field ↔ ∀ front c back, field = front ++ c :: back →
        decimalValue (done ++ front) % 2 ^ 32 ≤ decimalValue (done ++ front ++ [c]) % 2 ^ 32) := by
    intro field
    induction field with
    | nil => intro done _; simp [NeverDrops]
    | cons d field ih =>
      intro done digits
      have next : shiftIn (decimalValue done % 2 ^ 32) d = decimalValue (done ++ [d]) % 2 ^ 32 := by
        rw [shiftIn_eq, decimalValue_concat]
        omega
      rw [neverDrops_digit (digits d List.mem_cons_self), next,
        ih (done ++ [d]) fun c member => digits c (List.mem_cons_of_mem d member)]
      constructor
      · rintro ⟨here, later⟩ front c back same
        cases front with
        | nil =>
          cases same
          simpa using here
        | cons e front =>
          cases same
          simpa using later front c back rfl
      · intro all
        refine ⟨by simpa using all [] d field rfl, fun front c back same => ?_⟩
        simpa using all (d :: front) c back (by rw [same]; rfl)
  exact behind field [] digits

/-! ## Storage lines in chunks -/

namespace StorageLine

variable {line : StorageLine} {chunks : List Bytes} {rest : Bytes}

theorem parseChunks_passes (parser : Parser) (passes : line.Passes)
    (whole : chunks.flatten = line.body ++ lf :: rest) :
    parser.reset.parseChunks chunks =
      ({ line.gathered with parseComplete := true }, .returned (line.body.length + 1)) := by
  rw [parseChunks_eq, whole]
  exact parse_line rest (steps_body.mpr ⟨passes, rfl⟩) rfl rfl

theorem parseChunks_refused (parser : Parser) (refused : ¬ line.Passes)
    (whole : chunks.flatten = line.body ++ lf :: rest) :
    ∃ last error pos, parser.reset.parseChunks chunks = (last, .threw error pos) := by
  obtain ⟨front, field, middle, split, toField, state, incomplete, noSpace, timeField⟩ :=
    line.steps_timeField
  have toFlags := steps_toFlags line parser
  rw [parseChunks_eq, whole]
  by_cases flags : NeverDrops 0 line.flags
  · have toTime : parser.reset.steps ((line.verb.name ++ space :: (line.key ++ [space])) ++
        (line.flags ++ [space])) = .ok line.atTime := by
      rw [steps_then toFlags, steps_then ((steps_flagsField line _).mpr ⟨flags, rfl⟩),
        step_then (step_endFlags rfl)]
      rfl
    by_cases time : TimeInRange line.negative (signed line.negative (digitSum line.exptime))
    · have bytes : ¬ NeverDrops 0 line.bytes := fun bytes => refused ⟨flags, time, bytes⟩
      have toBytes : parser.reset.steps ((line.verb.name ++ space :: (line.key ++ [space])) ++
          (line.flags ++ [space]) ++ (front ++ (field ++ [space]))) = .ok line.atBytes := by
        rw [steps_then toTime, steps_then toField, steps_then ((timeField _).mpr ⟨time, rfl⟩),
          step_then (step_endExprTime rfl)]
        rfl
      have cut : line.body ++ lf :: rest = (line.verb.name ++ space :: (line.key ++ [space]) ++
          (line.flags ++ [space]) ++ (front ++ (field ++ [space]))) ++
            (line.bytes ++ (cr :: lf :: rest)) := by
        rw [← List.append_assoc front, ← split]
        simp [body]
      rw [cut]
      have noCr : cr ∉ line.bytes := line.bytesDigits.inside (by decide)
      exact parse_rejects _ toBytes rfl (fun c member isCr => noCr (isCr ▸ member))
        fun last ran => bytes (line.steps_bytesField.mp ran).1
    · have cut : line.body ++ lf :: rest = (line.verb.name ++ space :: (line.key ++ [space]) ++
          (line.flags ++ [space]) ++ front) ++ (field ++ (space :: (line.bytes ++ cr :: lf :: rest))) := by
        rw [List.append_assoc _ front, ← List.append_assoc front, ← split]
        simp [body]
      have toDigits : parser.reset.steps ((line.verb.name ++ space :: (line.key ++ [space])) ++
          (line.flags ++ [space]) ++ front) = .ok middle := (steps_then toTime).trans toField
      rw [cut]
      refine parse_rejects _ toDigits incomplete (fun c member isSpace => ?_)
        fun last ran => time ((timeField last).mp ran).1
      rw [state] at isSpace
      exact noSpace (isSpace ▸ member)
  · have cut : line.body ++ lf :: rest = (line.verb.name ++ space :: (line.key ++ [space])) ++
        (line.flags ++ (space :: (sign line.negative ++ (line.exptime ++ space ::
          (line.bytes ++ cr :: lf :: rest))))) := by
      simp [body]
    rw [cut]
    have noSpace : space ∉ line.flags := line.flagsDigits.inside (by decide)
    exact parse_rejects _ toFlags rfl (fun c member isSpace => noSpace (isSpace ▸ member))
      fun last ran => flags ((steps_flagsField line _).mp ran).1

theorem build_gathered (line : StorageLine) : build { line.gathered with parseComplete := true } =
    (some (readNumber 0 line.bytes), .command (line.verb.command
      ⟨line.key, readNumber 0 line.flags, signed line.negative (digitSum line.exptime)⟩)) := by
  obtain ⟨verb, key, flags, negative, exptime, bytes⟩ := line
  cases verb <;> rfl

/-- Both unsigned fields fit their type. -/
def Fits (line : StorageLine) : Prop := decimalValue line.flags < 2 ^ 32 ∧ decimalValue line.bytes < 2 ^ 32

theorem Fits.reads (fits : line.Fits) :
    (NeverDrops 0 line.flags ∧ readNumber 0 line.flags = decimalValue line.flags) ∧
      NeverDrops 0 line.bytes ∧ readNumber 0 line.bytes = decimalValue line.bytes :=
  ⟨neverDrops_of_lt line.flagsDigits.2 fits.1, neverDrops_of_lt line.bytesDigits.2 fits.2⟩

theorem Fits.passes (fits : line.Fits)
    (time : TimeInRange line.negative (signed line.negative (digitSum line.exptime))) : line.Passes :=
  ⟨fits.reads.1.1, time, fits.reads.2.1⟩

end StorageLine

/-! ## Overflow -/

/-- What the overflow checks are for: a line with a number that does not fit
    makes `Parse` throw before it is complete, and the numbers of a complete line
    are the ones that were written. -/
structure RejectsOverflow (line : StorageLine) (outcome : Parser × ParseOutcome) : Prop where
  rejected : 2 ^ 32 ≤ decimalValue line.flags ∨ 2 ^ 32 ≤ decimalValue line.bytes →
    ∃ last error pos, outcome = (last, .threw error pos) ∧ last.parseComplete = false
  exact : outcome.1.parseComplete = true →
    outcome.1.flags = decimalValue line.flags ∧ outcome.1.bytes = decimalValue line.bytes

section Overflow

variable {line : StorageLine} {chunks : List Bytes} {rest : Bytes}

/-- A wrap is seen only where it makes the number smaller. -/
theorem rejectsOverflow_iff (parser : Parser) (whole : chunks.flatten = line.body ++ lf :: rest) :
    RejectsOverflow line (parser.reset.parseChunks chunks) ↔
      (Undetected line.flags ∧ Undetected line.bytes ∧
          TimeInRange line.negative (signed line.negative (digitSum line.exptime)) →
        decimalValue line.flags < 2 ^ 32 ∧ decimalValue line.bytes < 2 ^ 32) := by
  have flagsIff := neverDrops_iff line.flagsDigits.2
  have bytesIff := neverDrops_iff line.bytesDigits.2
  rw [← flagsIff, ← bytesIff]
  by_cases passes : line.Passes
  · have fed := StorageLine.parseChunks_passes parser passes whole
    have flags : line.gathered.flags = decimalValue line.flags % 2 ^ 32 := readNumber_eq line.flagsDigits.2
    have bytes : line.gathered.bytes = decimalValue line.bytes % 2 ^ 32 := readNumber_eq line.bytesDigits.2
    rw [fed]
    constructor
    · intro rejects _
      obtain ⟨flagsExact, bytesExact⟩ := rejects.exact rfl
      simp only [flags, bytes] at flagsExact bytesExact
      omega
    · intro fits
      obtain ⟨flagsFit, bytesFit⟩ := fits ⟨passes.1, passes.2.2, passes.2.1⟩
      refine ⟨fun wide => by omega, fun _ => ?_⟩
      simp only [flags, bytes]
      omega
  · obtain ⟨last, error, pos, fed⟩ := StorageLine.parseChunks_refused parser passes whole
    have incomplete : last.parseComplete = false := by
      rw [parseChunks_eq] at fed
      exact parseFrom_threw_incomplete fed
    rw [fed]
    refine iff_of_true ⟨fun _ => ⟨last, error, pos, rfl, incomplete⟩, fun complete => ?_⟩ ?_
    · rw [incomplete] at complete
      cases complete
    · exact fun neverDrops => absurd ⟨neverDrops.1, neverDrops.2.2, neverDrops.2.1⟩ passes

def longBlock : StorageLine where
  verb := .set
  key := ascii "k"
  flags := ascii "0"
  negative := false
  exptime := ascii "0"
  bytes := ascii "9999999999"
  noSpace := by decide
  flagsDigits := ⟨by decide, by decide +kernel⟩
  exptimeDigits := ⟨by decide, by decide +kernel⟩
  bytesDigits := ⟨by decide, by decide +kernel⟩

theorem rejectsOverflow_iff_longBlock :
    RejectsOverflow longBlock (parseChunks (reset ⟨.sCR, [], [], 0, 0, 0, false, [], false⟩)
        [ascii "set k 0 0 99999", ascii "99999\r\n"]) ↔
      (Undetected (ascii "0") ∧ Undetected (ascii "9999999999") ∧ TimeInRange false 0 →
        decimalValue (ascii "0") < 2 ^ 32 ∧ decimalValue (ascii "9999999999") < 2 ^ 32) :=
  @rejectsOverflow_iff longBlock [ascii "set k 0 0 99999", ascii "99999\r\n"] [] _ (by decide +kernel)

/-- A wrap the check does not see. -/
theorem longBlock_accepted : ¬ ∀ (line : StorageLine) (parser : Parser) (chunks : List Bytes) (rest : Bytes),
    chunks.flatten = line.body ++ lf :: rest → RejectsOverflow line (parser.reset.parseChunks chunks) := by
  intro always
  have rejects := always longBlock ⟨.sCR, [], [], 0, 0, 0, false, [], false⟩
    [ascii "set k 0 0 9999999999\r\n"] [] (by decide +kernel)
  have complete : (parseChunks (reset ⟨.sCR, [], [], 0, 0, 0, false, [], false⟩)
      [ascii "set k 0 0 9999999999\r\n"]).1.parseComplete = true := by decide +kernel
  have wrapped : (parseChunks (reset ⟨.sCR, [], [], 0, 0, 0, false, [], false⟩)
      [ascii "set k 0 0 9999999999\r\n"]).1.bytes = 1410065407 := by decide +kernel
  have exact := (rejects.exact complete).2
  rw [wrapped] at exact
  exact absurd exact (by decide +kernel)

end Overflow

/-! ## Expiration times -/

section ExpirationTime

variable {line : StorageLine} {chunks : List Bytes} {rest : Bytes} {time : Int}

theorem sign_append_eq {negative : Bool} {exptime : Bytes} (digits : Digits exptime)
    (written : sign negative ++ exptime = signedDecimal time) :
    negative = decide (time < 0) ∧ exptime = decimal time.natAbs := by
  have noMinus : ∀ field : Bytes, Digits field → ∀ rest, field ≠ minus :: rest := by
    intro field digits rest same
    exact digits.inside (c := minus) (by decide) (by rw [same]; exact List.mem_cons_self)
  rw [signedDecimal_eq] at written
  cases negative <;> cases negativeTime : decide (time < 0) <;> rw [negativeTime] at written
  case false.false => exact ⟨rfl, written⟩
  case false.true => exact absurd written (noMinus exptime digits _)
  case true.false => exact absurd written.symm (noMinus _ (decimal_digits _) _)
  case true.true => exact ⟨rfl, List.cons_inj_right _ |>.mp written⟩

/-- The command has the expiration time of its line if and only if that is a
    single digit: the parser adds the digits up. -/
theorem expire_iff (parser : Parser) (fits : line.Fits) (lower : -2 ^ 31 ≤ time) (upper : time < 2 ^ 31)
    (written : sign line.negative ++ line.exptime = signedDecimal time)
    (whole : chunks.flatten = line.body ++ lf :: rest) :
    (∃ last parsed size fields, parser.reset.parseChunks chunks = (last, .returned parsed) ∧
      last.build = (some size, .command (line.verb.command fields)) ∧ fields.expire = time) ↔
        -9 ≤ time ∧ time ≤ 9 := by
  obtain ⟨negative, exptime⟩ := sign_append_eq line.exptimeDigits written
  have summed : signed line.negative (digitSum line.exptime) = digitTime time := by
    rw [negative, exptime, digitTime]
  have range : TimeInRange line.negative (signed line.negative (digitSum line.exptime)) := by
    rw [summed, negative]
    exact timeInRange_digitTime lower upper
  have fed := StorageLine.parseChunks_passes parser (fits.passes range) whole
  rw [← digitTime_eq_iff]
  constructor
  · rintro ⟨last, parsed, size, fields, fed', built, expire⟩
    rw [fed] at fed'
    cases fed'
    rw [StorageLine.build_gathered, summed] at built
    have sameFields : (⟨line.key, readNumber 0 line.flags, digitTime time⟩ : InsertCommand) = fields := by
      cases verb : line.verb <;> rw [verb] at built <;> cases built <;> rfl
    rw [← sameFields] at expire
    exact expire
  · intro single
    refine ⟨_, _, _, _, fed, StorageLine.build_gathered line, ?_⟩
    exact summed.trans single

def twoDigits : StorageLine where
  verb := .add
  key := ascii "k"
  flags := ascii "0"
  negative := true
  exptime := ascii "10"
  bytes := ascii "0"
  noSpace := by decide
  flagsDigits := ⟨by decide, by decide +kernel⟩
  exptimeDigits := ⟨by decide, by decide +kernel⟩
  bytesDigits := ⟨by decide, by decide +kernel⟩

theorem expire_iff_twoDigits :
    (∃ last parsed size fields, parseChunks (reset ⟨.sCR, [], [], 0, 0, 0, false, [], false⟩)
        [ascii "add k 0 -1", ascii "0 0\r\n"] = (last, .returned parsed) ∧
      last.build = (some size, .command (Verb.add.command fields)) ∧ fields.expire = -10) ↔
        (-9 : Int) ≤ -10 ∧ (-10 : Int) ≤ 9 :=
  @expire_iff twoDigits [ascii "add k 0 -1", ascii "0 0\r\n"] [] (-10) _
    ⟨by decide +kernel, by decide +kernel⟩ (by decide) (by decide) (by decide +kernel) (by decide +kernel)

/-- The digits of `10` are added up to one. -/
theorem ten_expires_as_one : ¬ ∀ (line : StorageLine) (parser : Parser) (chunks : List Bytes)
    (rest : Bytes) (time : Int), line.Fits → -2 ^ 31 ≤ time → time < 2 ^ 31 →
    sign line.negative ++ line.exptime = signedDecimal time →
    chunks.flatten = line.body ++ lf :: rest →
      ∃ last parsed size fields, parser.reset.parseChunks chunks = (last, .returned parsed) ∧
        last.build = (some size, .command (line.verb.command fields)) ∧ fields.expire = time := by
  intro always
  obtain ⟨last, parsed, size, fields, fed, built, expire⟩ :=
    always twoDigits ⟨.sCR, [], [], 0, 0, 0, false, [], false⟩ [ascii "add k 0 -10 0\r\n"] [] (-10)
      ⟨by decide +kernel, by decide +kernel⟩ (by decide) (by decide) (by decide +kernel) (by decide +kernel)
  have added : (parseChunks (reset ⟨.sCR, [], [], 0, 0, 0, false, [], false⟩)
      [ascii "add k 0 -10 0\r\n"]).1.build = (some 0, .command (.add ⟨ascii "k", 0, -1⟩)) := by
    decide +kernel
  rw [fed] at added
  rw [built] at added
  simp only [Prod.mk.injEq, Built.command.injEq] at added
  have same : fields = ⟨ascii "k", 0, -1⟩ := Command.add.inj added.2
  rw [same] at expire
  cases expire

end ExpirationTime

/-! ## Decoding undoes encoding -/

/-- A command line as a client writes it. -/
inductive CommandLine where
  | storage (line : StorageLine)
  | get (keys : List Bytes)
  | stats

namespace CommandLine

def body : CommandLine → Bytes
  | storage line => line.body
  | get keys => ascii "get" ++ (keys.flatMap (fun key => space :: key) ++ [cr])
  | stats => ascii "stats" ++ [cr]

def encode (line : CommandLine) : Bytes := line.body ++ [lf]

def WellFormed : CommandLine → Prop
  | storage line => line.Fits ∧ line.exptime.length ≤ 10
  | get keys => keys ≠ [] ∧ ∀ key ∈ keys, Key key
  | stats => True

/-- What `Build` makes of the line; nothing is said of the expiration time. -/
def Decoded : CommandLine → Option Nat × Built → Prop
  | storage line, built => ∃ expire, built = (some (decimalValue line.bytes),
      .command (line.verb.command ⟨line.key, decimalValue line.flags, expire⟩))
  | get keys, built => built = (some 0, .command (.get keys))
  | stats, built => built = (some 0, .command .stats)

variable {line : CommandLine} {chunks : List Bytes} {rest : Bytes}

theorem digitSum_le_length {field : Bytes} (digits : ∀ c ∈ field, isDigit c) :
    digitSum field ≤ 9 * field.length := by
  induction field with
  | nil => exact Nat.le_refl 0
  | cons c field ih =>
    have numeric := digits c List.mem_cons_self
    have small := digit_le numeric
    have rest := ih fun d member => digits d (List.mem_cons_of_mem c member)
    rw [digitSum_digit numeric, List.length_cons]
    omega

theorem timeInRange_of_length {negative : Bool} {exptime : Bytes} (digits : Digits exptime)
    (short : exptime.length ≤ 10) : TimeInRange negative (signed negative (digitSum exptime)) := by
  have sum := digitSum_le_length digits.2
  cases negative with
  | true =>
    simp only [TimeInRange, signed, if_true]
    omega
  | false =>
    simp only [TimeInRange, signed, Bool.false_eq_true, if_false]
    omega

theorem gathered (wellFormed : line.WellFormed) (parser : Parser) :
    ∃ last, parser.reset.steps line.body = .ok last ∧ last.state = .sLF ∧ last.parseComplete = false ∧
      line.Decoded (build { last with parseComplete := true }) := by
  cases line with
  | storage line =>
    obtain ⟨fits, short⟩ := wellFormed
    have passes := fits.passes (timeInRange_of_length line.exptimeDigits short)
    refine ⟨_, StorageLine.steps_body.mpr ⟨passes, rfl⟩, rfl, rfl, ?_⟩
    rw [StorageLine.build_gathered, fits.reads.1.2, fits.reads.2.2]
    exact ⟨_, rfl⟩
  | get keys => exact ⟨_, @steps_get _ keys wellFormed, rfl, rfl, rfl⟩
  | stats => exact ⟨_, steps_stats, rfl, rfl, rfl⟩

/-- However the line is cut and whatever follows it, `Parse` takes the line and
    no more, reports it at its last byte and not before, and `Build` gives the
    command that was written. -/
theorem decode_encode (parser : Parser) (wellFormed : line.WellFormed)
    (whole : chunks.flatten = line.encode ++ rest) :
    (∃ last, parser.reset.parseChunks chunks = (last, .returned line.encode.length) ∧
      last.parseComplete = true ∧ line.Decoded last.build) ∧
    ∀ earlier : List Bytes, (∃ more, more ≠ [] ∧ line.encode = earlier.flatten ++ more) →
      (parser.reset.parseChunks earlier).1.parseComplete = false := by
  obtain ⟨last, ran, state, incomplete, decoded⟩ := gathered wellFormed parser
  have length : line.encode.length = line.body.length + 1 := by rw [encode, List.length_append]; rfl
  refine ⟨⟨_, ?_, rfl, decoded⟩, ?_⟩
  · rw [parseChunks_eq, whole, length, encode, List.append_assoc]
    exact parse_line rest ran state incomplete
  · rintro earlier ⟨more, nonempty, split⟩
    have parses := parse_line [] ran state incomplete
    rw [← encode, split] at parses
    rw [parseChunks_eq]
    cases early : parser.reset.parse earlier.flatten with
    | mk stopped outcome =>
      cases outcome with
      | threw error pos => exact parseFrom_threw_incomplete early
      | returned parsed =>
        -- a complete line would have stopped `Parse` in front of `more`
        refine Bool.eq_false_iff.mpr fun complete => ?_
        obtain ⟨front, back, sameFront, count, _, _, _⟩ := parseFrom_front early
        rw [parse, parseFrom_append_returned early, parseFrom_complete complete] at parses
        cases parses
        have longer := congrArg List.length split
        have some := List.length_pos_iff.mpr nonempty
        have shorter := congrArg List.length sameFront
        rw [length, List.length_append] at longer
        rw [List.length_append] at shorter
        omega

theorem decode_encode_twoDigits :
    (∃ last, parseChunks (reset ⟨.sCR, [], [], 0, 0, 0, false, [], false⟩)
        [ascii "add k ", ascii "0 -10 0\r", ascii "\nget"] =
          (last, .returned (storage twoDigits).encode.length) ∧
      last.parseComplete = true ∧ (storage twoDigits).Decoded last.build) ∧
    ∀ earlier : List Bytes, (∃ more, more ≠ [] ∧ (storage twoDigits).encode = earlier.flatten ++ more) →
      (parseChunks (reset ⟨.sCR, [], [], 0, 0, 0, false, [], false⟩) earlier).1.parseComplete = false :=
  @decode_encode (storage twoDigits) [ascii "add k ", ascii "0 -10 0\r", ascii "\nget"] (ascii "get") _
    ⟨⟨by decide +kernel, by decide +kernel⟩, by decide⟩ (by decide +kernel)

end CommandLine

end Afina.Protocol
