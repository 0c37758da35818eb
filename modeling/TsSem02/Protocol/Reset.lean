import TsSem02.Protocol.Parser

/-! # A parser that is used again

`Reset` sets every field but `negative`, and the constructor, which calls it,
leaves `negative` as the memory had it.  Nobody can tell the parsers they leave
behind from one another (`replies_reset`): in the two states in which `negative`
is looked at, it has been set since.
-/

namespace Afina.Protocol.Parser

inductive Call where
  | parse (input : Bytes)
  | build
  | name
  | reset

inductive Reply where
  | parsed (complete : Bool) (outcome : ParseOutcome)
  | built (bodySize : Option Nat) (built : Built)
  | named (name : Bytes)
  | done
deriving DecidableEq, Repr

/-- `Parser()`, for an object in memory that holds anything; strings and vectors
    are empty from the start. -/
def construct (memory : Parser) : Parser := reset { memory with name := [], keys := [], curKey := [] }

def call (parser : Parser) : Call → Reply × Parser
  | .parse input => (.parsed (parser.parse input).1.parseComplete (parser.parse input).2, (parser.parse input).1)
  | .build => (.built parser.build.1 parser.build.2, parser)
  | .name => (.named parser.name, parser)
  | .reset => (.done, parser.reset)

def replies (parser : Parser) : List Call → List Reply
  | [] => []
  | op :: ops => (parser.call op).1 :: (parser.call op).2.replies ops

def after (parser : Parser) : List Call → Parser
  | [] => parser
  | op :: ops => (parser.call op).2.after ops

/-! ## Parsers that differ in `negative` -/

/-- The states in which `negative` is looked at, or kept for then. -/
def State.signed (state : State) : Prop := state = .spExprTimeStart ∨ state = .spExprTime

/-- The parsers are the same, but for a `negative` that will be set before it is
    looked at. -/
structure Interchangeable (parser other : Parser) : Prop where
  fields : other = { parser with negative := other.negative }
  negative : State.signed parser.state → other.negative = parser.negative

theorem Interchangeable.refl (parser : Parser) : Interchangeable parser parser := ⟨rfl, fun _ => rfl⟩

theorem Interchangeable.of_not_signed {parser : Parser} (unsigned : ¬ State.signed parser.state) (negative : Bool) :
    Interchangeable parser { parser with negative := negative } :=
  ⟨rfl, fun signed => absurd signed unsigned⟩

/-- Two steps with the same error, or to parsers that are alike. -/
inductive InterchangeableStep : Except ParseError Parser → Except ParseError Parser → Prop where
  | error (error : ParseError) : InterchangeableStep (.error error) (.error error)
  | ok {next other : Parser} : Interchangeable next other → InterchangeableStep (.ok next) (.ok other)

theorem InterchangeableStep.of_eq (stepped : Except ParseError Parser) : InterchangeableStep stepped stepped := by
  cases stepped with
  | error error => exact .error error
  | ok next => exact .ok (.refl next)

theorem step_interchangeable {parser other : Parser} (alike : Interchangeable parser other) (c : UInt8) :
    InterchangeableStep (parser.step c) (other.step c) := by
  obtain ⟨state, name, keys, flags, exprtime, bytes, negative, curKey, parseComplete⟩ := parser
  obtain ⟨fields, same⟩ := alike
  rw [fields]
  have unsigned {next : Parser} (state : ¬ State.signed next.state) :
      InterchangeableStep (.ok next) (.ok { next with negative := other.negative }) :=
    .ok (.of_not_signed state other.negative)
  cases state with
  | sName =>
    simp only [step]
    split
    · split
      · exact unsigned (by simp [State.signed])
      · split
        · exact unsigned (by simp [State.signed])
        · split
          · exact unsigned (by simp [State.signed])
          · exact .error _
    · exact unsigned (by simp [State.signed])
  | spKey =>
    simp only [step]
    split <;> exact unsigned (by simp [State.signed])
  | sgKey =>
    simp only [step]
    split
    · split
      · exact .error _
      · exact unsigned (by simp [State.signed])
    · split <;> exact unsigned (by simp [State.signed])
  | spFlags =>
    simp only [step]
    split
    · -- `negative` is set, to the same value
      exact .ok (.refl _)
    · split
      · split
        · exact .error _
        · exact unsigned (by simp [State.signed])
      · exact unsigned (by simp [State.signed])
  | spExprTimeStart =>
    have same : other.negative = negative := same (.inl rfl)
    rw [same]
    exact .of_eq _
  | spExprTime =>
    have same : other.negative = negative := same (.inr rfl)
    rw [same]
    exact .of_eq _
  | spBytes =>
    simp only [step]
    split
    · exact unsigned (by simp [State.signed])
    · split
      · split
        · exact .error _
        · exact unsigned (by simp [State.signed])
      · exact unsigned (by simp [State.signed])
  | sLF =>
    simp only [step]
    split
    · exact unsigned (by simp [State.signed])
    · exact .error _
  | sCR => exact .error _

theorem parseFrom_interchangeable {parser other : Parser} (alike : Interchangeable parser other) (pos : Nat)
    (input : Bytes) :
    (other.parseFrom pos input).2 = (parser.parseFrom pos input).2 ∧
      Interchangeable (parser.parseFrom pos input).1 (other.parseFrom pos input).1 := by
  induction input generalizing parser other pos with
  | nil => exact ⟨rfl, alike⟩
  | cons c input ih =>
    have complete : other.parseComplete = parser.parseComplete := by rw [alike.fields]
    rw [parseFrom, parseFrom, complete]
    split
    · exact ⟨rfl, alike⟩
    · have stepped := step_interchangeable alike c
      generalize parser.step c = left at stepped ⊢
      generalize other.step c = right at stepped ⊢
      cases stepped with
      | error error => exact ⟨rfl, alike⟩
      | ok alike => exact ih alike (pos + 1)

theorem build_interchangeable {parser other : Parser} (alike : Interchangeable parser other) :
    other.build = parser.build := by
  rw [alike.fields]
  rfl

theorem call_interchangeable {parser other : Parser} (alike : Interchangeable parser other) (op : Call) :
    (other.call op).1 = (parser.call op).1 ∧ Interchangeable (parser.call op).2 (other.call op).2 := by
  cases op with
  | parse input =>
    obtain ⟨outcome, next⟩ := parseFrom_interchangeable alike 0 input
    have complete : (other.parse input).1.parseComplete = (parser.parse input).1.parseComplete := by
      rw [parse, next.fields]
      rfl
    refine ⟨?_, next⟩
    rw [call, call, complete, parse, parse, outcome]
  | build => exact ⟨by rw [call, call, build_interchangeable alike], alike⟩
  | name => exact ⟨by rw [call, call, alike.fields], alike⟩
  | reset =>
    rw [call, call, alike.fields]
    exact ⟨rfl, .of_not_signed (by simp [State.signed, reset]) _⟩

theorem replies_interchangeable {parser other : Parser} (alike : Interchangeable parser other) (ops : List Call) :
    other.replies ops = parser.replies ops := by
  induction ops generalizing parser other with
  | nil => rfl
  | cons op ops ih =>
    obtain ⟨reply, next⟩ := call_interchangeable alike op
    rw [replies, replies, reply, ih next]

/-! ## `Reset` -/

theorem reset_interchangeable (parser other : Parser) : Interchangeable parser.reset other.reset :=
  .of_not_signed (by simp [State.signed, reset]) other.negative

/-- After any calls of a new parser, `Reset` leaves a parser that answers as
    another new one does. -/
theorem replies_reset (memory other : Parser) (history ops : List Call) :
    ((construct memory).after history).reset.replies ops = (construct other).replies ops :=
  replies_interchangeable (reset_interchangeable _ _) ops

end Afina.Protocol.Parser
