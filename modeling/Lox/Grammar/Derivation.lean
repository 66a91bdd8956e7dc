import Lox.Expr.Basic

/-!
# The grammar

`Derives e ts` says that the tokens `ts` spell the expression `e`.  A binary
operator takes a left operand that binds as tightly as it does or tighter, and a
right operand that binds tighter, so operators of one level join to the left.  A
unary operator takes an operand that is no binary expression.  The relation says
nothing of what comes after the tokens, nor how deep an expression may nest.

The beginning of an expression leaves parentheses open, and unary operators that
wait for the end of their operand.  `Pending.after` follows the tokens of a
beginning from left to right and keeps the openers, the innermost first.  An operand
is complete with its last token.  The unary operators in front of it are complete
with it, since their operand is no binary expression.
-/

namespace Lox

/-! ## Expressions and their tokens -/

/-- `Spells t v` says that the token `t` by itself spells the literal `v`. -/
inductive Spells : Token → Literal → Prop where
  | trueWord {t : Token} : t.kind = .keyword .true_ → Spells t (.bool true)
  | falseWord {t : Token} : t.kind = .keyword .false_ → Spells t (.bool false)
  | nilWord {t : Token} : t.kind = .keyword .nil_ → Spells t .nil
  | number {t : Token} : t.kind = .number → Spells t (.number t.value)
  | string {t : Token} : t.kind = .string → Spells t (.string t.value)

/-- The tokens that spell an expression. -/
inductive Derives : Expr → List Token → Prop where
  | literal {t : Token} {v : Literal} : Spells t v → Derives (.literal v) [t]
  | grouping {left right : Token} {e : Expr} {ts : List Token} :
      left.kind = .leftParen → Derives e ts → right.kind = .rightParen →
      Derives (.grouping e) (left :: ts ++ [right])
  | unary {operator : Token} {e : Expr} {ts : List Token} :
      operator.kind = .bang ∨ operator.kind = .minus → Derives e ts →
      e.rank = Level.operandRank → Derives (.unary operator e) (operator :: ts)
  | binary {operator : Token} {l : Level} {e f : Expr} {ts us : List Token} :
      operator.kind.level? = some l → Derives e ts → Derives f us →
      l.rank ≤ e.rank → l.rank < f.rank → Derives (.binary e operator f) (ts ++ operator :: us)

theorem ofToken?_eq_some_iff {t : Token} {v : Literal} :
    Literal.ofToken? t = some v ↔ Spells t v := by
  constructor
  · intro h
    unfold Literal.ofToken? at h
    split at h
    · next hk => cases h; exact .trueWord hk
    · next hk => cases h; exact .falseWord hk
    · next hk => cases h; exact .nilWord hk
    · next hk => cases h; exact .number hk
    · next hk => cases h; exact .string hk
    · cases h
  · intro h
    cases h with
    | trueWord hk | falseWord hk | nilWord hk | number hk | string hk =>
      simp [Literal.ofToken?, hk]

/-- No expression is spelled by nothing. -/
theorem Derives.ne_nil {e : Expr} {ts : List Token} (h : Derives e ts) : ts ≠ [] := by
  cases h <;> simp

/-! ## What is open in an unfinished expression -/

/-- What opens a level of nesting. -/
inductive Opener where
  | parenthesis | operator
deriving DecidableEq, Repr

/-- What an unfinished expression waits for. -/
structure Pending where
  /-- The openers that are not closed, innermost first. -/
  openers : List Opener := []
  /-- Whether an operand is due, and not an operator or a right parenthesis. -/
  operandDue : Bool := true
deriving DecidableEq, Repr

namespace Pending

/-- What is open after an operand is complete. -/
def complete (openers : List Opener) : Pending :=
  { openers := openers.dropWhile (· == .operator), operandDue := false }

/-- What is open after one more token. -/
def step (p : Pending) (t : Token) : Pending :=
  if p.operandDue then
    if t.kind.isUnary then { p with openers := .operator :: p.openers }
    else if t.kind = .leftParen then { p with openers := .parenthesis :: p.openers }
    else complete p.openers
  else if t.kind = .rightParen then complete p.openers.tail
  else { p with operandDue := true }

/-- What is open after some tokens. -/
def after (ts : List Token) : Pending := ts.foldl step {}

end Pending

end Lox
