import Lox.Grammar.Cursor

/-!
# The parser

An expression is operands with binary operators between them.  The operators of
a level join to the left, and what they join are expressions of the next tighter
level.  `chain` is one such level over a reader of the next one, `climb` all four
of them over a reader of operands.

An operand is a literal, an expression in parentheses, or a unary operator with
an operand of its own.

Unary operators and parentheses nest, and the depth of the nesting is limited.
An opener is taken before the depth is looked at.  If nothing more may be opened,
the token after the opener is in error.

Recursion is on a bound for the levels that are looked into.  There is one more of
them than the limit allows to open, so it is always the count of the cursor that
decides.  Within a chain recursion is on a bound for the number of operators, which
the tokens still to come provide.

A parser is a place in a list of tokens from which one expression after the other
can be read.  It can go on after an error too.  Then the token in error is still
to come, and what was read before it is not.

What stands behind an expression is no error.  It is left to the next call.  An
end mark is never taken, so no call gets past it.
-/

namespace Lox

open ReadM

/-! ## Readers -/

namespace Descent

/-- The operators of a level and their right operands, joined to `left`.  Each
operator takes a token, so the tokens to come bound their number. -/
def chainFrom (l : Level) (operand : ReadM Expr) : List Token → Expr → ReadM Expr
  | [], left => pure left
  | _ :: bound, left => do
    match ← takeOperator? l with
    | none => pure left
    | some operator =>
      let right ← operand
      chainFrom l operand bound (.binary left operator right)

/-- Operands with operators of a level between them, joined to the left. -/
def chain (l : Level) (operand : ReadM Expr) : ReadM Expr := do
  let left ← operand
  let c ← get
  chainFrom l operand c.rest left

/-- An expression whose operands are read by `operand`. -/
def climb (operand : ReadM Expr) : ReadM Expr :=
  chain .equality <| chain .comparison <| chain .term <| chain .factor operand

/-- What follows a left parenthesis: an expression, read by `inner`, and the
right parenthesis. -/
def group (inner : ReadM Expr) : ReadM Expr := do
  let e ← inner
  match ← takeIf? (· == .rightParen) with
  | some _ => pure (.grouping e)
  | none => refuse .missingParenthesis

/-- One operand.  `behind` reads the operand of a unary operator, `inner` the
expression in parentheses. -/
def operandWith (behind inner : ReadM Expr) : ReadM Expr := do
  match ← takeIf? Kind.isUnary with
  | some operator => return .unary operator (← behind)
  | none =>
    match ← take? Literal.ofToken? with
    | some value => pure (.literal value)
    | none =>
      match ← takeIf? (· == .leftParen) with
      | some _ => group inner
      | none => refuse .missingExpression

/-- An operand.  The bound is for the levels that are looked into. -/
def operand : Nat → ReadM Expr
  | 0 => refuse .tooMuchNesting
  | bound + 1 => operandWith (nested (operand bound)) (nested (climb (operand bound)))

/-- An expression. -/
def expression : ReadM Expr := climb (operand (nestingLimit + 1))

/-! ## What the readers give

One equation for each way a reader can go, by the next token. -/

section Equations

variable {l : Level} {behind inner : ReadM Expr} {c d : Cursor} {t : Token} {rest : List Token}

theorem chain_eq_chainFrom {p : ReadM Expr} {left : Expr} (h : p c = .ok left d) :
    chain l p c = chainFrom l p d.rest left d := by
  rw [chain, bind_apply, h]
  rfl

theorem chain_eq_error {p : ReadM Expr} {e : Error} (h : p c = .error e d) :
    chain l p c = .error e d := by
  rw [chain, bind_apply, h]

theorem chainFrom_stop {p : ReadM Expr} {bound : List Token} {left : Expr}
    (h : ∀ t, c.rest.head? = some t → t.kind.level? ≠ some l) :
    chainFrom l p bound left c = .ok left c := by
  cases bound with
  | nil => rfl
  | cons b bound =>
    rw [chainFrom, bind_apply, takeOperator?_eq_none h]
    rfl

theorem chainFrom_operator {p : ReadM Expr} {b : Token} {bound : List Token} {left : Expr}
    (hc : c.rest = t :: rest) (hl : t.kind.level? = some l) :
    chainFrom l p (b :: bound) left c =
      (p >>= fun right => chainFrom l p bound (.binary left t right))
        { c with rest, line := t.line, operators := c.operators.push t } := by
  rw [chainFrom, bind_apply, takeOperator?_eq_some hc hl]

theorem group_close {e : Expr} (h : inner c = .ok e d) (hd : d.rest = t :: rest)
    (ht : t.kind = .rightParen) :
    group inner c = .ok (.grouping e) { d with rest, line := t.line } := by
  rw [group, bind_apply, h]
  simp only [bind_apply]
  rw [takeIf?_eq_some_iff.2 ⟨rest, hd, by simp [ht], rfl⟩]
  rfl

theorem group_missing {e : Expr} (h : inner c = .ok e d)
    (hd : ∀ t, d.rest.head? = some t → t.kind ≠ .rightParen) :
    group inner c = .error (SyntaxFault.missingParenthesis.before d.rest.head? d.line) d := by
  rw [group, bind_apply, h]
  simp only [bind_apply]
  rw [takeIf?_eq_none_iff.2 ⟨rfl, fun t ht => by simpa using hd t ht⟩]
  rfl

theorem group_error {e : Error} (h : inner c = .error e d) : group inner c = .error e d := by
  rw [group, bind_apply, h]

theorem operandWith_unary (hc : c.rest = t :: rest) (ht : t.kind.isUnary = true) :
    operandWith behind inner c =
      (behind >>= fun e => pure (.unary t e)) { c with rest, line := t.line } := by
  rw [operandWith, bind_apply, takeIf?_eq_some_iff.2 ⟨rest, hc, ht, rfl⟩]

/-- Where no unary operator comes next, an operand is a literal or a group. -/
theorem operandWith_of_not_unary (hc : ∀ t, c.rest.head? = some t → t.kind.isUnary = false) :
    operandWith behind inner c =
      (take? Literal.ofToken? >>= fun
        | some value => pure (.literal value)
        | none => takeIf? (· == .leftParen) >>= fun
          | some _ => group inner
          | none => refuse .missingExpression) c := by
  rw [operandWith, bind_apply, takeIf?_eq_none_iff.2 ⟨rfl, hc⟩]

theorem operandWith_literal {v : Literal} (hc : c.rest = t :: rest)
    (ht : Literal.ofToken? t = some v) :
    operandWith behind inner c = .ok (.literal v) { c with rest, line := t.line } := by
  have hu : t.kind.isUnary = false := by
    unfold Literal.ofToken? at ht
    split at ht <;> simp_all [Kind.isUnary]
  rw [operandWith_of_not_unary (by simp [hc, hu]), bind_apply,
    take?_eq_some_iff.2 ⟨t, rest, hc, ht, rfl⟩]
  rfl

theorem operandWith_leftParen (hc : c.rest = t :: rest) (ht : t.kind = .leftParen) :
    operandWith behind inner c = group inner { c with rest, line := t.line } := by
  rw [operandWith_of_not_unary (by simp [hc, ht, Kind.isUnary]), bind_apply,
    take?_eq_none_iff.2 ⟨rfl, by simp [hc, ht, Literal.ofToken?]⟩]
  simp only [bind_apply]
  rw [takeIf?_eq_some_iff.2 ⟨rest, hc, by simp [ht], rfl⟩]

theorem operandWith_refuse (hu : ∀ t, c.rest.head? = some t → t.kind.isUnary = false)
    (hv : ∀ t, c.rest.head? = some t → Literal.ofToken? t = none)
    (hp : ∀ t, c.rest.head? = some t → t.kind ≠ .leftParen) :
    operandWith behind inner c =
      .error (SyntaxFault.missingExpression.before c.rest.head? c.line) c := by
  rw [operandWith_of_not_unary hu, bind_apply, take?_eq_none_iff.2 ⟨rfl, hv⟩]
  simp only [bind_apply]
  rw [takeIf?_eq_none_iff.2 ⟨rfl, fun t ht => by simpa using hp t ht⟩]
  rfl

end Equations

end Descent

/-! ## Parsers -/

/-- A place in a list of tokens. -/
structure Parser where
  /-- The tokens still to come. -/
  rest : List Token
  /-- The line of the last token taken, one at first. -/
  line : Nat := 1
  /-- The levels of nesting that are open, none at first. -/
  depth : Nat := 0
deriving DecidableEq, Repr

/-- What a call of a parser gave. -/
structure Parse where
  /-- The expression or the error. -/
  result : Except Error Expr
  /-- The binary operators taken, in order. -/
  operators : List Token
  /-- The parser after the call. -/
  after : Parser

/-- The expression, unless there was an error. -/
def Parse.expr? (p : Parse) : Option Expr := p.result.toOption

/-- The error, if there was one. -/
def Parse.error? (p : Parse) : Option Error :=
  match p.result with
  | .ok _ => none
  | .error e => some e

/-- The cursor that a call starts with. -/
def Parser.cursor (p : Parser) : Cursor := { rest := p.rest, line := p.line, depth := p.depth }

/-- The parser that is left where a cursor has come to. -/
def Cursor.parser (c : Cursor) : Parser := { rest := c.rest, line := c.line, depth := c.depth }

/-- Read one expression. -/
def Parser.parse (p : Parser) : Parse :=
  match Descent.expression p.cursor with
  | .ok e c => { result := .ok e, operators := c.operators.toList, after := c.parser }
  | .error e c => { result := .error e, operators := c.operators.toList, after := c.parser }

namespace Parser

/-- What the next `n` calls gave. -/
def parses : Nat → Parser → List Parse
  | 0, _ => []
  | n + 1, p =>
    let q := p.parse
    q :: parses n q.after

/-- The parser after `n` calls. -/
def afterCalls : Nat → Parser → Parser
  | 0, p => p
  | n + 1, p => afterCalls n p.parse.after

/-- One more call is made where the calls before it have stopped. -/
theorem afterCalls_succ (n : Nat) (p : Parser) :
    afterCalls (n + 1) p = (afterCalls n p).parse.after := by
  induction n generalizing p with
  | zero => rfl
  | succ n ih => exact ih p.parse.after

theorem afterCalls_add (m n : Nat) (p : Parser) :
    afterCalls (m + n) p = afterCalls n (afterCalls m p) := by
  induction n with
  | zero => rfl
  | succ n ih => rw [← Nat.add_assoc, afterCalls_succ, afterCalls_succ, ih]

/-- The calls are those of the parsers that the calls before them leave. -/
theorem parses_eq_map (n : Nat) (p : Parser) :
    parses n p = (List.range n).map fun i => (afterCalls i p).parse := by
  induction n generalizing p with
  | zero => rfl
  | succ n ih =>
    rw [parses, ih, List.range_succ_eq_map, List.map_cons, List.map_map]
    rfl

end Parser

end Lox
