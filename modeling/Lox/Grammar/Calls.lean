import Lox.Grammar.Parser

/-!
# Calls

Here an expression is read by calls.  There is a call for an expression as a whole, one
for each level of binary operators, one for an operand with its unary operators and one
for an operand without.  To read one level of nesting further down is a call too.  A call
makes other calls for the parts of what it reads.

A call has fuel, and what it calls has one unit less.  A call without fuel does nothing
and ends the reading, as an error does.  To go on to the next operator of a level takes
no fuel.  So the fuel bounds how many calls can wait for one another, and not how many
there are.

Every call leaves a record of the levels of nesting that were counted when it was made and
when it came back.  The count changes in `nested` only, right in front of a call and right
behind it, so the records hold every count there is.
-/

namespace Lox

/-- What a call reads. -/
inductive Rule where
  | expression | equality | comparison | term | factor | unary | primary
  /-- The same, one level of nesting further down. -/
  | nested (rule : Rule)
deriving DecidableEq, Repr

/-- A call that has come back, with an expression or without. -/
structure Call where
  /-- What it read. -/
  rule : Rule
  /-- The levels of nesting that were counted when it was made. -/
  before : Nat
  /-- The levels of nesting that were counted when it came back. -/
  after : Nat
deriving DecidableEq, Repr

/-- A cursor and the calls that have come back on the way to it, in this order. -/
structure Journey where
  /-- The cursor. -/
  cursor : Cursor
  /-- The calls. -/
  calls : List Call

/-- The journey with another count of levels. -/
def Journey.withDepth (j : Journey) (n : Nat) : Journey :=
  { j with cursor := { j.cursor with depth := n } }

/-- The journey after one more call, which was made at a cursor with `before` levels. -/
def Journey.record (j : Journey) (rule : Rule) (before : Nat) : Journey :=
  { j with calls := j.calls ++ [⟨rule, before, j.cursor.depth⟩] }

/-- Why a reading by calls ended before its time. -/
inductive Halt where
  /-- A call had no fuel. -/
  | outOfFuel
  /-- The next token is in error. -/
  | error (e : Error)

/-- A way to read on by calls. -/
abbrev CallM := EStateM Halt Journey

namespace CallM

/-- Read on without a call. -/
def directly {α : Type} (r : ReadM α) : CallM α := fun j =>
  match r j.cursor with
  | .ok a c => .ok a { j with cursor := c }
  | .error e c => .error (.error e) { j with cursor := c }

/-- Keep a record of the call that reads by `x`. -/
def recorded {α : Type} (rule : Rule) (x : CallM α) : CallM α := fun j =>
  match x j with
  | .ok a i => .ok a (i.record rule j.cursor.depth)
  | .error h i => .error h (i.record rule j.cursor.depth)

/-! ## The rules

`operand` and `inner` are the calls that a rule makes.  -/

/-- The operators of a level and their right operands, joined to `left`. -/
def chainFrom (l : Level) (operand : CallM Expr) : List Token → Expr → CallM Expr
  | [], left => pure left
  | _ :: bound, left => do
    match ← directly (ReadM.takeOperator? l) with
    | none => pure left
    | some operator =>
      let right ← operand
      chainFrom l operand bound (.binary left operator right)

/-- Operands with operators of a level between them, joined to the left. -/
def chain (l : Level) (operand : CallM Expr) : CallM Expr := do
  let left ← operand
  let j ← get
  chainFrom l operand j.cursor.rest left

/-- A unary operator with its operand, or an operand without one. -/
def unary (behind primary : CallM Expr) : CallM Expr := do
  match ← directly (ReadM.takeIf? Kind.isUnary) with
  | some operator => return .unary operator (← behind)
  | none => primary

/-- A literal, or an expression in parentheses. -/
def primary (inner : CallM Expr) : CallM Expr := do
  match ← directly (ReadM.take? Literal.ofToken?) with
  | some value => return .literal value
  | none =>
    match ← directly (ReadM.takeIf? (· == .leftParen)) with
    | none => directly (ReadM.refuse .missingExpression)
    | some _ =>
      let e ← inner
      match ← directly (ReadM.takeIf? (· == .rightParen)) with
      | some _ => return .grouping e
      | none => directly (ReadM.refuse .missingParenthesis)

/-- One level of nesting further down, unless that is past the limit. -/
def nested (inner : CallM Expr) : CallM Expr := fun j =>
  if nestingLimit ≤ j.cursor.depth then directly (ReadM.refuse .tooMuchNesting) j
  else
    match inner (j.withDepth (j.cursor.depth + 1)) with
    | .ok e i => .ok e (i.withDepth (i.cursor.depth - 1))
    | .error h i => .error h (i.withDepth (i.cursor.depth - 1))

/-- What is read by a call, if the calls it makes are `call`. -/
def body (call : Rule → CallM Expr) : Rule → CallM Expr
  | .expression => call .equality
  | .equality => chain .equality (call .comparison)
  | .comparison => chain .comparison (call .term)
  | .term => chain .term (call .factor)
  | .factor => chain .factor (call .unary)
  | .unary => unary (call (.nested .unary)) (call .primary)
  | .primary => primary (call (.nested .expression))
  | .nested rule => nested (call rule)

/-- Make a call. -/
def call : Nat → Rule → CallM Expr
  | 0, _ => throw .outOfFuel
  | fuel + 1, rule => recorded rule (body (call fuel) rule)

end CallM

/-- Read one expression by calls, and give the calls too.  Without enough fuel there is
nothing to give. -/
def Parser.parseByCalls? (fuel : Nat) (p : Parser) : Option (Parse × List Call) :=
  match CallM.call fuel .expression { cursor := p.cursor, calls := [] } with
  | .ok e j =>
    some ({ result := .ok e, operators := j.cursor.operators.toList, after := j.cursor.parser },
      j.calls)
  | .error (.error e) j =>
    some ({ result := .error e, operators := j.cursor.operators.toList, after := j.cursor.parser },
      j.calls)
  | .error .outOfFuel _ => none

end Lox
