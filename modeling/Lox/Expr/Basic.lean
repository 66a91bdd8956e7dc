import Lox.Token.Basic

/-!
# Expressions

The tree of an expression.  Operators keep their tokens, and with them the line
they stand on.  Numbers keep the text they were written with.

Binary operators bind at four levels.  The ranks grow from the loosest level to
the tightest one.  A minus is a binary operator of the level `term` and also a
unary operator, which binds tighter than all of them.

An expression is written in two ways.  The *prefix form* has operators first, each
with its operands in parentheses, and a group is written like an operator named
`group`.  The *source* has the lexemes from left to right with a space between them.
Strings get their quotes back there.  Nothing is put in parentheses that was not, so
only an expression whose shape obeys the levels of its operators reads back as itself.
-/

namespace Lox

/-! ## Levels of binary operators -/

/-- How tightly a binary operator binds, loosest first. -/
inductive Level where
  | equality | comparison | term | factor
deriving DecidableEq, Repr, Inhabited

namespace Level

/-- The place of a level among the levels, loosest first. -/
def rank : Level → Nat
  | equality => 0
  | comparison => 1
  | term => 2
  | factor => 3

/-- The rank of what is no binary expression, tighter than every level. -/
def operandRank : Nat := 4

theorem rank_lt_operandRank (l : Level) : l.rank < operandRank := by
  cases l <;> decide

/-- Different levels have different ranks. -/
theorem rank_injective {l m : Level} : l.rank = m.rank → l = m := by
  cases l <;> cases m <;> decide

end Level

namespace Kind

/-- The level of a binary operator. -/
def level? : Kind → Option Level
  | bangEqual | equalEqual => some .equality
  | greater | greaterEqual | less | lessEqual => some .comparison
  | minus | plus => some .term
  | slash | star => some .factor
  | _ => none

/-- Whether a token of the kind can stand in front of its operand. -/
def isUnary : Kind → Bool
  | bang | minus => true
  | _ => false

theorem isUnary_iff {k : Kind} : k.isUnary = true ↔ k = bang ∨ k = minus := by
  unfold isUnary
  split <;> simp_all

end Kind

/-! ## Trees -/

/-- A value that a source text spells out. -/
inductive Literal where
  | bool (b : Bool)
  | nil
  | number (text : String)
  | string (text : String)
deriving DecidableEq, Repr, Inhabited

namespace Literal

/-- The literal a token stands for, if it stands for one. -/
def ofToken? (t : Token) : Option Literal :=
  match t.kind with
  | .keyword .true_ => some (bool true)
  | .keyword .false_ => some (bool false)
  | .keyword .nil_ => some nil
  | .number => some (number t.value)
  | .string => some (string t.value)
  | _ => none

/-- The text of a literal.  A string stands without quotes. -/
def display : Literal → String
  | bool true => "true"
  | bool false => "false"
  | nil => "nil"
  | number text => text
  | string text => text

end Literal

/-- The tree of an expression. -/
inductive Expr where
  /-- An operator between two operands. -/
  | binary (left : Expr) (operator : Token) (right : Expr)
  /-- An expression in parentheses. -/
  | grouping (inner : Expr)
  /-- A value. -/
  | literal (value : Literal)
  /-- An operator in front of its operand. -/
  | unary (operator : Token) (operand : Expr)
deriving DecidableEq, Repr, Inhabited

namespace Expr

/-! ## Measures -/

/-- How tightly an expression binds: like its operator if it is a binary one,
tighter than any binary operator if not. -/
def rank : Expr → Nat
  | binary _ operator _ => (operator.kind.level?.map Level.rank).getD 0
  | grouping _ | literal _ | unary _ _ => Level.operandRank

/-- Nothing binds tighter than an operand. -/
theorem rank_le_operandRank (e : Expr) : e.rank ≤ Level.operandRank := by
  cases e with
  | binary _ operator _ =>
    rw [rank]
    cases operator.kind.level? with
    | none => exact Nat.zero_le _
    | some l => exact Nat.le_of_lt (Level.rank_lt_operandRank l)
  | grouping | literal | unary => exact Nat.le_refl _

/-- The largest number of unary operators and groups, one inside the other. -/
def nesting : Expr → Nat
  | binary left _ right => max left.nesting right.nesting
  | grouping inner => inner.nesting + 1
  | literal _ => 0
  | unary _ operand => operand.nesting + 1

/-- The binary operators from left to right. -/
def operators : Expr → List Token
  | binary left operator right => left.operators ++ operator :: right.operators
  | grouping inner => inner.operators
  | literal _ => []
  | unary _ operand => operand.operators

/-! ## Prefix form -/

/-- The expression with operators first, such as `(* (- 123) (group 45.67))`. -/
def prefixForm : Expr → String
  | binary left operator right =>
    "(" ++ operator.lexeme ++ " " ++ left.prefixForm ++ " " ++ right.prefixForm ++ ")"
  | grouping inner => "(group " ++ inner.prefixForm ++ ")"
  | literal value => value.display
  | unary operator operand => "(" ++ operator.lexeme ++ " " ++ operand.prefixForm ++ ")"

end Expr

/-! ## Source -/

/-- The lexeme of a literal. -/
def Literal.lexeme : Literal → String
  | bool true => "true"
  | bool false => "false"
  | nil => "nil"
  | number text => text
  | string text => "\"" ++ text ++ "\""

namespace Expr

/-- The lexemes of an expression from left to right. -/
def lexemes : Expr → List String
  | binary left operator right => left.lexemes ++ operator.lexeme :: right.lexemes
  | grouping inner => "(" :: (inner.lexemes ++ [")"])
  | literal value => [value.lexeme]
  | unary operator operand => operator.lexeme :: operand.lexemes

/-- The lexemes of an expression with spaces between them. -/
def source (e : Expr) : String := " ".intercalate e.lexemes

end Expr

end Lox
