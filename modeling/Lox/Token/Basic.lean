/-!
# Tokens

A token is a kind, the text it was read from, the value of that text for the
kinds that have one, and the line it starts on.  Any combination of the four is
a token, since a list of tokens need not come from a source text.

The kind is all that the grammar looks at.  There are twenty kinds of punctuation,
three kinds whose lexemes vary, one kind for each of the sixteen reserved words and
the mark at the end of the source.

Reserved words are spelled by `Keyword.text`, and `Keyword.ofText?` is its inverse,
which is exact: `Or` and `orchid` are names.  Punctuation is spelled by two tables.
`Kind.punctuation?` gives the kind of a single character, `Kind.withEqual?` the kind
when an equals sign follows it.  `Kind.spelling?` goes the other way.
-/

namespace Lox

/-! ## Reserved words -/

/-- A reserved word. -/
inductive Keyword where
  | and_ | class_ | else_ | false_ | fun_ | for_ | if_ | nil_ | or_
  | print_ | return_ | super_ | this_ | true_ | var_ | while_
deriving DecidableEq, Repr, Inhabited

namespace Keyword

/-- The spelling of a reserved word in a source text. -/
def text : Keyword → String
  | and_ => "and"
  | class_ => "class"
  | else_ => "else"
  | false_ => "false"
  | fun_ => "fun"
  | for_ => "for"
  | if_ => "if"
  | nil_ => "nil"
  | or_ => "or"
  | print_ => "print"
  | return_ => "return"
  | super_ => "super"
  | this_ => "this"
  | true_ => "true"
  | var_ => "var"
  | while_ => "while"

/-- Every reserved word, once. -/
def all : List Keyword :=
  [and_, class_, else_, false_, fun_, for_, if_, nil_, or_,
   print_, return_, super_, this_, true_, var_, while_]

/-- The reserved word with this spelling, if there is one. -/
def ofText? (s : String) : Option Keyword :=
  all.find? fun w => w.text == s

theorem ofText?_text (w : Keyword) : ofText? w.text = some w := by
  cases w <;> decide

/-- The table is the inverse of the spelling. -/
theorem ofText?_eq_some_iff {s : String} {w : Keyword} : ofText? s = some w ↔ w.text = s := by
  constructor
  · intro h
    have hw := List.find?_some h
    exact eq_of_beq hw
  · rintro rfl
    exact ofText?_text w

/-- The name of a reserved word as the kind of a token. -/
def name : Keyword → String
  | and_ => "And"
  | class_ => "Class"
  | else_ => "Else"
  | false_ => "False"
  | fun_ => "Fun"
  | for_ => "For"
  | if_ => "If"
  | nil_ => "Nil"
  | or_ => "Or"
  | print_ => "Print"
  | return_ => "Return"
  | super_ => "Super"
  | this_ => "This"
  | true_ => "True"
  | var_ => "Var"
  | while_ => "While"

end Keyword

/-! ## Kinds -/

/-- What sort of token a token is. -/
inductive Kind where
  | leftParen | rightParen | leftBrace | rightBrace
  | comma | dot | minus | plus | semicolon | slash | star
  | bang | bangEqual
  | equal | equalEqual
  | greater | greaterEqual
  | less | lessEqual
  | identifier | string | number
  | keyword (word : Keyword)
  | endOfFile
deriving DecidableEq, Repr, Inhabited

namespace Kind

/-- The name of a kind, as token dumps and logs show it. -/
def name : Kind → String
  | leftParen => "LeftParen"
  | rightParen => "RightParen"
  | leftBrace => "LeftBrace"
  | rightBrace => "RightBrace"
  | comma => "Comma"
  | dot => "Dot"
  | minus => "Minus"
  | plus => "Plus"
  | semicolon => "Semicolon"
  | slash => "Slash"
  | star => "Star"
  | bang => "Bang"
  | bangEqual => "BangEqual"
  | equal => "Equal"
  | equalEqual => "EqualEqual"
  | greater => "Greater"
  | greaterEqual => "GreaterEqual"
  | less => "Less"
  | lessEqual => "LessEqual"
  | identifier => "Identifier"
  | string => "String"
  | number => "Number"
  | keyword word => word.name
  | endOfFile => "EndOfFile"

/-- Every kind, once. -/
def all : List Kind :=
  [leftParen, rightParen, leftBrace, rightBrace, comma, dot, minus, plus, semicolon, slash, star,
   bang, bangEqual, equal, equalEqual, greater, greaterEqual, less, lessEqual,
   identifier, string, number] ++ Keyword.all.map keyword ++ [endOfFile]

/-- The kind with this name, if there is one. -/
def ofName? (s : String) : Option Kind :=
  all.find? fun k => k.name == s

theorem ofName?_name (k : Kind) : ofName? k.name = some k := by
  cases k with
  | keyword w => cases w <;> decide
  | _ => decide

/-- Different kinds have different names. -/
theorem name_injective {k l : Kind} (h : k.name = l.name) : k = l :=
  Option.some.inj ((ofName?_name k).symm.trans (h ▸ ofName?_name l))

/-- A name is made of letters. -/
theorem not_mem_name {c : Char} (hc : c.isAlpha = false) (k : Kind) : c ∉ k.name.toList := by
  have hname : k.name.toList.all Char.isAlpha = true := by
    cases k with
    | keyword w => cases w <;> decide
    | _ => decide
  intro hmem
  rw [List.all_eq_true.1 hname c hmem] at hc
  cases hc

/-- The kind of one punctuation character that stands by itself. -/
def punctuation? : Char → Option Kind
  | '(' => some leftParen
  | ')' => some rightParen
  | '{' => some leftBrace
  | '}' => some rightBrace
  | ',' => some comma
  | '.' => some dot
  | '-' => some minus
  | '+' => some plus
  | ';' => some semicolon
  | '/' => some slash
  | '*' => some star
  | '!' => some bang
  | '=' => some equal
  | '>' => some greater
  | '<' => some less
  | _ => none

/-- The kind that a punctuation character and an equals sign form together. -/
def withEqual? : Kind → Option Kind
  | bang => some bangEqual
  | equal => some equalEqual
  | greater => some greaterEqual
  | less => some lessEqual
  | _ => none

/-- The spelling of the kinds that have only one. -/
def spelling? : Kind → Option String
  | leftParen => some "("
  | rightParen => some ")"
  | leftBrace => some "\x7b"
  | rightBrace => some "\x7d"
  | comma => some ","
  | dot => some "."
  | minus => some "-"
  | plus => some "+"
  | semicolon => some ";"
  | slash => some "/"
  | star => some "*"
  | bang => some "!"
  | bangEqual => some "!="
  | equal => some "="
  | equalEqual => some "=="
  | greater => some ">"
  | greaterEqual => some ">="
  | less => some "<"
  | lessEqual => some "<="
  | keyword word => some word.text
  | identifier | string | number | endOfFile => none

/-- A punctuation character is spelled as itself. -/
theorem spelling?_punctuation {c : Char} {k : Kind} (h : punctuation? c = some k) :
    k.spelling? = some (String.ofList [c]) := by
  unfold punctuation? at h
  split at h <;> cases h <;> decide

/-- An equals sign makes a spelling longer by itself. -/
theorem spelling?_withEqual {k l : Kind} (h : k.withEqual? = some l) :
    l.spelling? = k.spelling?.map (· ++ "=") := by
  cases k <;> cases h <;> decide

/-- The kinds whose lexemes carry a value of their own. -/
def hasValue : Kind → Bool
  | identifier | string | number => true
  | _ => false

/-- A kind that is spelled in one way only carries no value. -/
theorem hasValue_eq_false {k : Kind} {s : String} (h : k.spelling? = some s) :
    k.hasValue = false := by
  cases k with
  | identifier | string | number | endOfFile => cases h
  | _ => rfl

end Kind

/-! ## Tokens -/

/-- One unit of a source text. -/
structure Token where
  /-- What sort of token it is. -/
  kind : Kind
  /-- The text of the source that it stands for. -/
  lexeme : String
  /-- The value of the text: a string without its quotes, a number or a name as spelled. -/
  literal : Option String := none
  /-- The line it starts on, counted from one. -/
  line : Nat
deriving DecidableEq, Repr, Inhabited

namespace Token

/-- The mark that ends a list of tokens. -/
def endOfFile (line : Nat) : Token := { kind := .endOfFile, lexeme := "", line }

/-- Whether the token is an end mark. -/
def isEndOfFile (t : Token) : Bool := t.kind == .endOfFile

@[simp] theorem isEndOfFile_endOfFile (line : Nat) : (endOfFile line).isEndOfFile = true := rfl

@[simp] theorem line_endOfFile (line : Nat) : (endOfFile line).line = line := rfl

/-- The text of a token used as an operand: its value, or its lexeme if it has none. -/
def value (t : Token) : String := t.literal.getD t.lexeme

/-- The text shown for a token: the value where the kind has one, else the lexeme. -/
def display (t : Token) : String := if t.kind.hasValue then t.value else t.lexeme

end Token

end Lox
