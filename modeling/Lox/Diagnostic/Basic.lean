import Lox.Token.Basic

/-!
# Errors and diagnostics

What can be wrong with a source text or a list of tokens.  A *fault* is the cause
and has a fixed wording.  An *error* is a fault at its place: a line of the
source, or the token that the grammar has no use for.  Errors carry the wording
and not the fault, since two errors are the same when they read the same.

An *event* is what is kept of an error once it is reported: a line, a place within
it and a message.  It is shown as one line of text, unless its place quotes a
lexeme with a line break in it.

*Diagnostics* are the events reported so far, oldest first.  Scanning and parsing
only add to them.  To forget them is up to the owner.
-/

namespace Lox

/-! ## Errors -/

/-- What a source text can hold that no token is made of. -/
inductive LexicalFault where
  /-- A character outside the alphabet. -/
  | unexpectedCharacter (c : Char)
  /-- A quote without a partner. -/
  | unterminatedString
deriving DecidableEq, Repr

/-- The wording of a lexical fault. -/
def LexicalFault.message : LexicalFault → String
  | unexpectedCharacter c => "Unexpected character: " ++ String.ofList [c]
  | unterminatedString => "Unterminated string."

/-- What the grammar misses or refuses at a token. -/
inductive SyntaxFault where
  /-- An operand is due and the token starts none. -/
  | missingExpression
  /-- A group is complete but for its closing parenthesis. -/
  | missingParenthesis
  /-- One more level of nesting than the grammar allows. -/
  | tooMuchNesting
deriving DecidableEq, Repr

/-- The wording of a syntax fault. -/
def SyntaxFault.message : SyntaxFault → String
  | missingExpression => "Expect expression."
  | missingParenthesis => "Expect ')' after expression."
  | tooMuchNesting => "Too much nesting."

/-- A problem at its place. -/
inductive Error where
  /-- A problem of the text on a line. -/
  | lexical (line : Nat) (message : String)
  /-- A problem of the grammar at a token. -/
  | syntactic (token : Token) (message : String)
  /-- The tokens ran out without an end mark. -/
  | unexpectedEnd (line : Nat)
deriving DecidableEq, Repr, Inhabited

namespace Error

/-- The line an error is reported on. -/
def line : Error → Nat
  | lexical line _ => line
  | syntactic token _ => token.line
  | unexpectedEnd line => line

/-- The place within the line: nothing, the end, or the lexeme of the token. -/
def location : Error → String
  | lexical _ _ => ""
  | syntactic token _ =>
    if token.isEndOfFile then " at end" else " at '" ++ token.lexeme ++ "'"
  | unexpectedEnd _ => " at end"

/-- What went wrong, in words. -/
def message : Error → String
  | lexical _ message => message
  | syntactic _ message => message
  | unexpectedEnd _ => "Unexpected end of input."

/-- The token an error is about, if it is about one. -/
def token? : Error → Option Token
  | syntactic token _ => some token
  | _ => none

end Error

/-- A lexical fault on a line. -/
def LexicalFault.onLine (f : LexicalFault) (line : Nat) : Error := .lexical line f.message

/-- A syntax fault at the next token, or the end of the tokens if there is none.
`line` is the line of the last token before it. -/
def SyntaxFault.before (f : SyntaxFault) (next? : Option Token) (line : Nat) : Error :=
  match next? with
  | some token => .syntactic token f.message
  | none => .unexpectedEnd line

/-! ## Events -/

/-- One reported problem. -/
structure Event where
  /-- The line it was reported on. -/
  line : Nat
  /-- The place within the line, empty for lexical errors. -/
  location : String
  /-- What went wrong. -/
  message : String
deriving DecidableEq, Repr, Inhabited

namespace Event

/-- The text of an event, without a line end. -/
def display (e : Event) : String :=
  "[line " ++ toString e.line ++ "] Error" ++ e.location ++ ": " ++ e.message

end Event

namespace Error

/-- The event that reports an error. -/
def event (e : Error) : Event := { line := e.line, location := e.location, message := e.message }

/-- The text of an error is that of its event. -/
def display (e : Error) : String := e.event.display

end Error

/-! ## Diagnostics -/

/-- The reported events, oldest first. -/
structure Diagnostics where
  /-- The events. -/
  events : List Event := []
deriving DecidableEq, Repr, Inhabited

namespace Diagnostics

/-- Nothing reported. -/
def empty : Diagnostics := {}

/-- Add one event. -/
def add (d : Diagnostics) (e : Event) : Diagnostics := ⟨d.events ++ [e]⟩

/-- Report an error. -/
def report (d : Diagnostics) (e : Error) : Diagnostics := d.add e.event

/-- Report errors one after the other. -/
def reportAll (d : Diagnostics) (es : List Error) : Diagnostics := es.foldl report d

/-- Forget everything. -/
def clear (_ : Diagnostics) : Diagnostics := empty

/-- The number of events. -/
def size (d : Diagnostics) : Nat := d.events.length

/-- Whether nothing was reported. -/
def isEmpty (d : Diagnostics) : Bool := d.events.isEmpty

/-- Whether anything was reported. -/
def hasError (d : Diagnostics) : Bool := !d.isEmpty

/-- The text of the events, each followed by a line end. -/
def display (d : Diagnostics) : String :=
  String.join (d.events.map fun e => e.display ++ "\n")

@[simp] theorem events_empty : empty.events = [] := rfl

@[simp] theorem events_add (d : Diagnostics) (e : Event) :
    (d.add e).events = d.events ++ [e] := rfl

@[simp] theorem events_report (d : Diagnostics) (e : Error) :
    (d.report e).events = d.events ++ [e.event] := rfl

theorem reportAll_append (d : Diagnostics) (es fs : List Error) :
    d.reportAll (es ++ fs) = (d.reportAll es).reportAll fs := List.foldl_append

@[simp] theorem events_reportAll (d : Diagnostics) (es : List Error) :
    (d.reportAll es).events = d.events ++ es.map Error.event := by
  induction es generalizing d with
  | nil => exact (List.append_nil _).symm
  | cons e es ih =>
    show ((d.report e).reportAll es).events = _
    rw [ih, events_report, List.append_assoc]
    rfl

@[simp] theorem events_clear (d : Diagnostics) : d.clear.events = [] := rfl

end Diagnostics

end Lox
