import Lox.Grammar.Parser
import Lox.Source.Scanner

/-!
# Sessions

A session runs one source after the other and keeps the diagnostics of all of
them until they are cleared.  A run writes to one of two streams.

* If there are diagnostics after the scan, old or new, all of them go to the error
  stream.
* Otherwise a session that dumps tokens writes their rows.  A row has the line of the
  token to a width of four, its kind, and the text shown for it.  A string with line
  breaks breaks its row.
* Otherwise the prefix form of the expression is written, if there is one and there
  are still no diagnostics.  If not, the diagnostics go to the error stream.

So an earlier error stops every later run after the scan, until the diagnostics
are cleared.
-/

namespace Lox

/-! ## Written text

Texts on one stream follow one another, and the two streams do not mix. -/

/-- What was written to the two streams. -/
@[ext] structure Written where
  /-- The text on the output stream. -/
  out : String := ""
  /-- The text on the error stream. -/
  err : String := ""
deriving DecidableEq, Repr, Inhabited

namespace Written

/-- First the one, then the other. -/
def append (v w : Written) : Written := { out := v.out ++ w.out, err := v.err ++ w.err }

instance : Append Written := ⟨append⟩

@[simp] theorem out_append (v w : Written) : (v ++ w).out = v.out ++ w.out := rfl

@[simp] theorem err_append (v w : Written) : (v ++ w).err = v.err ++ w.err := rfl

@[simp] theorem empty_append (w : Written) : ({} : Written) ++ w = w := by
  ext1 <;> simp

@[simp] theorem append_empty (w : Written) : w ++ ({} : Written) = w := by
  ext1 <;> simp

theorem append_assoc (u v w : Written) : u ++ v ++ w = u ++ (v ++ w) := by
  ext1 <;> simp [String.append_assoc]

end Written

/-! ## Token dumps -/

/-- The row of a token, with its line end. -/
def Token.row (t : Token) : String :=
  String.ofList ((toString t.line).toList.leftpad 4 ' ')
    ++ " " ++ t.kind.name ++ " " ++ t.display ++ "\n"

/-- The rows of a list of tokens. -/
def tokenDump (ts : List Token) : String := String.join (ts.map Token.row)

/-! ## Runs -/

/-- A session: how it shows sources, and the diagnostics it has kept. -/
structure Session where
  /-- Whether tokens are dumped in place of the expression. -/
  dumpTokens : Bool := false
  /-- The diagnostics kept. -/
  diagnostics : Diagnostics := {}
deriving DecidableEq, Repr

namespace Session

/-- Report errors. -/
def report (s : Session) (es : List Error) : Session :=
  { s with diagnostics := s.diagnostics.reportAll es }

/-- Write all diagnostics to the error stream. -/
def complain (s : Session) : Written × Session := ({ err := s.diagnostics.display }, s)

/-- Run one source.  Gives what is written and the session after the run. -/
def run (s : Session) (source : String) : Written × Session :=
  let found := scan source
  let scanned := s.report found.errors
  if scanned.diagnostics.hasError then scanned.complain
  else if scanned.dumpTokens then ({ out := tokenDump found.tokens }, scanned)
  else
    let parsed := Parser.parse { rest := found.tokens }
    let ran := scanned.report parsed.error?.toList
    match parsed.expr? with
    | some e =>
      if ran.diagnostics.hasError then ran.complain
      else ({ out := e.prefixForm ++ "\n" }, ran)
    | none => ran.complain

/-- Forget the diagnostics. -/
def clear (s : Session) : Session := { s with diagnostics := s.diagnostics.clear }

end Session

end Lox
