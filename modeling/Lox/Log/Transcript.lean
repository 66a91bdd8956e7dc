import Lox.Grammar.Parser
import Lox.Source.Scanner
import Lox.Text.Basic

/-!
# Transcripts

What scanning and parsing leave in a log.  A *record* is a message and how severe it
is.  A log keeps the records that are at least as severe as its threshold, or none at
all if it is off.

A *run* calls a scanner until there are no more items.  Tokens are kept, errors are
counted and reported, and every item leaves a record in the log.  The run ends with the
end mark and the record of its totals.  The end mark has no record of its own but counts
as a token.  The errors are counted in 32 bits with a sign.

A call of the parser leaves a record for every binary operator it took, and then either
the line it got to or its error.
-/

namespace Lox

/-! ## Records -/

namespace Log

/-- How severe a record is. -/
inductive Severity where
  | trace | debug | warn
deriving DecidableEq, Repr

/-- The place of a severity among the severities, least severe first. -/
def Severity.rank : Severity → Nat
  | trace => 0
  | debug => 1
  | warn => 2

/-- One message of a log. -/
structure Record where
  /-- How severe it is. -/
  severity : Severity
  /-- What it says. -/
  message : String
deriving DecidableEq, Repr

/-- The records that a log with this threshold keeps.  No threshold keeps none. -/
def keep (threshold : Option Severity) (records : List Record) : List Record :=
  match threshold with
  | none => []
  | some s => records.filter fun r => s.rank ≤ r.severity.rank

end Log

open Log

/-! ## Runs of a scanner -/

/-- The record of a token that was found. -/
def Token.record (t : Token) : Record :=
  ⟨.trace, "line " ++ toString t.line ++ ": " ++ t.kind.name ++ " " ++ Text.quoted t.lexeme⟩

/-- The record of an error that was reported. -/
def Error.record (e : Error) : Record := ⟨.warn, e.display⟩

/-- What a run of a scanner has come to. -/
structure ScanRun where
  /-- The tokens found. -/
  tokens : Array Token := #[]
  /-- How many errors were found, in 32 bits with a sign. -/
  numErrors : Int32 := 0
  /-- The diagnostics that the errors are reported to. -/
  diagnostics : Diagnostics := {}
  /-- The records left. -/
  log : Array Record := #[]

namespace ScanRun

/-- The record of the totals of a run. -/
def totals (numTokens numLines : Nat) (numErrors : Int32) : Record :=
  ⟨.debug, "scanned " ++ toString numTokens ++ " tokens over " ++ toString numLines
    ++ " lines, " ++ toString numErrors ++ " errors"⟩

/-- One more item is found. -/
def step (r : ScanRun) : Item → ScanRun
  | .ok t => { r with log := r.log.push t.record, tokens := r.tokens.push t }
  | .error e =>
    { r with
      numErrors := r.numErrors + 1
      diagnostics := r.diagnostics.report e
      log := r.log.push e.record }

/-- The source ends, on the given line. -/
def close (r : ScanRun) (line : Nat) : ScanRun :=
  let tokens := r.tokens.push (Token.endOfFile line)
  { r with tokens, log := r.log.push (totals tokens.size line r.numErrors) }

end ScanRun

namespace Scanner

/-- Go on with a run until there are no more items.  Each item takes a character, so the
characters to come bound their number. -/
def runFrom : List Char → Scanner → ScanRun → ScanRun
  | [], s, r => r.close s.line
  | _ :: bound, s, r =>
    match s.next with
    | (none, last) => r.close last.line
    | (some item, next) => runFrom bound next (r.step item)

/-- Find all that is left, item by item, and report the errors to `d`. -/
def run (s : Scanner) (d : Diagnostics) : ScanRun := runFrom s.rest s { diagnostics := d }

end Scanner

/-! ## Calls of a parser -/

/-- The record of a binary operator that was taken. -/
def Token.operatorRecord (t : Token) : Record :=
  ⟨.trace, "line " ++ toString t.line ++ ": binary " ++ t.kind.name⟩

/-- The last record of a call of the parser. -/
def Parse.verdict (p : Parse) : Record :=
  match p.result with
  | .ok _ => ⟨.debug, "parsed expression ending on line " ++ toString p.after.line⟩
  | .error e => e.record

/-- What a call of the parser leaves in the log. -/
def Parse.log (p : Parse) : List Record := p.operators.map Token.operatorRecord ++ [p.verdict]

/-- What scanning a source and reading one expression from it leave in the log. -/
def transcript (source : String) : List Record :=
  let found := (Scanner.ofSource source).run {}
  found.log.toList ++ (Parser.parse { rest := found.tokens.toList }).log

end Lox
