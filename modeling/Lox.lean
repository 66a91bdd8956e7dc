import Lox.Expr.Basic
import Lox.Grammar.Calls
import Lox.Grammar.Derivation
import Lox.Log.Transcript
import Lox.Main
import Lox.Source.Segment
import Lox.Proofs.Grammar.Taking
import Lox.Proofs.Grammar.Reading
import Lox.Proofs.Grammar.Acceptance
import Lox.Proofs.Grammar.Beginning
import Lox.Proofs.Grammar.SyntaxError
import Lox.Proofs.Source.Classes
import Lox.Proofs.Source.LongestMatch
import Lox.Proofs.Source.Transcription
import Lox.Proofs.Source.Separation
import Lox.Proofs.RoundTrip
import Lox.Proofs.Grammar.Resumption
import Lox.Proofs.Session.Runs
import Lox.Proofs.Source.LineBreak
import Lox.Proofs.Source.Places
import Lox.Proofs.Session.Isolation
import Lox.Proofs.ReportedLines
import Lox.Proofs.Source.Strays
import Lox.Proofs.Source.Stepping
import Lox.Proofs.Grammar.Lookahead
import Lox.Proofs.Grammar.EndMark
import Lox.Proofs.Grammar.Progress
import Lox.Proofs.Source.CarriageReturns
import Lox.Proofs.LineEnds
import Lox.Proofs.Grammar.CallDepth
import Lox.Proofs.Text.Boundary
import Lox.Proofs.PrefixForm
import Lox.Proofs.Session.Unambiguous
import Lox.Proofs.Script
import Lox.Proofs.Session.Dumps
import Lox.Proofs.Log.ParseLog
import Lox.Proofs.Log.ScanLog
import Lox.Proofs.Text.Quoted
