import Lox.Session.Basic
import Lox.Text.Basic

/-!
# The prompt

What a session is fed with comes as bytes, from a file or from the standard
input.  It can fail to come at all, and it can fail to be text.

The prompt runs the lines of its input one by one, each as a source of its own.
It announces itself before every line, and once more before it finds the input
at its end.  It stops early at a line that is no text.

The prompt takes turns at a *console*, which gives it one line at a time.  A turn writes
its answer before the next line is asked for.  What comes of all turns is a function of
the lines, too.

The line break of a line is no part of its source, nor are the carriage returns
and line breaks before it.  So every source at the prompt is a single line, and
everything said about it names line one.
-/

namespace Lox

/-! ## Inputs -/

/-- Why an input could not be read. -/
inductive ReadError where
  /-- There is no file of that name. -/
  | notFound
  /-- The name is that of a directory. -/
  | isDirectory
  /-- The bytes are no UTF-8 text. -/
  | notUtf8
deriving DecidableEq, Repr

/-- The line that reports a failed read. -/
def ReadError.report : ReadError → String
  | notFound =>
    "Error: Os \x7b code: 2, kind: NotFound, message: \"No such file or directory\" \x7d\n"
  | isDirectory =>
    "Error: Os \x7b code: 21, kind: IsADirectory, message: \"Is a directory\" \x7d\n"
  | notUtf8 =>
    "Error: Error \x7b kind: InvalidData, message: \"stream did not contain valid UTF-8\" \x7d\n"

/-- The text of an input. -/
def readText (bytes : List UInt8) : Except ReadError String :=
  match Text.ofUtf8? bytes with
  | some text => .ok text
  | none => .error .notUtf8

/-! ## Lines of the prompt -/

/-- A line without the carriage returns and line breaks at its end. -/
def promptLine (line : String) : String :=
  String.ofList (Text.dropEndWhile (fun c => c == '\r' || c == '\n') line.toList)

/-- What the prompt writes before it reads a line. -/
def promptMark : Written := { out := "> " }

/-- The byte that ends a line. -/
def lineFeed : UInt8 := 10

namespace Session

/-- Run one line of the prompt and forget its diagnostics. -/
def answer (s : Session) (line : List UInt8) : Except ReadError (Written × Session) := do
  let text ← readText line
  let (written, ran) := s.run (promptLine text)
  return (written, ran.clear)

/-- Run lines until there are no more or one is no text. -/
def promptLines (s : Session) : List (List UInt8) → Written × Option ReadError
  | [] => (promptMark, none)
  | line :: lines =>
    match s.answer line with
    | .error e => (promptMark, some e)
    | .ok (written, next) =>
      let (more, failure?) := next.promptLines lines
      (promptMark ++ written ++ more, failure?)
termination_by structural lines => lines

/-- Run the lines of an input. -/
def prompt (s : Session) (input : List UInt8) : Written × Option ReadError :=
  s.promptLines (Text.linesOf lineFeed input)

end Session

/-! ## Turns at a console -/

/-- Where lines come from and where the answers go. -/
structure Console (m : Type → Type) where
  /-- Take the next line, with its line break.  It is empty at the end of the input. -/
  readLine : m (List UInt8)
  /-- Write to the two streams. -/
  write : Written → m Unit

namespace Session

variable {m : Type → Type} [Monad m]

/-- Announce the prompt, take a line and answer it.  Gives the session for the next turn,
or why there is none: the end of the input or a failed read. -/
def turn (c : Console m) (s : Session) : m (Session ⊕ Option ReadError) := do
  c.write promptMark
  let line ← c.readLine
  if line.isEmpty then return .inr none
  match s.answer line with
  | .error e => return .inr (some e)
  | .ok (written, next) =>
    c.write written
    return .inl next

/-- Take turns until there is no next one. -/
def serve (c : Console m) (s : Session) : m (Option ReadError) := repeatM (turn c) s

end Session

/-- A console with its lines at hand, which keeps what is written. -/
def Console.ofLines : Console (StateM (List (List UInt8) × Written)) where
  readLine := modifyGet fun (lines, before) => (lines.headD [], lines.tail, before)
  write written := modify fun (lines, before) => (lines, before ++ written)

end Lox
