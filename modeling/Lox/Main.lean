import Lox.Command.Outcome

/-!
# The program

The streams, the files and the exit code.  The prompt takes its turns at the standard
streams as at any other console.
-/

namespace Lox

/-- Write to the two streams. -/
def Written.put (w : Written) : IO Unit := do
  let out ← IO.getStdout
  out.putStr w.out
  out.flush
  (← IO.getStderr).putStr w.err

/-- Write what there is to write and give the exit code. -/
def Outcome.put (o : Outcome) : IO UInt32 := do
  o.written.put
  return o.exit.toUInt32

/-- The bytes of the file with a name. -/
def readFile (name : String) : IO (Except ReadError (List UInt8)) := do
  try
    return .ok (← IO.FS.readBinFile name).data.toList
  catch
    | .noFileOrDirectory .. => return .error .notFound
    | .inappropriateType .. => return .error .isDirectory
    | e => throw e

/-- The bytes of the standard input through the next line break. -/
def readLine : IO (List UInt8) := do
  let input ← IO.getStdin
  let mut line := #[]
  repeat
    let byte ← input.read 1
    line := line ++ byte.data
    if byte.isEmpty || byte.data.contains lineFeed then break
  return line.toList

/-- The standard streams. -/
def standardConsole : Console IO where
  readLine := readLine
  write := Written.put

/-- Answer the lines of the standard input. -/
def runPrompt (dumpTokens : Bool) : IO UInt32 := do
  match ← Session.serve standardConsole { dumpTokens } with
  | none => return 0
  | some e => (Outcome.unread e).put

/-- Do what a command asks for. -/
def Command.execute : Command → IO UInt32
  | showHelp => Outcome.put { written := { out := helpText } }
  | showVersion => Outcome.put { written := { out := versionText } }
  | run dumpTokens none => runPrompt dumpTokens
  | run dumpTokens (some name) => do
    match ← readFile name with
    | .ok bytes => (Outcome.ofScriptBytes dumpTokens bytes).put
    | .error e => (Outcome.unread e).put

end Lox

/-- The program. -/
def main (args : List String) : IO UInt32 :=
  match Lox.Command.ofArgs args with
  | .ok command => command.execute
  | .error e => e.outcome.put
