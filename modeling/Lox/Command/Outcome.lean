import Lox.Session.Prompt

/-!
# Commands and their outcomes

What the arguments of the program ask for, what it writes then and its exit code.

An argument is an option, the mark after which no options follow, or a name.  Long
options have two dashes and are spelled out.  Short ones have one dash and a letter
each, and may be written in a row.  A single dash is a name.  No option takes a value.
The first letter in a row of short options decides, since both of them end the reading
of the arguments.

Arguments are read from left to right, and the first one that settles the matter does
so: a request for help or the version, or a mistake.

The outcome of a command is a function of what the program can read.  The exit code is
65 for a script with errors, 1 for an input that cannot be read, 2 for a mistake in the
arguments and 0 otherwise.  Errors at the prompt do not count.
-/

namespace Lox

/-! ## Arguments -/

namespace Command

/-- The options. -/
inductive Flag where
  /-- Dump tokens in place of the expression. -/
  | tokens
  /-- Show how the program is used. -/
  | help
  /-- Show the version. -/
  | version
deriving DecidableEq, Repr

/-- The option with this long name. -/
def Flag.ofLong? : String → Option Flag
  | "tokens" => some tokens
  | "help" => some help
  | "version" => some version
  | _ => none

/-- The option with this letter. -/
def Flag.ofShort? : Char → Option Flag
  | 'h' => some help
  | 'V' => some version
  | _ => none

/-- What an argument is by its spelling. -/
inductive Argument where
  /-- An option. -/
  | flag (f : Flag)
  /-- A long option with a value, which no option takes. -/
  | valued (f : Flag)
  /-- A dash with something that is no option. -/
  | unknown
  /-- Two dashes.  What follows are names. -/
  | endOfFlags
  /-- A name. -/
  | name
deriving DecidableEq, Repr

/-- The sort of an argument. -/
def Argument.ofText (text : String) : Argument :=
  match text.toList with
  | ['-', '-'] => endOfFlags
  | '-' :: '-' :: long =>
    match Flag.ofLong? (String.ofList (long.takeWhile (· != '='))) with
    | none => unknown
    | some f => if '=' ∈ long then valued f else flag f
  | '-' :: short :: _ =>
    match Flag.ofShort? short with
    | none => unknown
    | some f => flag f
  | _ => name

end Command

/-! ## Commands -/

/-- A mistake in the arguments. -/
inductive UsageError where
  /-- Not an option, or one name too many. -/
  | unexpectedArgument (text : String)
  /-- An option that can be given once. -/
  | repeatedOption (text : String)
  /-- A value for an option that takes none. -/
  | unexpectedValue (text : String)
  /-- An empty name. -/
  | emptyName
deriving DecidableEq, Repr

/-- What to do. -/
inductive Command where
  /-- Show how the program is used. -/
  | showHelp
  /-- Show the version. -/
  | showVersion
  /-- Run a file, or the prompt if there is no name. -/
  | run (dumpTokens : Bool) (script? : Option String)
deriving DecidableEq, Repr

namespace Command

/-- A further name. -/
def addName (script? : Option String) (text : String) : Except UsageError String :=
  if script?.isSome then .error (.unexpectedArgument text)
  else if text.isEmpty then .error .emptyName
  else .ok text

/-- Read arguments after others.  `namesOnly` says that no options are expected
any more, `dumpTokens` and `script?` what was asked for so far. -/
def ofArgsFrom (namesOnly dumpTokens : Bool) (script? : Option String) :
    List String → Except UsageError Command
  | [] => .ok (.run dumpTokens script?)
  | arg :: args =>
    match if namesOnly then Argument.name else Argument.ofText arg with
    | .endOfFlags => ofArgsFrom true dumpTokens script? args
    | .flag .help => .ok .showHelp
    | .flag .version => .ok .showVersion
    | .flag .tokens =>
      if dumpTokens then .error (.repeatedOption arg)
      else ofArgsFrom namesOnly true script? args
    | .valued _ => .error (.unexpectedValue arg)
    | .unknown => .error (.unexpectedArgument arg)
    | .name => do
      let name ← addName script? arg
      ofArgsFrom namesOnly dumpTokens (some name) args

/-- What some arguments ask for. -/
def ofArgs (args : List String) : Except UsageError Command := ofArgsFrom false false none args

end Command

/-! ## Outcomes -/

/-- What the program did. -/
structure Outcome where
  /-- The exit code. -/
  exit : Nat := 0
  /-- What it wrote. -/
  written : Written := {}
deriving DecidableEq, Repr

/-- What the program can read. -/
structure Inputs where
  /-- The bytes of the file with a name. -/
  file : String → Except ReadError (List UInt8)
  /-- The bytes of the standard input. -/
  standard : List UInt8

namespace Outcome

/-- The outcome of a failed read, after what was written before it. -/
def unread (e : ReadError) (before : Written := {}) : Outcome :=
  { exit := 1, written := before ++ { err := e.report } }

/-- The outcome of running the text of a script. -/
def ofScript (dumpTokens : Bool) (source : String) : Outcome :=
  let (written, ran) := Session.run { dumpTokens } source
  { exit := if ran.diagnostics.hasError then 65 else 0, written }

/-- The outcome of running the bytes of a script. -/
def ofScriptBytes (dumpTokens : Bool) (bytes : List UInt8) : Outcome :=
  match readText bytes with
  | .ok source => ofScript dumpTokens source
  | .error e => unread e

/-- The outcome of the prompt. -/
def ofPrompt (dumpTokens : Bool) (input : List UInt8) : Outcome :=
  match Session.prompt { dumpTokens } input with
  | (written, none) => { written }
  | (written, some e) => unread e written

end Outcome

/-- The name of the program and its version. -/
def versionText : String := "lox-front 0.1.0\n"

/-- How the program is used. -/
def usageText : String := "Usage: lox-front [OPTIONS] [SCRIPT]\n"

/-- What the program can do. -/
def helpText : String :=
  "Scan and parse Lox expressions\n\n" ++ usageText ++
  "\nArguments:\n" ++
  "  [SCRIPT]  Script to read. Starts an interactive prompt when omitted\n" ++
  "\nOptions:\n" ++
  "      --tokens   Print the token stream instead of the expression tree\n" ++
  "  -h, --help     Print help\n" ++
  "  -V, --version  Print version\n"

/-- The wording of a mistake in the arguments. -/
def UsageError.message : UsageError → String
  | unexpectedArgument text => "unexpected argument '" ++ text ++ "' found"
  | repeatedOption text => "the argument '" ++ text ++ "' cannot be used multiple times"
  | unexpectedValue text => "unexpected value in '" ++ text ++ "'"
  | emptyName => "a value is required for '[SCRIPT]' but none was supplied"

/-- The outcome of a mistake in the arguments. -/
def UsageError.outcome (e : UsageError) : Outcome :=
  { exit := 2
    written := { err := "error: " ++ e.message ++ "\n\n" ++ usageText
      ++ "\nFor more information, try '--help'.\n" } }

/-- What a command does. -/
def Command.outcome (inputs : Inputs) : Command → Outcome
  | showHelp => { written := { out := helpText } }
  | showVersion => { written := { out := versionText } }
  | run dumpTokens none => .ofPrompt dumpTokens inputs.standard
  | run dumpTokens (some name) =>
    match inputs.file name with
    | .ok bytes => .ofScriptBytes dumpTokens bytes
    | .error e => .unread e

end Lox
