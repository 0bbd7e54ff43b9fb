import ContextFree.Run

/-!
# The program

Reads the command line and the input, and prints what a run answers. Words are sampled
and printed one by one, so that a large amount neither waits nor piles up.
-/

namespace ContextFree

/-- The lines of the help text. -/
def helpLines : List String :=
  [
    "Usage: chomsky <COMMAND> [OPTIONS] [FILE]",
    "",
    "Commands:",
    "  cnf       Convert a grammar to Chomsky normal form and print it",
    "  cyk       Decide whether a word belongs to a grammar's language",
    "  generate  Generate random words of a grammar's language",
    "  help      Print this message",
    "",
    "Options:",
    "      --trace              Print every intermediate grammar (cnf, cyk)",
    "  -c, --convert            Convert the grammar first (cyk)",
    "  -i, --input <WORD>       Word to test (cyk)",
    "  -n, --amount <AMOUNT>    Amount to generate (generate)",
    "      --max-depth <DEPTH>  Deepest derivation to attempt (generate)",
    "  -h, --help               Print help",
    "  -V, --version            Print version",
    "",
    "Without a file, or with `-`, the grammar is read from standard input."
  ]

/-- What is shown to those who ask for help. -/
def helpText : String :=
  String.join (helpLines.map (· ++ "\n"))

/-- What is shown to those who ask for the version. -/
def versionText : String := "chomsky 0.1.0\n"

/-- What is wrong with the arguments. -/
def UsageFault.message : UsageFault → String
  | nothingAsked => "a command is required"
  | helpAsked => "help was asked for"
  | versionAsked => "the version was asked for"
  | unknownCommand => "unrecognized command"
  | unknownArgument => "unexpected argument"
  | missingValue => "a value is required"
  | badValue => "invalid value"
  | unwantedValue => "unexpected value"
  | repeated => "an argument cannot be used multiple times"

/-- The system's number for a failed operation. -/
def systemCode : IO.Error → Option Nat
  | .alreadyExists _ code _ | .inappropriateType _ code _ | .interrupted _ code _
  | .invalidArgument _ code _ | .noFileOrDirectory _ code _ | .noSuchThing _ code _
  | .permissionDenied _ code _ | .resourceExhausted _ code _ => some code.toNat
  | .hardwareFault code _ | .illegalOperation code _ | .otherError code _
  | .protocolError code _ | .resourceBusy code _ | .resourceVanished code _
  | .timeExpired code _ | .unsatisfiedConstraints code _
  | .unsupportedOperation code _ => some code.toNat
  | .unexpectedEof | .userError _ => none

/-- The reading fault behind a failed operation. Some operations give the number negated. -/
def ReadFault.ofError (e : IO.Error) : ReadFault :=
  match systemCode e with
  | some code => .system (if code < 0x80000000 then code else 0x100000000 - code)
  | none => .invalidData

/-- Everything a stream has left. -/
partial def readAll (stream : IO.FS.Stream) (bytes : ByteArray) : IO ByteArray := do
  let more ← stream.read 65536
  if more.isEmpty then return bytes else readAll stream (bytes ++ more)

/-- What the input holds. -/
def Input.fetch (input : Input) : IO (Except ReadFault ByteArray) := do
  try
    match input with
    | .standard => return .ok (← readAll (← IO.getStdin) .empty)
    | .file path =>
      if path.text.toList.contains '\x00' then return .error .nulInName
      else return .ok (← IO.FS.readBinFile path.text)
  catch e =>
    return .error (.ofError e)

/-- Prints an outcome. -/
def Outcome.print (o : Outcome) : IO UInt32 := do
  IO.eprint o.errors
  IO.print o.output
  return o.status.toUInt32

/-- Samples from a script that is made longer until it is long enough. -/
partial def sampleAtRandom (g : Grammar) (maxDepth : Nat) (script : List UInt32) :
    IO (Except SamplingFault (List Char)) := do
  let (result, draws) := g.sample maxDepth { script }
  if draws.taken ≤ script.length then
    return result
  else
    let more ← (List.range (script.length + 64)).mapM fun _ => do
      return (← IO.rand 0 (drawRange - 1)).toUInt32
    sampleAtRandom g maxDepth (script ++ more)

/-- Samples and prints words until there are enough or one cannot be had. -/
def generateWords (name : Path) (g : Grammar) (maxDepth : Nat) : Nat → IO UInt32
  | 0 => return 0
  | amount + 1 => do
    match ← sampleAtRandom g maxDepth [] with
    | .ok word =>
      IO.println (String.ofList word)
      generateWords name g maxDepth amount
    | .error fault => (Outcome.unsampled name fault).print

/-- Carries a command out. -/
def Command.execute (command : Command) : IO UInt32 := do
  let content ← command.input.fetch
  match command with
  | .generate _ amount maxDepth =>
    match Document.ofContent command.input.name content with
    | .ok document =>
      generateWords command.input.name document.grammar maxDepth (amount.getD 1)
    | .error faults => (Outcome.unread faults).print
  | command => (command.run content { script := [] }).print

end ContextFree

open ContextFree in
def main (args : List String) : IO UInt32 := do
  match ContextFree.Command.parse args with
  | .ok command => command.execute
  | .error fault =>
    match fault with
    | .helpAsked => IO.print helpText
    | .versionAsked => IO.print versionText
    | .nothingAsked => IO.eprint helpText
    | fault => IO.eprint ("error: " ++ fault.message ++ "\n\n" ++ helpText)
    return fault.status.toUInt32
