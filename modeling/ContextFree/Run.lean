import ContextFree.CommandLine
import ContextFree.Conversion
import ContextFree.Directory
import ContextFree.Document
import ContextFree.Recognizer
import ContextFree.Sampling

/-!
# Whole runs

What the program answers to a command, as a function of the command, of what its input
holds and of the random numbers it is given: an exit status, and the text for standard
output and for standard error.

A command stops at the first stage that fails. The faults of that stage are all
reported, one a line, and the status tells whose they are: two if the command asked for
something the grammar is not fit for, one otherwise.
-/

namespace ContextFree

/-- What a run leaves behind. -/
structure Outcome where
  status : Nat
  output : String
  errors : String
deriving DecidableEq, Inhabited, Repr

namespace Outcome

/-- Success with something written to standard output. -/
def printed (output : String) : Outcome :=
  ⟨0, output, ""⟩

/-- The same outcome after something else was written to standard error. -/
def afterErrors (o : Outcome) (errors : String) : Outcome :=
  { o with errors := errors ++ o.errors }

end Outcome

/-! ## Faults -/

/-- Everything a run can report. -/
inductive Fault where
  | document (fault : DocumentFault)
  | notNormal (fault : NormalFault)
  | conversion (fault : ConversionFault)
  | sampling (fault : SamplingFault)
deriving DecidableEq

namespace Fault

/-- The wording of a fault. -/
def message : Fault → String
  | document fault => fault.message
  | notNormal fault => fault.message
  | conversion fault => fault.message
  | sampling fault => fault.message

/-- A usage fault lies in asking for the wrong thing, not in what was read. -/
def isUsage : Fault → Bool
  | notNormal _ => true
  | document _ | conversion _ | sampling _ => false

end Fault

/-- The line that reports a fault. -/
def Located.render (l : Located Fault) : String :=
  l.location.report l.fault.message

/-- The status of a failed run that is nobody's usage fault. -/
def failureStatus : Nat := 1

/-- The status of a run that asked for the wrong thing. -/
def usageStatus : Nat := 2

/-- Reports some faults, one a line. -/
def Outcome.failed (faults : List (Located Fault)) : Outcome where
  status := if faults.any (·.fault.isUsage) then usageStatus else failureStatus
  output := ""
  errors := String.join (faults.map fun l => l.render ++ "\n")

/-- The report on a document that could not be read. -/
def Outcome.unread (faults : List (Located DocumentFault)) : Outcome :=
  .failed (faults.map fun l => ⟨l.location, .document l.fault⟩)

/-- The report on a word that could not be sampled. -/
def Outcome.unsampled (name : Path) (fault : SamplingFault) : Outcome :=
  .failed [⟨.whole name, .sampling fault⟩]

/-! ## Input -/

/-- Where the document comes from. -/
inductive Input where
  | standard
  | file (path : Path)
deriving DecidableEq, Repr

namespace Input

/-- The path that stands for standard input. -/
def dash : Path := ⟨"-"⟩

/-- Standard input if no file is named, or if it is named by a dash. -/
def ofPath? : Option Path → Input
  | none => standard
  | some path => if path.Same dash then standard else file path

/-- The name faults are reported under. -/
def name : Input → Path
  | standard => ⟨"<stdin>"⟩
  | file path => path

/-- Reads the input, given what standard input and the files hold. -/
def read (input : Input) (directory : Directory) (stdin : ByteArray) :
    Except ReadFault ByteArray :=
  match input with
  | standard => .ok stdin
  | file path => directory.read path

end Input

/-- The input of a command. -/
def Command.input : Command → Input
  | cnf file _ | cyk file .. | generate file .. => .ofPath? file

/-! ## Commands -/

/-- What is written to standard error if every stage of a conversion is to be shown. -/
def Conversion.trace (c : Conversion) : String :=
  String.join (c.stages.map fun stage => stage.render ++ "\n")

/-- Converts a grammar and goes on with its normal form. -/
def withConversion (name : Path) (g : Grammar) (trace : Bool) (k : NormalForm → Outcome) :
    Outcome :=
  let conversion := g.convert
  let outcome := match conversion.result with
    | .ok normal => k normal
    | .error fault => .failed [⟨.whole name, .conversion fault⟩]
  if trace then outcome.afterErrors conversion.trace else outcome

/-- Takes a grammar for normal and goes on with it. -/
def withAssumption (name : Path) (g : Grammar) (k : NormalForm → Outcome) : Outcome :=
  match NormalForm.assume g with
  | .ok normal => k normal
  | .error faults => .failed (faults.map fun fault => ⟨.whole name, .notNormal fault⟩)

/-- The answer to a membership question, on a line of its own. -/
def membershipAnswer (word : List Char) (normal : NormalForm) : Outcome :=
  .printed (if (Recognizer.ofNormalForm normal).accepts word then "Yes\n" else "No\n")

/-- Samples words, one a line, until there are enough or one cannot be had. -/
def sampleWords (name : Path) (g : Grammar) (maxDepth : Nat) :
    Nat → String → Draws → Outcome
  | 0, output, _ => .printed output
  | amount + 1, output, draws =>
    match g.sample maxDepth draws with
    | (.ok word, draws) =>
      sampleWords name g maxDepth amount (output ++ String.ofList word ++ "\n") draws
    | (.error fault, _) => { Outcome.unsampled name fault with output }

/-- Carries a command out on a document. -/
def Command.runOn (name : Path) (document : Document) (draws : Draws) : Command → Outcome
  | cnf _ trace =>
    withConversion name document.grammar trace fun normal => .printed normal.grammar.render
  | cyk _ convert input trace =>
    let answer := membershipAnswer ((input.map String.toList).getD document.word)
    if convert then withConversion name document.grammar trace answer
    else withAssumption name document.grammar answer
  | generate _ amount maxDepth =>
    sampleWords name document.grammar maxDepth (amount.getD 1) "" draws

/-- Carries a command out, given what its input holds. -/
def Command.run (command : Command) (content : Except ReadFault ByteArray) (draws : Draws) :
    Outcome :=
  let name := command.input.name
  match Document.ofContent name content with
  | .ok document => command.runOn name document draws
  | .error faults => .unread faults

/-- A run of the program: its arguments, the files around it and its standard input. -/
def runProgram (args : List String) (directory : Directory) (stdin : ByteArray)
    (draws : Draws) : Except UsageFault Outcome := do
  let command ← Command.parse args
  .ok (command.run (command.input.read directory stdin) draws)

end ContextFree
