import ContextFree.Location
import ContextFree.Text

/-!
# The command line

The first argument names a command, and the others are read from left to right for it.
An argument that begins with two dashes is a long option, one that begins with a single
dash is a cluster of short ones, and anything else is the value an option is waiting
for, or else the file. Two dashes alone end the options.

The last thing read from plain arguments is held back and only put down when the next
option, the next plain argument or the end comes. That settles which of two faults is
reported: an unknown option wins over the value it was mistaken for, a second file over
a bad value before it.
-/

namespace ContextFree

/-- A command and its settings. -/
inductive Command where
  /-- Convert a grammar to normal form and print it. -/
  | cnf (file : Option Path) (trace : Bool)
  /-- Decide whether a word belongs to a grammar's language. -/
  | cyk (file : Option Path) (convert : Bool) (input : Option String) (trace : Bool)
  /-- Sample words of a grammar's language. -/
  | generate (file : Option Path) (amount : Option Nat) (maxDepth : Nat)
deriving DecidableEq, Repr

/-- Why the arguments do not make up a command. -/
inductive UsageFault where
  /-- No argument at all. -/
  | nothingAsked
  /-- The help text was asked for. -/
  | helpAsked
  /-- The version was asked for. -/
  | versionAsked
  | unknownCommand
  | unknownArgument
  /-- An option is without its value, or the file has an empty name. -/
  | missingValue
  /-- A number is malformed or out of range. -/
  | badValue
  /-- A flag was given a value. -/
  | unwantedValue
  /-- A flag or option was given twice. -/
  | repeated
deriving DecidableEq, Repr

/-- Asking for help or the version is no failure. -/
def UsageFault.status : UsageFault → Nat
  | helpAsked | versionAsked => 0
  | _ => 2

namespace CommandLine

/-- The commands by name. -/
inductive CommandName where
  | cnf
  | cyk
  | generate
deriving DecidableEq, Repr

/-- Everything that can be set for a command. -/
inductive Parameter where
  | help
  | file
  | trace
  | convert
  | input
  | amount
  | maxDepth
deriving DecidableEq, Repr

/-- The command of a name, which is spelled exactly. -/
def CommandName.ofString? : String → Option CommandName
  | "cnf" => some .cnf
  | "cyk" => some .cyk
  | "generate" => some .generate
  | _ => none

/-- The long options of each command. -/
def CommandName.longOption? : CommandName → String → Option Parameter
  | _, "help" => some .help
  | .cnf, "trace" => some .trace
  | .cyk, "trace" => some .trace
  | .cyk, "convert" => some .convert
  | .cyk, "input" => some .input
  | .generate, "amount" => some .amount
  | .generate, "max-depth" => some .maxDepth
  | _, _ => none

/-- The short options of each command. -/
def CommandName.shortOption? : CommandName → Char → Option Parameter
  | _, 'h' => some .help
  | .cyk, 'c' => some .convert
  | .cyk, 'i' => some .input
  | .generate, 'n' => some .amount
  | _, _ => none

/-- Does the parameter come with a value? -/
def Parameter.takesValue : Parameter → Bool
  | file | input | amount | maxDepth => true
  | help | trace | convert => false

/-- Amounts stay below this limit. -/
def amountLimit : Nat := 0x100000000

/-- Depth limits stay below this one. -/
def depthLimit : Nat := 0x10000000000000000

/-- An amount. A minus sign is accepted in front of zero. -/
def amount? (value : String) : Option Nat :=
  Text.signedNumeral? amountLimit value.toList

/-- A depth limit. -/
def depth? (value : String) : Option Nat :=
  Text.numeral? depthLimit value.toList

/-- What is wrong with a value for a parameter, if anything is. -/
def Parameter.valueFault? (p : Parameter) (value : String) : Option UsageFault :=
  match p with
  | file => if value = "" then some .missingValue else none
  | amount => if (amount? value).isNone then some .badValue else none
  | maxDepth => if (depth? value).isNone then some .badValue else none
  | help | trace | convert | input => none

/-! ## Reading arguments -/

/-- What has been read so far. -/
structure Reading where
  /-- The settings put down, those without a value under an empty text. -/
  settings : List (Parameter × String) := []
  /-- The setting held back; an option may still be without its value. -/
  held : Option (Parameter × Option String) := none
  /-- Has the file been named? -/
  hasFile : Bool := false
deriving DecidableEq, Repr

namespace Reading

/-- Puts a setting down. That it is not repeated is checked before its value. -/
def put (r : Reading) (p : Parameter) (value : String) : Except UsageFault Reading :=
  if (r.settings.lookup p).isSome then .error .repeated
  else
    match p.valueFault? value with
    | some fault => .error fault
    | none => .ok { r with settings := r.settings ++ [(p, value)] }

/-- Puts down what is held back. -/
def settle (r : Reading) : Except UsageFault Reading :=
  match r.held with
  | none => .ok r
  | some (_, none) => .error .missingValue
  | some (p, some value) => { r with held := none }.put p value

/-- A flag; the one for help ends the reading. -/
def flag (r : Reading) (p : Parameter) : Except UsageFault Reading := do
  let r ← r.settle
  if p = .help then .error .helpAsked else r.put p ""

/-- An option with its value attached. -/
def option (r : Reading) (p : Parameter) (value : String) : Except UsageFault Reading := do
  let r ← r.settle
  r.put p value

/-- An option whose value is to follow. -/
def await (r : Reading) (p : Parameter) : Except UsageFault Reading := do
  let r ← r.settle
  .ok { r with held := some (p, none) }

/-- The file. There is only one. -/
def file (r : Reading) (value : String) : Except UsageFault Reading :=
  if r.hasFile then .error .unknownArgument
  else do
    let r ← r.settle
    .ok { r with held := some (.file, some value), hasFile := true }

/-- A plain argument: the value that is awaited, or else the file. -/
def plain (r : Reading) (value : String) : Except UsageFault Reading :=
  match r.held with
  | some (p, none) => .ok { r with held := some (p, some value) }
  | _ => r.file value

/-- A long option, without its dashes. -/
def long (name : CommandName) (r : Reading) (text : List Char) : Except UsageFault Reading :=
  let key := text.takeWhile (· ≠ '=')
  match name.longOption? (String.ofList key), text.dropWhile (· ≠ '=') with
  | none, _ => .error .unknownArgument
  | some p, '=' :: value =>
    if p.takesValue then r.option p (String.ofList value) else .error .unwantedValue
  | some p, _ => if p.takesValue then r.await p else r.flag p

/--
A cluster of short options, without its dash. An option that takes a value takes the
rest of the cluster, less an equals sign at its front.
-/
def cluster (name : CommandName) (r : Reading) : List Char → Except UsageFault Reading
  | [] => .ok r
  | c :: rest =>
    match name.shortOption? c with
    | none => .error .unknownArgument
    | some p =>
      if p.takesValue then
        match rest with
        | [] => r.await p
        | '=' :: value => r.option p (String.ofList value)
        | value => r.option p (String.ofList value)
      else do
        let r ← r.flag p
        r.cluster name rest

/-- Reads the arguments that follow a command. -/
def arguments (name : CommandName) (r : Reading) : List String → Except UsageFault Reading
  | [] => r.settle
  | "--" :: rest => do
    let r ← rest.foldlM file r
    r.settle
  | arg :: rest => do
    let r ← match arg.toList with
      | '-' :: '-' :: text => r.long name text
      | '-' :: c :: text => r.cluster name (c :: text)
      | _ => r.plain arg
    r.arguments name rest

end Reading

/-! ## From settings to commands -/

/-- The depth limit unless another one is asked for. -/
def defaultDepth : Nat := 64

/-- The command that some settings make up. -/
def command (name : CommandName) (settings : List (Parameter × String)) : Command :=
  let file := (settings.lookup .file).map Path.mk
  let isSet p := (settings.lookup p).isSome
  match name with
  | .cnf => .cnf file (isSet .trace)
  | .cyk => .cyk file (isSet .convert) (settings.lookup .input) (isSet .trace)
  | .generate =>
    .generate file ((settings.lookup .amount).bind amount?)
      (((settings.lookup .maxDepth).bind depth?).getD defaultDepth)

/-- The help command, which stands beside the others. -/
def helpCommand : String := "help"

/-- Is it the name of a command, help included? -/
def isCommand (arg : String) : Bool :=
  arg = helpCommand || (CommandName.ofString? arg).isSome

/-- The fault of a first argument that names no command. -/
def firstFault (arg : String) : UsageFault :=
  match arg.toList with
  | '-' :: '-' :: text =>
    let known := match String.ofList (text.takeWhile (· ≠ '=')) with
      | "help" => some .helpAsked
      | "version" => some .versionAsked
      | _ => none
    match known with
    | none => .unknownArgument
    | some fault => if text.contains '=' then .unwantedValue else fault
  | '-' :: 'h' :: _ => .helpAsked
  | '-' :: 'V' :: _ => .versionAsked
  | '-' :: _ :: _ => .unknownArgument
  | _ => .unknownCommand

/-- What the help command answers to its arguments. -/
def helpFault : List String → UsageFault
  | [] => .helpAsked
  | [arg] => if isCommand arg then .helpAsked else .unknownCommand
  | _ => .unknownCommand

end CommandLine

open CommandLine in
/-- The command that the arguments of the program ask for. -/
def Command.parse : List String → Except UsageFault Command
  | [] => .error .nothingAsked
  | ["--"] => .error .nothingAsked
  | "--" :: arg :: _ =>
    .error (if isCommand arg then .unknownArgument else .unknownCommand)
  | arg :: rest =>
    match CommandName.ofString? arg with
    | some name => do
      let r ← Reading.arguments name {} rest
      .ok (command name r.settings)
    | none => .error (if arg = helpCommand then helpFault rest else firstFault arg)

end ContextFree
