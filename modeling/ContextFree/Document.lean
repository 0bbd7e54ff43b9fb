import ContextFree.Grammar
import ContextFree.Location
import ContextFree.Token

/-!
# Documents

A document is a grammar in writing, and whatever follows it. Lines with nothing but
blanks count for the numbering of lines and for nothing else. The first line that is
left announces how many productions follow; the next lines are those productions; the
rest is kept as it stands. The start variable is the one the first production defines.

Without a usable count there is no telling productions from the rest, so a bad count is
the only fault reported. Otherwise every fault is: first that lines are missing, if they
are, and then each line that is not a production, in order.
-/

namespace ContextFree

/-! ## Faults -/

/-- Why a document could not be read from where it is kept. -/
inductive ReadFault where
  | notFound
  | permissionDenied
  | invalidData
  /-- The bytes are not UTF-8. -/
  | notUtf8
  /-- The name holds a character no file name can have. -/
  | nulInName
  /-- The operating system's own answer, by number. -/
  | system (code : Nat)
deriving DecidableEq, Repr

namespace ReadFault

/-- The usual wording of a numbered system fault. -/
def systemMessage : Nat → String
  | 1 => "Operation not permitted"
  | 2 => "No such file or directory"
  | 5 => "Input/output error"
  | 13 => "Permission denied"
  | 20 => "Not a directory"
  | 21 => "Is a directory"
  | 24 => "Too many open files"
  | 36 => "File name too long"
  | 40 => "Too many levels of symbolic links"
  | code => "Unknown error " ++ toString code

/-- The wording of a fault. -/
def message : ReadFault → String
  | notFound => "entity not found"
  | permissionDenied => "permission denied"
  | invalidData => "invalid data"
  | notUtf8 => "stream did not contain valid UTF-8"
  | nulInName => "file name contained an unexpected NUL byte"
  | system code => systemMessage code ++ " (os error " ++ toString code ++ ")"

/-- What a fault amounts to, whoever reported it. -/
def kind : ReadFault → ReadFault
  | notUtf8 => invalidData
  | system 1 => permissionDenied
  | system 2 => notFound
  | system 13 => permissionDenied
  | fault => fault

end ReadFault

/-- What can be wrong with a document. -/
inductive DocumentFault where
  /-- There is no line to announce the productions. -/
  | missingCount
  /-- The line that should announce them holds something else. -/
  | invalidCount (text : String)
  /-- Fewer productions follow than announced. -/
  | missingProductions (expected found : Nat)
  /-- A line is not a production. -/
  | line (fault : LineFault)
  /-- The document could not be read at all. -/
  | unreadable (fault : ReadFault)
deriving DecidableEq, Repr

namespace DocumentFault

/-- The wording of a fault. -/
def message : DocumentFault → String
  | missingCount => "Expected a production count"
  | invalidCount text => "Expected a positive production count, found `" ++ text ++ "`"
  | missingProductions expected found =>
    "Unexpected end of input: expected " ++ toString expected ++ " productions, found " ++
      toString found
  | line fault => fault.message
  | unreadable fault => "File error: " ++ fault.message

/-- The same fault; reading faults are compared by what they amount to. -/
def Same : DocumentFault → DocumentFault → Prop
  | unreadable a, unreadable b => a.kind = b.kind
  | a, b => a = b

instance (a b : DocumentFault) : Decidable (a.Same b) := by
  unfold Same
  split <;> infer_instance

end DocumentFault

/-- The same fault in the same place. -/
def Located.Same (a b : Located DocumentFault) : Prop :=
  a.location.Same b.location ∧ a.fault.Same b.fault

instance (a b : Located DocumentFault) : Decidable (a.Same b) :=
  inferInstanceAs (Decidable (_ ∧ _))

/-! ## Documents -/

/-- A grammar and the lines that followed it. -/
structure Document where
  grammar : Grammar
  rest : String
deriving DecidableEq

namespace Document

/-- The first word after the grammar, empty if there is none. -/
def word (d : Document) : List Char :=
  Text.firstWord d.rest.toList

/-- The same rules with the same lines after them. -/
def Same (d e : Document) : Prop :=
  d.grammar.SameRules e.grammar ∧ d.rest = e.rest

instance (d e : Document) : Decidable (d.Same e) :=
  inferInstanceAs (Decidable (_ ∧ _))

/-- The lines that hold something besides blanks, each with its number. -/
def contentLines (text : List Char) : List (Nat × List Char) :=
  ((Text.lines text).zipIdx 1).filterMap fun (line, number) =>
    if line.all Text.isBlank then none else some (number, line)

/-- Counts above this limit cannot be announced. -/
def countLimit : Nat := 0x10000000000000000

/-- Reads the number of productions, which is not zero. -/
def readCount (line : List Char) : Option Nat :=
  (Text.numeral? countLimit (Text.trim line)).filter (0 < ·)

/-- Reads the production of a numbered line. -/
def readProduction (file : Path) : Nat × List Char → Except (Located DocumentFault) Production
  | (number, line) =>
    (Production.read (Text.trim line)).mapError fun fault => ⟨⟨file, number⟩, .line fault⟩

/-- The fault of announcing more lines than there are. -/
def missingLines (file : Path) (expected found : Nat) : List (Located DocumentFault) :=
  if found < expected then [⟨.whole file, .missingProductions expected found⟩] else []

/-- The faults among some results, in order. -/
def faultsOf {ε α : Type} (results : List (Except ε α)) : List ε :=
  results.filterMap fun
    | .error fault => some fault
    | .ok _ => none

/-- The values among some results, in order. -/
def valuesOf {ε α : Type} (results : List (Except ε α)) : List α :=
  results.filterMap fun
    | .error _ => none
    | .ok a => some a

/-- Reads a document from text; `file` is the name faults are reported under. -/
def ofText (file : Path) (text : List Char) : Except (List (Located DocumentFault)) Document :=
  match contentLines text with
  | [] => .error [⟨.whole file, .missingCount⟩]
  | (number, countLine) :: body =>
    match readCount countLine with
    | none =>
      .error [⟨⟨file, number⟩, .invalidCount (String.ofList (Text.trim countLine))⟩]
    | some count =>
      let results := (body.take count).map (readProduction file)
      let faults := missingLines file count results.length ++ faultsOf results
      match faults, valuesOf results with
      | [], first :: others =>
        .ok {
          grammar := .ofList first.lhs (first :: others)
          rest := "\n".intercalate ((body.drop count).map fun (_, line) => String.ofList line) }
      | faults, _ => .error faults

/-- The same outcome of reading: the same document, or the same faults in the same order. -/
def sameOutcome (a b : Except (List (Located DocumentFault)) Document) : Bool :=
  match a, b with
  | .ok d, .ok e => d.Same e
  | .error fs, .error gs => fs.length = gs.length && (fs.zip gs).all fun (f, g) => f.Same g
  | _, _ => false

/-- Reads a document from what the file of that name holds. -/
def ofContent (file : Path) (content : Except ReadFault ByteArray) :
    Except (List (Located DocumentFault)) Document :=
  match content with
  | .error fault => .error [⟨.whole file, .unreadable fault⟩]
  | .ok bytes =>
    match String.fromUTF8? bytes with
    | none => .error [⟨.whole file, .unreadable .notUtf8⟩]
    | some text => ofText file text.toList

end Document

end ContextFree
