import ContextFree.Text

/-!
# Places in files

Where a fault was found: a file by the name it was given, and a line of it, counted
from one. Line zero stands for the file as a whole.

Two paths are the same when they lead through the same names. How many slashes
separate the names does not matter, nor does a `.` among them; a `.` at the very
beginning of a relative path is kept, since `./x` and `x` are told apart.
-/

namespace ContextFree

/-- A path as it was written. -/
structure Path where
  text : String
deriving DecidableEq, Inhabited, Repr

namespace Path

/-- The text between slashes, the first and last piece included even if they are empty. -/
def segments (p : Path) : List String :=
  let (first, rest) := Text.pieces '/' p.text.toList
  (first :: rest).map String.ofList

/-- Does the path start at the root? -/
def isAbsolute (p : Path) : Bool :=
  p.text.toList.head? = some '/'

/-- The names a path leads through. -/
def names (p : Path) : List String :=
  let meaningful := p.segments.filter fun s => s ≠ "" && s ≠ "."
  if p.segments.head? = some "." then "." :: meaningful else meaningful

/-- Do the paths lead through the same names from the same place? -/
def Same (p q : Path) : Prop :=
  p.isAbsolute = q.isAbsolute ∧ p.names = q.names

instance (p q : Path) : Decidable (p.Same q) :=
  inferInstanceAs (Decidable (_ ∧ _))

end Path

/-- A line of a file, or the whole file if the line is zero. -/
structure Location where
  file : Path
  line : Nat
deriving DecidableEq, Inhabited, Repr

namespace Location

/-- The file as a whole. -/
def whole (file : Path) : Location :=
  ⟨file, 0⟩

/-- The file, and the line unless the whole file is meant. -/
def render (l : Location) : String :=
  if l.line = 0 then l.file.text else l.file.text ++ ":" ++ toString l.line

/-- The same line of the same file. -/
def Same (l m : Location) : Prop :=
  l.file.Same m.file ∧ l.line = m.line

instance (l m : Location) : Decidable (l.Same m) :=
  inferInstanceAs (Decidable (_ ∧ _))

end Location

/-- A fault and where it was found. -/
structure Located (ε : Type) where
  location : Location
  fault : ε
deriving DecidableEq, Inhabited, Repr

/-- A message the way it is reported: the place in bold red, then the wording. -/
def Location.report (l : Location) (message : String) : String :=
  "\x1b[31;49;1m[" ++ l.render ++ "]\x1b[39;49;1m  " ++ message ++ "\x1b[0m"

end ContextFree
