import ContextFree.Binary
import ContextFree.EpsilonFree
import ContextFree.NormalForm
import ContextFree.UnitFree

/-!
# Conversion to normal form

Epsilon productions go first, unit productions second, and what is left is brought
into binary form. The order matters: leaving nullable variables out can create unit
productions, while neither of the later passes can bring an epsilon production back.

The conversion checks what it has made before it hands it over, so its result type
has room for a failure. A `Conversion` also keeps every grammar along the way.
-/

namespace ContextFree

/-- Something the conversion found on its way, in the order it finds them. -/
inductive Stage where
  | nullable (vs : Std.ExtTreeSet Variable)
  | epsilonFree (g : Grammar)
  | unitFree (g : Grammar)
  | normal (g : Grammar)
deriving DecidableEq

/-- The written form of a stage: a heading, and what was found. -/
def Stage.render : Stage → String
  | nullable vs =>
    "nullable: \x7b" ++ ", ".intercalate (vs.toList.map Variable.render) ++ "\x7d"
  | epsilonFree g => "without epsilon productions:\n" ++ g.render
  | unitFree g => "without unit productions:\n" ++ g.render
  | normal g => "in normal form:\n" ++ g.render

/-- A pass did not do what the next one relies on. -/
inductive ConversionFault where
  | leftover (leftover : Leftover)
  | notNormal (faults : List NormalFault)
deriving DecidableEq, Repr

/-- The wording of a failed conversion, which never blames the grammar. -/
def ConversionFault.message (fault : ConversionFault) : String :=
  (match fault with
    | leftover (.epsilon p) => "Epsilon production `" ++ p.render ++ "` reached binarization"
    | leftover (.unit p) => "Unit production `" ++ p.render ++ "` reached binarization"
    | notNormal faults =>
      "Conversion produced a grammar outside CNF: " ++
        "; ".intercalate (faults.map NormalFault.message)) ++
    " (this is a problem with chomsky, not the grammar)"

/-- The stages a conversion went through, and how it ended. -/
structure Conversion where
  stages : List Stage
  result : Except ConversionFault NormalForm

/-- Converts a grammar to normal form, keeping the stages. -/
def Grammar.convert (g : Grammar) : Conversion :=
  let nullable := g.nullable
  let epsilonFree := g.withoutEpsilon nullable
  let unitFree := epsilonFree.withoutUnits
  let stages := [.nullable nullable, .epsilonFree epsilonFree, .unitFree unitFree]
  match unitFree.binarize with
  | .error leftover => ⟨stages, .error (.leftover leftover)⟩
  | .ok binary =>
    { stages := stages ++ [.normal binary]
      result := (NormalForm.ofGrammar binary (nullable.contains g.start)).mapError .notNormal }

/-- The normal form of a grammar. -/
def Grammar.toNormalForm (g : Grammar) : Except ConversionFault NormalForm :=
  g.convert.result

end ContextFree
