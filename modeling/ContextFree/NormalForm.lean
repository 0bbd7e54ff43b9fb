import ContextFree.Grammar

/-!
# Chomsky normal form

A production is normal when its right-hand side is a single terminal or exactly two
variables. Anything else is a fault, and each kind of fault has its own name because
it is what the reader of a report has to act on.

Normal form cannot say whether the empty word belongs to a language, so a
`NormalForm` carries that answer beside its grammar. That every production is normal
is part of the type.
-/

namespace ContextFree

/-- A single terminal, or two variables. -/
def Production.IsNormal (p : Production) : Prop :=
  p.isTerminal ∨ p.isBinary

/-- Every production is normal. -/
def Grammar.IsNormal (g : Grammar) : Prop :=
  ∀ p ∈ g.productions, p.IsNormal

/-! ## Faults -/

/-- A production that is not normal, by what is wrong with its right-hand side. -/
inductive NormalFault where
  /-- Nothing stands there. -/
  | epsilon (p : Production)
  /-- A variable stands there alone. -/
  | unit (p : Production)
  /-- A terminal stands beside another symbol. -/
  | mixed (p : Production)
  /-- More than two symbols stand there, of whatever kind. -/
  | long (p : Production)
deriving DecidableEq, Repr

/-- The production a fault is about. -/
def NormalFault.production : NormalFault → Production
  | epsilon p | unit p | mixed p | long p => p

/-- The wording of a fault. -/
def NormalFault.message (fault : NormalFault) : String :=
  "Grammar is not in CNF: `" ++ fault.production.render ++ "` " ++
    (match fault with
      | epsilon _ => "derives the empty string"
      | unit _ => "is a unit production"
      | mixed _ => "mixes terminals with other symbols"
      | long _ => "has more than two symbols") ++
    " (try --convert)"

/-- What keeps a production from being normal, if anything does. -/
def Production.normalFault? (p : Production) : Option NormalFault :=
  match p.rhs with
  | [] => some (.epsilon p)
  | [.terminal _] => none
  | [.var _] => some (.unit p)
  | [.var _, .var _] => none
  | [_, _] => some (.mixed p)
  | _ => some (.long p)

theorem Production.normalFault?_eq_none_iff {p : Production} :
    p.normalFault? = none ↔ p.IsNormal := by
  unfold normalFault? IsNormal isTerminal isBinary
  split <;> simp_all

/-- The faults of a grammar, in the order of its productions. -/
def Grammar.normalFaults (g : Grammar) : List NormalFault :=
  g.productions.toList.filterMap Production.normalFault?

theorem Grammar.normalFaults_eq_nil_iff {g : Grammar} : g.normalFaults = [] ↔ g.IsNormal := by
  simp [normalFaults, IsNormal, Production.normalFault?_eq_none_iff]

/-! ## Grammars known to be normal -/

/--
A normal grammar, and whether the language it was made for has the empty word.
-/
structure NormalForm where
  grammar : Grammar
  derivesEmpty : Bool
  normal : grammar.IsNormal
deriving DecidableEq

/-- The grammar as a normal form, with the given answer for the empty word. -/
def NormalForm.ofGrammar (g : Grammar) (derivesEmpty : Bool) :
    Except (List NormalFault) NormalForm :=
  if h : g.normalFaults = [] then
    .ok ⟨g, derivesEmpty, Grammar.normalFaults_eq_nil_iff.mp h⟩
  else
    .error g.normalFaults

/-- A grammar that is already normal, taken as it is: it has no empty word. -/
def NormalForm.assume (g : Grammar) : Except (List NormalFault) NormalForm :=
  ofGrammar g false

end ContextFree
