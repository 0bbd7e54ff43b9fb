import ContextFree.Grammar
import ContextFree.Search

/-!
# Removing unit productions

A unit production passes a variable on to another one. To remove them all, every
variable takes over the other productions of each variable it can be passed on to
in any number of steps, none included. Cycles of unit productions need no special
care: what a variable reaches is a set, found by searching the graph whose edges
are the unit productions.
-/

namespace ContextFree

/-- A unit production as an edge, from its left-hand side to its target. -/
def Production.unitEdge? (p : Production) : Option (Variable × Variable) :=
  p.unitTarget?.map (p.lhs, ·)

namespace Grammar

/-- The unit productions as edges, in order. -/
def unitEdges (g : Grammar) : List (Variable × Variable) :=
  g.productions.toList.filterMap Production.unitEdge?

/-- The variables that `v` reaches by unit productions, itself included. -/
def unitReach (g : Grammar) (v : Variable) : Std.ExtTreeSet Variable :=
  reachable g.unitEdges v

/-- Each variable of the grammar with each variable it reaches, in order. -/
def unitPairs (g : Grammar) : List (Variable × Variable) :=
  g.vars.toList.flatMap fun v => (g.unitReach v).toList.map (v, ·)

/-- The productions that are kept, in order. -/
def nonUnits (g : Grammar) : List Production :=
  g.productions.toList.filter (!·.isUnit)

/-- What a variable takes over from one that it reaches. -/
def takenOver (g : Grammar) (v target : Variable) : List Production :=
  (g.nonUnits.filter (·.lhs = target)).map fun p => ⟨v, p.rhs⟩

/-- The grammar in which each variable has the other productions of all it reaches. -/
def withoutUnits (g : Grammar) : Grammar :=
  g.withProductions <| .ofList <|
    g.nonUnits ++ g.unitPairs.flatMap fun (v, target) => g.takenOver v target

end Grammar

end ContextFree
