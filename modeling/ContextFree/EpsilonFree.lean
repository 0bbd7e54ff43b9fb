import ContextFree.Nullable

/-!
# Removing epsilon productions

An epsilon production is removed by anticipating it: wherever a nullable variable
stands in a right-hand side, the grammar gets the production with it and the
production without it. Only the right-hand side with nothing left is withheld, so
all that is lost is the empty word itself.

What is left out is chosen place by place, so each choice of places counts for itself,
even if two of them leave the same symbols.
-/

namespace ContextFree

/-- Every choice of some of the members of a list, from none to all of them. -/
def choices {α : Type} : List α → List (List α)
  | [] => [[]]
  | a :: rest => choices rest ++ (choices rest).map (a :: ·)

/-- The places of a form, counted from `n`, whose symbols may be left out. -/
def droppablePlaces (nullable : Std.ExtTreeSet Variable) (form : List Symbol) (n : Nat) :
    List Nat :=
  ((form.zipIdx n).filter (·.1.isDroppable nullable)).map Prod.snd

/-- A form, counted from `n`, without the symbols at the given places. -/
def withoutPlaces (form : List Symbol) (n : Nat) (dropped : List Nat) : List Symbol :=
  ((form.zipIdx n).filter (!dropped.contains ·.2)).map Prod.fst

/-- Every way of leaving out some of the droppable symbols, one entry per choice of places. -/
def droppings (nullable : Std.ExtTreeSet Variable) (form : List Symbol) : List (List Symbol) :=
  (choices (droppablePlaces nullable form 0)).map (withoutPlaces form 0)

/-- The productions that stand in for `p` once epsilon productions are gone. -/
def Production.droppings (p : Production) (nullable : Std.ExtTreeSet Variable) :
    Std.ExtTreeSet Production :=
  .ofList (((ContextFree.droppings nullable p.rhs).filter (!·.isEmpty)).map (Production.mk p.lhs))

/-- The grammar without epsilon productions, `nullable` being what may be left out. -/
def Grammar.withoutEpsilon (g : Grammar) (nullable : Std.ExtTreeSet Variable) : Grammar :=
  g.withProductions
    (.ofList (g.productions.toList.flatMap fun p => (p.droppings nullable).toList))

end ContextFree
