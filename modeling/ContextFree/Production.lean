import ContextFree.Symbol

/-!
# Productions

A production rewrites its left-hand variable into its right-hand side. The shapes
that matter to normal forms are named here once, each as a test on the right-hand
side, so that the passes and the faults they report speak the same language.

Productions compare by left-hand side first and then by right-hand side, place by
place, a proper beginning coming before what it begins.
-/

namespace ContextFree

/-- A rewriting rule: `lhs` may be replaced by `rhs`. -/
structure Production where
  lhs : Variable
  rhs : List Symbol
deriving DecidableEq, Inhabited, Repr

namespace Production

/-- The left-hand side decides; the right-hand side breaks ties. -/
instance : Ord Production where
  compare p q := (compare p.lhs q.lhs).then (compare p.rhs q.rhs)

instance : Std.TransOrd Production :=
  inferInstanceAs (Std.TransCmp (compareLex (compareOn lhs) (compareOn rhs)))

instance : Std.LawfulEqOrd Production where
  eq_of_compare {p q} h := by
    have h' : compare p.lhs q.lhs = .eq ∧ compare p.rhs q.rhs = .eq :=
      Ordering.then_eq_eq.mp h
    have hlhs := Std.LawfulEqOrd.eq_of_compare h'.1
    have hrhs := Std.LawfulEqOrd.eq_of_compare h'.2
    cases p; cases q; simp_all

/-! ## Shapes -/

/-- An epsilon production has nothing on its right. -/
def isEpsilon (p : Production) : Bool :=
  p.rhs.isEmpty

/-- The variable a unit production passes on to. -/
def unitTarget? (p : Production) : Option Variable :=
  match p.rhs with
  | [.var v] => some v
  | _ => none

/-- A unit production has a single variable on its right. -/
def isUnit (p : Production) : Bool :=
  p.unitTarget?.isSome

/-- A single terminal on the right. -/
def isTerminal (p : Production) : Bool :=
  match p.rhs with
  | [.terminal _] => true
  | _ => false

/-- Exactly two variables on the right. -/
def isBinary (p : Production) : Bool :=
  match p.rhs with
  | [.var _, .var _] => true
  | _ => false

theorem isEpsilon_iff {p : Production} : p.isEpsilon ↔ p.rhs = [] :=
  List.isEmpty_iff

theorem unitTarget?_eq_some_iff {p : Production} {v : Variable} :
    p.unitTarget? = some v ↔ p.rhs = [.var v] := by
  unfold unitTarget?
  split <;> simp_all

theorem isUnit_iff {p : Production} : p.isUnit ↔ ∃ v, p.rhs = [.var v] := by
  simp [isUnit, Option.isSome_iff_exists, unitTarget?_eq_some_iff]

theorem isTerminal_iff {p : Production} : p.isTerminal ↔ ∃ c, p.rhs = [.terminal c] := by
  unfold isTerminal
  split <;> simp_all

theorem isBinary_iff {p : Production} : p.isBinary ↔ ∃ v w, p.rhs = [.var v, .var w] := by
  unfold isBinary
  split <;> simp_all

/-! ## Variables and text -/

/-- Every variable of a production, the left-hand side first. -/
def vars (p : Production) : List Variable :=
  p.lhs :: p.rhs.filterMap Symbol.var?

theorem mem_vars {p : Production} {v : Variable} :
    v ∈ p.vars ↔ v = p.lhs ∨ .var v ∈ p.rhs := by
  simp [vars, Symbol.var?_eq_some_iff]

theorem lhs_mem_vars (p : Production) : p.lhs ∈ p.vars :=
  mem_vars.mpr (.inl rfl)

theorem rhs_mem_vars {p : Production} {v : Variable} (hv : .var v ∈ p.rhs) : v ∈ p.vars :=
  mem_vars.mpr (.inr hv)

/-- The written form: the left-hand side, a colon, and the symbols in order. -/
def render (p : Production) : String :=
  p.lhs.render ++ ":" ++ String.join (p.rhs.map Symbol.render)

end Production

end ContextFree
