import ContextFree.Fresh

/-!
# Binary form

A grammar without epsilon and unit productions is brought into normal form in two
moves. In a right-hand side of two symbols or more, each terminal is replaced by a
wrapper, a variable whose only production is that terminal; a terminal has one
wrapper throughout. Then a right-hand side of more than two variables is cut after
its first one, and a chain variable stands for the rest.

The grammar is rewritten as it stands. Both moves introduce variables, and both take
them from its counter; a name is free when the grammar does not mention it at that
moment. A wrapper's production is added as soon as the wrapper is named. The links of
a chain are added once the chain is complete, and only then is the production they
spell out taken away, so that its names are not free in the meantime.

Productions are treated in order, and within one production the wrappers come before
the chain. The outcome, names included, therefore depends on nothing but the set of
productions and the counter.
-/

namespace ContextFree

/-- A production that has no binary form. -/
inductive Leftover where
  | epsilon (p : Production)
  | unit (p : Production)
deriving DecidableEq, Repr

/-- Why the production has no binary form, if it has none. -/
def Production.leftover? (p : Production) : Option Leftover :=
  if p.isEpsilon then some (.epsilon p)
  else if p.isUnit then some (.unit p)
  else none

theorem Production.leftover?_eq_none_iff {p : Production} :
    p.leftover? = none ↔ p.rhs ≠ [] ∧ ¬ p.isUnit := by
  unfold leftover?
  by_cases hempty : p.isEpsilon
  · simp [hempty, isEpsilon_iff.mp hempty]
  · have hrhs : p.rhs ≠ [] := fun hnil => hempty (isEpsilon_iff.mpr hnil)
    by_cases hunit : p.isUnit
    · simp [hempty, hunit]
    · simp [hempty, hunit, hrhs]

/-! ## Chaining long right-hand sides -/

/--
The productions that spell out `lhs → vs` two variables at a time, and the number
that comes after those used for the chain.
-/
def chain (taken : Std.ExtTreeSet Variable) (lhs : Variable) :
    List Variable → Nat → List Production × Nat
  | x :: y :: z :: rest, n =>
    let m := firstFree chainStem taken n
    let next := Variable.numbered chainStem m
    let (ps, n) := chain taken next (y :: z :: rest) (m + 1)
    (⟨lhs, [.var x, .var next]⟩ :: ps, n)
  | vs, n => ([⟨lhs, vs.map .var⟩], n)

/-- Adds what spells a production out and takes it away, unless that is the production itself. -/
def Grammar.exchange (g : Grammar) (p : Production) (links : List Production) : Grammar :=
  let grown := g.withProductions (g.productions.insertMany links)
  if p ∈ links then grown else grown.erase p

/-! ## A grammar being rewritten -/

/-- A grammar on its way to binary form, and the wrapper of each terminal met so far. -/
structure Rewriting where
  grammar : Grammar
  wrappers : List (Char × Variable) := []
deriving DecidableEq

namespace Rewriting

/-- The wrapper of a terminal. If the terminal has none yet, one is named and defined. -/
def wrapperFor (c : Char) (r : Rewriting) : Variable × Rewriting :=
  match r.wrappers.lookup c with
  | some v => (v, r)
  | none =>
    let (v, g) := r.grammar.fresh wrapperStem
    (v, { grammar := g.insert ⟨v, [.terminal c]⟩, wrappers := r.wrappers ++ [(c, v)] })

/-- A right-hand side with a wrapper in place of every terminal. -/
def wrapAll : List Symbol → Rewriting → List Variable × Rewriting
  | [], r => ([], r)
  | .var v :: rest, r =>
    let (vs, r) := r.wrapAll rest
    (v :: vs, r)
  | .terminal c :: rest, r =>
    let (v, r) := r.wrapperFor c
    let (vs, r) := r.wrapAll rest
    (v :: vs, r)

/-- Puts a chain in the place of a production. -/
def replace (p : Production) (r : Rewriting) : Rewriting :=
  let (vs, r) := r.wrapAll p.rhs
  let (links, n) := chain r.grammar.vars p.lhs vs r.grammar.counter
  { r with grammar := { r.grammar with counter := n }.exchange p links }

/-- Treats one production; a single terminal on the right stays as it is. -/
def treat (p : Production) (r : Rewriting) : Except Leftover Rewriting :=
  match p.leftover? with
  | some leftover => .error leftover
  | none => .ok (if p.isTerminal then r else r.replace p)

/-- Treats productions in turn, up to the first that has no binary form. -/
def treatAll : List Production → Rewriting → Except Leftover Rewriting
  | [], r => .ok r
  | p :: rest, r =>
    match r.treat p with
    | .error leftover => .error leftover
    | .ok r => r.treatAll rest

end Rewriting

/-- The grammar in binary form, or the first production that has none. -/
def Grammar.binarize (g : Grammar) : Except Leftover Grammar :=
  match Rewriting.treatAll g.productions.toList { grammar := g } with
  | .error leftover => .error leftover
  | .ok r => .ok r.grammar

end ContextFree
