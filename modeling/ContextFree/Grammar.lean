import ContextFree.Production

/-!
# Grammars

A grammar is a start variable and a finite set of productions. The set is kept in
the order of productions, so two grammars with the same rules list them alike,
whatever order they were given in.

Passes that change a grammar sometimes need variables nobody has used. A grammar
therefore carries a counter from which such names are numbered. The counter is
not part of what the grammar says: `Grammar.SameRules` ignores it. It only ever
grows, which is what keeps two names handed out at different times apart even if
the first one was never put to use.
-/

namespace ContextFree

/-- A start variable, a set of productions, and the next number for a fresh name. -/
@[ext]
structure Grammar where
  start : Variable
  productions : Std.ExtTreeSet Production
  counter : Nat := 0
deriving DecidableEq

namespace Grammar

/-- The grammar of a list of productions; repetitions and order do not count. -/
def ofList (start : Variable) (productions : List Production) : Grammar where
  start
  productions := .ofList productions

theorem mem_ofList {start : Variable} {ps : List Production} {p : Production} :
    p ∈ (ofList start ps).productions ↔ p ∈ ps := by
  rw [ofList, Std.ExtTreeSet.mem_ofList, List.contains_iff_mem]

/-- The same start and counter over other productions. -/
def withProductions (g : Grammar) (productions : Std.ExtTreeSet Production) : Grammar :=
  { g with productions }

/-- Adds a production. -/
def insert (g : Grammar) (p : Production) : Grammar :=
  g.withProductions (g.productions.insert p)

theorem mem_insert {g : Grammar} {p q : Production} :
    q ∈ (g.insert p).productions ↔ q = p ∨ q ∈ g.productions := by
  rw [insert, withProductions, Std.ExtTreeSet.mem_insert, Std.LawfulEqCmp.compare_eq_iff_eq,
    eq_comm]

/-- Takes a production away. -/
def erase (g : Grammar) (p : Production) : Grammar :=
  g.withProductions (g.productions.erase p)

/-- The same start and the same productions, whatever the counters say. -/
def SameRules (g h : Grammar) : Prop :=
  g.start = h.start ∧ g.productions = h.productions

instance (g h : Grammar) : Decidable (g.SameRules h) :=
  inferInstanceAs (Decidable (_ ∧ _))

/-! ## Looking inside -/

/-- Nothing is listed twice. -/
theorem nodup_toList (g : Grammar) : g.productions.toList.Nodup := by
  refine Std.ExtTreeSet.distinct_toList.imp fun {p q} hne heq => hne ?_
  rw [heq]
  exact Std.ReflOrd.compare_self

/-- The alternatives of a variable, in order. -/
def productionsOf (g : Grammar) (v : Variable) : List Production :=
  g.productions.toList.filter (·.lhs = v)

theorem mem_productionsOf {g : Grammar} {v : Variable} {p : Production} :
    p ∈ g.productionsOf v ↔ p ∈ g.productions ∧ p.lhs = v := by
  simp [productionsOf]

/-- Every variable that appears anywhere, the start included. -/
def vars (g : Grammar) : Std.ExtTreeSet Variable :=
  .ofList (g.start :: g.productions.toList.flatMap Production.vars)

theorem mem_vars {g : Grammar} {v : Variable} :
    v ∈ g.vars ↔ v = g.start ∨ ∃ p ∈ g.productions, v ∈ p.vars := by
  simp [vars]

theorem start_mem_vars (g : Grammar) : g.start ∈ g.vars :=
  mem_vars.mpr (.inl rfl)

theorem mem_vars_of_mem {g : Grammar} {p : Production} (hp : p ∈ g.productions) {v : Variable}
    (hv : v ∈ p.vars) : v ∈ g.vars :=
  mem_vars.mpr (.inr ⟨p, hp, hv⟩)

theorem lhs_mem_vars {g : Grammar} {p : Production} (hp : p ∈ g.productions) : p.lhs ∈ g.vars :=
  mem_vars_of_mem hp p.lhs_mem_vars

theorem rhs_mem_vars {g : Grammar} {p : Production} (hp : p ∈ g.productions) {v : Variable}
    (hv : .var v ∈ p.rhs) : v ∈ g.vars :=
  mem_vars_of_mem hp (Production.rhs_mem_vars hv)

theorem mem_vars_of_mem_toList (g : Grammar) :
    ∀ p ∈ g.productions.toList, ∀ v ∈ p.vars, v ∈ g.vars :=
  fun _ hp _ hv => mem_vars_of_mem (Std.ExtTreeSet.mem_toList.mp hp) hv

theorem mem_vars_insert {g : Grammar} {p : Production} {v : Variable} :
    v ∈ (g.insert p).vars ↔ v ∈ p.vars ∨ v ∈ g.vars := by
  have hstart : (g.insert p).start = g.start := rfl
  simp only [mem_vars, mem_insert, hstart, or_and_right, exists_or, exists_eq_left]
  rw [or_left_comm]

/-- Does the variable appear anywhere in the grammar? -/
def mentions (g : Grammar) (v : Variable) : Bool :=
  g.vars.contains v

theorem mentions_iff {g : Grammar} {v : Variable} : g.mentions v ↔ v ∈ g.vars :=
  Std.ExtTreeSet.contains_iff_mem

/-! ## The written form -/

/-- The productions in the order they are written: the start's alternatives first. -/
def listing (g : Grammar) : List Production :=
  g.productionsOf g.start ++ g.productions.toList.filter (·.lhs ≠ g.start)

theorem mem_listing {g : Grammar} {p : Production} : p ∈ g.listing ↔ p ∈ g.productions := by
  by_cases h : p.lhs = g.start <;> simp [listing, mem_productionsOf, h]

/--
The number of productions on a line of its own, then one production a line.

The start is not written. It is understood to be the left-hand side of the first
line, which is why its alternatives come first.
-/
def render (g : Grammar) : String :=
  toString g.productions.size ++ "\n" ++
    String.join (g.listing.map fun p => p.render ++ "\n")

end Grammar

end ContextFree
