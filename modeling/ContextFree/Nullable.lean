import ContextFree.Grammar
import ContextFree.Search

/-!
# Nullable variables

A variable is nullable when it derives the empty word. A production makes its
left-hand side nullable once every symbol of its right-hand side may be left out, so a
terminal anywhere rules the production out and an empty right-hand side needs nothing.

The variables are found by going through the productions in order, again and again. What
a production adds is known to the productions after it in the same pass. The passes end
with the first one that adds nothing.
-/

namespace ContextFree

/-- May this symbol be left out, given the nullable variables? -/
def Symbol.isDroppable (nullable : Std.ExtTreeSet Variable) : Symbol → Bool
  | .terminal _ => false
  | .var v => nullable.contains v

/-- May the whole right-hand side be left out? -/
def Production.isNullable (nullable : Std.ExtTreeSet Variable) (p : Production) : Bool :=
  p.rhs.all (·.isDroppable nullable)

/-- The variables known to be nullable, and whether this pass has found any of them. -/
structure NullablePass where
  known : Std.ExtTreeSet Variable
  changed : Bool := false

namespace NullablePass

/-- Looks at one production. Nothing is to be learnt about a variable that is known. -/
def visit (s : NullablePass) (p : Production) : NullablePass :=
  if p.lhs ∈ s.known then s
  else if p.isNullable s.known then { known := s.known.insert p.lhs, changed := true }
  else s

/-- Looks at productions in turn. -/
def visitAll (s : NullablePass) (ps : List Production) : NullablePass :=
  ps.foldl visit s

theorem visit_cases (s : NullablePass) (p : Production) :
    s.visit p = s ∧ (p.lhs ∈ s.known ∨ ¬ p.isNullable s.known) ∨
      s.visit p = { known := s.known.insert p.lhs, changed := true } ∧
        p.lhs ∉ s.known ∧ p.isNullable s.known := by
  unfold visit
  split
  · exact .inl ⟨rfl, .inl ‹_›⟩
  · split
    · exact .inr ⟨rfl, ‹_›, ‹_›⟩
    · exact .inl ⟨rfl, .inr ‹_›⟩

/-- Nothing known is forgotten. -/
theorem mem_visitAll {s : NullablePass} {ps : List Production} {v : Variable} (h : v ∈ s.known) :
    v ∈ (s.visitAll ps).known := by
  induction ps generalizing s with
  | nil => exact h
  | cons p rest ih =>
    refine ih (s := s.visit p) ?_
    rcases visit_cases s p with ⟨hsame, _⟩ | ⟨hadd, _⟩
    · rw [hsame]
      exact h
    · rw [hadd]
      exact Std.ExtTreeSet.mem_insert.mpr (.inr h)

/-- A pass says that it has changed something only if it has. -/
theorem exists_of_changed {s : NullablePass} {ps : List Production} (hs : s.changed = false)
    (h : (s.visitAll ps).changed = true) :
    ∃ p ∈ ps, p.lhs ∉ s.known ∧ p.lhs ∈ (s.visitAll ps).known := by
  induction ps with
  | nil => exact absurd (hs.symm.trans h) Bool.false_ne_true
  | cons p rest ih =>
    show ∃ q ∈ p :: rest, q.lhs ∉ s.known ∧ q.lhs ∈ ((s.visit p).visitAll rest).known
    rcases visit_cases s p with ⟨hsame, _⟩ | ⟨hadd, hnew, _⟩
    · have hrest : (s.visitAll rest).changed = true := by
        rw [← hsame]
        exact h
      obtain ⟨q, hq, hqnew, hqadd⟩ := ih hrest
      rw [hsame]
      exact ⟨q, List.mem_cons_of_mem _ hq, hqnew, hqadd⟩
    · refine ⟨p, List.mem_cons_self, hnew, mem_visitAll ?_⟩
      rw [hadd]
      exact Std.ExtTreeSet.mem_insert_self

end NullablePass

/-- One pass over productions, starting from what is known. -/
def nullablePass (ps : List Production) (known : Std.ExtTreeSet Variable) : NullablePass :=
  NullablePass.visitAll { known } ps

/-- The productions whose left-hand side is not known to be nullable. -/
def unsettled (ps : List Production) (known : Std.ExtTreeSet Variable) : List Production :=
  remaining Production.lhs ps known

/-- A pass that changes something leaves fewer productions unsettled. -/
theorem length_unsettled_lt {ps : List Production} {known : Std.ExtTreeSet Variable}
    (h : (nullablePass ps known).changed = true) :
    (unsettled ps (nullablePass ps known).known).length < (unsettled ps known).length := by
  obtain ⟨p, hp, hnew, hadd⟩ := NullablePass.exists_of_changed rfl h
  exact length_remaining_lt (fun _ hv => NullablePass.mem_visitAll hv) hp hnew hadd

/-- Repeats passes until one changes nothing. -/
def nullableFrom (ps : List Production) (known : Std.ExtTreeSet Variable) :
    Std.ExtTreeSet Variable :=
  if (nullablePass ps known).changed then
    nullableFrom ps (nullablePass ps known).known
  else
    (nullablePass ps known).known
termination_by (unsettled ps known).length
decreasing_by exact length_unsettled_lt ‹_›

/-- The variables that derive the empty word. -/
def Grammar.nullable (g : Grammar) : Std.ExtTreeSet Variable :=
  nullableFrom g.productions.toList ∅

end ContextFree
