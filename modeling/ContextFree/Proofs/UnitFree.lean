import ContextFree.Derivation
import ContextFree.Proofs.EpsilonFree
import ContextFree.Proofs.Search
import ContextFree.UnitFree

/-!
# Removing unit productions changes no variable's words

A derivation may take unit steps at any depth and go round a cycle of them any number
of times. Neither matters once reaching is a relation of its own: `unitReach` is found
by searching the graph of the unit productions, and what it finds is the reflexive
transitive closure of the unit steps.

The productions of the outcome are then known outright. A variable has the non-unit
productions of all it reaches, and nothing else. Both directions of the proof are by
induction on trees. A node of the new grammar unfolds into a path of unit steps with
the old production at its end; a unit step at the top of an old tree is absorbed by the
production that the induction hypothesis found below it.
-/

namespace ContextFree

theorem Production.unitEdge?_eq_some_iff {p : Production} {a b : Variable} :
    p.unitEdge? = some (a, b) ↔ p = ⟨a, [.var b]⟩ := by
  unfold unitEdge?
  rw [Option.map_eq_some_iff]
  constructor
  · rintro ⟨target, htarget, heq⟩
    obtain ⟨lhs, rhs⟩ := p
    obtain ⟨rfl, rfl⟩ := Prod.mk.inj heq
    exact congrArg (Production.mk lhs) (unitTarget?_eq_some_iff.mp htarget)
  · rintro rfl
    exact ⟨b, rfl, rfl⟩

namespace Grammar

variable {g : Grammar}

/-! ## Reaching by unit productions -/

/-- One variable is passed on to another. -/
def UnitStep (g : Grammar) (a b : Variable) : Prop :=
  ⟨a, [.var b]⟩ ∈ g.productions

/-- One variable is passed on to another in any number of steps, none included. -/
abbrev UnitReaches (g : Grammar) : Variable → Variable → Prop :=
  Relation.ReflTransGen g.UnitStep

theorem mem_unitEdges_iff {a b : Variable} : (a, b) ∈ g.unitEdges ↔ g.UnitStep a b := by
  unfold unitEdges
  simp only [List.mem_filterMap, Std.ExtTreeSet.mem_toList, Production.unitEdge?_eq_some_iff,
    exists_eq_right, UnitStep]

/-- **The search finds what is reachable and nothing else.** -/
theorem mem_unitReach_iff {a b : Variable} : b ∈ g.unitReach a ↔ g.UnitReaches a b := by
  have hsteps : (fun b c => (b, c) ∈ g.unitEdges) = g.UnitStep :=
    funext fun _ => funext fun _ => propext mem_unitEdges_iff
  unfold unitReach
  rw [mem_reachable_iff, Reaches, hsteps]

/-- Whoever reaches a variable with a production is mentioned. -/
theorem UnitReaches.mem_vars {a b : Variable} {rhs : List Symbol} (h : g.UnitReaches a b)
    (hp : ⟨b, rhs⟩ ∈ g.productions) : a ∈ g.vars := by
  rcases Relation.ReflTransGen.cases_head h with rfl | ⟨c, hstep, _⟩
  · exact lhs_mem_vars hp
  · exact lhs_mem_vars hstep

/-! ## The productions of the outcome -/

theorem mem_nonUnits_iff {p : Production} : p ∈ g.nonUnits ↔ p ∈ g.productions ∧ ¬ p.isUnit := by
  simp [nonUnits]

theorem mem_takenOver_iff {v target : Variable} {q : Production} :
    q ∈ g.takenOver v target ↔
      q.lhs = v ∧ ⟨target, q.rhs⟩ ∈ g.productions ∧ ¬ (Production.mk target q.rhs).isUnit := by
  unfold takenOver
  simp only [List.mem_map, List.mem_filter, mem_nonUnits_iff, decide_eq_true_eq]
  constructor
  · rintro ⟨p, ⟨⟨hp, hunit⟩, rfl⟩, rfl⟩
    exact ⟨rfl, hp, hunit⟩
  · rintro ⟨rfl, hp, hunit⟩
    exact ⟨⟨target, q.rhs⟩, ⟨⟨hp, hunit⟩, rfl⟩, rfl⟩

/-- A pair is a variable of the grammar and one it reaches. -/
theorem mem_unitPairs_iff {a b : Variable} :
    (a, b) ∈ g.unitPairs ↔ a ∈ g.vars ∧ g.UnitReaches a b := by
  simp [unitPairs, mem_unitReach_iff]

theorem mem_withoutUnits_iff {q : Production} :
    q ∈ g.withoutUnits.productions ↔
      ¬ q.isUnit ∧ ∃ target, g.UnitReaches q.lhs target ∧ ⟨target, q.rhs⟩ ∈ g.productions := by
  have hmem : q ∈ g.withoutUnits.productions ↔
      q ∈ g.nonUnits ∨ ∃ e ∈ g.unitPairs, q ∈ g.takenOver e.1 e.2 := by
    unfold withoutUnits withProductions
    simp only [Std.ExtTreeSet.mem_ofList, List.contains_iff_mem, List.mem_append,
      List.mem_flatMap]
  rw [hmem]
  constructor
  · rintro (hown | ⟨⟨v, target⟩, hpair, htaken⟩)
    · obtain ⟨hq, hunit⟩ := mem_nonUnits_iff.mp hown
      exact ⟨hunit, q.lhs, .refl, hq⟩
    · obtain ⟨rfl, hp, hunit⟩ := mem_takenOver_iff.mp htaken
      exact ⟨hunit, target, (mem_unitPairs_iff.mp hpair).2, hp⟩
  · rintro ⟨hunit, target, hreach, hp⟩
    refine .inr ⟨(q.lhs, target), ?_, mem_takenOver_iff.mpr ⟨rfl, hp, hunit⟩⟩
    exact mem_unitPairs_iff.mpr ⟨hreach.mem_vars hp, hreach⟩

/--
**The pairs are exactly reachability by unit productions**, from every variable the grammar
mentions, wherever it does. Each search ends, after one step for each variable it finds and no
sooner, whatever cycles there are. And a variable ends up with the non-unit productions of its
pairs and nothing else.
-/
theorem unit_closure_exact (g : Grammar) :
    (∀ v, Search.steps g.unitEdges (g.unitReach v).size (.start v) =
        { met := g.unitReach v, queue := [] } ∧
      ∀ n < (g.unitReach v).size, (Search.steps g.unitEdges n (.start v)).queue ≠ []) ∧
    (∀ a b, (a, b) ∈ g.unitPairs ↔ a ∈ g.vars ∧ g.UnitReaches a b) ∧
    ∀ q, q ∈ g.withoutUnits.productions ↔
      ∃ b, (q.lhs, b) ∈ g.unitPairs ∧ ⟨b, q.rhs⟩ ∈ g.productions ∧ ∀ v, q.rhs ≠ [.var v] := by
  refine ⟨steps_reachable g.unitEdges, fun a b => mem_unitPairs_iff, fun q => ?_⟩
  have hunit : ¬ q.isUnit ↔ ∀ v, q.rhs ≠ [.var v] := by
    rw [Production.isUnit_iff, not_exists]
  rw [mem_withoutUnits_iff, hunit]
  constructor
  · rintro ⟨hnot, b, hreach, hp⟩
    exact ⟨b, mem_unitPairs_iff.mpr ⟨hreach.mem_vars hp, hreach⟩, hp, hnot⟩
  · rintro ⟨b, hpair, hp, hnot⟩
    exact ⟨hnot, b, (mem_unitPairs_iff.mp hpair).2, hp⟩

/-! ## The shape of the outcome -/

/-- No production has a single variable on its right. -/
def IsUnitFree (g : Grammar) : Prop :=
  ∀ p ∈ g.productions, ¬ p.isUnit

theorem isUnitFree_withoutUnits (g : Grammar) : g.withoutUnits.IsUnitFree :=
  fun _ hq => (mem_withoutUnits_iff.mp hq).1

/-- Right-hand sides are only passed on, so none of them becomes empty. -/
theorem IsEpsilonFree.withoutUnits (hg : g.IsEpsilonFree) : g.withoutUnits.IsEpsilonFree := by
  intro q hq
  obtain ⟨_, target, _, hp⟩ := mem_withoutUnits_iff.mp hq
  exact hg ⟨target, q.rhs⟩ hp

/-! ## Every variable keeps its words -/

/-- Words travel up a path of unit steps. -/
theorem UnitReaches.yields {a b : Variable} {w : List Char} (h : g.UnitReaches a b)
    (hb : g.Yields [.var b] w) : g.Yields [.var a] w := by
  induction h with
  | refl => exact hb
  | tail _ hstep ih => exact ih (yields_var_iff.mpr ⟨_, hstep, hb⟩)

theorem yields_of_withoutUnits {form : List Symbol} {w : List Char}
    (h : g.withoutUnits.Yields form w) : g.Yields form w := by
  induction h with
  | nil => exact .nil
  | terminal _ ih => exact .terminal ih
  | var hp _ _ ihrhs ihrest =>
    -- the node stands for a path of unit steps with the old production at its end
    obtain ⟨_, target, hreach, htarget⟩ := mem_withoutUnits_iff.mp hp
    have htop := hreach.yields (yields_var_iff.mpr ⟨_, htarget, ihrhs⟩)
    exact yields_cons_iff.mpr ⟨_, _, rfl, htop, ihrest⟩

/-- What the target of a unit production has in the outcome, its left-hand side has too. -/
theorem UnitStep.mem_withoutUnits {a b : Variable} {rhs : List Symbol} (h : g.UnitStep a b)
    (hb : ⟨b, rhs⟩ ∈ g.withoutUnits.productions) : ⟨a, rhs⟩ ∈ g.withoutUnits.productions := by
  obtain ⟨hunit, target, hreach, htarget⟩ := mem_withoutUnits_iff.mp hb
  exact mem_withoutUnits_iff.mpr ⟨hunit, target, Relation.ReflTransGen.head h hreach, htarget⟩

theorem Yields.withoutUnits {form : List Symbol} {w : List Char} (h : g.Yields form w) :
    g.withoutUnits.Yields form w := by
  induction h with
  | nil => exact .nil
  | terminal _ ih => exact .terminal ih
  | @var v rhs rest u w hp _ _ ihrhs ihrest =>
    by_cases hunit : (Production.mk v rhs).isUnit
    · -- the production one step down already has this word without a unit step
      obtain ⟨target, rfl⟩ := Production.isUnit_iff.mp hunit
      obtain ⟨below, hbelow, hu⟩ := yields_var_iff.mp ihrhs
      exact .var (UnitStep.mem_withoutUnits hp hbelow) hu ihrest
    · have hmem : ⟨v, rhs⟩ ∈ g.withoutUnits.productions :=
        mem_withoutUnits_iff.mpr ⟨hunit, v, .refl, hp⟩
      exact .var hmem ihrhs ihrest

/-- **Removing unit productions changes the words of no form.** -/
theorem yields_withoutUnits_iff {form : List Symbol} {w : List Char} :
    g.withoutUnits.Yields form w ↔ g.Yields form w :=
  ⟨yields_of_withoutUnits, Yields.withoutUnits⟩

/--
**Said of derivations: no unit production is left, and every variable has the words it had.**
The empty word is one of them, and cycles of unit productions need not be excluded.
-/
theorem withoutUnits_keeps_words (g : Grammar) :
    g.withoutUnits.IsUnitFree ∧
      ∀ (v : Variable) (w : List Char), g.withoutUnits.Produces v w ↔ g.Produces v w := by
  refine ⟨isUnitFree_withoutUnits g, fun v w => ?_⟩
  simp only [produces_iff_yields]
  exact yields_withoutUnits_iff

end Grammar

end ContextFree
