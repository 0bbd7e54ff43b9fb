import ContextFree.Draws
import ContextFree.Grammar

/-!
# Sampling words

A word is sampled by expanding the start variable, always the leftmost pending
variable first, with alternatives drawn from a source. Every pending symbol is tagged
with its depth in the derivation tree, and a variable below the depth limit is not
expanded: the run ends with a fault instead.

The pending list can grow at every step, so its length is no measure of progress.
What goes down is a weight: a symbol at depth `d` weighs more than any right-hand side
whose symbols sit at depth `d + 1`. That the weight is finite is the work of the depth
limit.
-/

namespace ContextFree

/-- Why a run ended without a word. -/
inductive SamplingFault where
  /-- A variable without alternatives came up. -/
  | undefined (v : Variable)
  /-- A variable came up beyond the depth limit. -/
  | tooDeep (maxDepth : Nat)
deriving DecidableEq, Repr

/-- The wording of a fault. -/
def SamplingFault.message : SamplingFault → String
  | undefined v => "No productions for variable `" ++ v.render ++ "`"
  | tooDeep maxDepth =>
    "Derivation went deeper than " ++ toString maxDepth ++
      " steps (try a larger --max-depth)"

/-- Draws one of a variable's alternatives. Nothing is drawn if there are none. -/
def Grammar.drawAlternative (g : Grammar) (v : Variable) (draws : Draws) :
    Option (Production × Draws) :=
  match g.productionsOf v with
  | [] => none
  | p :: rest =>
    let drawn := draws.choose (rest.length + 1)
    some ((p :: rest).get ⟨drawn.1, draws.choose_lt (Nat.succ_pos _)⟩, drawn.2)

/-! ## One step -/

/-- A run under way: what is still to be expanded, and the word so far, latest first. -/
structure Expansion where
  pending : List (Symbol × Nat)
  word : List Char
  draws : Draws
deriving DecidableEq, Repr

/-- A step leads on to another expansion or ends the run. -/
inductive Expansion.Step where
  | next (e : Expansion)
  | done (result : Except SamplingFault (List Char)) (draws : Draws)

/-- Deals with the first pending symbol. -/
def Expansion.step (g : Grammar) (maxDepth : Nat) (e : Expansion) : Step :=
  match e.pending with
  | [] => .done (.ok e.word.reverse) e.draws
  | (.terminal c, _) :: rest => .next { e with pending := rest, word := c :: e.word }
  | (.var v, depth) :: rest =>
    if maxDepth < depth then
      .done (.error (.tooDeep maxDepth)) e.draws
    else
      match g.drawAlternative v e.draws with
      | none => .done (.error (.undefined v)) e.draws
      | some (p, draws) =>
        .next { e with pending := p.rhs.map (·, depth + 1) ++ rest, draws }

/-! ## Why runs end -/

/-- The lengths of some right-hand sides taken together, so at least the length of each. -/
def totalLength : List Production → Nat
  | [] => 0
  | p :: rest => p.rhs.length + totalLength rest

/-- No right-hand side of the grammar is longer than this. -/
def Grammar.breadth (g : Grammar) : Nat :=
  totalLength g.productions.toList

/-- What a symbol weighs that has this many levels left to the depth limit. -/
def levelWeight (breadth : Nat) : Nat → Nat
  | 0 => 1
  | levels + 1 => (breadth + 1) * levelWeight breadth levels

/-- The weight of some pending symbols. -/
def pendingWeight (breadth maxDepth : Nat) : List (Symbol × Nat) → Nat
  | [] => 0
  | (_, depth) :: rest =>
    levelWeight breadth (maxDepth + 1 - depth) + pendingWeight breadth maxDepth rest

/-- The weight of everything pending in an expansion. -/
def Expansion.weight (g : Grammar) (maxDepth : Nat) (e : Expansion) : Nat :=
  pendingWeight g.breadth maxDepth e.pending

theorem length_le_totalLength {p : Production} {ps : List Production} (hp : p ∈ ps) :
    p.rhs.length ≤ totalLength ps := by
  induction ps with
  | nil => cases hp
  | cons q rest ih =>
    rcases List.mem_cons.mp hp with rfl | h
    · exact Nat.le_add_right _ _
    · exact Nat.le_add_left_of_le (ih h)

theorem Grammar.length_le_breadth {g : Grammar} {p : Production} (hp : p ∈ g.productions) :
    p.rhs.length ≤ g.breadth :=
  length_le_totalLength (by simpa using hp)

/-- What is drawn is one of the variable's alternatives. -/
theorem Grammar.mem_productionsOf_of_drawAlternative {g : Grammar} {v : Variable}
    {draws draws' : Draws} {p : Production} (h : g.drawAlternative v draws = some (p, draws')) :
    p ∈ g.productionsOf v := by
  unfold drawAlternative at h
  split at h
  · cases h
  · rename_i q rest heq
    simp only [Option.some.injEq, Prod.mk.injEq] at h
    rw [heq, ← h.1]
    exact List.get_mem _ _

theorem Grammar.mem_of_drawAlternative {g : Grammar} {v : Variable} {draws draws' : Draws}
    {p : Production} (h : g.drawAlternative v draws = some (p, draws')) : p ∈ g.productions :=
  (mem_productionsOf.mp (mem_productionsOf_of_drawAlternative h)).1

theorem levelWeight_pos (breadth levels : Nat) : 0 < levelWeight breadth levels := by
  induction levels with
  | zero => exact Nat.one_pos
  | succ _ ih => exact Nat.mul_pos (Nat.succ_pos _) ih

theorem pendingWeight_append (breadth maxDepth : Nat) (a b : List (Symbol × Nat)) :
    pendingWeight breadth maxDepth (a ++ b) =
      pendingWeight breadth maxDepth a + pendingWeight breadth maxDepth b := by
  induction a with
  | nil => exact (Nat.zero_add _).symm
  | cons _ _ ih => simp only [List.cons_append, pendingWeight, ih, Nat.add_assoc]

theorem pendingWeight_map (breadth maxDepth depth : Nat) (rhs : List Symbol) :
    pendingWeight breadth maxDepth (rhs.map (·, depth)) =
      rhs.length * levelWeight breadth (maxDepth + 1 - depth) := by
  induction rhs with
  | nil => exact (Nat.zero_mul _).symm
  | cons _ _ ih =>
    simp only [List.map_cons, pendingWeight, ih, List.length_cons, Nat.succ_mul]
    omega

/-- A symbol outweighs any right-hand side one level below it. -/
theorem mul_levelWeight_lt {breadth n : Nat} (levels : Nat) (hn : n ≤ breadth) :
    n * levelWeight breadth levels < levelWeight breadth (levels + 1) :=
  calc n * levelWeight breadth levels
      ≤ breadth * levelWeight breadth levels := Nat.mul_le_mul_right _ hn
    _ < (breadth + 1) * levelWeight breadth levels :=
      Nat.mul_lt_mul_of_pos_right (Nat.lt_succ_self _) (levelWeight_pos _ _)

/-- Every step takes weight off. -/
theorem Expansion.weight_step_lt {g : Grammar} {maxDepth : Nat} {e e' : Expansion}
    (h : e.step g maxDepth = .next e') : e'.weight g maxDepth < e.weight g maxDepth := by
  obtain ⟨pending, word, draws⟩ := e
  unfold step at h
  match pending with
  | [] => cases h
  | (.terminal c, depth) :: rest =>
    cases h
    have := levelWeight_pos g.breadth (maxDepth + 1 - depth)
    simp only [weight, pendingWeight]
    omega
  | (.var v, depth) :: rest =>
    dsimp only at h
    split at h
    · cases h
    · rename_i hdepth
      split at h
      · cases h
      · rename_i p draws' hdraw
        cases h
        have hlen := Grammar.length_le_breadth (Grammar.mem_of_drawAlternative hdraw)
        have hlt := mul_levelWeight_lt (maxDepth + 1 - (depth + 1)) hlen
        have hlevels : maxDepth + 1 - depth = maxDepth + 1 - (depth + 1) + 1 := by omega
        simp only [weight, pendingWeight_append, pendingWeight_map, pendingWeight]
        rw [hlevels]
        omega

/-! ## Whole runs -/

/-- Steps until the run ends. -/
def Expansion.run (g : Grammar) (maxDepth : Nat) (e : Expansion) :
    Except SamplingFault (List Char) × Draws :=
  match _h : e.step g maxDepth with
  | .next e' => e'.run g maxDepth
  | .done result draws => (result, draws)
termination_by e.weight g maxDepth
decreasing_by exact weight_step_lt _h

/-- The run that has done nothing yet: the start variable is pending, at depth zero. -/
def Expansion.initial (g : Grammar) (draws : Draws) : Expansion where
  pending := [(.var g.start, 0)]
  word := []
  draws

/-- Samples a word whose derivation nests no deeper than `maxDepth`. -/
def Grammar.sample (g : Grammar) (maxDepth : Nat) (draws : Draws) :
    Except SamplingFault (List Char) × Draws :=
  (Expansion.initial g draws).run g maxDepth

end ContextFree
