import ContextFree.Proofs.Trees
import ContextFree.Sampling

/-!
# Sampling reaches every word within the depth limit, and no other

A run works on a list of pending symbols with their depths, a derivation tree is the whole
history at once. They meet in what is still pending: `PendingYields` says which words the
pending symbols spell, each by a tree within the levels left to it.

**No other word.** A step replaces the first pending symbol by what its production has on
the right, or moves a character over to the word. Whatever can be spelled after a step could
be spelled before it, and a run that ends with a word has nothing pending. The start variable
alone, at depth zero, spells the words within the limit.

**Every word.** A tree is turned into a script by induction on it, the numbers for a node
before those for what is below it and these before those for what is to its right. The
statement has to leave open what is pending behind the form and what follows in the script,
since a right-hand side is put in front of all that waits. Each number has to make a
particular pick and to be accepted. Of the numbers that pick an alternative the smallest one
always is, as long as there are fewer alternatives than numbers.
-/

namespace ContextFree

/-! ## Every alternative can be drawn -/

/-- The smallest multiple of `n` that reaches `i` ranges lies within the range that comes next. -/
theorem share_reached {range n i : Nat} (hi : i < n) (hn : n ≤ range) :
    ∃ low, low < n ∧ (i * range + (n - 1)) / n * n = low + i * range ∧
      (i * range + (n - 1)) / n < range := by
  have hpos : 0 < n := Nat.zero_lt_of_lt hi
  -- `m * n` is less than `n` past `i` ranges, and there is a whole range up to `i + 1` of them
  generalize hm : (i * range + (n - 1)) / n = m
  have hrounded : m * n ≤ i * range + (n - 1) := hm ▸ Nat.div_mul_le_self _ n
  have hreached : i * range + (n - 1) < m * n + n := hm ▸ Nat.lt_div_mul_add hpos
  have hshare : (i + 1) * range ≤ n * range := Nat.mul_le_mul_right _ hi
  rw [Nat.add_mul, Nat.one_mul] at hshare
  refine ⟨m * n - i * range, by omega, by omega, ?_⟩
  refine Nat.lt_of_mul_lt_mul_right (a := n) ?_
  rw [Nat.mul_comm range n]
  omega

theorem le_acceptanceBound {n k : Nat} (h : k < n) : k ≤ acceptanceBound n := by
  have hshift : n ≤ n <<< (31 - n.log2) := by
    rw [Nat.shiftLeft_eq]
    exact Nat.le_mul_of_pos_right n (Nat.two_pow_pos _)
  unfold acceptanceBound
  omega

/-- **Any one of the alternatives is picked by some number**, the smallest that comes near it. -/
theorem exists_pick? {n i : Nat} (hi : i < n) (hn : n < drawRange) :
    ∃ x : UInt32, pick? n x = some i := by
  obtain ⟨low, hlow, hproduct, hrange⟩ := share_reached hi (Nat.le_of_lt hn)
  -- the product is `low` past `i` ranges: its high half is `i` and its low half is `low`
  have hless : low < drawRange := Nat.lt_trans hlow hn
  have hmod : (low + i * drawRange) % drawRange = low := by
    rw [Nat.add_mul_mod_self_right, Nat.mod_eq_of_lt hless]
  have hdiv : (low + i * drawRange) / drawRange = i := by
    rw [Nat.add_mul_div_right _ _ (Nat.zero_lt_of_lt hless), Nat.div_eq_of_lt hless, Nat.zero_add]
  refine ⟨.ofNat ((i * drawRange + (n - 1)) / n), ?_⟩
  unfold pick?
  dsimp only
  rw [UInt32.toNat_ofNat_of_lt' hrange, hproduct, hmod, hdiv]
  exact if_pos (le_acceptanceBound hlow)

/-- A number that is accepted is the only one taken. -/
theorem Draws.choose_of_pick? {n i : Nat} {x : UInt32} (h : pick? n x = some i)
    (script : List UInt32) (taken : Nat) :
    Draws.choose ⟨x :: script, taken⟩ n = (i, ⟨script, taken + 1⟩) := by
  rw [Draws.choose, ContextFree.choose, h]

namespace Grammar

variable {g : Grammar}

/-- No variable has more alternatives than can be told apart by one draw. -/
def IsDrawable (g : Grammar) : Prop :=
  ∀ v, (g.productionsOf v).length < drawRange

theorem IsDrawable.exists_draw (hg : g.IsDrawable) {v : Variable} {rhs : List Symbol}
    (hp : ⟨v, rhs⟩ ∈ g.productions) :
    ∃ x : UInt32, ∀ script taken,
      g.drawAlternative v ⟨x :: script, taken⟩ = some (⟨v, rhs⟩, ⟨script, taken + 1⟩) := by
  have hmem : ⟨v, rhs⟩ ∈ g.productionsOf v := mem_productionsOf.mpr ⟨hp, rfl⟩
  obtain ⟨i, hi, hget⟩ := List.getElem_of_mem hmem
  obtain ⟨x, hx⟩ := exists_pick? hi (hg v)
  refine ⟨x, fun script taken => ?_⟩
  have hchoose := Draws.choose_of_pick? hx script taken
  unfold drawAlternative
  match halt : g.productionsOf v with
  | [] => exact absurd (halt ▸ hmem) List.not_mem_nil
  | p :: rest =>
    simp only [halt, List.length_cons] at hi hget hchoose ⊢
    simp only [hchoose, List.get_eq_getElem, hget]

/-! ## Trees for what is pending -/

theorem yieldsWithin_nil_iff {budget : Nat} {w : List Char} :
    g.YieldsWithin budget [] w ↔ w = [] := by
  constructor
  · intro h
    cases h
    rfl
  · rintro rfl
    exact .nil

theorem yieldsWithin_cons_iff {budget : Nat} {s : Symbol} {rest : List Symbol} {w : List Char} :
    g.YieldsWithin budget (s :: rest) w ↔
      ∃ u v, w = u ++ v ∧ g.YieldsWithin budget [s] u ∧ g.YieldsWithin budget rest v := by
  constructor
  · intro h
    cases h with
    | @terminal _ c _ w hrest => exact ⟨[c], w, rfl, .terminal .nil, hrest⟩
    | @var _ _ _ _ u w hp hrhs hrest =>
      refine ⟨u, w, rfl, ?_, hrest⟩
      rw [← List.append_nil u]
      exact .var hp hrhs .nil
  · rintro ⟨u, v, rfl, hs, hrest⟩
    cases hs with
    | terminal hnil =>
      rw [yieldsWithin_nil_iff.mp hnil]
      exact .terminal hrest
    | var hp hrhs hnil =>
      rw [yieldsWithin_nil_iff.mp hnil, List.append_nil]
      exact .var hp hrhs hrest

/--
`g.PendingYields maxDepth pending w`: the pending symbols spell the word from left to right,
each by a tree in which no variable is beyond the limit.
-/
inductive PendingYields (g : Grammar) (maxDepth : Nat) :
    List (Symbol × Nat) → List Char → Prop where
  | nil : PendingYields g maxDepth [] []
  | cons {s : Symbol} {depth : Nat} {rest : List (Symbol × Nat)} {u w : List Char} :
      g.YieldsWithin (maxDepth + 1 - depth) [s] u → PendingYields g maxDepth rest w →
      PendingYields g maxDepth ((s, depth) :: rest) (u ++ w)

variable {maxDepth : Nat}

/-- Symbols put in front at one depth are a form at that depth. -/
theorem pendingYields_append_iff {depth : Nat} {form : List Symbol}
    {rest : List (Symbol × Nat)} {w : List Char} :
    g.PendingYields maxDepth (form.map (·, depth) ++ rest) w ↔
      ∃ u v, w = u ++ v ∧ g.YieldsWithin (maxDepth + 1 - depth) form u ∧
        g.PendingYields maxDepth rest v := by
  induction form generalizing w with
  | nil =>
    constructor
    · intro h
      exact ⟨[], w, rfl, .nil, h⟩
    · rintro ⟨u, v, rfl, hu, hv⟩
      rw [yieldsWithin_nil_iff.mp hu]
      exact hv
  | cons s form ih =>
    rw [List.map_cons, List.cons_append]
    constructor
    · intro h
      cases h with
      | cons hs hrest =>
        obtain ⟨u, v, rfl, hu, hv⟩ := ih.mp hrest
        exact ⟨_, v, (List.append_assoc ..).symm,
          yieldsWithin_cons_iff.mpr ⟨_, u, rfl, hs, hu⟩, hv⟩
    · rintro ⟨u, v, rfl, hu, hv⟩
      obtain ⟨x, y, rfl, hx, hy⟩ := yieldsWithin_cons_iff.mp hu
      rw [List.append_assoc]
      exact .cons hx (ih.mpr ⟨y, v, rfl, hy, hv⟩)

/-- A variable may be replaced by what a production has on the right, one level further down. -/
theorem PendingYields.expand {v : Variable} {depth : Nat} {rhs : List Symbol}
    {rest : List (Symbol × Nat)} {w : List Char} (hp : ⟨v, rhs⟩ ∈ g.productions)
    (hdepth : depth ≤ maxDepth)
    (h : g.PendingYields maxDepth (rhs.map (·, depth + 1) ++ rest) w) :
    g.PendingYields maxDepth ((.var v, depth) :: rest) w := by
  obtain ⟨u, v, rfl, hu, hv⟩ := pendingYields_append_iff.mp h
  refine .cons ?_ hv
  obtain ⟨levels, hlevels⟩ : ∃ levels, maxDepth + 1 - depth = levels + 1 :=
    ⟨maxDepth - depth, by omega⟩
  have hbelow : maxDepth + 1 - (depth + 1) = levels := by omega
  rw [hbelow] at hu
  rw [hlevels, ← List.append_nil u]
  exact .var hp hu .nil

end Grammar

/-! ## Steps and runs -/

namespace Expansion

variable {g : Grammar} {maxDepth : Nat} {e e' : Expansion}

/-- All that a step can do and lead on. -/
theorem step_eq_next (h : e.step g maxDepth = .next e') :
    (∃ c depth rest, e.pending = (.terminal c, depth) :: rest ∧
      e' = { e with pending := rest, word := c :: e.word }) ∨
    ∃ v depth rest p draws, e.pending = (.var v, depth) :: rest ∧ depth ≤ maxDepth ∧
      g.drawAlternative v e.draws = some (p, draws) ∧
      e' = { e with pending := p.rhs.map (·, depth + 1) ++ rest, draws } := by
  unfold step at h
  split at h
  · cases h
  · rename_i c depth rest hpending
    cases h
    exact .inl ⟨c, depth, rest, hpending, rfl⟩
  · rename_i v depth rest hpending
    split at h
    · cases h
    · rename_i hdepth
      split at h
      · cases h
      · rename_i p draws hdraw
        cases h
        exact .inr ⟨v, depth, rest, p, draws, hpending, Nat.le_of_not_lt hdepth, hdraw, rfl⟩

/-- All that a step can do and end the run. -/
theorem step_eq_done {result : Except SamplingFault (List Char)} {draws : Draws}
    (h : e.step g maxDepth = .done result draws) :
    draws = e.draws ∧ ((e.pending = [] ∧ result = .ok e.word.reverse) ∨
      ∃ v depth rest, e.pending = (.var v, depth) :: rest ∧
        ((maxDepth < depth ∧ result = .error (.tooDeep maxDepth)) ∨
          depth ≤ maxDepth ∧ g.drawAlternative v e.draws = none ∧
            result = .error (.undefined v))) := by
  unfold step at h
  split at h
  · rename_i hpending
    cases h
    exact ⟨rfl, .inl ⟨hpending, rfl⟩⟩
  · cases h
  · rename_i v depth rest hpending
    split at h
    · rename_i hdepth
      cases h
      exact ⟨rfl, .inr ⟨v, depth, rest, hpending, .inl ⟨hdepth, rfl⟩⟩⟩
    · rename_i hdepth
      split at h
      · rename_i hdraw
        cases h
        exact ⟨rfl, .inr ⟨v, depth, rest, hpending,
          .inr ⟨Nat.le_of_not_lt hdepth, hdraw, rfl⟩⟩⟩
      · cases h

theorem run_next (h : e.step g maxDepth = .next e') : e.run g maxDepth = e'.run g maxDepth := by
  rw [run]
  split
  · rename_i e'' heq
    rw [h] at heq
    cases heq
    rfl
  · rename_i heq
    rw [h] at heq
    cases heq

theorem run_done {result : Except SamplingFault (List Char)} {draws : Draws}
    (h : e.step g maxDepth = .done result draws) : e.run g maxDepth = (result, draws) := by
  rw [run]
  split
  · rename_i heq
    rw [h] at heq
    cases heq
  · rename_i heq
    rw [h] at heq
    cases heq
    rfl

/-! ## No other word -/

/-- The word begins with what has been written, and the pending symbols spell the rest. -/
def Spells (g : Grammar) (maxDepth : Nat) (e : Expansion) (w : List Char) : Prop :=
  ∃ u, w = e.word.reverse ++ u ∧ g.PendingYields maxDepth e.pending u

/-- **A step spells nothing new.** -/
theorem spells_of_step (h : e.step g maxDepth = .next e') {w : List Char}
    (hw : e'.Spells g maxDepth w) : e.Spells g maxDepth w := by
  obtain ⟨u, rfl, hu⟩ := hw
  rcases step_eq_next h with ⟨c, depth, rest, hpending, rfl⟩ |
    ⟨v, depth, rest, p, draws, hpending, hdepth, hdraw, rfl⟩
  · refine ⟨c :: u, by simp, ?_⟩
    rw [hpending]
    exact .cons (u := [c]) (.terminal .nil) hu
  · obtain ⟨hp, rfl⟩ := Grammar.mem_productionsOf.mp
      (Grammar.mem_productionsOf_of_drawAlternative hdraw)
    refine ⟨u, rfl, ?_⟩
    rw [hpending]
    exact hu.expand hp hdepth

/-- A word a run ends with was spelled from the beginning. -/
theorem spells_of_run {w : List Char} (h : (e.run g maxDepth).1 = .ok w) :
    e.Spells g maxDepth w := by
  fun_induction run g maxDepth e with
  | case1 e e' hstep ih => exact spells_of_step hstep (ih h)
  | case2 e result draws hstep =>
    obtain ⟨_, ⟨hpending, hresult⟩ | ⟨v, depth, rest, _, hfault⟩⟩ := step_eq_done hstep
    · rw [hresult] at h
      obtain rfl := Except.ok.inj h
      refine ⟨[], (List.append_nil _).symm, ?_⟩
      rw [hpending]
      exact .nil
    · rcases hfault with ⟨_, hresult⟩ | ⟨_, _, hresult⟩
      · rw [hresult] at h
        cases h
      · rw [hresult] at h
        cases h

/-! ## Every word -/

/--
**The trees of a form make a script.** A run that has the form in front of what is pending
takes these numbers, writes the word and goes on with the rest.
-/
theorem exists_script (hg : g.IsDrawable) {budget : Nat} {form : List Symbol} {w : List Char}
    (h : g.YieldsWithin budget form w) {depth : Nat} (hbudget : maxDepth + 1 - depth = budget) :
    ∃ script : List UInt32, ∀ pending word more taken, ∃ taken',
      Expansion.run g maxDepth ⟨form.map (·, depth) ++ pending, word, ⟨script ++ more, taken⟩⟩ =
        Expansion.run g maxDepth ⟨pending, w.reverse ++ word, ⟨more, taken'⟩⟩ := by
  induction h generalizing depth with
  | nil => exact ⟨[], fun pending word more taken => ⟨taken, rfl⟩⟩
  | @terminal _ c rest w _ ih =>
    obtain ⟨script, hscript⟩ := ih hbudget
    refine ⟨script, fun pending word more taken => ?_⟩
    obtain ⟨taken', hrun⟩ := hscript pending (c :: word) more taken
    refine ⟨taken', ?_⟩
    have hstep : Expansion.step g maxDepth
        ⟨(.terminal c, depth) :: (rest.map (·, depth) ++ pending), word, ⟨script ++ more, taken⟩⟩ =
        .next ⟨rest.map (·, depth) ++ pending, c :: word, ⟨script ++ more, taken⟩⟩ := rfl
    rw [List.map_cons, List.cons_append, run_next hstep, hrun, List.reverse_cons,
      List.append_assoc, List.singleton_append]
  | @var budget v rhs rest u w hp _ _ ihrhs ihrest =>
    obtain ⟨x, hx⟩ := hg.exists_draw hp
    have hlevels : maxDepth + 1 - (depth + 1) = budget := by omega
    obtain ⟨below, hbelow⟩ := ihrhs hlevels
    obtain ⟨beside, hbeside⟩ := ihrest hbudget
    -- what is beside the node is pending while the script for what is below it runs
    refine ⟨x :: (below ++ beside), fun pending word more taken => ?_⟩
    obtain ⟨taken₁, hrun₁⟩ :=
      hbelow (rest.map (·, depth) ++ pending) word (beside ++ more) (taken + 1)
    obtain ⟨taken₂, hrun₂⟩ := hbeside pending (u.reverse ++ word) more taken₁
    refine ⟨taken₂, ?_⟩
    have hstep : Expansion.step g maxDepth
        ⟨(.var v, depth) :: (rest.map (·, depth) ++ pending), word,
          ⟨x :: (below ++ (beside ++ more)), taken⟩⟩ =
        .next ⟨rhs.map (·, depth + 1) ++ (rest.map (·, depth) ++ pending), word,
          ⟨below ++ (beside ++ more), taken + 1⟩⟩ := by
      have hdepth : ¬ maxDepth < depth := by omega
      simp only [step, if_neg hdepth, hx]
    rw [List.map_cons, List.cons_append, List.cons_append, List.append_assoc, run_next hstep,
      hrun₁, hrun₂, List.reverse_append, List.append_assoc]

end Expansion

namespace Grammar

variable {g : Grammar} {maxDepth : Nat}

/-- The budget of the start variable is what the runs of a sample are limited to. -/
theorem exists_sample_iff (hg : g.IsDrawable) {w : List Char} :
    (∃ script, (g.sample maxDepth { script }).1 = .ok w) ↔
      g.YieldsWithin (maxDepth + 1) [.var g.start] w := by
  constructor
  · rintro ⟨script, hrun⟩
    obtain ⟨u, rfl, hu⟩ := Expansion.spells_of_run hrun
    cases hu with
    | cons hstart hnil =>
      cases hnil
      rw [List.append_nil]
      exact hstart
  · intro h
    have hlevels : maxDepth + 1 - 0 = maxDepth + 1 := rfl
    obtain ⟨script, hscript⟩ := Expansion.exists_script hg h hlevels
    obtain ⟨taken, hrun⟩ := hscript [] [] [] 0
    refine ⟨script, ?_⟩
    have hdone : Expansion.step g maxDepth ⟨[], w.reverse ++ [], ⟨[], taken⟩⟩ =
        .done (.ok w) ⟨[], taken⟩ := by
      simp [Expansion.step]
    rw [List.append_nil script] at hrun
    have hsample : g.sample maxDepth { script } =
        Expansion.run g maxDepth ⟨[], w.reverse ++ [], ⟨[], taken⟩⟩ := hrun
    rw [hsample, Expansion.run_done hdone]

/--
**The words that can be sampled are the yields of the trees for the start variable in which no
variable is beyond the depth limit.** The root is at depth zero.
-/
theorem sampling_exact (hg : g.IsDrawable) (maxDepth : Nat) (w : List Char) :
    (∃ script, (g.sample maxDepth { script }).1 = .ok w) ↔
      ∃ t : Tree, t.IsDerivation g ∧ t.root = .var g.start ∧ t.yield = w ∧
        ∀ depth v, t.HasVariable depth v → depth ≤ maxDepth := by
  rw [exists_sample_iff hg, yieldsWithin_iff_tree]
  simp only [Tree.IsWithin, Nat.lt_succ_iff]

/-- Well-formed bracketings. -/
def balanced : Grammar :=
  .ofList ⟨"S"⟩ [⟨⟨"S"⟩, [.terminal '(', .var ⟨"S"⟩, .terminal ')', .var ⟨"S"⟩]⟩, ⟨⟨"S"⟩, []⟩]

/-- Two pairs of brackets beside each other. -/
def balancedTree : Tree :=
  .node ⟨"S"⟩ [.leaf '(', .node ⟨"S"⟩ [], .leaf ')',
    .node ⟨"S"⟩ [.leaf '(', .node ⟨"S"⟩ [], .leaf ')', .node ⟨"S"⟩ []]]

theorem balanced_sampled :
    balanced.IsDrawable ∧
      ∃ script, (balanced.sample 2 { script }).1 = .ok ['(', ')', '(', ')'] := by
  have hdrawable : balanced.IsDrawable := by
    intro v
    have htotal : balanced.productions.toList.length < drawRange := by decide +kernel
    exact Nat.lt_of_le_of_lt (List.length_filter_le _ _) htotal
  have hempty : (Tree.node ⟨"S"⟩ []).IsDerivation balanced :=
    .node (by decide +kernel) (by simp)
  have hpair {t : Tree} (ht : t.IsDerivation balanced) (hroot : t.root = .var ⟨"S"⟩) :
      (Tree.node ⟨"S"⟩ [.leaf '(', .node ⟨"S"⟩ [], .leaf ')', t]).IsDerivation balanced := by
    refine .node ?_ (by simp [hempty, ht, Tree.IsDerivation.leaf])
    rw [List.map_cons, List.map_cons, List.map_cons, List.map_cons, hroot]
    decide +kernel
  have hwithin : balancedTree.IsWithin 3 := by
    simp [balancedTree, Tree.isWithin_node_iff, Tree.isWithin_leaf]
  refine ⟨hdrawable, (sampling_exact hdrawable 2 _).mpr ⟨balancedTree, ?_, rfl, rfl, ?_⟩⟩
  · exact hpair (hpair hempty rfl) rfl
  · exact fun depth v hv => Nat.le_of_lt_succ (hwithin depth v hv)

end Grammar

end ContextFree
