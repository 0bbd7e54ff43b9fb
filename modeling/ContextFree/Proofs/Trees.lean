import ContextFree.Derivation

/-!
# Derivation trees

`YieldsWithin` counts levels down: a form is given a budget, and each variable passes on one
level less to its right-hand side. A derivation tree has its depths counted from the root,
and a limit on them is a statement about every node. The two say the same of a forest, the
budget being one more than the depth that is still allowed.

Forests are what the induction is about. A right-hand side is the list of roots of the trees
below a node, so a tree cannot be taken apart without them.
-/

namespace ContextFree

/-- A tree with characters at its leaves and variables at its inner nodes. -/
inductive Tree where
  | leaf (c : Char)
  | node (v : Variable) (children : List Tree)

namespace Tree

/-- The symbol a tree stands for in the right-hand side above it. -/
def root : Tree → Symbol
  | leaf c => .terminal c
  | node v _ => .var v

mutual

/-- The characters at the leaves, from left to right. -/
def yield : Tree → List Char
  | leaf c => [c]
  | node _ children => yieldAll children

/-- The yields of some trees in a row. -/
def yieldAll : List Tree → List Char
  | [] => []
  | t :: rest => yield t ++ yieldAll rest

end

/-- Every inner node is rewritten by a production of the grammar to the roots below it. -/
inductive IsDerivation (g : Grammar) : Tree → Prop where
  | leaf (c : Char) : IsDerivation g (leaf c)
  | node {v : Variable} {children : List Tree} :
      ⟨v, children.map root⟩ ∈ g.productions → (∀ t ∈ children, IsDerivation g t) →
      IsDerivation g (node v children)

/-- `t.HasVariable depth v`: a node this far below the root of `t` is labelled `v`. -/
inductive HasVariable : Tree → Nat → Variable → Prop where
  | here (v : Variable) (children : List Tree) : HasVariable (node v children) 0 v
  | deeper {v u : Variable} {children : List Tree} {t : Tree} {depth : Nat} :
      t ∈ children → HasVariable t depth u → HasVariable (node v children) (depth + 1) u

/-- No variable of the tree is this deep or deeper. -/
def IsWithin (t : Tree) (budget : Nat) : Prop :=
  ∀ depth v, t.HasVariable depth v → depth < budget

theorem isWithin_leaf (c : Char) (budget : Nat) : (leaf c).IsWithin budget := by
  intro depth v h
  cases h

/-- A variable at the root uses up one level. -/
theorem isWithin_node_iff {v : Variable} {children : List Tree} {budget : Nat} :
    (node v children).IsWithin (budget + 1) ↔ ∀ t ∈ children, t.IsWithin budget := by
  constructor
  · intro h t ht depth u hu
    exact Nat.lt_of_succ_lt_succ (h (depth + 1) u (.deeper ht hu))
  · intro h depth u hu
    cases hu with
    | here => exact Nat.succ_pos _
    | deeper ht hu => exact Nat.succ_lt_succ (h _ ht _ _ hu)

end Tree

namespace Grammar

variable {g : Grammar}

/-- Trees that may each be put in front of any form make up a form in a row. -/
theorem yieldsWithin_forest {budget : Nat} {ts : List Tree}
    (hts : ∀ t ∈ ts, ∀ rest w, g.YieldsWithin budget rest w →
      g.YieldsWithin budget (t.root :: rest) (t.yield ++ w)) :
    g.YieldsWithin budget (ts.map Tree.root) (Tree.yieldAll ts) := by
  induction ts with
  | nil => exact .nil
  | cons t rest ih =>
    obtain ⟨ht, hrest⟩ := List.forall_mem_cons.mp hts
    rw [Tree.yieldAll]
    exact ht _ _ (ih hrest)

/-- A tree within the budget is a yield within the budget, in front of any form. -/
theorem yieldsWithin_of_isDerivation {t : Tree} (ht : t.IsDerivation g) {budget : Nat}
    (hwithin : t.IsWithin budget) (rest : List Symbol) (w : List Char)
    (hrest : g.YieldsWithin budget rest w) :
    g.YieldsWithin budget (t.root :: rest) (t.yield ++ w) := by
  induction ht generalizing budget rest w with
  | leaf c =>
    rw [Tree.yield]
    exact .terminal hrest
  | @node v children hp _ ih =>
    -- the node itself is at depth zero, so there is a level for it
    obtain ⟨levels, rfl⟩ : ∃ levels, budget = levels + 1 :=
      Nat.exists_eq_add_one.mpr (hwithin 0 v (.here v children))
    have hbelow := Tree.isWithin_node_iff.mp hwithin
    have hchildren : g.YieldsWithin levels (children.map Tree.root) (Tree.yieldAll children) :=
      yieldsWithin_forest fun t ht => ih t ht (hbelow t ht)
    rw [Tree.yield]
    exact .var hp hchildren hrest

/-- A yield within a budget is spelled by trees within the budget. -/
theorem YieldsWithin.exists_trees {budget : Nat} {form : List Symbol} {w : List Char}
    (h : g.YieldsWithin budget form w) :
    ∃ ts : List Tree, ts.map Tree.root = form ∧ Tree.yieldAll ts = w ∧
      ∀ t ∈ ts, t.IsDerivation g ∧ t.IsWithin budget := by
  induction h with
  | nil => exact ⟨[], rfl, rfl, by simp⟩
  | @terminal budget c rest w _ ih =>
    obtain ⟨ts, hroots, hyield, hts⟩ := ih
    refine ⟨.leaf c :: ts, ?_, ?_, ?_⟩
    · rw [List.map_cons, hroots, Tree.root]
    · rw [Tree.yieldAll, Tree.yield, hyield, List.singleton_append]
    · exact List.forall_mem_cons.mpr ⟨⟨.leaf c, Tree.isWithin_leaf c budget⟩, hts⟩
  | @var budget v rhs rest u w hp _ _ ihrhs ihrest =>
    obtain ⟨below, hroots, hbelow, hbelows⟩ := ihrhs
    obtain ⟨ts, hroots', hyield, hts⟩ := ihrest
    refine ⟨.node v below :: ts, ?_, ?_, ?_⟩
    · rw [List.map_cons, hroots', Tree.root]
    · rw [Tree.yieldAll, Tree.yield, hbelow, hyield]
    · refine List.forall_mem_cons.mpr ⟨⟨?_, ?_⟩, hts⟩
      · rw [← hroots] at hp
        exact .node hp fun t ht => (hbelows t ht).1
      · exact Tree.isWithin_node_iff.mpr fun t ht => (hbelows t ht).2

/-- **The budget of a variable bounds the depths of a tree for it.** -/
theorem yieldsWithin_iff_tree {budget : Nat} {v : Variable} {w : List Char} :
    g.YieldsWithin budget [.var v] w ↔
      ∃ t : Tree, t.IsDerivation g ∧ t.root = .var v ∧ t.yield = w ∧ t.IsWithin budget := by
  constructor
  · intro h
    obtain ⟨ts, hroots, hyield, hts⟩ := h.exists_trees
    obtain ⟨t, rfl, hroot⟩ := List.map_eq_singleton_iff.mp hroots
    obtain ⟨hderiv, hwithin⟩ := hts t List.mem_cons_self
    rw [Tree.yieldAll, Tree.yieldAll, List.append_nil] at hyield
    exact ⟨t, hderiv, hroot, hyield, hwithin⟩
  · rintro ⟨t, hderiv, hroot, rfl, hwithin⟩
    rw [← hroot, ← List.append_nil t.yield]
    exact yieldsWithin_of_isDerivation hderiv hwithin [] [] .nil

end Grammar

end ContextFree
