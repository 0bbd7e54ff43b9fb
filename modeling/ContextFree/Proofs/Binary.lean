import ContextFree.NormalForm
import ContextFree.Proofs.Rewriting
import ContextFree.Proofs.UnitFree

/-!
# Binary form keeps the words of every variable

What binarization does can be undone: put the right-hand side of its one production in
place of every variable that was introduced, and go on until none is left. `Unfolds` is
that process on forms. It is what a name handed out *means*: a wrapper unfolds to its
terminal, a chain variable to the tail it stands for.

`SpellsOut` collects what the outcome owes the grammar that came in. Every old
production has a new one that unfolds to it, every new production unfolds, those of old
variables to old productions, and an introduced variable has one production only. From
these alone the two grammars have the same words for every old variable:

* a tree of the old grammar becomes one of the new by folding each right-hand side;
* a tree of the new grammar over a form becomes one of the old over what the form
  unfolds to. Uniqueness enters here: the tree may use any production of an introduced
  variable, the unfolding has used a particular one.

The rest of the module shows that the plan of binarization meets these terms, one lemma for
each function it is made of.
-/

namespace ContextFree

/--
`Unfolds g h form unfolded`: replacing the variables of `form` that `g` does not mention
by what their productions in `h` have on the right, again and again, ends in `unfolded`.
-/
inductive Unfolds (g h : Grammar) : List Symbol → List Symbol → Prop where
  | nil : Unfolds g h [] []
  | terminal {rest unfolded : List Symbol} (c : Char) :
      Unfolds g h rest unfolded → Unfolds g h (.terminal c :: rest) (.terminal c :: unfolded)
  | kept {v : Variable} {rest unfolded : List Symbol} :
      v ∈ g.vars → Unfolds g h rest unfolded → Unfolds g h (.var v :: rest) (.var v :: unfolded)
  | introduced {v : Variable} {rhs rest below unfolded : List Symbol} :
      v ∉ g.vars → ⟨v, rhs⟩ ∈ h.productions → Unfolds g h rhs below →
      Unfolds g h rest unfolded → Unfolds g h (.var v :: rest) (below ++ unfolded)

/-- What a grammar in binary form owes the grammar it was made from. -/
structure Grammar.SpellsOut (h g : Grammar) : Prop where
  /-- The start is the same. -/
  start : h.start = g.start
  /-- An introduced variable has one production. -/
  unique : ∀ {v : Variable} {x y : List Symbol}, v ∉ g.vars →
    ⟨v, x⟩ ∈ h.productions → ⟨v, y⟩ ∈ h.productions → x = y
  /-- Every old production has a new one that unfolds to it. -/
  folds : ∀ p ∈ g.productions, ∃ rhs, ⟨p.lhs, rhs⟩ ∈ h.productions ∧ Unfolds g h rhs p.rhs
  /-- Every new production unfolds, that of an old variable to an old production. -/
  unfolds : ∀ p ∈ h.productions, ∃ form, Unfolds g h p.rhs form ∧
    (p.lhs ∈ g.vars → ⟨p.lhs, form⟩ ∈ g.productions)

section Unfolding

variable {g h : Grammar}

/-! ## Unfolding -/

theorem Unfolds.append {a b x y : List Symbol} (ha : Unfolds g h a x) (hb : Unfolds g h b y) :
    Unfolds g h (a ++ b) (x ++ y) := by
  induction ha with
  | nil => exact hb
  | terminal c _ ih => exact .terminal c ih
  | kept hv _ ih => exact .kept hv ih
  | introduced hv hp hrhs _ _ ih =>
    rw [List.append_assoc]
    exact .introduced hv hp hrhs ih

theorem Unfolds.split_cons {s : Symbol} {rest z : List Symbol} (h' : Unfolds g h (s :: rest) z) :
    ∃ x y, z = x ++ y ∧ Unfolds g h [s] x ∧ Unfolds g h rest y := by
  cases h' with
  | terminal c hrest => exact ⟨[.terminal c], _, rfl, .terminal c .nil, hrest⟩
  | @kept v _ _ hv hrest => exact ⟨[.var v], _, rfl, .kept hv .nil, hrest⟩
  | @introduced v rhs _ below unfolded hv hp hrhs hrest =>
    refine ⟨below, unfolded, rfl, ?_, hrest⟩
    rw [← List.append_nil below]
    exact .introduced hv hp hrhs .nil

/-- A form over old variables has nothing to unfold. -/
theorem Unfolds.refl {form : List Symbol} (hform : ∀ v, .var v ∈ form → v ∈ g.vars) :
    Unfolds g h form form := by
  induction form with
  | nil => exact .nil
  | cons s rest ih =>
    have hrest := ih fun v hv => hform v (List.mem_cons_of_mem _ hv)
    cases s with
    | terminal c => exact .terminal c hrest
    | var v => exact .kept (hform v List.mem_cons_self) hrest

/-- A variable of a form that unfolds is an old one or has a production. -/
theorem Unfolds.mem_or_production {form z : List Symbol} (h' : Unfolds g h form z)
    {v : Variable} (hv : .var v ∈ form) :
    v ∈ g.vars ∨ ∃ rhs, ⟨v, rhs⟩ ∈ h.productions := by
  induction h' with
  | nil => exact absurd hv List.not_mem_nil
  | terminal c _ ih =>
    rcases List.mem_cons.mp hv with heq | hv
    · exact absurd heq (by simp)
    · exact ih hv
  | kept hu _ ih =>
    rcases List.mem_cons.mp hv with heq | hv
    · exact .inl (Symbol.var.inj heq ▸ hu)
    · exact ih hv
  | @introduced u rhs _ _ _ _ hp _ _ _ ih =>
    rcases List.mem_cons.mp hv with heq | hv
    · exact .inr ⟨rhs, Symbol.var.inj heq ▸ hp⟩
    · exact ih hv

/-! ## The words of the two grammars -/

/-- Folding keeps words: every introduced variable rewrites to what it unfolds to. -/
theorem Unfolds.yields {form z : List Symbol} {w : List Char} (h' : Unfolds g h form z)
    (hw : h.Yields z w) : h.Yields form w := by
  induction h' generalizing w with
  | nil => exact hw
  | terminal c _ ih =>
    cases hw with
    | terminal hrest => exact .terminal (ih hrest)
  | kept _ _ ih =>
    obtain ⟨u, v, rfl, hu, hv⟩ := Grammar.yields_cons_iff.mp hw
    exact Grammar.yields_cons_iff.mpr ⟨u, v, rfl, hu, ih hv⟩
  | introduced _ hp _ _ ihrhs ihrest =>
    obtain ⟨u, v, rfl, hu, hv⟩ := hw.split
    exact .var hp (ihrhs hu) (ihrest hv)

namespace Grammar.SpellsOut

/-- Every tree of the old grammar has a counterpart in the new one. -/
theorem yields_of_old (hs : h.SpellsOut g) {form : List Symbol} {w : List Char}
    (hw : g.Yields form w) : h.Yields form w := by
  induction hw with
  | nil => exact .nil
  | terminal _ ih => exact .terminal ih
  | var hp _ _ ihrhs ihrest =>
    obtain ⟨rhs, hmem, hunf⟩ := hs.folds _ hp
    exact .var hmem (hunf.yields ihrhs) ihrest

/-- Every tree of the new grammar is one of the old over the unfolded form. -/
theorem yields_unfolded (hs : h.SpellsOut g) {form z : List Symbol} {w : List Char}
    (hw : h.Yields form w) (hz : Unfolds g h form z) : g.Yields z w := by
  induction hw generalizing z with
  | nil => cases hz; exact .nil
  | terminal _ ih =>
    cases hz with
    | terminal _ hrest => exact .terminal (ih hrest)
  | @var v rhs rest u w hp _ _ ihrhs ihrest =>
    cases hz with
    | kept hv hrest =>
      -- an old variable: its production unfolds to one the old grammar has
      obtain ⟨form, hunf, hold⟩ := hs.unfolds _ hp
      exact .var (hold hv) (ihrhs hunf) (ihrest hrest)
    | introduced hv hp' hbelow hrest =>
      -- the production of the tree is the one the unfolding has used
      have hrhs := hs.unique hv hp hp'
      rw [← hrhs] at hbelow
      exact (ihrhs hbelow).append (ihrest hrest)

/-- **A form over old variables has the same words in both grammars.** -/
theorem yields_iff (hs : h.SpellsOut g) {form : List Symbol} {w : List Char}
    (hform : ∀ v, .var v ∈ form → v ∈ g.vars) : h.Yields form w ↔ g.Yields form w :=
  ⟨fun hw => hs.yields_unfolded hw (.refl hform), hs.yields_of_old⟩

/-- An introduced variable is on the left of some production, wherever it was found. -/
theorem exists_production (hs : h.SpellsOut g) {v : Variable} (hv : v ∈ h.vars)
    (hnew : v ∉ g.vars) : ∃ rhs, ⟨v, rhs⟩ ∈ h.productions := by
  rcases mem_vars.mp hv with rfl | ⟨p, hp, hvp⟩
  · exact absurd (mem_vars.mpr (.inl hs.start)) hnew
  · rcases Production.mem_vars.mp hvp with rfl | hvp
    · exact ⟨p.rhs, hp⟩
    · obtain ⟨form, hform, _⟩ := hs.unfolds p hp
      exact (hform.mem_or_production hvp).resolve_left hnew

end Grammar.SpellsOut

/-! ## Binarization meets the terms -/

/-- The wrappers on record are new variables with their terminal for a production. -/
def WrappersIn (g h : Grammar) (s : Introduced) : Prop :=
  ∀ e ∈ s.wrappers, e.2 ∉ g.vars ∧ ⟨e.2, [.terminal e.1]⟩ ∈ h.productions

theorem WrappersIn.of_extends {s s' : Introduced} (hw : WrappersIn g h s')
    (hs : s.Extends s') : WrappersIn g h s :=
  fun e he => hw e (hs.mem he)

/-- Wrapping is undone by unfolding. -/
theorem wrapSymbols_unfolds {rhs : List Symbol} {s : Introduced}
    (hrhs : ∀ v, .var v ∈ rhs → v ∈ g.vars)
    (hw : WrappersIn g h (wrapSymbols g.vars rhs s).2) :
    Unfolds g h ((wrapSymbols g.vars rhs s).1.map .var) rhs := by
  induction rhs generalizing s with
  | nil => exact .nil
  | cons x rest ih =>
    have hrest : ∀ v, .var v ∈ rest → v ∈ g.vars :=
      fun v hv => hrhs v (List.mem_cons_of_mem _ hv)
    cases x with
    | var v => exact .kept (hrhs v List.mem_cons_self) (ih hrest hw)
    | terminal c =>
      have hc : (c, (wrapperOf g.vars c s).1) ∈
          (wrapSymbols g.vars rest (wrapperOf g.vars c s).2).2.wrappers :=
        wrapSymbols_extends.mem wrapperOf_mem
      obtain ⟨hfresh, hmem⟩ := hw _ hc
      have hbelow : Unfolds g h [.terminal c] [.terminal c] := .terminal c .nil
      exact .introduced hfresh hmem hbelow (ih hrest hw)

/--
Chaining is undone by unfolding: the first production of the chain unfolds to all that
the chain is for, and the others belong to new variables.
-/
theorem chain_unfolds {lhs : Variable} {vs : List Variable} {n : Nat} {form : List Symbol}
    (hmem : ∀ p ∈ (chain g.vars lhs vs n).1, p ∈ h.productions)
    (hform : Unfolds g h (vs.map .var) form) :
    ∃ rhs tail, (chain g.vars lhs vs n).1 = ⟨lhs, rhs⟩ :: tail ∧ Unfolds g h rhs form ∧
      ∀ p ∈ tail, p.lhs ∉ g.vars ∧ ∃ z, Unfolds g h p.rhs z := by
  fun_induction chain _ lhs vs n generalizing form with
  | case1 lhs x y z rest n m next ps n' heq =>
    rename_i ih
    obtain ⟨first, others, rfl, hfirst, hothers⟩ := hform.split_cons
    have hnext : next ∉ g.vars := numbered_firstFree_notMem chainStem g.vars n
    rw [heq] at ih
    obtain ⟨rhs, tail, htail, hrhs, hnew⟩ :=
      ih (fun p hp => hmem p (List.mem_cons_of_mem _ hp)) hothers
    dsimp only at htail
    -- the production of `next` is the first one of the rest of the chain
    have hlink : ⟨next, rhs⟩ ∈ h.productions := by
      refine hmem _ (List.mem_cons_of_mem _ ?_)
      rw [htail]
      exact List.mem_cons_self
    refine ⟨[.var x, .var next], ps, rfl, ?_, ?_⟩
    · have hlast := Unfolds.introduced hnext hlink hrhs .nil
      rw [List.append_nil] at hlast
      exact hfirst.append hlast
    · rw [htail]
      exact List.forall_mem_cons.mpr ⟨⟨hnext, others, hrhs⟩, hnew⟩
  | case2 lhs vs n _ => exact ⟨vs.map .var, [], rfl, hform, by simp⟩

/-- The same for all that stands in for one production. -/
theorem split_unfolds {p : Production} {s : Introduced}
    (hp : ∀ v ∈ p.vars, v ∈ g.vars)
    (hmem : ∀ q ∈ (p.split g.vars s).1, q ∈ h.productions)
    (hw : WrappersIn g h (p.split g.vars s).2) :
    ∃ rhs tail, (p.split g.vars s).1 = ⟨p.lhs, rhs⟩ :: tail ∧ Unfolds g h rhs p.rhs ∧
      ∀ q ∈ tail, q.lhs ∉ g.vars ∧ ∃ z, Unfolds g h q.rhs z := by
  have hrhs : ∀ v, .var v ∈ p.rhs → v ∈ g.vars := fun v hv => hp v (Production.rhs_mem_vars hv)
  rcases split_cases g.vars p s with ⟨_, hsplit⟩ | ⟨_, hsplit⟩
  · rw [hsplit]
    exact ⟨p.rhs, [], rfl, .refl hrhs, by simp⟩
  · rw [hsplit] at hmem hw ⊢
    exact chain_unfolds hmem (wrapSymbols_unfolds hrhs hw)

theorem splitAll_unfolds {ps : List Production} {s : Introduced}
    (hps : ∀ p ∈ ps, ∀ v ∈ p.vars, v ∈ g.vars)
    (hmem : ∀ q ∈ (splitAll g.vars ps s).1, q ∈ h.productions)
    (hw : WrappersIn g h (splitAll g.vars ps s).2) :
    (∀ p ∈ ps, ∃ rhs, ⟨p.lhs, rhs⟩ ∈ (splitAll g.vars ps s).1 ∧ Unfolds g h rhs p.rhs) ∧
      ∀ q ∈ (splitAll g.vars ps s).1, ∃ form, Unfolds g h q.rhs form ∧
        (q.lhs ∈ g.vars → ⟨q.lhs, form⟩ ∈ ps) := by
  induction ps generalizing s with
  | nil => exact ⟨by simp, fun q hq => absurd hq List.not_mem_nil⟩
  | cons p rest ih =>
    obtain ⟨hp, hrest⟩ := List.forall_mem_cons.mp hps
    obtain ⟨rhs, tail, htail, hrhs, hnew⟩ := split_unfolds (s := s) hp
      (fun q hq => hmem q (List.mem_append_left _ hq)) (hw.of_extends splitAll_extends)
    rw [splitAll_cons] at hmem hw ⊢
    obtain ⟨hfold, hunf⟩ := ih (s := (p.split g.vars s).2) hrest
      (fun q hq => hmem q (List.mem_append_right _ hq)) hw
    constructor
    · refine List.forall_mem_cons.mpr ⟨⟨rhs, List.mem_append_left _ ?_, hrhs⟩, fun q hq => ?_⟩
      · rw [htail]
        exact List.mem_cons_self
      · obtain ⟨rhs', hmem', hrhs'⟩ := hfold q hq
        exact ⟨rhs', List.mem_append_right _ hmem', hrhs'⟩
    · intro q hq
      rcases List.mem_append.mp hq with hq | hq
      · rw [htail] at hq
        rcases List.mem_cons.mp hq with rfl | hq
        · exact ⟨p.rhs, hrhs, fun _ => List.mem_cons_self⟩
        · obtain ⟨hfresh, z, hz⟩ := hnew q hq
          exact ⟨z, hz, fun hold => absurd hold hfresh⟩
      · obtain ⟨form, hform, hold⟩ := hunf q hq
        exact ⟨form, hform, fun hlhs => List.mem_cons_of_mem _ (hold hlhs)⟩

/-! ## Every production that is made is normal -/

theorem chain_isBinary {taken : Std.ExtTreeSet Variable} {lhs : Variable} {vs : List Variable}
    {n : Nat} (hvs : 2 ≤ vs.length) : ∀ p ∈ (chain taken lhs vs n).1, p.isBinary := by
  fun_induction chain taken lhs vs n with
  | case1 lhs x y z rest n m next ps n' heq ih =>
    have htail := ih (by simp)
    rw [heq] at htail
    refine List.forall_mem_cons.mpr ⟨?_, htail⟩
    exact Production.isBinary_iff.mpr ⟨x, next, rfl⟩
  | case2 lhs vs n hshort =>
    intro p hp
    rw [List.mem_singleton.mp hp]
    -- two variables exactly: with a third one the chain would go on
    obtain ⟨x, y, rfl⟩ : ∃ x y, vs = [x, y] := by
      rcases vs with _ | ⟨x, _ | ⟨y, _ | ⟨z, rest⟩⟩⟩
      · exact absurd hvs (by simp)
      · exact absurd hvs (by simp)
      · exact ⟨x, y, rfl⟩
      · exact absurd rfl (hshort x y z rest)
    exact Production.isBinary_iff.mpr ⟨x, y, rfl⟩

/-- Whatever stands in for a right-hand side of two symbols or more has two variables. -/
theorem split_isBinary {taken : Std.ExtTreeSet Variable} {p : Production} {s : Introduced}
    (hlen : 2 ≤ p.rhs.length) : ∀ q ∈ (p.split taken s).1, q.isBinary := by
  have hlong : ∀ x, p.rhs ≠ [x] := by
    intro x hx
    rw [hx] at hlen
    exact absurd hlen (by simp)
  rw [split_long hlong]
  exact chain_isBinary (length_wrapSymbols ▸ hlen)

theorem split_isNormal {taken : Std.ExtTreeSet Variable} {p : Production} {s : Introduced}
    (hempty : p.rhs ≠ []) (hunit : ¬ p.isUnit) : ∀ q ∈ (p.split taken s).1, q.IsNormal := by
  intro q hq
  match hrhs : p.rhs with
  | [] => exact absurd hrhs hempty
  | [x] =>
    rw [split_single hrhs] at hq
    rw [List.mem_singleton.mp hq]
    cases x with
    | terminal c => exact .inl (Production.isTerminal_iff.mpr ⟨c, hrhs⟩)
    | var v => exact absurd (Production.isUnit_iff.mpr ⟨v, hrhs⟩) hunit
  | _ :: _ :: _ => exact .inr (split_isBinary (hrhs ▸ by simp) q hq)

theorem splitAll_isNormal {taken : Std.ExtTreeSet Variable} {ps : List Production}
    {s : Introduced} (hps : ∀ p ∈ ps, p.rhs ≠ [] ∧ ¬ p.isUnit) :
    ∀ q ∈ (splitAll taken ps s).1, q.IsNormal := by
  induction ps generalizing s with
  | nil => intro q hq; exact absurd hq List.not_mem_nil
  | cons p rest ih =>
    obtain ⟨hp, hrest⟩ := List.forall_mem_cons.mp hps
    intro q hq
    rcases List.mem_append.mp hq with hq | hq
    · exact split_isNormal hp.1 hp.2 q hq
    · exact ih hrest q hq

theorem Introduced.productions_isNormal (s : Introduced) : ∀ p ∈ s.productions, p.IsNormal := by
  intro p hp
  obtain ⟨e, _, rfl⟩ := List.mem_map.mp hp
  exact .inl (Production.isTerminal_iff.mpr ⟨e.1, rfl⟩)

/-! ## At the top -/

namespace Grammar

theorem findSome?_leftover?_eq_none_iff :
    g.productions.toList.findSome? Production.leftover? = none ↔
      g.IsEpsilonFree ∧ g.IsUnitFree := by
  simp only [List.findSome?_eq_none_iff, Std.ExtTreeSet.mem_toList,
    Production.leftover?_eq_none_iff]
  exact ⟨fun hall => ⟨fun p hp => (hall p hp).1, fun p hp => (hall p hp).2⟩,
    fun hall p hp => ⟨hall.1 p hp, hall.2 p hp⟩⟩

/-- Binarization fails on epsilon and unit productions and on nothing else. -/
theorem binarize_eq_ok_iff :
    g.binarize = .ok h ↔ (g.IsEpsilonFree ∧ g.IsUnitFree) ∧ h = g.binaryForm := by
  rw [binarize_eq, ← findSome?_leftover?_eq_none_iff]
  split
  · rename_i l hl
    simp [hl]
  · rename_i hnone
    rw [Except.ok.injEq]
    exact ⟨fun heq => ⟨hnone, heq.symm⟩, fun heq => heq.2.symm⟩

/-- **The outcome is in normal form.** -/
theorem binaryForm_isNormal (hempty : g.IsEpsilonFree) (hunit : g.IsUnitFree) :
    g.binaryForm.IsNormal := by
  have hps : ∀ p ∈ g.productions.toList, p.rhs ≠ [] ∧ ¬ p.isUnit := by
    intro p hp
    have hmem := Std.ExtTreeSet.mem_toList.mp hp
    exact ⟨hempty p hmem, hunit p hmem⟩
  intro p hp
  rcases List.mem_append.mp (mem_binaryForm_iff.mp hp) with hp | hp
  · exact splitAll_isNormal hps p hp
  · exact g.spelledOut.2.productions_isNormal p hp

theorem spelledOut_grows (g : Grammar) : g.spelledOut.2.Grows g.vars g.counter :=
  splitAll_grows (Introduced.grows_init g.vars g.counter)

theorem lhs_mem_vars_of_mem_toList (g : Grammar) : ∀ p ∈ g.productions.toList, p.lhs ∈ g.vars :=
  fun _ hp => lhs_mem_vars (Std.ExtTreeSet.mem_toList.mp hp)

theorem wrappersIn_binaryForm (g : Grammar) : WrappersIn g g.binaryForm g.spelledOut.2 := by
  intro e he
  refine ⟨(g.spelledOut_grows.issued e he).fresh, mem_binaryForm_iff.mpr ?_⟩
  exact List.mem_append_right _ (List.mem_map.mpr ⟨e, he, rfl⟩)

/-- **The outcome spells out the grammar that came in.** -/
theorem binaryForm_spellsOut (g : Grammar) : g.binaryForm.SpellsOut g := by
  have hlhs := g.lhs_mem_vars_of_mem_toList
  have hmem : ∀ q ∈ g.spelledOut.1, q ∈ g.binaryForm.productions :=
    fun q hq => mem_binaryForm_iff.mpr (List.mem_append_left _ hq)
  have hw := g.wrappersIn_binaryForm
  obtain ⟨hfold, hunf⟩ := splitAll_unfolds g.mem_vars_of_mem_toList hmem hw
  refine ⟨rfl, ?_, ?_, ?_⟩
  · intro v x y hv hx hy
    have heq := (splitAll_productions_issuedOnce hlhs).eq
      (mem_binaryForm_iff.mp hx) (mem_binaryForm_iff.mp hy) rfl hv
    exact congrArg Production.rhs heq
  · intro p hp
    obtain ⟨rhs, hrhs, hz⟩ := hfold p (Std.ExtTreeSet.mem_toList.mpr hp)
    exact ⟨rhs, hmem _ hrhs, hz⟩
  · intro p hp
    rcases List.mem_append.mp (mem_binaryForm_iff.mp hp) with hp | hp
    · obtain ⟨form, hform, hold⟩ := hunf p hp
      exact ⟨form, hform, fun hv => Std.ExtTreeSet.mem_toList.mp (hold hv)⟩
    · -- a wrapper is no old variable, and there is nothing to unfold in a terminal
      obtain ⟨e, he, rfl⟩ := List.mem_map.mp hp
      exact ⟨[.terminal e.1], .terminal _ .nil, fun hv => absurd hv (hw e he).1⟩

/-- The variables binarization adds have names that were handed out on the way. -/
theorem issued_of_mem_binaryForm {v : Variable} (hv : v ∈ g.binaryForm.vars)
    (hnew : v ∉ g.vars) :
    Issued g.vars chainStem g.counter g.binaryForm.counter v ∨
      Issued g.vars wrapperStem g.counter g.binaryForm.counter v := by
  obtain ⟨rhs, hmem⟩ := g.binaryForm_spellsOut.exists_production hv hnew
  rcases List.mem_append.mp (mem_binaryForm_iff.mp hmem) with hp | hp
  · exact .inl ((splitAll_lhs g.lhs_mem_vars_of_mem_toList _ hp).resolve_left hnew)
  · obtain ⟨e, he, heq⟩ := List.mem_map.mp hp
    have hv : e.2 = v := congrArg Production.lhs heq
    exact .inr (hv ▸ g.spelledOut_grows.issued e he)

end Grammar

end Unfolding

end ContextFree
