import ContextFree.Proofs.Conversion

/-!
# What a grammar is written with

The passes rearrange what is there. None of them brings a terminal in, and the only
variables that are brought in have numbered names. So whatever can be said of every symbol
of a grammar, one symbol at a time, can be said of every symbol of its normal form, if it
can be said of the numbered names.

Two passes only move symbols about. Binarization needs an invariant for the wrappers on
record: a wrapper is used again wherever its terminal comes up, long after it was made.
-/

namespace ContextFree

/-- Both sides are written with symbols of a kind. -/
def Production.Over (P : Symbol → Prop) (p : Production) : Prop :=
  P (.var p.lhs) ∧ ∀ s ∈ p.rhs, P s

/-- All productions are written with symbols of a kind. -/
def Grammar.Over (P : Symbol → Prop) (g : Grammar) : Prop :=
  ∀ p ∈ g.productions, p.Over P

variable {P : Symbol → Prop} {g : Grammar}

/-! ## Passes that move symbols about -/

theorem Grammar.Over.withoutEpsilon (h : g.Over P) (nullable : Std.ExtTreeSet Variable) :
    (g.withoutEpsilon nullable).Over P := by
  intro q hq
  obtain ⟨_, form, hform, hthin⟩ := mem_withoutEpsilon_iff.mp hq
  obtain ⟨hlhs, hrhs⟩ := h _ hform
  exact ⟨hlhs, fun s hs => hrhs s (hthin.mem hs)⟩

theorem Grammar.Over.withoutUnits (h : g.Over P) : g.withoutUnits.Over P := by
  intro q hq
  obtain ⟨_, target, hreach, htarget⟩ := mem_withoutUnits_iff.mp hq
  refine ⟨?_, (h _ htarget).2⟩
  -- whoever reaches another variable is on the left of some production
  rcases Relation.ReflTransGen.cases_head hreach with heq | ⟨_, hstep, _⟩
  · exact heq ▸ (h _ htarget).1
  · exact (h _ hstep).1

theorem Grammar.Over.unitFree (h : g.Over P) : g.unitFree.Over P :=
  (h.withoutEpsilon g.nullable).withoutUnits

/-! ## Binarization -/

section Binarization

variable (taken : Std.ExtTreeSet Variable)

/-- The wrappers on record and their terminals are symbols of a kind. -/
def Introduced.Over (P : Symbol → Prop) (s : Introduced) : Prop :=
  ∀ e ∈ s.wrappers, P (.terminal e.1) ∧ P (.var e.2)

theorem wrapperOf_over (hnew : ∀ n, P (.var (.numbered wrapperStem n))) {c : Char}
    {s : Introduced} (hs : s.Over P) (hc : P (.terminal c)) : (wrapperOf taken c s).2.Over P := by
  unfold wrapperOf
  split
  · exact hs
  · intro e he
    rcases List.mem_append.mp he with he | he
    · exact hs e he
    · rw [List.mem_singleton.mp he]
      exact ⟨hc, hnew _⟩

theorem wrapSymbols_over (hnew : ∀ n, P (.var (.numbered wrapperStem n))) {rhs : List Symbol}
    {s : Introduced} (hs : s.Over P) (hrhs : ∀ x ∈ rhs, P x) :
    (wrapSymbols taken rhs s).2.Over P ∧ ∀ v ∈ (wrapSymbols taken rhs s).1, P (.var v) := by
  induction rhs generalizing s with
  | nil => exact ⟨hs, fun v hv => absurd hv List.not_mem_nil⟩
  | cons x rest ih =>
    obtain ⟨hx, hrest⟩ := List.forall_mem_cons.mp hrhs
    cases x with
    | var v =>
      obtain ⟨hover, hvs⟩ := ih hs hrest
      exact ⟨hover, List.forall_mem_cons.mpr ⟨hx, hvs⟩⟩
    | terminal c =>
      have hwrapper := wrapperOf_over taken hnew hs hx
      obtain ⟨hover, hvs⟩ := ih hwrapper hrest
      have hv := (hwrapper _ wrapperOf_mem).2
      exact ⟨hover, List.forall_mem_cons.mpr ⟨hv, hvs⟩⟩

theorem chain_over (hnew : ∀ n, P (.var (.numbered chainStem n))) {lhs : Variable}
    {vs : List Variable} {n : Nat} (hlhs : P (.var lhs)) (hvs : ∀ v ∈ vs, P (.var v)) :
    ∀ p ∈ (chain taken lhs vs n).1, p.Over P := by
  fun_induction chain taken lhs vs n with
  | case1 lhs x y z rest n m next ps n' heq ih =>
    obtain ⟨hx, hothers⟩ := List.forall_mem_cons.mp hvs
    have htail := ih (hnew m) hothers
    rw [heq] at htail
    refine List.forall_mem_cons.mpr ⟨⟨hlhs, ?_⟩, htail⟩
    exact List.forall_mem_cons.mpr ⟨hx, List.forall_mem_singleton.mpr (hnew m)⟩
  | case2 lhs vs n _ =>
    intro p hp
    rw [List.mem_singleton.mp hp]
    refine ⟨hlhs, fun s hs => ?_⟩
    obtain ⟨v, hv, rfl⟩ := List.mem_map.mp hs
    exact hvs v hv

theorem split_over (hchain : ∀ n, P (.var (.numbered chainStem n)))
    (hwrapper : ∀ n, P (.var (.numbered wrapperStem n))) {p : Production} {s : Introduced}
    (hs : s.Over P) (hp : p.Over P) :
    (p.split taken s).2.Over P ∧ ∀ q ∈ (p.split taken s).1, q.Over P := by
  rcases split_cases taken p s with ⟨_, hsplit⟩ | ⟨_, hsplit⟩
  · rw [hsplit]
    exact ⟨hs, List.forall_mem_singleton.mpr hp⟩
  · obtain ⟨hover, hvs⟩ := wrapSymbols_over taken hwrapper hs hp.2
    rw [hsplit]
    exact ⟨hover, chain_over taken hchain hp.1 hvs⟩

theorem splitAll_over (hchain : ∀ n, P (.var (.numbered chainStem n)))
    (hwrapper : ∀ n, P (.var (.numbered wrapperStem n))) {ps : List Production}
    {s : Introduced} (hs : s.Over P) (hps : ∀ p ∈ ps, p.Over P) :
    (splitAll taken ps s).2.Over P ∧ ∀ q ∈ (splitAll taken ps s).1, q.Over P := by
  induction ps generalizing s with
  | nil => exact ⟨hs, fun q hq => absurd hq List.not_mem_nil⟩
  | cons p rest ih =>
    obtain ⟨hp, hrest⟩ := List.forall_mem_cons.mp hps
    obtain ⟨hsplit, hfirst⟩ := split_over taken hchain hwrapper hs hp
    obtain ⟨hover, hothers⟩ := ih hsplit hrest
    rw [splitAll_cons]
    refine ⟨hover, fun q hq => ?_⟩
    rcases List.mem_append.mp hq with hq | hq
    · exact hfirst q hq
    · exact hothers q hq

end Binarization

theorem Grammar.Over.binaryForm (hchain : ∀ n, P (.var (.numbered chainStem n)))
    (hwrapper : ∀ n, P (.var (.numbered wrapperStem n))) (h : g.Over P) :
    g.binaryForm.Over P := by
  have hps : ∀ p ∈ g.productions.toList, p.Over P :=
    fun p hp => h p (Std.ExtTreeSet.mem_toList.mp hp)
  have hinit : Introduced.Over P { counter := g.counter } :=
    fun e he => absurd he List.not_mem_nil
  obtain ⟨hrecord, hsplit⟩ := splitAll_over g.vars hchain hwrapper hinit hps
  intro q hq
  rcases List.mem_append.mp (mem_binaryForm_iff.mp hq) with hq | hq
  · exact hsplit q hq
  · obtain ⟨e, he, rfl⟩ := List.mem_map.mp hq
    obtain ⟨hterminal, hvar⟩ := hrecord e he
    exact ⟨hvar, List.forall_mem_singleton.mpr hterminal⟩

/-- **A normal form is written with what its grammar is written with, and numbered names.** -/
theorem Grammar.Over.toNormalForm (hchain : ∀ n, P (.var (.numbered chainStem n)))
    (hwrapper : ∀ n, P (.var (.numbered wrapperStem n))) (h : g.Over P) {nf : NormalForm}
    (hnf : g.toNormalForm = .ok nf) : nf.grammar.Over P := by
  rw [(toNormalForm_eq_ok_iff.mp hnf).1]
  exact h.unitFree.binaryForm hchain hwrapper

end ContextFree
