import ContextFree.Conversion
import ContextFree.Proofs.Binary
import ContextFree.Proofs.NormalForm

/-!
# The passes in a row

Each pass has been looked at by itself. In a row, two things remain to be seen.

**Shapes last.** Binarization fails on epsilon and unit productions. The first pass
leaves none of the former and the second none of the latter, and the second brings none
of the former back. So binarization gets what it asks for, its outcome passes the check
at the end, and a conversion cannot fail.

**Words last, for the variables that do.** Every pass keeps the non-empty words of the
variables of the grammar it is given. But a variable that derives nothing but the empty
word can be gone by the time binarization asks which names are taken, and then its name
can be handed out. Such a variable is *forgotten*. A name the conversion introduces is
never one that reached binarization; it may be a forgotten one.
-/

namespace ContextFree

namespace Grammar

variable {g : Grammar} {nf : NormalForm}

/-- The grammar that reaches binarization. -/
def unitFree (g : Grammar) : Grammar :=
  (g.withoutEpsilon g.nullable).withoutUnits

/-- The variable of the grammar is gone when the names that are taken get counted. -/
def Forgets (g : Grammar) (v : Variable) : Prop :=
  v ∈ g.vars ∧ v ∉ g.unitFree.vars

/-- The variable of the normal form was not there when the names were counted. -/
def Introduces (g : Grammar) (nf : NormalForm) (v : Variable) : Prop :=
  v ∈ nf.grammar.vars ∧ v ∉ g.unitFree.vars

/-! ## What reaches binarization -/

theorem isEpsilonFree_unitFree (g : Grammar) : g.unitFree.IsEpsilonFree :=
  (isEpsilonFree_withoutEpsilon g g.nullable).withoutUnits

theorem isUnitFree_unitFree (g : Grammar) : g.unitFree.IsUnitFree :=
  isUnitFree_withoutUnits _

/-- The start variable gets there whether or not it has productions. -/
theorem start_mem_unitFree (g : Grammar) : g.start ∈ g.unitFree.vars :=
  g.unitFree.start_mem_vars

/-- The first two passes lose the empty word and nothing else. -/
theorem yields_unitFree_iff {v : Variable} {w : List Char} :
    g.unitFree.Yields [.var v] w ↔ w ≠ [] ∧ g.Yields [.var v] w :=
  yields_withoutUnits_iff.trans yields_withoutEpsilon_iff

/-- Whoever derives a word has a production. -/
theorem mem_vars_of_yields {v : Variable} {w : List Char} (h : g.Yields [.var v] w) :
    v ∈ g.vars := by
  obtain ⟨rhs, hp, _⟩ := yields_var_iff.mp h
  exact lhs_mem_vars hp

/-- A variable that is gone derives no non-empty word. -/
theorem not_yields_of_notMem_unitFree {v : Variable} (hv : v ∉ g.unitFree.vars) {w : List Char}
    (hw : w ≠ []) : ¬ g.Yields [.var v] w :=
  fun h => hv (mem_vars_of_yields (yields_unitFree_iff.mpr ⟨hw, h⟩))

/-! ## The conversion from its passes -/

theorem isNormal_binaryForm_unitFree (g : Grammar) : g.unitFree.binaryForm.IsNormal :=
  binaryForm_isNormal g.isEpsilonFree_unitFree g.isUnitFree_unitFree

theorem binarize_unitFree (g : Grammar) : g.unitFree.binarize = .ok g.unitFree.binaryForm :=
  binarize_eq_ok_iff.mpr ⟨⟨g.isEpsilonFree_unitFree, g.isUnitFree_unitFree⟩, rfl⟩

/-- Binarization succeeds, and so does the check at the end. -/
theorem convert_eq (g : Grammar) :
    g.convert =
      { stages := [.nullable g.nullable, .epsilonFree (g.withoutEpsilon g.nullable),
          .unitFree g.unitFree, .normal g.unitFree.binaryForm]
        result := .ok ⟨g.unitFree.binaryForm, g.nullable.contains g.start,
          g.isNormal_binaryForm_unitFree⟩ } := by
  have hbinarize := g.binarize_unitFree
  have hfaults : g.unitFree.binaryForm.normalFaults = [] :=
    normalFaults_eq_nil_iff.mpr g.isNormal_binaryForm_unitFree
  unfold unitFree at *
  unfold convert
  dsimp only
  rw [hbinarize]
  dsimp only
  rw [NormalForm.ofGrammar, dif_pos hfaults]
  rfl

/-- The normal form is what binarization made, with the answer for the empty word beside it. -/
theorem toNormalForm_eq_ok_iff :
    g.toNormalForm = .ok nf ↔
      nf.grammar = g.unitFree.binaryForm ∧ nf.derivesEmpty = g.nullable.contains g.start := by
  rw [toNormalForm, convert_eq, Except.ok.injEq]
  cases nf
  rw [NormalForm.mk.injEq]
  exact and_congr eq_comm eq_comm

theorem exists_toNormalForm (g : Grammar) : ∃ nf, g.toNormalForm = .ok nf := by
  rw [toNormalForm, convert_eq]
  exact ⟨_, rfl⟩

/--
**A conversion never fails.** Both of its checks are passed, and every stage on the way has
the shape the next one asks for.
-/
theorem conversion_succeeds (g : Grammar) :
    ∃ nf, g.toNormalForm = .ok nf ∧
      g.convert.stages = [.nullable g.nullable, .epsilonFree (g.withoutEpsilon g.nullable),
        .unitFree g.unitFree, .normal nf.grammar] ∧
      (∀ leftover, g.unitFree.binarize ≠ .error leftover) ∧
      nf.grammar.normalFaults = [] ∧
      (∀ p ∈ (g.withoutEpsilon g.nullable).productions, p.rhs ≠ []) ∧
      (∀ p ∈ g.unitFree.productions, p.rhs ≠ [] ∧ ∀ v, p.rhs ≠ [.var v]) ∧
      ∀ p ∈ nf.grammar.productions,
        (∃ c, p.rhs = [.terminal c]) ∨ ∃ b c, p.rhs = [.var b, .var c] := by
  have hnormal := g.isNormal_binaryForm_unitFree
  have hnf : g.toNormalForm =
      .ok ⟨g.unitFree.binaryForm, g.nullable.contains g.start, hnormal⟩ :=
    toNormalForm_eq_ok_iff.mpr ⟨rfl, rfl⟩
  refine ⟨_, hnf, ?_, ?_, ?_, ?_, ?_, ?_⟩
  · rw [convert_eq]
  · intro leftover hfail
    rw [binarize_unitFree] at hfail
    exact absurd hfail (by simp)
  · exact normalFaults_eq_nil_iff.mpr hnormal
  · exact isEpsilonFree_withoutEpsilon g g.nullable
  · intro p hp
    refine ⟨g.isEpsilonFree_unitFree p hp, fun v hv => ?_⟩
    exact g.isUnitFree_unitFree p hp (Production.isUnit_iff.mpr ⟨v, hv⟩)
  · exact fun p hp => hnormal.rhs_cases hp

/-! ## The words of the variables that were there -/

/-- A variable that reached binarization keeps its non-empty words. -/
theorem yields_toNormalForm_iff (h : g.toNormalForm = .ok nf) {v : Variable}
    (hv : v ∈ g.unitFree.vars) {w : List Char} :
    nf.grammar.Yields [.var v] w ↔ w ≠ [] ∧ g.Yields [.var v] w := by
  have hform : ∀ u, .var u ∈ [Symbol.var v] → u ∈ g.unitFree.vars := by
    intro u hu
    rw [Symbol.var.inj (List.mem_singleton.mp hu)]
    exact hv
  rw [(toNormalForm_eq_ok_iff.mp h).1]
  exact (g.unitFree.binaryForm_spellsOut.yields_iff hform).trans yields_unitFree_iff

/-- An introduced variable is numbered from the counter on. -/
theorem Introduces.numbered (h : g.toNormalForm = .ok nf) {v : Variable}
    (hv : g.Introduces nf v) :
    ∃ n, g.counter ≤ n ∧ n < nf.grammar.counter ∧
      (v = .numbered chainStem n ∨ v = .numbered wrapperStem n) := by
  -- the first two passes do not touch the counter
  have hcounter : g.unitFree.counter = g.counter := rfl
  obtain ⟨hmem, hnew⟩ := hv
  rw [(toNormalForm_eq_ok_iff.mp h).1] at hmem ⊢
  rcases issued_of_mem_binaryForm hmem hnew with hchain | hwrapper
  · obtain ⟨n, hlo, hhi, heq⟩ := hchain.number
    exact ⟨n, hcounter ▸ hlo, hhi, .inl heq⟩
  · obtain ⟨n, hlo, hhi, heq⟩ := hwrapper.number
    exact ⟨n, hcounter ▸ hlo, hhi, .inr heq⟩

/-- A variable has other words than it had exactly if it is another variable now. -/
theorem keeps_words_iff (h : g.toNormalForm = .ok nf) {v : Variable} :
    (∀ w, w ≠ [] → (nf.grammar.Produces v w ↔ g.Produces v w)) ↔
      ¬ (g.Introduces nf v ∧ ∃ w, nf.grammar.Produces v w) := by
  simp only [produces_iff_yields]
  constructor
  · rintro hkeeps ⟨⟨_, hgone⟩, w, hw⟩
    -- no normal grammar derives the empty word, so this is a word the variable has gained
    have hne : w ≠ [] := hw.ne_nil nf.normal.isEpsilonFree
    exact not_yields_of_notMem_unitFree hgone hne ((hkeeps w hne).mp hw)
  · intro hnot w hne
    by_cases hv : v ∈ g.unitFree.vars
    · rw [yields_toNormalForm_iff h hv]
      exact and_iff_right hne
    · -- it had no such word, and with one it would be there again
      constructor
      · intro hw
        exact absurd ⟨⟨mem_vars_of_yields hw, hv⟩, w, hw⟩ hnot
      · intro hw
        exact absurd hw (not_yields_of_notMem_unitFree hv hne)

/--
**The conversion leaves the variables of a grammar alone unless it brings back the name
of one it has forgotten.** Only names numbered from the counter on can be such.
-/
theorem originals_kept_iff (h : g.toNormalForm = .ok nf) :
    (((∀ v ∈ g.vars, ∀ w, w ≠ [] → (nf.grammar.Produces v w ↔ g.Produces v w)) ∧
        ∀ v, g.Introduces nf v → v ∉ g.vars) ↔
      ∀ v, g.Forgets v → v ∉ nf.grammar.vars) ∧
    (∀ v, (∀ w, w ≠ [] → (nf.grammar.Produces v w ↔ g.Produces v w)) ↔
      ¬ (g.Introduces nf v ∧ ∃ w, nf.grammar.Produces v w)) ∧
    ∀ v, g.Introduces nf v → ∃ n, g.counter ≤ n ∧ n < nf.grammar.counter ∧
      (v = .numbered chainStem n ∨ v = .numbered wrapperStem n) := by
  refine ⟨⟨?_, ?_⟩, fun v => keeps_words_iff h, fun v hv => hv.numbered h⟩
  · rintro ⟨_, hnames⟩ v ⟨hv, hgone⟩ hback
    exact hnames v ⟨hback, hgone⟩ hv
  · intro hforgotten
    refine ⟨fun v hv => (keeps_words_iff h).mpr ?_, ?_⟩
    · rintro ⟨⟨hback, hgone⟩, _⟩
      exact hforgotten v ⟨hv, hgone⟩ hback
    · rintro v ⟨hback, hgone⟩ hv
      exact hforgotten v ⟨hv, hgone⟩ hback

/-! ## A name that comes back -/

/-- `T0` is the name of the first wrapper, and of a variable that derives nothing else than `ε`. -/
def shadowing : Grammar :=
  .ofList ⟨"S"⟩ [⟨⟨"S"⟩, [.terminal '1', .terminal '2']⟩, ⟨⟨"T0"⟩, []⟩]

/-- Its normal form, where `T0` is a wrapper. -/
def shadowed : NormalForm where
  grammar :=
    { start := ⟨"S"⟩
      productions := .ofList [(⟨⟨"S"⟩, [.var ⟨"T0"⟩, .var ⟨"T1"⟩]⟩ : Production),
        ⟨⟨"T0"⟩, [.terminal '1']⟩, ⟨⟨"T1"⟩, [.terminal '2']⟩]
      counter := 2 }
  derivesEmpty := false
  normal := normalFaults_eq_nil_iff.mp (by decide +kernel)

theorem toNormalForm_shadowing : shadowing.toNormalForm = .ok shadowed :=
  toNormalForm_eq_ok_iff.mpr ⟨by decide +kernel, by decide +kernel⟩

theorem shadowing_forgets : shadowing.Forgets ⟨"T0"⟩ :=
  ⟨by decide +kernel, by decide +kernel⟩

/-- The variable `T0` has a word that it did not have. -/
theorem shadowing_gains_word :
    shadowing.toNormalForm = .ok shadowed ∧ ⟨"T0"⟩ ∈ shadowing.vars ∧
      shadowed.grammar.Produces ⟨"T0"⟩ ['1'] ∧ ¬ shadowing.Produces ⟨"T0"⟩ ['1'] := by
  refine ⟨toNormalForm_shadowing, shadowing_forgets.1, ?_, ?_⟩
  · have hp : ⟨⟨"T0"⟩, [.terminal '1']⟩ ∈ shadowed.grammar.productions := by decide +kernel
    exact produces_iff_yields.mpr (yields_var_iff.mpr ⟨_, hp, .terminal .nil⟩)
  · rw [produces_iff_yields]
    exact not_yields_of_notMem_unitFree shadowing_forgets.2 (by simp)

theorem shadowing_not_kept :
    shadowing.toNormalForm = .ok shadowed ∧
      ¬ ((∀ v ∈ shadowing.vars, ∀ w, w ≠ [] →
            (shadowed.grammar.Produces v w ↔ shadowing.Produces v w)) ∧
          ∀ v, shadowing.Introduces shadowed v → v ∉ shadowing.vars) := by
  refine ⟨toNormalForm_shadowing, fun hkept => ?_⟩
  have hall := (originals_kept_iff toNormalForm_shadowing).1.mp hkept
  exact hall ⟨"T0"⟩ shadowing_forgets (by decide +kernel)

end Grammar

end ContextFree
