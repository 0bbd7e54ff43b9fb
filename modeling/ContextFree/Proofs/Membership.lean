import ContextFree.Proofs.Conversion
import ContextFree.Proofs.Table

/-!
# Membership

The recognizer answers for the grammar of a normal form, the conversion makes one out of
any grammar, and between the two stands the empty word. No normal grammar derives it, so
its answer is carried beside the grammar: `false` for a grammar that was normal already,
and otherwise whether the start variable was nullable before anything was converted.

The start variable is never forgotten, whether or not it has productions. That is why
what can happen to the other variables does not show in any answer.
-/

namespace ContextFree

namespace Recognizer

variable {g : Grammar} {nf : NormalForm}

theorem accepts_nil : (ofNormalForm nf).accepts [] = nf.derivesEmpty := rfl

/-! ## Grammars that are normal already -/

theorem assume_eq_ok_iff :
    NormalForm.assume g = .ok nf ↔
      g.normalFaults = [] ∧ nf.grammar = g ∧ nf.derivesEmpty = false := by
  unfold NormalForm.assume NormalForm.ofGrammar
  split
  · rename_i hfaults
    rw [Except.ok.injEq]
    constructor
    · rintro rfl
      exact ⟨hfaults, rfl, rfl⟩
    · rintro ⟨_, rfl, hempty⟩
      cases nf
      rw [NormalForm.mk.injEq]
      exact ⟨rfl, hempty.symm⟩
  · rename_i hfaults
    constructor
    · intro h
      exact absurd h (by simp)
    · intro h
      exact absurd h.1 hfaults

/--
**The recognizer is right about every normal form.** A grammar without faults can be taken
as it is, and then it is right about the empty word too.
-/
theorem recognition_exact :
    (∀ (nf : NormalForm) (word : List Char), word ≠ [] →
      ((ofNormalForm nf).accepts word ↔ nf.grammar.Produces nf.grammar.start word)) ∧
    (∀ g : Grammar, g.normalFaults = [] → ∃ nf, NormalForm.assume g = .ok nf) ∧
    ∀ (g : Grammar) (nf : NormalForm), NormalForm.assume g = .ok nf →
      nf.grammar = g ∧ (ofNormalForm nf).accepts [] = false ∧ ¬ g.Produces g.start [] := by
  refine ⟨?_, ?_, ?_⟩
  · intro nf word hword
    rw [Grammar.produces_iff_yields]
    exact accepts_iff_yields hword
  · intro g hfaults
    have hnormal : g.IsNormal := Grammar.normalFaults_eq_nil_iff.mp hfaults
    exact ⟨⟨g, false, hnormal⟩, assume_eq_ok_iff.mpr ⟨hfaults, rfl, rfl⟩⟩
  · intro g nf h
    obtain ⟨_, rfl, hempty⟩ := assume_eq_ok_iff.mp h
    refine ⟨rfl, accepts_nil.trans hempty, ?_⟩
    rw [Grammar.produces_iff_yields]
    exact fun hyield => hyield.ne_nil nf.normal.isEpsilonFree rfl

/-- A normal grammar with the word `aa` and no other, taken as it is. -/
def twin : NormalForm where
  grammar :=
    .ofList ⟨"S"⟩ [⟨⟨"S"⟩, [.var ⟨"A"⟩, .var ⟨"A"⟩]⟩, ⟨⟨"A"⟩, [.terminal 'a']⟩]
  derivesEmpty := false
  normal := Grammar.normalFaults_eq_nil_iff.mp (by decide +kernel)

theorem twin_recognized :
    NormalForm.assume twin.grammar = .ok twin ∧ twin.grammar.Produces ⟨"S"⟩ ['a', 'a'] ∧
      ¬ twin.grammar.Produces ⟨"S"⟩ ['a'] ∧ ¬ twin.grammar.Produces ⟨"S"⟩ [] := by
  obtain ⟨hwords, _, hempty⟩ := recognition_exact
  have hassume : NormalForm.assume twin.grammar = .ok twin :=
    assume_eq_ok_iff.mpr ⟨by decide +kernel, rfl, rfl⟩
  refine ⟨hassume, ?_, ?_, (hempty twin.grammar twin hassume).2.2⟩
  · exact (hwords twin ['a', 'a'] (by simp)).mp (by decide +kernel)
  · intro h
    exact absurd ((hwords twin ['a'] (by simp)).mpr h) (by decide +kernel)

/-! ## Grammars that are converted first -/

/--
**Converting a grammar and recognizing a word decides whether the start variable derives
the word.** The empty word is one of them.
-/
theorem membership_exact (h : g.toNormalForm = .ok nf) (word : List Char) :
    (ofNormalForm nf).accepts word = true ↔ g.Produces g.start word := by
  obtain ⟨hgrammar, hempty⟩ := Grammar.toNormalForm_eq_ok_iff.mp h
  have hstart : nf.grammar.start = g.start := by
    rw [hgrammar]
    exact g.unitFree.binaryForm_spellsOut.start
  rw [Grammar.produces_iff_yields]
  -- the empty word is answered from beside the grammar, all others from the table
  by_cases hword : word = []
  · rw [hword, accepts_nil, hempty, Std.ExtTreeSet.contains_iff_mem]
    exact Grammar.mem_nullable_iff
  · rw [accepts_iff_yields hword, hstart,
      Grammar.yields_toNormalForm_iff h g.start_mem_unitFree]
    exact and_iff_right hword

/-- As many `a` as `b`, the `a` first. -/
def nested : Grammar :=
  .ofList ⟨"S"⟩ [⟨⟨"S"⟩, [.terminal 'a', .var ⟨"S"⟩, .terminal 'b']⟩, ⟨⟨"S"⟩, []⟩]

/-- Its normal form. -/
def nestedNormal : NormalForm where
  grammar :=
    { start := ⟨"S"⟩
      productions := .ofList [(⟨⟨"C2"⟩, [.var ⟨"S"⟩, .var ⟨"T1"⟩]⟩ : Production),
        ⟨⟨"S"⟩, [.var ⟨"T0"⟩, .var ⟨"C2"⟩]⟩, ⟨⟨"S"⟩, [.var ⟨"T0"⟩, .var ⟨"T1"⟩]⟩,
        ⟨⟨"T0"⟩, [.terminal 'a']⟩, ⟨⟨"T1"⟩, [.terminal 'b']⟩]
      counter := 3 }
  derivesEmpty := true
  normal := Grammar.normalFaults_eq_nil_iff.mp (by decide +kernel)

theorem nested_recognized :
    nested.toNormalForm = .ok nestedNormal ∧ nested.Produces ⟨"S"⟩ [] ∧
      nested.Produces ⟨"S"⟩ ['a', 'a', 'b', 'b'] ∧ ¬ nested.Produces ⟨"S"⟩ ['a', 'a', 'b'] := by
  have h : nested.toNormalForm = .ok nestedNormal :=
    Grammar.toNormalForm_eq_ok_iff.mpr ⟨by decide +kernel, by decide +kernel⟩
  refine ⟨h, ?_, ?_, ?_⟩
  · exact (membership_exact h []).mp rfl
  · exact (membership_exact h _).mp (by decide +kernel)
  · intro hyield
    exact absurd ((membership_exact h _).mpr hyield) (by decide +kernel)

end Recognizer

end ContextFree
