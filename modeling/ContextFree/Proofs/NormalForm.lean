import ContextFree.NormalForm
import ContextFree.Proofs.EpsilonFree

/-!
# Trees of a normal grammar

A tree of a normal grammar is a single leaf or branches into two. Read off its word:
one character, and then a production yields it outright, or a word that can be cut in
two non-empty parts, one for each variable of a production. The recognizer is this
recursion carried out from short words to long ones.
-/

namespace ContextFree

namespace Grammar

variable {g : Grammar}

theorem IsNormal.rhs_cases (hg : g.IsNormal) {v : Variable} {rhs : List Symbol}
    (hp : ⟨v, rhs⟩ ∈ g.productions) :
    (∃ c, rhs = [.terminal c]) ∨ ∃ b c, rhs = [.var b, .var c] := by
  rcases hg _ hp with hterm | hbin
  · exact .inl (Production.isTerminal_iff.mp hterm)
  · exact .inr (Production.isBinary_iff.mp hbin)

theorem not_isNormal_iff :
    ¬ g.IsNormal ↔ ∃ p ∈ g.productions,
      (∀ c, p.rhs ≠ [.terminal c]) ∧ ∀ b c, p.rhs ≠ [.var b, .var c] := by
  unfold IsNormal Production.IsNormal
  simp only [Production.isTerminal_iff, Production.isBinary_iff, Classical.not_forall, not_or,
    not_exists, exists_prop, ne_eq]

theorem IsNormal.isEpsilonFree (hg : g.IsNormal) : g.IsEpsilonFree := by
  intro p hp hempty
  rcases hg.rhs_cases hp with ⟨c, hrhs⟩ | ⟨b, c, hrhs⟩
  · rw [hempty] at hrhs
    exact absurd hrhs (by simp)
  · rw [hempty] at hrhs
    exact absurd hrhs (by simp)

theorem yields_terminal_iff {c : Char} {w : List Char} : g.Yields [.terminal c] w ↔ w = [c] := by
  constructor
  · intro h
    cases h with
    | terminal hrest =>
      cases hrest
      rfl
  · rintro rfl
    exact .terminal .nil

theorem yields_pair_iff {b c : Variable} {w : List Char} :
    g.Yields [.var b, .var c] w ↔ ∃ u v, w = u ++ v ∧ g.Yields [.var b] u ∧ g.Yields [.var c] v :=
  yields_cons_iff

/-- One character comes from a production with that character alone. -/
theorem IsNormal.yields_char_iff (hg : g.IsNormal) {v : Variable} {c : Char} :
    g.Yields [.var v] [c] ↔ ⟨v, [.terminal c]⟩ ∈ g.productions := by
  rw [yields_var_iff]
  constructor
  · rintro ⟨rhs, hp, hrhs⟩
    rcases hg.rhs_cases hp with ⟨d, rfl⟩ | ⟨a, b, rfl⟩
    · obtain ⟨rfl, _⟩ := List.cons.inj (yields_terminal_iff.mp hrhs)
      exact hp
    · -- two variables have two leaves at least
      have hlen := hrhs.length_le hg.isEpsilonFree
      exact absurd hlen (by simp)
  · intro hp
    exact ⟨[.terminal c], hp, yields_terminal_iff.mpr rfl⟩

/-- **A longer word is cut in two, neither part empty.** -/
theorem IsNormal.yields_cut_iff (hg : g.IsNormal) {v : Variable} {w : List Char}
    (hw : 2 ≤ w.length) :
    g.Yields [.var v] w ↔ ∃ b c k, ⟨v, [.var b, .var c]⟩ ∈ g.productions ∧
      0 < k ∧ k < w.length ∧ g.Yields [.var b] (w.take k) ∧ g.Yields [.var c] (w.drop k) := by
  rw [yields_var_iff]
  constructor
  · rintro ⟨rhs, hp, hrhs⟩
    rcases hg.rhs_cases hp with ⟨d, rfl⟩ | ⟨b, c, rfl⟩
    · rw [yields_terminal_iff.mp hrhs] at hw
      exact absurd hw (by simp)
    · obtain ⟨x, y, rfl, hx, hy⟩ := yields_pair_iff.mp hrhs
      -- neither part is empty, since nothing derives the empty word here
      have hxlen := hx.length_le hg.isEpsilonFree
      have hylen := hy.length_le hg.isEpsilonFree
      simp only [List.length_cons, List.length_nil] at hxlen hylen
      refine ⟨b, c, x.length, hp, by omega, by rw [List.length_append]; omega, ?_, ?_⟩
      · rw [List.take_left]
        exact hx
      · rw [List.drop_left]
        exact hy
  · rintro ⟨b, c, k, hp, _, _, hb, hc⟩
    exact ⟨_, hp, yields_pair_iff.mpr ⟨w.take k, w.drop k, (List.take_append_drop k w).symm, hb, hc⟩⟩

/-- Every character of a word is in the form or comes from a production of its own. -/
theorem IsNormal.exists_production (hg : g.IsNormal) {form : List Symbol} {w : List Char}
    (h : g.Yields form w) {c : Char} (hc : c ∈ w) :
    .terminal c ∈ form ∨ ∃ v, ⟨v, [.terminal c]⟩ ∈ g.productions := by
  induction h with
  | nil => exact absurd hc List.not_mem_nil
  | terminal _ ih =>
    rcases List.mem_cons.mp hc with rfl | hc
    · exact .inl List.mem_cons_self
    · exact (ih hc).imp_left (List.mem_cons_of_mem _)
  | @var v rhs rest _ _ hp _ _ ihrhs ihrest =>
    rcases List.mem_append.mp hc with hc | hc
    · rcases ihrhs hc with hmem | hprod
      · -- a normal right-hand side with a terminal in it is that terminal
        rcases hg.rhs_cases hp with ⟨d, rfl⟩ | ⟨a, b, rfl⟩
        · rw [Symbol.terminal.inj (List.mem_singleton.mp hmem)]
          exact .inr ⟨v, hp⟩
        · exact absurd hmem (by simp)
      · exact .inr hprod
    · exact (ihrest hc).imp_left (List.mem_cons_of_mem _)

end Grammar

end ContextFree
