import ContextFree.Proofs.Conversion

/-!
# What is known about the empty word

The conversion asks two things about the empty word: which variables derive it, to anticipate
them wherever they stand, and whether the start variable does, since no normal grammar can
say so. Both answers come from the one set of nullable variables.

That set is as far as its own reasoning goes. Writing down for every one of its members
that it derives the empty word tells a grammar nothing new: it adds a production where there
was a tree without leaves already, and changes the words of no form.
-/

namespace ContextFree

namespace Grammar

variable {g : Grammar}

/-- The grammar with an epsilon production for each of the variables. -/
def withEpsilons (g : Grammar) (vs : Std.ExtTreeSet Variable) : Grammar :=
  g.withProductions (g.productions.insertMany (vs.toList.map fun v => ⟨v, []⟩))

theorem mem_withEpsilons_iff {vs : Std.ExtTreeSet Variable} {p : Production} :
    p ∈ (g.withEpsilons vs).productions ↔ p ∈ g.productions ∨ p.rhs = [] ∧ p.lhs ∈ vs := by
  unfold withEpsilons withProductions
  rw [Std.ExtTreeSet.mem_insertMany_list, List.contains_iff_mem, List.mem_map]
  refine or_congr_right ⟨?_, ?_⟩
  · rintro ⟨v, hv, rfl⟩
    exact ⟨rfl, Std.ExtTreeSet.mem_toList.mp hv⟩
  · rintro ⟨hrhs, hlhs⟩
    refine ⟨p.lhs, Std.ExtTreeSet.mem_toList.mpr hlhs, ?_⟩
    rw [← hrhs]

/-- **Epsilon productions for nullable variables change the words of no form.** -/
theorem yields_withEpsilons_iff {form : List Symbol} {w : List Char} :
    (g.withEpsilons g.nullable).Yields form w ↔ g.Yields form w := by
  constructor
  · intro h
    induction h with
    | nil => exact .nil
    | terminal _ ih => exact .terminal ih
    | @var v rhs rest u w hp _ _ ihrhs ihrest =>
      have htop : g.Yields [.var v] u := by
        rcases mem_withEpsilons_iff.mp hp with hp | ⟨rfl, hv⟩
        · exact yields_var_iff.mpr ⟨rhs, hp, ihrhs⟩
        · -- nothing stands on the right, so the word of this variable is the empty one
          cases ihrhs
          exact mem_nullable_iff.mp hv
      exact yields_cons_iff.mpr ⟨u, w, rfl, htop, ihrest⟩
  · exact Yields.mono fun p hp => mem_withEpsilons_iff.mpr (.inl hp)

theorem nullable_withEpsilons (g : Grammar) :
    (g.withEpsilons g.nullable).nullable = g.nullable := by
  refine Std.ExtTreeSet.ext_mem fun v => ?_
  rw [mem_nullable_iff, yields_withEpsilons_iff, mem_nullable_iff]

/--
**The nullable variables are exactly those that derive the empty word.** Finding them ends: the
passes up to the last one change something, the last one does not, and there are no more of
the others than there are productions. A conversion then answers for the start variable what
derivations say, and a grammar that is told about every nullable variable knows no other.
-/
theorem nullable_exact (g : Grammar) :
    (∃ n ≤ g.productions.size,
      nullablePasses g.productions.toList n ∅ = g.nullable ∧
      (∀ i < n, (nullablePass g.productions.toList
        (nullablePasses g.productions.toList i ∅)).changed = true) ∧
      nullablePass g.productions.toList g.nullable = { known := g.nullable }) ∧
    (∀ v, v ∈ g.nullable ↔ g.Produces v []) ∧
    (∃ nf, g.toNormalForm = .ok nf ∧ (nf.derivesEmpty = true ↔ g.Produces g.start [])) ∧
    (g.withEpsilons g.nullable).nullable = g.nullable := by
  have hexact : ∀ v, v ∈ g.nullable ↔ g.Produces v [] := by
    intro v
    rw [produces_iff_yields]
    exact mem_nullable_iff
  refine ⟨?_, hexact, ?_, g.nullable_withEpsilons⟩
  · obtain ⟨n, hn, hpasses, hearlier, hlast⟩ := exists_passes g.productions.toList ∅
    have hle : (unsettled g.productions.toList ∅).length ≤ g.productions.size := by
      rw [← Std.ExtTreeSet.length_toList]
      exact List.length_filter_le ..
    exact ⟨n, Nat.le_trans hn hle, hpasses, hearlier, hlast⟩
  · obtain ⟨nf, hnf⟩ := g.exists_toNormalForm
    refine ⟨nf, hnf, ?_⟩
    rw [(toNormalForm_eq_ok_iff.mp hnf).2, Std.ExtTreeSet.contains_iff_mem]
    exact hexact g.start

end Grammar

end ContextFree
