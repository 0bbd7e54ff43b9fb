import ContextFree.Proofs.Run

/-!
# Normal grammars are left alone

Every pass of the conversion looks for something that a normal grammar does not have, and
each of them asks for less than normal form to leave a grammar as it is.

* Without epsilon productions no variable is nullable, so there is nothing to leave out and
  one way of leaving it out.
* Without unit productions a variable reaches itself and no other, so it takes over its own
  productions.
* A normal right-hand side is neither wrapped nor chained. No name is handed out, so the
  counter stays where it is.

A conversion ends in a normal grammar, hence converting once more changes nothing. And since
it then makes what `NormalForm.assume` takes the grammar for, a membership question has one
answer, whether or not a conversion was asked for.
-/

namespace ContextFree

/-! ## Nothing to leave out -/

theorem Thins.refl (nullable : Std.ExtTreeSet Variable) (form : List Symbol) :
    Thins nullable form form := by
  induction form with
  | nil => exact .nil
  | cons s _ ih => exact .keep s ih

theorem Thins.eq_of_none {nullable : Std.ExtTreeSet Variable} {form left : List Symbol}
    (hnone : ∀ v, v ∉ nullable) (h : Thins nullable form left) : left = form := by
  induction h with
  | nil => rfl
  | keep s _ ih => rw [ih]
  | drop hs _ _ =>
    obtain ⟨v, _, hv⟩ := Symbol.isDroppable_iff.mp hs
    exact absurd hv (hnone v)

namespace Grammar

variable {g : Grammar}

theorem IsEpsilonFree.notMem_nullable (hg : g.IsEpsilonFree) (v : Variable) :
    v ∉ g.nullable :=
  fun hv => (mem_nullable_iff.mp hv).ne_nil hg rfl

theorem IsEpsilonFree.withoutEpsilon_eq (hg : g.IsEpsilonFree) :
    g.withoutEpsilon g.nullable = g := by
  refine Grammar.ext rfl (Std.ExtTreeSet.ext_mem fun p => ?_) rfl
  rw [mem_withoutEpsilon_iff]
  constructor
  · rintro ⟨_, form, hform, hthin⟩
    have hrhs : p.rhs = form := hthin.eq_of_none hg.notMem_nullable
    rw [← hrhs] at hform
    exact hform
  · intro hp
    exact ⟨hg p hp, p.rhs, hp, .refl _ _⟩

/-! ## Nothing to pass on -/

theorem IsUnitFree.eq_of_unitReaches (hg : g.IsUnitFree) {a b : Variable}
    (h : g.UnitReaches a b) : a = b := by
  rcases Relation.ReflTransGen.cases_head h with heq | ⟨c, hstep, _⟩
  · exact heq
  · exact absurd (Production.isUnit_iff.mpr ⟨c, rfl⟩) (hg _ hstep)

theorem IsUnitFree.withoutUnits_eq (hg : g.IsUnitFree) : g.withoutUnits = g := by
  refine Grammar.ext rfl (Std.ExtTreeSet.ext_mem fun p => ?_) rfl
  rw [mem_withoutUnits_iff]
  constructor
  · rintro ⟨_, target, hreach, hp⟩
    rw [← hg.eq_of_unitReaches hreach] at hp
    exact hp
  · intro hp
    exact ⟨hg p hp, p.lhs, .refl, hp⟩

end Grammar

/-! ## Nothing to bring into form -/

section Splitting

variable {taken : Std.ExtTreeSet Variable}

/-- A normal production stands in for itself, and no name is handed out for it. -/
theorem Production.IsNormal.split_eq {p : Production} (hp : p.IsNormal) (s : Introduced) :
    p.split taken s = ([p], s) := by
  rcases hp with hterminal | hbinary
  · obtain ⟨c, hc⟩ := Production.isTerminal_iff.mp hterminal
    exact split_single hc
  · obtain ⟨b, c, hbc⟩ := Production.isBinary_iff.mp hbinary
    obtain ⟨lhs, rhs⟩ := p
    obtain rfl : rhs = [.var b, .var c] := hbc
    rfl

theorem splitAll_eq_of_isNormal {ps : List Production} (hps : ∀ p ∈ ps, p.IsNormal)
    (s : Introduced) : splitAll taken ps s = (ps, s) := by
  induction ps with
  | nil => rfl
  | cons p rest ih =>
    obtain ⟨hp, hrest⟩ := List.forall_mem_cons.mp hps
    rw [splitAll_cons, hp.split_eq, ih hrest, List.singleton_append]

end Splitting

namespace Grammar

variable {g : Grammar}

theorem IsNormal.isUnitFree (hg : g.IsNormal) : g.IsUnitFree := by
  intro p hp hunit
  obtain ⟨v, hv⟩ := Production.isUnit_iff.mp hunit
  rcases hg.rhs_cases hp with ⟨c, hc⟩ | ⟨b, c, hbc⟩
  · rw [hv] at hc
    exact absurd hc (by simp)
  · rw [hv] at hbc
    exact absurd hbc (by simp)

theorem IsNormal.spelledOut_eq (hg : g.IsNormal) :
    g.spelledOut = (g.productions.toList, { counter := g.counter }) :=
  splitAll_eq_of_isNormal (fun p hp => hg p (Std.ExtTreeSet.mem_toList.mp hp)) _

theorem IsNormal.binaryForm_eq (hg : g.IsNormal) : g.binaryForm = g := by
  have hcounter : g.binaryForm.counter = g.counter :=
    congrArg (·.2.counter) hg.spelledOut_eq
  refine Grammar.ext rfl (Std.ExtTreeSet.ext_mem fun p => ?_) hcounter
  rw [mem_binaryForm_iff, hg.spelledOut_eq]
  simp [Introduced.productions]

/-! ## The conversion as a whole -/

theorem IsNormal.unitFree_eq (hg : g.IsNormal) : g.unitFree = g := by
  unfold unitFree
  rw [hg.isEpsilonFree.withoutEpsilon_eq, hg.isUnitFree.withoutUnits_eq]

/-- **A normal grammar is its own normal form**, and it has no empty word. -/
theorem IsNormal.toNormalForm_eq (hg : g.IsNormal) : g.toNormalForm = .ok ⟨g, false, hg⟩ := by
  refine toNormalForm_eq_ok_iff.mpr ⟨?_, ?_⟩
  · rw [hg.unitFree_eq, hg.binaryForm_eq]
  · refine (Bool.eq_false_iff.mpr fun hstart => ?_).symm
    exact hg.isEpsilonFree.notMem_nullable g.start (Std.ExtTreeSet.contains_iff_mem.mp hstart)

end Grammar

/-! ## Membership questions -/

/-- A conversion of a normal grammar shows in its trace and nowhere else. -/
theorem withConversion_of_isNormal {g : Grammar} (hg : g.IsNormal) (name : Path) (trace : Bool)
    (k : NormalForm → Outcome) :
    withConversion name g trace k =
      (withAssumption name g k).afterErrors (if trace then g.convert.trace else "") := by
  obtain ⟨nf, hassume, hrun⟩ := withAssumption_of_isNormal name hg k
  obtain ⟨_, hgrammar, hempty⟩ := Recognizer.assume_eq_ok_iff.mp hassume
  have hnf : g.toNormalForm = .ok nf := by
    rw [hg.toNormalForm_eq]
    cases nf
    cases hgrammar
    cases hempty
    rfl
  rw [withConversion_eq hnf, hrun]

theorem Command.run_cyk_of_isNormal {file : Option Path} {content : Except ReadFault ByteArray}
    {d : Document} (hd : Document.Holds (Input.ofPath? file).name content d)
    (hnormal : d.grammar.IsNormal) (input : Option String) (trace trace' : Bool) (draws : Draws) :
    (cyk file true input trace).run content draws =
      ((cyk file false input trace').run content draws).afterErrors
        (if trace then d.grammar.convert.trace else "") := by
  have hconvert : Document.Holds (cyk file true input trace).input.name content d := hd
  have hassume : Document.Holds (cyk file false input trace').input.name content d := hd
  rw [run_of_holds hconvert, run_of_holds hassume]
  unfold runOn
  dsimp only
  rw [if_pos rfl, if_neg Bool.false_ne_true]
  exact withConversion_of_isNormal hnormal _ trace _

/--
**Converting a grammar that is already normal changes nothing.** Its conversion is the
grammar itself, counter and all, with no empty word, which is what it would be taken for
without one. So a second conversion gives what the first one gave, and of a normal grammar
every membership question is answered alike with and without a conversion; only a trace,
if one was asked for, tells the two runs apart.
-/
theorem Grammar.normal_left_alone :
    (∀ g : Grammar, g.normalFaults = [] → ∃ nf, g.toNormalForm = .ok nf ∧
      NormalForm.assume g = .ok nf ∧ nf.grammar = g ∧ nf.derivesEmpty = false) ∧
    (∀ (g : Grammar) (nf : NormalForm), g.toNormalForm = .ok nf →
      ∃ nf', nf.grammar.toNormalForm = .ok nf' ∧ nf'.grammar = nf.grammar) ∧
    ∀ (file : Option Path) (content : Except ReadFault ByteArray) (d : Document),
      Document.Holds (Input.ofPath? file).name content d → d.grammar.normalFaults = [] →
      ∀ (input : Option String) (trace trace' : Bool) (draws : Draws),
        (Command.cyk file true input trace).run content draws =
          ((Command.cyk file false input trace').run content draws).afterErrors
            (if trace then d.grammar.convert.trace else "") := by
  refine ⟨?_, ?_, ?_⟩
  · intro g hfaults
    have hg : g.IsNormal := normalFaults_eq_nil_iff.mp hfaults
    exact ⟨_, hg.toNormalForm_eq, Recognizer.assume_eq_ok_iff.mpr ⟨hfaults, rfl, rfl⟩, rfl, rfl⟩
  · intro g nf _
    exact ⟨_, nf.normal.toNormalForm_eq, rfl⟩
  · intro file content d hd hfaults
    exact Command.run_cyk_of_isNormal hd (normalFaults_eq_nil_iff.mp hfaults)

/-- A normal grammar whose variables have the names that would be handed out first. -/
def Document.settled : Document where
  grammar := .ofList ⟨"S"⟩ [⟨⟨"S"⟩, [.var ⟨"T0"⟩, .var ⟨"C0"⟩]⟩, ⟨⟨"S"⟩, [.terminal '1']⟩,
    ⟨⟨"T0"⟩, [.terminal '1']⟩, ⟨⟨"C0"⟩, [.var ⟨"T0"⟩, .var ⟨"S"⟩]⟩]
  rest := ""

theorem Document.ofText_settled :
    ofText ⟨"g"⟩ "4\nS:<T0><C0>\nS:1\n<T0>:1\n<C0>:<T0>S\n".toList = .ok settled := by
  decide +kernel

theorem Document.settled_left_alone :
    settled.grammar.normalFaults = [] ∧
    (∃ nf, settled.grammar.toNormalForm = .ok nf ∧ nf.grammar = settled.grammar) ∧
    Grammar.shadowing.toNormalForm = .ok Grammar.shadowed ∧
    (∃ nf, Grammar.shadowed.grammar.toNormalForm = .ok nf ∧
      nf.grammar = Grammar.shadowed.grammar) ∧
    ((Command.cyk none true (some "111") false).run
        (.ok "4\nS:<T0><C0>\nS:1\n<T0>:1\n<C0>:<T0>S\n".toUTF8) { script := [] }).output =
      ((Command.cyk none false (some "111") false).run
        (.ok "4\nS:<T0><C0>\nS:1\n<T0>:1\n<C0>:<T0>S\n".toUTF8) { script := [] }).output := by
  obtain ⟨hsame, hagain, hcyk⟩ := Grammar.normal_left_alone
  have hfaults : settled.grammar.normalFaults = [] := by decide +kernel
  obtain ⟨nf, hnf, _, hgrammar, _⟩ := hsame settled.grammar hfaults
  have hrun := hcyk none _ settled (holds_toUTF8 ofText_settled) hfaults (some "111") false false
    { script := [] }
  exact ⟨hfaults, ⟨nf, hnf, hgrammar⟩, Grammar.toNormalForm_shadowing,
    hagain _ _ Grammar.toNormalForm_shadowing, congrArg Outcome.output hrun⟩

end ContextFree
