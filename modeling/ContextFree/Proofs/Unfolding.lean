import ContextFree.Proofs.Wrappers
import Mathlib.Algebra.GroupWithZero.Nat
import Mathlib.Data.Set.Function

/-!
# Binarization can be undone

`Unfolds` says where unfolding a form ends, not how to get there. Here unfolding is done one
variable at a time, in any order: `UnfoldsOnce` puts the right-hand side of a production in
place of one introduced variable.

**It terminates.** Nothing in a single step gets smaller: a chain variable gives way to two
symbols. What is well-founded is the form as a whole, because forms that terminate can be put
in a row, and a variable terminates if the right-hand sides it may give way to do. These are
right-hand sides of the outcome, which are known to unfold.

**It ends in one form.** A step does not change what a form unfolds to, and where no step is
possible nothing is left to unfold. So every run from a form ends in what it unfolds to.

**Nothing is merged.** Of the productions made for an old production, exactly one belongs to
an old variable, and it unfolds to the old production. Undoing the productions of old
variables in the order they were made therefore lists the grammar that came in. No two
productions made are equal, then: those of old variables are told apart by what they unfold
to, the others by their left-hand sides. Counting what was made counts the outcome.
-/

namespace ContextFree

/-! ## One variable at a time -/

/-- One introduced variable of a form gives way to what a production of it has on the right. -/
inductive UnfoldsOnce (g h : Grammar) : List Symbol → List Symbol → Prop where
  | replace {v : Variable} {rhs : List Symbol} (before after : List Symbol) :
      v ∉ g.vars → ⟨v, rhs⟩ ∈ h.productions →
      UnfoldsOnce g h (before ++ .var v :: after) (before ++ rhs ++ after)

section Steps

variable {g h : Grammar}

theorem UnfoldsOnce.inside {a b : List Symbol} (hab : UnfoldsOnce g h a b)
    (before after : List Symbol) :
    UnfoldsOnce g h (before ++ a ++ after) (before ++ b ++ after) := by
  cases hab with
  | replace front back hv hp =>
    simpa only [List.append_assoc, List.cons_append] using
      UnfoldsOnce.replace (before ++ front) (back ++ after) hv hp

/-- Either the first symbol gives way or something behind it does. -/
theorem UnfoldsOnce.cons_cases {s : Symbol} {rest b : List Symbol}
    (hab : UnfoldsOnce g h (s :: rest) b) :
    (∃ v rhs, s = .var v ∧ v ∉ g.vars ∧ ⟨v, rhs⟩ ∈ h.productions ∧ b = rhs ++ rest) ∨
      ∃ rest', UnfoldsOnce g h rest rest' ∧ b = s :: rest' := by
  generalize hform : s :: rest = form at hab
  cases hab with
  | @replace v rhs before after hv hp =>
    cases before with
    | nil =>
      obtain ⟨rfl, rfl⟩ := List.cons.inj hform
      exact .inl ⟨v, rhs, rfl, hv, hp, rfl⟩
    | cons t front =>
      obtain ⟨rfl, rfl⟩ := List.cons.inj hform
      exact .inr ⟨front ++ rhs ++ after, .replace front after hv hp, rfl⟩

theorem not_unfoldsOnce_nil {b : List Symbol} : ¬ UnfoldsOnce g h [] b := by
  intro hab
  generalize hform : [] = form at hab
  cases hab with
  | replace before after _ _ => exact absurd hform (by simp)

theorem UnfoldsOnce.append_cases {x y b : List Symbol} (hab : UnfoldsOnce g h (x ++ y) b) :
    (∃ x', UnfoldsOnce g h x x' ∧ b = x' ++ y) ∨ ∃ y', UnfoldsOnce g h y y' ∧ b = x ++ y' := by
  induction x generalizing b with
  | nil => exact .inr ⟨b, hab, rfl⟩
  | cons s rest ih =>
    rcases hab.cons_cases with ⟨v, rhs, rfl, hv, hp, rfl⟩ | ⟨tail, htail, rfl⟩
    · exact .inl ⟨rhs ++ rest, .replace [] rest hv hp, (List.append_assoc ..).symm⟩
    · rcases ih htail with ⟨rest', hrest, rfl⟩ | ⟨y', hy, rfl⟩
      · have hstep := hrest.inside [s] []
        simp only [List.append_nil] at hstep
        exact .inl ⟨s :: rest', hstep, rfl⟩
      · exact .inr ⟨y', hy, rfl⟩

/-! ## Unfolding terminates -/

theorem acc_nil : Acc (flip (UnfoldsOnce g h)) [] :=
  Acc.intro _ fun _ hab => absurd hab not_unfoldsOnce_nil

/-- Forms from which unfolding terminates can be put in a row. -/
theorem acc_append {x y : List Symbol} (hx : Acc (flip (UnfoldsOnce g h)) x)
    (hy : Acc (flip (UnfoldsOnce g h)) y) : Acc (flip (UnfoldsOnce g h)) (x ++ y) := by
  -- a step in the first form leaves the second one as it was, at any stage of its own
  induction hx generalizing y with
  | intro x _ ihx =>
    induction hy with
    | intro y hy ihy =>
      refine Acc.intro _ fun b hab => ?_
      rcases UnfoldsOnce.append_cases hab with ⟨x', hx', rfl⟩ | ⟨y', hy', rfl⟩
      · exact ihx x' hx' (Acc.intro y hy)
      · exact ihy y' hy'

theorem acc_terminal (c : Char) : Acc (flip (UnfoldsOnce g h)) [.terminal c] := by
  refine Acc.intro _ fun b hab => ?_
  rcases UnfoldsOnce.cons_cases hab with ⟨v, _, heq, _⟩ | ⟨_, hnil, _⟩
  · exact absurd heq (by simp)
  · exact absurd hnil not_unfoldsOnce_nil

/-- From a variable it terminates if it does from all the variable may give way to. -/
theorem acc_var {v : Variable}
    (hv : ∀ rhs, v ∉ g.vars → ⟨v, rhs⟩ ∈ h.productions → Acc (flip (UnfoldsOnce g h)) rhs) :
    Acc (flip (UnfoldsOnce g h)) [.var v] := by
  refine Acc.intro _ fun b hab => ?_
  rcases UnfoldsOnce.cons_cases hab with ⟨u, rhs, heq, hnew, hp, rfl⟩ | ⟨_, hnil, _⟩
  · obtain rfl := Symbol.var.inj heq
    rw [List.append_nil]
    exact hv rhs hnew hp
  · exact absurd hnil not_unfoldsOnce_nil

theorem Unfolds.acc (hs : h.SpellsOut g) {form z : List Symbol} (hz : Unfolds g h form z) :
    Acc (flip (UnfoldsOnce g h)) form := by
  induction hz with
  | nil => exact acc_nil
  | terminal c _ ih => exact acc_append (acc_terminal c) ih
  | kept hv _ ih => exact acc_append (acc_var fun _ hnew => absurd hv hnew) ih
  | introduced hv hp _ _ ihrhs ihrest =>
    refine acc_append (acc_var fun rhs _ hp' => ?_) ihrest
    rw [hs.unique hv hp' hp]
    exact ihrhs

/-- **However introduced variables are replaced, it comes to an end**, from any form at all. -/
theorem wellFounded_unfoldsOnce (hs : h.SpellsOut g) : WellFounded (flip (UnfoldsOnce g h)) := by
  refine ⟨fun form => ?_⟩
  induction form with
  | nil => exact acc_nil
  | cons s rest ih =>
    cases s with
    | terminal c => exact acc_append (acc_terminal c) ih
    | var v =>
      refine acc_append (acc_var fun rhs _ hp => ?_) ih
      obtain ⟨z, hz, _⟩ := hs.unfolds _ hp
      exact hz.acc hs

/-! ## It ends in one form -/

/-- A step does not change what a form unfolds to. -/
theorem Unfolds.once (hs : h.SpellsOut g) {a b z : List Symbol} (hz : Unfolds g h a z)
    (hab : UnfoldsOnce g h a b) : Unfolds g h b z := by
  induction hz generalizing b with
  | nil => exact absurd hab not_unfoldsOnce_nil
  | terminal c _ ih =>
    rcases hab.cons_cases with ⟨v, _, heq, _⟩ | ⟨rest', hrest, rfl⟩
    · exact absurd heq (by simp)
    · exact .terminal c (ih hrest)
  | kept hv _ ih =>
    rcases hab.cons_cases with ⟨u, _, heq, hnew, _⟩ | ⟨rest', hrest, rfl⟩
    · exact absurd (Symbol.var.inj heq ▸ hv) hnew
    · exact .kept hv (ih hrest)
  | introduced hv hp hrhs hrest _ ih =>
    rcases hab.cons_cases with ⟨u, rhs', heq, hnew, hp', rfl⟩ | ⟨rest', hrest', rfl⟩
    · -- the step has used the production the unfolding uses
      obtain rfl := Symbol.var.inj heq
      rw [hs.unique hv hp' hp]
      exact hrhs.append hrest
    · exact .introduced hv hp hrhs (ih hrest')

/-- Unfolding can be carried out step by step. -/
theorem Unfolds.steps {a z : List Symbol} (hz : Unfolds g h a z) :
    Relation.ReflTransGen (UnfoldsOnce g h) a z := by
  induction hz with
  | nil => exact .refl
  | @terminal rest unfolded c _ ih =>
    exact ih.lift (.terminal c :: ·) fun x y hxy => by simpa using hxy.inside [.terminal c] []
  | @kept v rest unfolded _ _ ih =>
    exact ih.lift (.var v :: ·) fun x y hxy => by simpa using hxy.inside [.var v] []
  | @introduced v rhs rest below unfolded hv hp _ _ ihrhs ihrest =>
    -- first the variable itself, then what came in for it, then what is behind it
    have hfirst : UnfoldsOnce g h (.var v :: rest) (rhs ++ rest) := .replace [] rest hv hp
    have hrhs : Relation.ReflTransGen (UnfoldsOnce g h) (rhs ++ rest) (below ++ rest) :=
      ihrhs.lift (· ++ rest) fun x y hxy => by simpa using hxy.inside [] rest
    have hrest : Relation.ReflTransGen (UnfoldsOnce g h) (below ++ rest) (below ++ unfolded) :=
      ihrest.lift (below ++ ·) fun x y hxy => by simpa using hxy.inside below []
    exact .head hfirst (hrhs.trans hrest)

/-- Nothing but old variables is left in what a form unfolds to. -/
theorem Unfolds.mem_vars {a z : List Symbol} (hz : Unfolds g h a z) {v : Variable}
    (hv : .var v ∈ z) : v ∈ g.vars := by
  induction hz with
  | nil => exact absurd hv List.not_mem_nil
  | terminal c _ ih =>
    rcases List.mem_cons.mp hv with heq | hv
    · exact absurd heq (by simp)
    · exact ih hv
  | kept hu _ ih =>
    rcases List.mem_cons.mp hv with heq | hv
    · exact Symbol.var.inj heq ▸ hu
    · exact ih hv
  | introduced _ _ _ _ ihrhs ihrest =>
    rcases List.mem_append.mp hv with hv | hv
    · exact ihrhs hv
    · exact ihrest hv

/-- A form from which no step is possible has nothing to unfold. -/
theorem Unfolds.eq_of_stuck {a z : List Symbol} (hz : Unfolds g h a z)
    (hstuck : ∀ b, ¬ UnfoldsOnce g h a b) : a = z := by
  have hrun := hz.steps
  rcases Relation.ReflTransGen.cases_head hrun with heq | ⟨b, hab, _⟩
  · exact heq
  · exact absurd hab (hstuck b)

/-- **Every way of unfolding a form that can go no further has ended in what it unfolds to.** -/
theorem Unfolds.end_iff (hs : h.SpellsOut g) {a z : List Symbol} (hz : Unfolds g h a z)
    {y : List Symbol} :
    (Relation.ReflTransGen (UnfoldsOnce g h) a y ∧ ∀ x, ¬ UnfoldsOnce g h y x) ↔ y = z := by
  constructor
  · rintro ⟨hrun, hstuck⟩
    have hy : Unfolds g h y z := by
      clear hstuck
      induction hrun with
      | refl => exact hz
      | tail _ hstep ih => exact ih.once hs hstep
    exact hy.eq_of_stuck hstuck
  · rintro rfl
    refine ⟨hz.steps, fun x hyx => ?_⟩
    cases hyx with
    | replace before after hnew _ => exact hnew (hz.mem_vars (by simp))

theorem Unfolds.unique (hs : h.SpellsOut g) {a y z : List Symbol} (hy : Unfolds g h a y)
    (hz : Unfolds g h a z) : y = z :=
  (hz.end_iff hs).mp ((hy.end_iff hs).mpr rfl)

end Steps

/-! ## Undoing productions -/

/-- `q` is `p` with introduced variables replaced on the right until none can be. -/
def Undoes (g h : Grammar) (p q : Production) : Prop :=
  q.lhs = p.lhs ∧ Relation.ReflTransGen (UnfoldsOnce g h) p.rhs q.rhs ∧
    ∀ form, ¬ UnfoldsOnce g h q.rhs form

open Classical in
/-- What a form unfolds to, if it does. -/
noncomputable def unfolded (g h : Grammar) (form : List Symbol) : List Symbol :=
  if hz : ∃ z, Unfolds g h form z then hz.choose else form

/-- The production with its right-hand side unfolded. -/
noncomputable def Production.undone (g h : Grammar) (p : Production) : Production :=
  ⟨p.lhs, unfolded g h p.rhs⟩

section Undoing

variable {g h : Grammar}

theorem Unfolds.unfolded_eq (hs : h.SpellsOut g) {form z : List Symbol}
    (hz : Unfolds g h form z) : unfolded g h form = z := by
  have hex : ∃ z, Unfolds g h form z := ⟨z, hz⟩
  rw [unfolded, dif_pos hex]
  exact hex.choose_spec.unique hs hz

theorem undoes_iff (hs : h.SpellsOut g) {p q : Production} (hp : p ∈ h.productions) :
    Undoes g h p q ↔ q = p.undone g h := by
  obtain ⟨z, hz, _⟩ := hs.unfolds p hp
  unfold Undoes Production.undone
  rw [hz.end_iff hs, hz.unfolded_eq hs]
  constructor
  · rintro ⟨hlhs, hrhs⟩
    rw [← hlhs, ← hrhs]
  · rintro rfl
    exact ⟨rfl, rfl⟩

/-- Of what stands in for a production, one belongs to an old variable: undone, it is that one. -/
theorem split_undone (hs : h.SpellsOut g) {p : Production} {s : Introduced}
    (hp : ∀ v ∈ p.vars, v ∈ g.vars)
    (hmem : ∀ q ∈ (p.split g.vars s).1, q ∈ h.productions)
    (hw : WrappersIn g h (p.split g.vars s).2) :
    ((p.split g.vars s).1.filter (g.mentions ·.lhs)).map (Production.undone g h) = [p] := by
  obtain ⟨rhs, tail, htail, hrhs, hnew⟩ := split_unfolds hp hmem hw
  have hnone : tail.filter (g.mentions ·.lhs) = [] := by
    refine List.filter_eq_nil_iff.mpr fun q hq hmentions => ?_
    exact (hnew q hq).1 (Grammar.mentions_iff.mp hmentions)
  have hlhs : g.mentions p.lhs := Grammar.mentions_iff.mpr (hp p.lhs p.lhs_mem_vars)
  rw [htail, List.filter_cons, if_pos hlhs, hnone, List.map_singleton, Production.undone,
    hrhs.unfolded_eq hs]

theorem splitAll_undone (hs : h.SpellsOut g) {ps : List Production} {s : Introduced}
    (hps : ∀ p ∈ ps, ∀ v ∈ p.vars, v ∈ g.vars)
    (hmem : ∀ q ∈ (splitAll g.vars ps s).1, q ∈ h.productions)
    (hw : WrappersIn g h (splitAll g.vars ps s).2) :
    ((splitAll g.vars ps s).1.filter (g.mentions ·.lhs)).map (Production.undone g h) = ps := by
  induction ps generalizing s with
  | nil => rfl
  | cons p rest ih =>
    obtain ⟨hp, hrest⟩ := List.forall_mem_cons.mp hps
    rw [splitAll_cons] at hmem hw ⊢
    have hfirst := split_undone hs hp (fun q hq => hmem q (List.mem_append_left _ hq))
      (hw.of_extends splitAll_extends)
    have hothers := ih hrest (fun q hq => hmem q (List.mem_append_right _ hq)) hw
    rw [List.filter_append, List.map_append, hfirst, hothers, List.singleton_append]

end Undoing

/-! ## Counting what is made -/

section Counting

variable {taken : Std.ExtTreeSet Variable}

/-- Names handed out tell productions apart; only those of old variables remain to be compared. -/
theorem IssuedOnce.nodup {ps : List Production} (hps : IssuedOnce taken ps)
    (hold : (ps.filter (taken.contains ·.lhs)).Nodup) : ps.Nodup := by
  induction ps with
  | nil => exact List.nodup_nil
  | cons p rest ih =>
    obtain ⟨hp, hrest⟩ := List.pairwise_cons.mp hps
    by_cases hlhs : p.lhs ∈ taken
    · rw [List.filter_cons, if_pos (Std.ExtTreeSet.contains_iff_mem.mpr hlhs)] at hold
      obtain ⟨hnotin, hold'⟩ := List.nodup_cons.mp hold
      refine List.nodup_cons.mpr ⟨fun hmem => hnotin ?_, ih hrest hold'⟩
      exact List.mem_filter.mpr ⟨hmem, Std.ExtTreeSet.contains_iff_mem.mpr hlhs⟩
    · have hskip : ¬ taken.contains p.lhs = true :=
        fun hmem => hlhs (Std.ExtTreeSet.contains_iff_mem.mp hmem)
      rw [List.filter_cons, if_neg hskip] at hold
      exact List.nodup_cons.mpr ⟨fun hmem => hp p hmem hlhs rfl, ih hrest hold⟩

theorem length_chain {lhs : Variable} {vs : List Variable} {n : Nat} :
    (chain taken lhs vs n).1.length = 1 + (vs.length - 2) := by
  fun_induction chain taken lhs vs n with
  | case1 lhs x y z rest n m next ps n' heq ih =>
    rw [heq] at ih
    simp only [List.length_cons] at ih ⊢
    omega
  | case2 lhs vs n hshort =>
    rcases vs with _ | ⟨x, _ | ⟨y, _ | ⟨z, rest⟩⟩⟩
    · rfl
    · rfl
    · rfl
    · exact absurd rfl (hshort x y z rest)

/-- A right-hand side of more than two symbols takes one production more for each of them. -/
theorem length_split {p : Production} {s : Introduced} :
    (p.split taken s).1.length = 1 + (p.rhs.length - 2) := by
  rcases split_cases taken p s with ⟨⟨x, hx⟩, hsplit⟩ | ⟨_, hsplit⟩
  · rw [hsplit, hx]
    rfl
  · rw [hsplit, length_chain, length_wrapSymbols]

theorem length_splitAll {ps : List Production} {s : Introduced} :
    (splitAll taken ps s).1.length =
      ps.length + ((ps.filter (2 < ·.rhs.length)).map (·.rhs.length - 2)).sum := by
  induction ps generalizing s with
  | nil => rfl
  | cons p rest ih =>
    rw [splitAll_cons, List.length_append, length_split, ih, List.length_cons]
    by_cases hlen : 2 < p.rhs.length
    · rw [List.filter_cons_of_pos (by simpa using hlen), List.map_cons, List.sum_cons]
      omega
    · rw [List.filter_cons_of_neg (by simpa using hlen)]
      omega

end Counting

/-- The character a symbol is, if it is one. -/
def Symbol.terminal? : Symbol → Option Char
  | terminal c => some c
  | var _ => none

theorem Symbol.terminal?_eq_some_iff {s : Symbol} {c : Char} :
    s.terminal? = some c ↔ s = terminal c := by
  cases s <;> simp [terminal?]

namespace Grammar

variable {g h : Grammar}

/-- The terminals of right-hand sides with two symbols or more, each once. -/
def wrappable (g : Grammar) : Std.ExtTreeSet Char :=
  .ofList <| (g.productions.toList.filter (2 ≤ ·.rhs.length)).flatMap fun p =>
    p.rhs.filterMap Symbol.terminal?

theorem mem_wrappable_iff {c : Char} : c ∈ g.wrappable ↔ g.NeedsWrapper c := by
  simp [wrappable, NeedsWrapper, Production.NeedsWrapper, Symbol.terminal?_eq_some_iff, and_assoc]

theorem length_wrappers (g : Grammar) : g.spelledOut.2.wrappers.length = g.wrappable.size := by
  have hset : g.wrappable = .ofList g.spelledOut.2.wrapped := by
    refine Std.ExtTreeSet.ext_mem fun c => ?_
    rw [mem_wrappable_iff, ← mem_wrapped_spelledOut, Std.ExtTreeSet.mem_ofList,
      List.contains_iff_mem]
  have hnodup : g.spelledOut.2.wrapped.Nodup := g.spelledOut_grows.nodup_terminals
  rw [hset, Std.ExtTreeSet.size_ofList, Introduced.wrapped, List.length_map]
  exact hnodup.imp fun hne heq => hne (Std.LawfulEqOrd.eq_of_compare heq)

/-- All productions of the binary form, in the order they were made. -/
def replacements (g : Grammar) : List Production :=
  g.spelledOut.1 ++ g.spelledOut.2.productions

/-- Undoing the productions of old variables in this order lists the grammar that came in. -/
theorem replacements_undone (g : Grammar) :
    (g.replacements.filter (g.mentions ·.lhs)).map (Production.undone g g.binaryForm) =
      g.productions.toList := by
  have hnew : g.spelledOut.2.productions.filter (g.mentions ·.lhs) = [] := by
    refine List.filter_eq_nil_iff.mpr fun q hq hmentions => ?_
    obtain ⟨e, he, rfl⟩ := List.mem_map.mp hq
    exact (g.wrappersIn_binaryForm e he).1 (mentions_iff.mp hmentions)
  rw [replacements, List.filter_append, hnew, List.append_nil]
  refine splitAll_undone g.binaryForm_spellsOut g.mem_vars_of_mem_toList (fun q hq => ?_)
    g.wrappersIn_binaryForm
  exact mem_binaryForm_iff.mpr (List.mem_append_left _ hq)

theorem nodup_replacements (g : Grammar) : g.replacements.Nodup := by
  have hissued : IssuedOnce g.vars g.replacements :=
    splitAll_productions_issuedOnce g.lhs_mem_vars_of_mem_toList
  refine hissued.nodup (List.Nodup.of_map (Production.undone g g.binaryForm) ?_)
  have hlist := g.replacements_undone
  unfold mentions at hlist
  rw [hlist]
  exact g.nodup_toList

/-- **Undoing pairs off the productions of old variables with those of the old grammar.** -/
theorem undone_bijOn (g : Grammar) :
    Set.BijOn (Production.undone g g.binaryForm)
      {p | p ∈ g.binaryForm.productions ∧ p.lhs ∈ g.vars} {q | q ∈ g.productions} := by
  have hmem : ∀ p, p ∈ g.replacements.filter (g.mentions ·.lhs) ↔
      p ∈ g.binaryForm.productions ∧ p.lhs ∈ g.vars := by
    intro p
    rw [List.mem_filter, mentions_iff, mem_binaryForm_iff, replacements]
  have hlist := g.replacements_undone
  refine ⟨?_, ?_, ?_⟩
  · intro p hp
    have himage := List.mem_map_of_mem (f := Production.undone g g.binaryForm) ((hmem p).mpr hp)
    rw [hlist] at himage
    exact Std.ExtTreeSet.mem_toList.mp himage
  · intro p hp q hq heq
    refine List.inj_on_of_nodup_map ?_ ((hmem p).mpr hp) ((hmem q).mpr hq) heq
    rw [hlist]
    exact g.nodup_toList
  · intro q hq
    have hq' : q ∈ g.productions.toList := Std.ExtTreeSet.mem_toList.mpr hq
    rw [← hlist] at hq'
    obtain ⟨p, hp, heq⟩ := List.mem_map.mp hq'
    exact ⟨p, (hmem p).mp hp, heq⟩

theorem size_binaryForm (g : Grammar) :
    g.binaryForm.productions.size = g.productions.size + g.wrappable.size +
      ((g.productions.toList.filter (2 < ·.rhs.length)).map (·.rhs.length - 2)).sum := by
  have hsize : g.binaryForm.productions.size = g.replacements.length := by
    refine Std.ExtTreeSet.size_ofList ?_
    exact g.nodup_replacements.imp fun hne heq => hne (Std.LawfulEqOrd.eq_of_compare heq)
  have hwrappers : g.spelledOut.2.productions.length = g.wrappable.size := by
    rw [← g.length_wrappers]
    exact List.length_map ..
  have hsplit : g.spelledOut.1.length = g.productions.size +
      ((g.productions.toList.filter (2 < ·.rhs.length)).map (·.rhs.length - 2)).sum := by
    rw [← Std.ExtTreeSet.length_toList]
    exact length_splitAll
  rw [hsize, replacements, List.length_append, hwrappers, hsplit]
  omega

/--
**Binarization can be undone and merges nothing.** An introduced variable has one production;
replacing introduced variables comes to an end, however it is done, and for a production it
always ends in the same one; for the productions of old variables these are the productions
of the grammar that came in, each once.
-/
theorem binarization_undone (hempty : g.IsEpsilonFree) (hunit : g.IsUnitFree) :
    ∃ h, g.binarize = .ok h ∧
      (∀ v ∈ h.vars, v ∉ g.vars → ∃! p, p ∈ h.productions ∧ p.lhs = v) ∧
      WellFounded (flip (UnfoldsOnce g h)) ∧
      (∀ p ∈ h.productions, ∀ q, Undoes g h p q ↔ q = p.undone g h) ∧
      Set.BijOn (Production.undone g h) {p | p ∈ h.productions ∧ p.lhs ∈ g.vars}
        {q | q ∈ g.productions} ∧
      h.productions.size = g.productions.size + g.wrappable.size +
        ((g.productions.toList.filter (2 < ·.rhs.length)).map (·.rhs.length - 2)).sum := by
  have hs := g.binaryForm_spellsOut
  refine ⟨g.binaryForm, binarize_eq_ok_iff.mpr ⟨⟨hempty, hunit⟩, rfl⟩, ?_,
    wellFounded_unfoldsOnce hs, fun p hp q => undoes_iff hs hp, g.undone_bijOn, g.size_binaryForm⟩
  intro v hv hnew
  obtain ⟨rhs, hp⟩ := hs.exists_production hv hnew
  refine ⟨⟨v, rhs⟩, ⟨hp, rfl⟩, ?_⟩
  rintro ⟨u, rhs'⟩ ⟨hp', rfl⟩
  rw [hs.unique hnew hp' hp]

theorem crowded_undone :
    crowded.IsEpsilonFree ∧ crowded.IsUnitFree ∧ crowded.binarize = .ok crowdedBinary ∧
      Set.BijOn (Production.undone crowded crowdedBinary)
        {p | p ∈ crowdedBinary.productions ∧ p.lhs ∈ crowded.vars}
        {q | q ∈ crowded.productions} ∧
      crowdedBinary.productions.size = 4 + 2 + 1 := by
  obtain ⟨hempty, hunit⟩ := crowded_shape
  obtain ⟨h, hok, _, _, _, hbij, hsize⟩ := binarization_undone hempty hunit
  have hsame : h = crowdedBinary := Except.ok.inj (hok.symm.trans binarize_crowded)
  rw [hsame] at hbij hsize
  refine ⟨hempty, hunit, binarize_crowded, hbij, ?_⟩
  rw [hsize]
  decide +kernel

end Grammar

end ContextFree
