import ContextFree.Derivation
import ContextFree.Nullable

/-!
# Nullable means deriving the empty word

The passes read the set that they are filling, so what one of them finds depends on where
the productions stand. Two facts do not depend on it.

**Nothing else is found.** A variable is added when its right-hand side can be left out by
what is known at that moment. If all that is known derives the empty word, so does the
variable. One look at a production keeps this, so a pass does, and so do all of them.

**Nothing is missed.** A pass that changes nothing has looked at every production with one
and the same set. So at the end no production has anything to add, and a tree without
leaves can be followed from below.

The statement used further on is about whole forms, not single variables: a form
derives the empty word exactly if each of its symbols may be left out. That is the
question removing epsilon productions asks at every right-hand side.
-/

namespace ContextFree

/-! ## Symbols that may be left out -/

theorem Symbol.isDroppable_iff {nullable : Std.ExtTreeSet Variable} {s : Symbol} :
    s.isDroppable nullable ↔ ∃ v, s = .var v ∧ v ∈ nullable := by
  cases s with
  | terminal c => simp [isDroppable]
  | var v => simp [isDroppable]

theorem Production.isNullable_iff {nullable : Std.ExtTreeSet Variable} {p : Production} :
    p.isNullable nullable ↔ ∀ s ∈ p.rhs, s.isDroppable nullable :=
  List.all_eq_true

/-! ## A pass that changes nothing -/

namespace NullablePass

/-- What has changed stays changed. -/
theorem changed_visitAll {s : NullablePass} {ps : List Production} (h : s.changed = true) :
    (s.visitAll ps).changed = true := by
  induction ps generalizing s with
  | nil => exact h
  | cons p rest ih =>
    refine ih (s := s.visit p) ?_
    rcases visit_cases s p with ⟨hsame, _⟩ | ⟨hadd, _⟩
    · rw [hsame]
      exact h
    · rw [hadd]

/-- It has seen every production with the set as it was, and none had anything to add. -/
theorem visitAll_of_not_changed {s : NullablePass} {ps : List Production}
    (h : (s.visitAll ps).changed = false) :
    s.visitAll ps = s ∧ ∀ p ∈ ps, p.isNullable s.known → p.lhs ∈ s.known := by
  induction ps with
  | nil => exact ⟨rfl, fun p hp => absurd hp List.not_mem_nil⟩
  | cons p rest ih =>
    rcases visit_cases s p with ⟨hsame, hnone⟩ | ⟨hadd, _⟩
    · have hrest : s.visitAll (p :: rest) = s.visitAll rest := by
        show (s.visit p).visitAll rest = s.visitAll rest
        rw [hsame]
      rw [hrest] at h ⊢
      obtain ⟨heq, hothers⟩ := ih h
      refine ⟨heq, List.forall_mem_cons.mpr ⟨fun hp => ?_, hothers⟩⟩
      exact hnone.resolve_right (fun hnot => hnot hp)
    · have hchanged : (s.visitAll (p :: rest)).changed = true := by
        refine changed_visitAll (s := s.visit p) ?_
        rw [hadd]
      rw [hchanged] at h
      exact absurd h.symm Bool.false_ne_true

end NullablePass

section Passes

variable {ps : List Production} {known : Std.ExtTreeSet Variable}

/-- What is known after so many passes. -/
def nullablePasses (ps : List Production) : Nat → Std.ExtTreeSet Variable →
    Std.ExtTreeSet Variable
  | 0, known => known
  | n + 1, known => nullablePasses ps n (nullablePass ps known).known

/--
The loop is so many passes that change something, and one that does not. Each of them
settles a production, so there are no more of them than there are productions unsettled.
-/
theorem exists_passes (ps : List Production) (known : Std.ExtTreeSet Variable) :
    ∃ n ≤ (unsettled ps known).length, nullablePasses ps n known = nullableFrom ps known ∧
      (∀ i < n, (nullablePass ps (nullablePasses ps i known)).changed = true) ∧
      nullablePass ps (nullableFrom ps known) = { known := nullableFrom ps known } := by
  fun_induction nullableFrom ps known with
  | case1 known hchanged ih =>
    obtain ⟨n, hn, hpasses, hearlier, hlast⟩ := ih
    have hlt := length_unsettled_lt hchanged
    refine ⟨n + 1, by omega, hpasses, fun i hi => ?_, hlast⟩
    cases i with
    | zero => exact hchanged
    | succ i => exact hearlier i (by omega)
  | case2 known hsame =>
    have hnot : (nullablePass ps known).changed = false := Bool.eq_false_iff.mpr hsame
    obtain ⟨heq, _⟩ := NullablePass.visitAll_of_not_changed hnot
    have hpass : nullablePass ps known = { known } := heq
    refine ⟨0, Nat.zero_le _, ?_, fun i hi => absurd hi (Nat.not_lt_zero i), ?_⟩
    · rw [hpass]
      rfl
    · rw [hpass]
      exact hpass

/-- At the end no production has anything to add. -/
theorem lhs_mem_nullableFrom {p : Production} (hp : p ∈ ps)
    (h : p.isNullable (nullableFrom ps known)) : p.lhs ∈ nullableFrom ps known := by
  obtain ⟨_, _, _, _, hlast⟩ := exists_passes ps known
  have hnot : (nullablePass ps (nullableFrom ps known)).changed = false := by
    rw [hlast]
  exact (NullablePass.visitAll_of_not_changed hnot).2 p hp h

end Passes

namespace Grammar

variable {g : Grammar}

/-! ## Nothing else is found -/

theorem yields_cons_iff {s : Symbol} {rest : List Symbol} {w : List Char} :
    g.Yields (s :: rest) w ↔ ∃ u v, w = u ++ v ∧ g.Yields [s] u ∧ g.Yields rest v :=
  yields_append_iff (a := [s]) (b := rest)

/-- Symbols that each derive the empty word do so in a row. -/
theorem yields_nil_of_forall {form : List Symbol} (h : ∀ s ∈ form, g.Yields [s] []) :
    g.Yields form [] := by
  induction form with
  | nil => exact .nil
  | cons s rest ih =>
    have hs : g.Yields [s] [] := h s List.mem_cons_self
    have hrest : g.Yields rest [] := ih fun t ht => h t (List.mem_cons_of_mem _ ht)
    exact yields_cons_iff.mpr ⟨[], [], rfl, hs, hrest⟩

/-- All that is known to be nullable does derive the empty word. -/
def KnowsNullable (g : Grammar) (known : Std.ExtTreeSet Variable) : Prop :=
  ∀ v ∈ known, g.Yields [.var v] []

theorem KnowsNullable.visit {s : NullablePass} {p : Production}
    (h : g.KnowsNullable s.known) (hp : p ∈ g.productions) :
    g.KnowsNullable (s.visit p).known := by
  rcases NullablePass.visit_cases s p with ⟨hsame, _⟩ | ⟨hadd, _, hdrop⟩
  · rw [hsame]
    exact h
  · have hlhs : g.Yields [.var p.lhs] [] := by
      refine yields_var_iff.mpr ⟨p.rhs, hp, yields_nil_of_forall fun s hs => ?_⟩
      obtain ⟨u, rfl, hu⟩ := Symbol.isDroppable_iff.mp (Production.isNullable_iff.mp hdrop s hs)
      exact h u hu
    rw [hadd]
    intro v hv
    rcases Std.ExtTreeSet.mem_insert.mp hv with heq | hv
    · rw [← Std.LawfulEqOrd.eq_of_compare heq]
      exact hlhs
    · exact h v hv

theorem KnowsNullable.visitAll {s : NullablePass} {ps : List Production}
    (h : g.KnowsNullable s.known) (hps : ∀ p ∈ ps, p ∈ g.productions) :
    g.KnowsNullable (s.visitAll ps).known := by
  induction ps generalizing s with
  | nil => exact h
  | cons p rest ih =>
    obtain ⟨hp, hrest⟩ := List.forall_mem_cons.mp hps
    exact ih (s := s.visit p) (h.visit hp) hrest

theorem KnowsNullable.from {ps : List Production} {known : Std.ExtTreeSet Variable}
    (h : g.KnowsNullable known) (hps : ∀ p ∈ ps, p ∈ g.productions) :
    g.KnowsNullable (nullableFrom ps known) := by
  fun_induction nullableFrom ps known with
  | case1 known _ ih => exact ih (h.visitAll (s := { known }) hps)
  | case2 known _ => exact h.visitAll (s := { known }) hps

theorem knowsNullable_nullable (g : Grammar) : g.KnowsNullable g.nullable := by
  have hnone : g.KnowsNullable ∅ := fun v hv => absurd hv Std.ExtTreeSet.not_mem_empty
  exact hnone.from fun p hp => Std.ExtTreeSet.mem_toList.mp hp

/-! ## Nothing is missed -/

/-- A production all of whose symbols may be left out makes its left-hand side nullable. -/
theorem mem_nullable_of_production {v : Variable} {rhs : List Symbol}
    (hp : ⟨v, rhs⟩ ∈ g.productions) (h : ∀ s ∈ rhs, s.isDroppable g.nullable) :
    v ∈ g.nullable :=
  lhs_mem_nullableFrom (p := ⟨v, rhs⟩) (Std.ExtTreeSet.mem_toList.mpr hp)
    (Production.isNullable_iff.mpr h)

/-- In a form that derives the empty word, every symbol may be left out. -/
theorem Yields.isDroppable {form : List Symbol} {w : List Char} (h : g.Yields form w)
    (hw : w = []) : ∀ s ∈ form, s.isDroppable g.nullable := by
  -- that the word is empty is kept beside the tree, for both parts of it to inherit
  induction h with
  | nil => intro s hs; exact absurd hs List.not_mem_nil
  | terminal _ _ => exact absurd hw (List.cons_ne_nil _ _)
  | var hp _ _ ihrhs ihrest =>
    obtain ⟨hu, hv⟩ := List.append_eq_nil_iff.mp hw
    intro s hs
    rcases List.mem_cons.mp hs with rfl | hs
    · exact Symbol.isDroppable_iff.mpr ⟨_, rfl, mem_nullable_of_production hp (ihrhs hu)⟩
    · exact ihrest hv s hs

/-- **The nullable variables are those that derive the empty word.** -/
theorem mem_nullable_iff {v : Variable} : v ∈ g.nullable ↔ g.Yields [.var v] [] := by
  constructor
  · intro h
    exact g.knowsNullable_nullable v h
  · intro h
    have hs := h.isDroppable rfl (.var v) List.mem_cons_self
    obtain ⟨u, hu, hmem⟩ := Symbol.isDroppable_iff.mp hs
    rw [Symbol.var.inj hu]
    exact hmem

theorem yields_nil_of_isDroppable {s : Symbol} (h : s.isDroppable g.nullable) :
    g.Yields [s] [] := by
  obtain ⟨v, rfl, hv⟩ := Symbol.isDroppable_iff.mp h
  exact mem_nullable_iff.mp hv

end Grammar

end ContextFree
