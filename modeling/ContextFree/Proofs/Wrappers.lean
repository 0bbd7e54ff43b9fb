import ContextFree.Proofs.Binary
import ContextFree.Proofs.NormalForm
import Mathlib.Data.List.Nodup

/-!
# Wrappers

Seen from outside, a wrapper is a variable that the grammar did not mention before and
whose production is a single terminal. Seen from inside, it is an entry of the record that
binarization keeps. The two views agree: whatever else is introduced has two variables on
the right.

The record is what decides who has a wrapper. Treating a right-hand side of two symbols or
more puts each of its terminals on record, and nothing else ever does, so at the end the
record holds the terminals of all such right-hand sides, each with one variable. That a
wrapper means its terminal and nothing else is then a matter of its one production.
-/

namespace ContextFree

/-! ## Terminals on record -/

/-- The terminals that have a wrapper so far. -/
def Introduced.wrapped (s : Introduced) : List Char :=
  s.wrappers.map Prod.fst

/-- The terminal stands in a right-hand side beside another symbol. -/
def Production.NeedsWrapper (p : Production) (c : Char) : Prop :=
  2 ≤ p.rhs.length ∧ .terminal c ∈ p.rhs

section Record

variable {taken : Std.ExtTreeSet Variable}

/-- A terminal goes on record, at the end, unless it is there. -/
theorem wrapped_wrapperOf (c : Char) (s : Introduced) :
    (wrapperOf taken c s).2.wrapped = if c ∈ s.wrapped then s.wrapped else s.wrapped ++ [c] := by
  unfold wrapperOf
  split
  · rename_i v hsome
    have hc : c ∈ s.wrapped := by
      obtain ⟨front, back, hwrappers, _⟩ := List.lookup_eq_some_iff.mp hsome
      unfold Introduced.wrapped
      rw [hwrappers]
      simp
    rw [if_pos hc]
  · rename_i hnone
    have hc : c ∉ s.wrapped := by
      intro hmem
      obtain ⟨e, he, rfl⟩ := List.mem_map.mp hmem
      exact bne_iff_ne.mp (List.lookup_eq_none_iff.mp hnone e he) rfl
    rw [if_neg hc]
    simp [Introduced.wrapped]

theorem mem_wrapped_wrapperOf {c d : Char} {s : Introduced} :
    d ∈ (wrapperOf taken c s).2.wrapped ↔ d = c ∨ d ∈ s.wrapped := by
  rw [wrapped_wrapperOf]
  by_cases hc : c ∈ s.wrapped
  · rw [if_pos hc]
    constructor
    · exact .inr
    · rintro (rfl | hd)
      · exact hc
      · exact hd
  · rw [if_neg hc, List.mem_append, List.mem_singleton, or_comm]

theorem mem_wrapped_wrapSymbols {rhs : List Symbol} {c : Char} {s : Introduced} :
    c ∈ (wrapSymbols taken rhs s).2.wrapped ↔ .terminal c ∈ rhs ∨ c ∈ s.wrapped := by
  induction rhs generalizing s with
  | nil => simp [wrapSymbols]
  | cons x rest ih =>
    cases x with
    | var v => simp [wrapSymbols, ih]
    | terminal d => simp [wrapSymbols, ih, mem_wrapped_wrapperOf, or_assoc, or_left_comm]

theorem mem_wrapped_split {p : Production} {c : Char} {s : Introduced} :
    c ∈ (p.split taken s).2.wrapped ↔ p.NeedsWrapper c ∨ c ∈ s.wrapped := by
  rcases split_cases taken p s with ⟨⟨x, hx⟩, hsplit⟩ | ⟨hlong, hsplit⟩
  · rw [hsplit]
    simp [Production.NeedsWrapper, hx]
  · have hneeds : p.NeedsWrapper c ↔ .terminal c ∈ p.rhs := by
      refine ⟨And.right, fun hc => ⟨?_, hc⟩⟩
      match hrhs : p.rhs with
      | [] => exact absurd (hrhs ▸ hc) List.not_mem_nil
      | [x] => exact absurd hrhs (hlong x)
      | _ :: _ :: _ => simp
    rw [hsplit, hneeds]
    exact mem_wrapped_wrapSymbols

theorem mem_wrapped_splitAll {ps : List Production} {c : Char} {s : Introduced} :
    c ∈ (splitAll taken ps s).2.wrapped ↔ (∃ p ∈ ps, p.NeedsWrapper c) ∨ c ∈ s.wrapped := by
  induction ps generalizing s with
  | nil => simp [splitAll]
  | cons p rest ih =>
    rw [splitAll_cons, ih, mem_wrapped_split]
    simp [or_assoc, or_left_comm]

/-- What is made for introduced variables has two variables on the right. -/
theorem splitAll_isBinary {ps : List Production} {s : Introduced}
    (hps : ∀ p ∈ ps, p.lhs ∈ taken ∧ p.rhs ≠ []) :
    ∀ q ∈ (splitAll taken ps s).1, q.lhs ∉ taken → q.isBinary := by
  induction ps generalizing s with
  | nil => intro q hq; exact absurd hq List.not_mem_nil
  | cons p rest ih =>
    obtain ⟨⟨hlhs, hempty⟩, hrest⟩ := List.forall_mem_cons.mp hps
    intro q hq hfresh
    rw [splitAll_cons] at hq
    rcases List.mem_append.mp hq with hq | hq
    · match hrhs : p.rhs with
      | [] => exact absurd hrhs hempty
      | [x] =>
        rw [split_single hrhs] at hq
        rw [List.mem_singleton.mp hq] at hfresh
        exact absurd hlhs hfresh
      | _ :: _ :: _ => exact split_isBinary (hrhs ▸ by simp) q hq
    · exact ih hrest q hq hfresh

end Record

namespace Grammar

variable {g h : Grammar}

/-- The terminal stands in some right-hand side beside another symbol. -/
def NeedsWrapper (g : Grammar) (c : Char) : Prop :=
  ∃ p ∈ g.productions, p.NeedsWrapper c

/-- In the end those terminals are on record that need a wrapper. -/
theorem mem_wrapped_spelledOut {c : Char} :
    c ∈ g.spelledOut.2.wrapped ↔ g.NeedsWrapper c := by
  unfold spelledOut
  rw [mem_wrapped_splitAll]
  simp [NeedsWrapper, Introduced.wrapped]

/-! ## Wrappers from outside -/

/-- The variable is new in `h` and stands for the terminal there. -/
def Wraps (g h : Grammar) (v : Variable) (c : Char) : Prop :=
  v ∉ g.vars ∧ ⟨v, [.terminal c]⟩ ∈ h.productions

/-- **The wrappers are the entries of the record.** -/
theorem wraps_iff (hempty : g.IsEpsilonFree) {v : Variable} {c : Char} :
    g.Wraps g.binaryForm v c ↔ (c, v) ∈ g.spelledOut.2.wrappers := by
  constructor
  · rintro ⟨hnew, hp⟩
    rcases List.mem_append.mp (mem_binaryForm_iff.mp hp) with hp | hp
    · -- it would have two variables on the right
      have hps : ∀ p ∈ g.productions.toList, p.lhs ∈ g.vars ∧ p.rhs ≠ [] := by
        intro p hp
        have hmem := Std.ExtTreeSet.mem_toList.mp hp
        exact ⟨lhs_mem_vars hmem, hempty p hmem⟩
      obtain ⟨a, b, hrhs⟩ := Production.isBinary_iff.mp (splitAll_isBinary hps _ hp hnew)
      exact absurd hrhs (by simp)
    · obtain ⟨⟨d, u⟩, he, heq⟩ := List.mem_map.mp hp
      simp only [Production.mk.injEq, List.cons.injEq, Symbol.terminal.injEq, and_true] at heq
      rw [← heq.1, ← heq.2]
      exact he
  · exact g.wrappersIn_binaryForm _

/-- A wrapper derives its terminal and no other word. -/
theorem Wraps.produces_iff (hs : h.SpellsOut g) {v : Variable} {c : Char}
    (hv : g.Wraps h v c) {w : List Char} : h.Produces v w ↔ w = [c] := by
  rw [produces_iff_yields, yields_var_iff]
  constructor
  · rintro ⟨rhs, hp, hrhs⟩
    rw [hs.unique hv.1 hp hv.2] at hrhs
    exact yields_terminal_iff.mp hrhs
  · intro hw
    exact ⟨_, hv.2, yields_terminal_iff.mpr hw⟩

/-- Two terminals never share a wrapper: it has one production. -/
theorem Wraps.terminal_unique (hs : h.SpellsOut g) {v : Variable} {c d : Char}
    (hc : g.Wraps h v c) (hd : g.Wraps h v d) : c = d := by
  have hrhs := hs.unique hc.1 hc.2 hd.2
  simpa using hrhs

/-- One terminal never has two: it is looked up before a new one is made. -/
theorem wrappers_unique {c : Char} {u v : Variable} (hu : (c, u) ∈ g.spelledOut.2.wrappers)
    (hv : (c, v) ∈ g.spelledOut.2.wrappers) : u = v := by
  have heq := List.inj_on_of_nodup_map g.spelledOut_grows.nodup_terminals hu hv rfl
  exact congrArg Prod.snd heq

/--
**Binarization succeeds, and every variable of the grammar keeps its words.** A terminal has
a wrapper exactly if it stands beside another symbol somewhere; then it has one wrapper,
which derives it and nothing else and belongs to no other terminal.
-/
theorem binarize_keeps_words (hempty : g.IsEpsilonFree) (hunit : g.IsUnitFree) :
    ∃ h, g.binarize = .ok h ∧
      (∀ v ∈ g.vars, ∀ w, h.Produces v w ↔ g.Produces v w) ∧
      (∀ v c, g.Wraps h v c → ∀ w, h.Produces v w ↔ w = [c]) ∧
      (∀ v c d, g.Wraps h v c → g.Wraps h v d → c = d) ∧
      (∀ c, g.NeedsWrapper c → ∃! v, g.Wraps h v c) ∧
      ∀ v c, g.Wraps h v c → g.NeedsWrapper c := by
  have hs := g.binaryForm_spellsOut
  refine ⟨g.binaryForm, binarize_eq_ok_iff.mpr ⟨⟨hempty, hunit⟩, rfl⟩, ?_, ?_, ?_, ?_, ?_⟩
  · intro v hv w
    simp only [produces_iff_yields]
    refine hs.yields_iff fun u hu => ?_
    rw [Symbol.var.inj (List.mem_singleton.mp hu)]
    exact hv
  · exact fun v c hv w => hv.produces_iff hs
  · exact fun v c d hc hd => hc.terminal_unique hs hd
  · intro c hc
    obtain ⟨⟨_, v⟩, he, rfl⟩ := List.mem_map.mp (mem_wrapped_spelledOut.mpr hc)
    refine ⟨v, (wraps_iff hempty).mpr he, fun u hu => ?_⟩
    exact wrappers_unique ((wraps_iff hempty).mp hu) he
  · intro v c hv
    exact mem_wrapped_spelledOut.mp (List.mem_map.mpr ⟨_, (wraps_iff hempty).mp hv, rfl⟩)

/-- A grammar that has taken names from the counter on: `T1` with no production, and `C4`. -/
def crowded : Grammar where
  start := ⟨"S"⟩
  productions := .ofList [(⟨⟨"S"⟩, [.var ⟨"C4"⟩, .terminal 'a', .var ⟨"C4"⟩]⟩ : Production),
    ⟨⟨"S"⟩, [.var ⟨"T1"⟩, .terminal 'b']⟩, ⟨⟨"C4"⟩, [.terminal 'b', .terminal 'a']⟩,
    ⟨⟨"C4"⟩, [.terminal 'c']⟩]
  counter := 1

/-- Its binary form: `T2` and `T3` are the wrappers, `C5` is the chain variable. -/
def crowdedBinary : Grammar where
  start := ⟨"S"⟩
  productions := .ofList [(⟨⟨"C4"⟩, [.var ⟨"T2"⟩, .var ⟨"T3"⟩]⟩ : Production),
    ⟨⟨"C4"⟩, [.terminal 'c']⟩, ⟨⟨"S"⟩, [.var ⟨"C4"⟩, .var ⟨"C5"⟩]⟩,
    ⟨⟨"C5"⟩, [.var ⟨"T3"⟩, .var ⟨"C4"⟩]⟩, ⟨⟨"S"⟩, [.var ⟨"T1"⟩, .var ⟨"T2"⟩]⟩,
    ⟨⟨"T2"⟩, [.terminal 'b']⟩, ⟨⟨"T3"⟩, [.terminal 'a']⟩]
  counter := 6

theorem crowded_shape : crowded.IsEpsilonFree ∧ crowded.IsUnitFree :=
  findSome?_leftover?_eq_none_iff.mp (by decide +kernel)

theorem binarize_crowded : crowded.binarize = .ok crowdedBinary :=
  binarize_eq_ok_iff.mpr ⟨crowded_shape, by decide +kernel⟩

theorem crowded_keeps_words :
    crowded.IsEpsilonFree ∧ crowded.IsUnitFree ∧ crowded.binarize = .ok crowdedBinary ∧
      (∀ w, crowdedBinary.Produces ⟨"S"⟩ w ↔ crowded.Produces ⟨"S"⟩ w) ∧
      (∀ w, crowdedBinary.Produces ⟨"T3"⟩ w ↔ w = ['a']) ∧
      ∃! v, crowded.Wraps crowdedBinary v 'b' := by
  obtain ⟨hempty, hunit⟩ := crowded_shape
  obtain ⟨h, hok, hwords, hwrap, _, hone, _⟩ := binarize_keeps_words hempty hunit
  have hsame : h = crowdedBinary := Except.ok.inj (hok.symm.trans binarize_crowded)
  rw [hsame] at hwords hwrap hone
  refine ⟨hempty, hunit, binarize_crowded, ?_, ?_, ?_⟩
  · exact hwords ⟨"S"⟩ (by decide +kernel)
  · exact hwrap ⟨"T3"⟩ 'a' ⟨by decide +kernel, by decide +kernel⟩
  · exact hone 'b' ⟨⟨⟨"S"⟩, [.var ⟨"T1"⟩, .terminal 'b']⟩, by decide +kernel, by decide, by simp⟩

end Grammar

end ContextFree
