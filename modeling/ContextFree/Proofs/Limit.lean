import ContextFree.Proofs.Sampling
import Mathlib.Control.Monad.Basic

/-!
# What the depth limit does

**It makes runs end.** The pending list may grow at every step, and a draw may throw numbers
away, so neither the one nor the other shows that a run gets anywhere. Two bounds do. Every
step takes weight off what is pending, so there are no more steps than the start variable
weighs. And a number is only thrown away if it comes out of the script, because the zeros
behind it are always accepted: beside one number for each step, a run takes no more than the
script holds.

**It shows only where it is reached.** A run never looks at the limit except to compare it with
the depth of a variable. Up to the first variable beyond the lower one of two limits, the two
runs are one run, draws and all; if there is no such variable they end alike.
-/

namespace ContextFree

/-! ## Draws -/

/-- The numbers there are to draw: those of the script, then zeros. -/
def Draws.number (d : Draws) (k : Nat) : UInt32 :=
  d.script.getD k 0

/-- The first number that is accepted is the one with this many before it, and it picks `i`. -/
def Draws.Accepts (d : Draws) (n misses i : Nat) : Prop :=
  (∀ k < misses, pick? n (d.number k) = none) ∧ pick? n (d.number misses) = some i

/-- A zero is never thrown away. -/
theorem pick?_zero (n : Nat) : pick? n 0 = some 0 := by
  simp [pick?]

/-- **A draw goes on to the first number that is accepted**, the zero behind the script at last. -/
theorem Draws.exists_accepts (d : Draws) (n : Nat) :
    ∃ misses i, misses ≤ d.script.length ∧ d.Accepts n misses i ∧
      d.choose n = (i, ⟨d.script.drop (misses + 1), d.taken + (misses + 1)⟩) := by
  obtain ⟨script, taken⟩ := d
  induction script generalizing taken with
  | nil =>
    refine ⟨0, 0, Nat.le_refl _, ⟨fun k hk => absurd hk (Nat.not_lt_zero k), ?_⟩, rfl⟩
    exact pick?_zero n
  | cons v rest ih =>
    cases hv : pick? n v with
    | some i =>
      refine ⟨0, i, Nat.zero_le _, ⟨fun k hk => absurd hk (Nat.not_lt_zero k), hv⟩, ?_⟩
      exact Draws.choose_of_pick? hv rest taken
    | none =>
      -- one more number is thrown away, and the rest of the script decides
      obtain ⟨misses, i, hle, ⟨hmisses, haccepted⟩, hchoose⟩ := ih (taken + 1)
      refine ⟨misses + 1, i, Nat.succ_le_succ hle, ⟨fun k hk => ?_, haccepted⟩, ?_⟩
      · cases k with
        | zero => exact hv
        | succ k => exact hmisses k (Nat.lt_of_succ_lt_succ hk)
      · have hskip : Draws.choose ⟨v :: rest, taken⟩ n = Draws.choose ⟨rest, taken + 1⟩ n := by
          rw [Draws.choose, ContextFree.choose, hv, Draws.choose]
        rw [hskip, hchoose, List.drop_succ_cons]
        simp only [Nat.add_assoc, Nat.add_comm]

/-- How many numbers have been taken or can still be thrown away. -/
def Draws.extent (d : Draws) : Nat :=
  d.taken + d.script.length

theorem Draws.extent_choose_le (d : Draws) (n : Nat) :
    (d.choose n).2.extent ≤ d.extent + 1 := by
  obtain ⟨misses, i, hle, _, hchoose⟩ := d.exists_accepts n
  rw [hchoose]
  simp only [extent, List.length_drop]
  omega

namespace Grammar

variable {g : Grammar}

theorem extent_drawAlternative_le {v : Variable} {draws draws' : Draws} {p : Production}
    (h : g.drawAlternative v draws = some (p, draws')) : draws'.extent ≤ draws.extent + 1 := by
  unfold drawAlternative at h
  split at h
  · cases h
  · rename_i q rest _
    simp only [Option.some.injEq, Prod.mk.injEq] at h
    rw [← h.2]
    exact draws.extent_choose_le _

/-- Only a variable without productions has no alternative to draw. -/
theorem drawAlternative_eq_none {v : Variable} {draws : Draws}
    (h : g.drawAlternative v draws = none) : ∀ p ∈ g.productions, p.lhs ≠ v := by
  unfold drawAlternative at h
  split at h
  · rename_i hnone
    intro p hp hlhs
    have hmem : p ∈ g.productionsOf v := mem_productionsOf.mpr ⟨hp, hlhs⟩
    rw [hnone] at hmem
    exact List.not_mem_nil hmem
  · cases h

end Grammar

/-! ## Steps -/

namespace Expansion

variable {g : Grammar} {maxDepth : Nat} {e e' : Expansion}

/-- So many steps lead from one expansion to the other. -/
inductive Steps (g : Grammar) (maxDepth : Nat) : Nat → Expansion → Expansion → Prop where
  | none (e : Expansion) : Steps g maxDepth 0 e e
  | next {n : Nat} {e e' last : Expansion} :
      e.step g maxDepth = .next e' → Steps g maxDepth n e' last →
      Steps g maxDepth (n + 1) e last

/-- Nothing is pending that is more than one level beyond the limit. -/
def IsWithin (e : Expansion) (maxDepth : Nat) : Prop :=
  ∀ s depth, (s, depth) ∈ e.pending → depth ≤ maxDepth + 1

/-- Only variables within the limit are replaced, so what comes in is one level further down. -/
theorem IsWithin.step (he : e.IsWithin maxDepth) (h : e.step g maxDepth = .next e') :
    e'.IsWithin maxDepth := by
  rcases step_eq_next h with ⟨c, depth, rest, hpending, rfl⟩ |
    ⟨v, depth, rest, p, draws, hpending, hdepth, _, rfl⟩
  · intro s d hs
    exact he s d (hpending ▸ List.mem_cons_of_mem _ hs)
  · intro s d hs
    rcases List.mem_append.mp hs with hs | hs
    · obtain ⟨_, _, heq⟩ := List.mem_map.mp hs
      have hd : depth + 1 = d := congrArg Prod.snd heq
      omega
    · exact he s d (hpending ▸ List.mem_cons_of_mem _ hs)

theorem extent_step_le (h : e.step g maxDepth = .next e') :
    e'.draws.extent ≤ e.draws.extent + 1 := by
  rcases step_eq_next h with ⟨c, depth, rest, _, rfl⟩ | ⟨v, depth, rest, p, draws, _, _, hdraw, rfl⟩
  · exact Nat.le_succ _
  · exact Grammar.extent_drawAlternative_le hdraw

namespace Steps

variable {n : Nat} {last : Expansion}

theorem isWithin (h : Steps g maxDepth n e last) (he : e.IsWithin maxDepth) :
    last.IsWithin maxDepth := by
  induction h with
  | none => exact he
  | next hstep _ ih => exact ih (he.step hstep)

/-- What is pending at the end weighs less by one for every step at least. -/
theorem add_weight_le (h : Steps g maxDepth n e last) :
    n + last.weight g maxDepth ≤ e.weight g maxDepth := by
  induction h with
  | none e => exact Nat.le_of_eq (Nat.zero_add _)
  | next hstep _ ih =>
    have := weight_step_lt hstep
    omega

theorem extent_le (h : Steps g maxDepth n e last) :
    last.draws.extent ≤ e.draws.extent + n := by
  induction h with
  | none e => exact Nat.le_refl _
  | next hstep _ ih =>
    have := extent_step_le hstep
    omega

end Steps

/-! ## Runs end -/

/-- The loop: a run is so many steps and then one that ends it. -/
theorem exists_steps (g : Grammar) (maxDepth : Nat) (e : Expansion) :
    ∃ n last result, Steps g maxDepth n e last ∧
      last.step g maxDepth = .done result last.draws ∧
      e.run g maxDepth = (result, last.draws) := by
  fun_induction run g maxDepth e with
  | case1 e e' hstep ih =>
    obtain ⟨n, last, result, hsteps, hdone, hrun⟩ := ih
    exact ⟨n + 1, last, result, .next hstep hsteps, hdone, hrun⟩
  | case2 e result draws hstep =>
    obtain rfl := (step_eq_done hstep).1
    exact ⟨0, e, result, .none e, hstep, rfl⟩

/-- The three ways in which a step can end a run. -/
theorem result_of_step_eq_done {result : Except SamplingFault (List Char)} {draws : Draws}
    (h : e.step g maxDepth = .done result draws) :
    (∃ w, result = .ok w) ∨
      (∃ v, result = .error (.undefined v) ∧ ∀ p ∈ g.productions, p.lhs ≠ v) ∨
      result = .error (.tooDeep maxDepth) := by
  obtain ⟨_, ⟨_, hresult⟩ | ⟨v, depth, rest, _, ⟨_, hresult⟩ | ⟨_, hdraw, hresult⟩⟩⟩ :=
    step_eq_done h
  · exact .inl ⟨_, hresult⟩
  · exact .inr (.inr hresult)
  · exact .inr (.inl ⟨v, hresult, Grammar.drawAlternative_eq_none hdraw⟩)

/-! ## Another limit -/

variable {maxDepth' : Nat}

/-- A step that is not cut off by the lower limit is the same step under the higher one. -/
theorem step_raise (hle : maxDepth ≤ maxDepth') (e : Expansion) :
    e.step g maxDepth' = e.step g maxDepth ∨
      e.step g maxDepth = .done (.error (.tooDeep maxDepth)) e.draws := by
  unfold step
  split
  · exact .inl rfl
  · exact .inl rfl
  · rename_i v depth rest _
    by_cases hdepth : maxDepth < depth
    · rw [if_pos hdepth]
      exact .inr rfl
    · have hdepth' : ¬ maxDepth' < depth := by omega
      rw [if_neg hdepth, if_neg hdepth']
      exact .inl rfl

theorem run_raise (hle : maxDepth ≤ maxDepth') (e : Expansion) :
    e.run g maxDepth' = e.run g maxDepth ∨
      (e.run g maxDepth).1 = .error (.tooDeep maxDepth) := by
  fun_induction run g maxDepth e with
  | case1 e e' hstep ih =>
    rcases step_raise (g := g) hle e with hsame | hcut
    · rw [run_next (hsame.trans hstep)]
      exact ih
    · rw [hstep] at hcut
      cases hcut
  | case2 e result draws hstep =>
    rcases step_raise (g := g) hle e with hsame | hcut
    · exact .inl (run_done (hsame.trans hstep))
    · rw [hstep] at hcut
      cases hcut
      exact .inr rfl

end Expansion

namespace Grammar

/-! ## Samples -/

variable {maxDepth maxDepth' : Nat}

theorem isWithin_initial (g : Grammar) (maxDepth : Nat) (draws : Draws) :
    (Expansion.initial g draws).IsWithin maxDepth := by
  intro s depth hs
  have hdepth : depth = 0 := congrArg Prod.snd (List.mem_singleton.mp hs)
  omega

/-- The start variable is all that is pending at first. -/
theorem weight_initial (g : Grammar) (maxDepth : Nat) (draws : Draws) :
    (Expansion.initial g draws).weight g maxDepth = levelWeight g.breadth (maxDepth + 1) := rfl

/--
**Sampling ends**, within so many steps as the start variable weighs, and it takes a number for
each step at most beside those of the script. It ends with a word, at a variable without
productions or beyond the limit. On the way nothing is pending more than one level beyond the
limit, and every draw comes to a number that is accepted: all it can throw away is what is left
of the script.
-/
theorem sampling_ends (g : Grammar) (maxDepth : Nat) (script : List UInt32) :
    (∃ n last result,
      Expansion.Steps g maxDepth n (.initial g { script }) last ∧
      last.step g maxDepth = .done result last.draws ∧
      g.sample maxDepth { script } = (result, last.draws) ∧
      last.draws.taken ≤ script.length + n ∧
      ((∃ w, result = .ok w) ∨
        (∃ v, result = .error (.undefined v) ∧ ∀ p ∈ g.productions, p.lhs ≠ v) ∨
        result = .error (.tooDeep maxDepth))) ∧
    (∀ n e, Expansion.Steps g maxDepth n (.initial g { script }) e →
      n ≤ levelWeight g.breadth (maxDepth + 1) ∧
      ∀ s depth, (s, depth) ∈ e.pending → depth ≤ maxDepth + 1) ∧
    ∀ (draws : Draws) (alternatives : Nat), ∃ misses i, misses ≤ draws.script.length ∧
      draws.Accepts alternatives misses i ∧
      draws.choose alternatives =
        (i, ⟨draws.script.drop (misses + 1), draws.taken + (misses + 1)⟩) := by
  refine ⟨?_, ?_, Draws.exists_accepts⟩
  · obtain ⟨n, last, result, hsteps, hdone, hrun⟩ :=
      Expansion.exists_steps g maxDepth (.initial g { script })
    have hextent := hsteps.extent_le
    simp only [Draws.extent, Expansion.initial] at hextent
    exact ⟨n, last, result, hsteps, hdone, hrun, by omega,
      Expansion.result_of_step_eq_done hdone⟩
  · intro n e hsteps
    have hweight := hsteps.add_weight_le
    rw [weight_initial] at hweight
    exact ⟨by omega, hsteps.isWithin (isWithin_initial g maxDepth _)⟩

/--
**Raising the limit changes only runs that were cut off.** Any other run ends alike under the
higher limit and has drawn the same numbers. So a word found under the higher limit is found
under the lower one, or the run is cut off there.
-/
theorem raising_limit (hle : maxDepth ≤ maxDepth') (g : Grammar) (draws : Draws) :
    ((g.sample maxDepth draws).1 ≠ .error (.tooDeep maxDepth) →
      g.sample maxDepth' draws = g.sample maxDepth draws) ∧
    ∀ w, (g.sample maxDepth' draws).1 = .ok w →
      (g.sample maxDepth draws).1 = .ok w ∨
        (g.sample maxDepth draws).1 = .error (.tooDeep maxDepth) := by
  have hraise : g.sample maxDepth' draws = g.sample maxDepth draws ∨
      (g.sample maxDepth draws).1 = .error (.tooDeep maxDepth) := Expansion.run_raise hle _
  constructor
  · exact hraise.resolve_right
  · intro w hw
    rcases hraise with hsame | hcut
    · rw [hsame] at hw
      exact .inl hw
    · exact .inr hcut

/-- With these numbers two pairs of brackets are drawn, one inside the other. -/
theorem balanced_raised :
    2 ≤ 4 ∧ 1 ≤ 4 ∧
    (balanced.sample 2 { script := [0x80000000, 0x80000000] }).1 = .ok ['(', '(', ')', ')'] ∧
    balanced.sample 4 { script := [0x80000000, 0x80000000] } =
      balanced.sample 2 { script := [0x80000000, 0x80000000] } ∧
    ((balanced.sample 1 { script := [0x80000000, 0x80000000] }).1 = .ok ['(', '(', ')', ')'] ∨
      (balanced.sample 1 { script := [0x80000000, 0x80000000] }).1 = .error (.tooDeep 1)) := by
  have hword : (balanced.sample 2 { script := [0x80000000, 0x80000000] }).1 =
      .ok ['(', '(', ')', ')'] := by decide +kernel
  have hle : 2 ≤ 4 ∧ 1 ≤ 4 := by decide
  have hsame := (raising_limit hle.1 balanced { script := [0x80000000, 0x80000000] }).1
    (by rw [hword]; simp)
  have hlower := (raising_limit hle.2 balanced { script := [0x80000000, 0x80000000] }).2 _
    (by rw [hsame, hword])
  exact ⟨hle.1, hle.2, hword, hsame, hlower⟩

end Grammar

end ContextFree
