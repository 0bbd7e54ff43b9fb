import ContextFree.Grammar

/-!
# Fresh names

A fresh name is a stem followed by a number, the first number from the counter on
that gives a name the grammar does not mention. The search stops because only
finitely many names are taken: every miss uses one of them up.
-/

namespace ContextFree

/-- The stem of variables that stand for the tail of a long right-hand side. -/
def chainStem : String := "C"

/-- The stem of variables that stand for a single terminal. -/
def wrapperStem : String := "T"

/-- The variable named by a stem and a number. -/
def Variable.numbered (stem : String) (n : Nat) : Variable :=
  ⟨stem ++ toString n⟩

theorem size_erase_lt {taken : Std.ExtTreeSet Variable} {v : Variable} (h : v ∈ taken) :
    (taken.erase v).size < taken.size := by
  have hpos : taken.size ≠ 0 := fun h0 => by
    rw [Std.ExtTreeSet.eq_empty_iff_size_eq_zero.mpr h0] at h
    exact Std.ExtTreeSet.not_mem_empty h
  rw [Std.ExtTreeSet.size_erase, if_pos (Std.ExtTreeSet.contains_iff_mem.mpr h)]
  omega

/--
The first number from `n` on whose name is not taken.

A name that was found taken can be struck off: larger numbers give other names.
-/
def firstFree (stem : String) (taken : Std.ExtTreeSet Variable) (n : Nat) : Nat :=
  if Variable.numbered stem n ∈ taken then
    firstFree stem (taken.erase (.numbered stem n)) (n + 1)
  else
    n
termination_by taken.size
decreasing_by exact size_erase_lt ‹_›

/-- A number can be read back from its digits. -/
theorem read_toDigits (n : Nat) : Nat.ofDigitChars 10 (Nat.toDigits 10 n) 0 = n :=
  Nat.ofDigitChars_toDigits (by decide) (by decide)

/-- Different numbers give different names. -/
theorem Variable.numbered_inj {stem : String} {m n : Nat}
    (h : numbered stem m = numbered stem n) : m = n := by
  have htext : toString m = toString n :=
    (String.append_right_inj stem).mp (congrArg Variable.name h)
  rw [Nat.toString_eq_ofList_toDigits, Nat.toString_eq_ofList_toDigits, String.ofList_inj] at htext
  rw [← read_toDigits m, htext, read_toDigits n]

theorem le_firstFree (stem : String) (taken : Std.ExtTreeSet Variable) (n : Nat) :
    n ≤ firstFree stem taken n := by
  fun_induction firstFree stem taken n with
  | case1 _ _ _ ih => exact Nat.le_of_succ_le ih
  | case2 => exact Nat.le_refl _

/-- No more numbers are passed over than there are names taken. -/
theorem firstFree_le (stem : String) (taken : Std.ExtTreeSet Variable) (n : Nat) :
    firstFree stem taken n ≤ n + taken.size := by
  fun_induction firstFree stem taken n with
  | case1 taken n h ih =>
    have hlt := size_erase_lt h
    omega
  | case2 => exact Nat.le_add_right _ _

/-- The name found is free. -/
theorem numbered_firstFree_notMem (stem : String) (taken : Std.ExtTreeSet Variable) (n : Nat) :
    Variable.numbered stem (firstFree stem taken n) ∉ taken := by
  fun_induction firstFree stem taken n with
  | case1 taken n _ ih =>
    intro hmem
    refine ih (Std.ExtTreeSet.mem_erase.mpr ⟨fun heq => ?_, hmem⟩)
    have hn := Variable.numbered_inj (Std.LawfulEqOrd.eq_of_compare heq)
    have hle := le_firstFree stem (taken.erase (.numbered stem n)) (n + 1)
    omega
  | case2 _ _ h => exact h

/-- Every name passed over is taken. -/
theorem mem_of_lt_firstFree {stem : String} {taken : Std.ExtTreeSet Variable} {n k : Nat}
    (hn : n ≤ k) (hk : k < firstFree stem taken n) : Variable.numbered stem k ∈ taken := by
  fun_induction firstFree stem taken n with
  | case1 taken n h ih =>
    by_cases heq : k = n
    · exact heq ▸ h
    · exact (Std.ExtTreeSet.mem_erase.mp (ih (by omega) hk)).2
  | case2 => omega

/-- Only names from the counter on are looked at. -/
theorem firstFree_congr {stem : String} {taken taken' : Std.ExtTreeSet Variable} {n : Nat}
    (h : ∀ k, n ≤ k → (Variable.numbered stem k ∈ taken ↔ Variable.numbered stem k ∈ taken')) :
    firstFree stem taken n = firstFree stem taken' n := by
  have hle := le_firstFree stem taken n
  have hle' := le_firstFree stem taken' n
  refine Nat.le_antisymm (Nat.le_of_not_lt fun hlt => ?_) (Nat.le_of_not_lt fun hlt => ?_)
  · exact numbered_firstFree_notMem stem taken' n ((h _ hle').mp (mem_of_lt_firstFree hle' hlt))
  · exact numbered_firstFree_notMem stem taken n ((h _ hle).mpr (mem_of_lt_firstFree hle hlt))

/-- Hands out a name the grammar does not mention and moves the counter past it. -/
def Grammar.fresh (g : Grammar) (stem : String) : Variable × Grammar :=
  let n := firstFree stem g.vars g.counter
  (.numbered stem n, { g with counter := n + 1 })

end ContextFree
