import ContextFree.Proofs.EpsilonFree
import Mathlib.Algebra.GroupWithZero.Nat
import Mathlib.Data.List.Nodup

/-!
# How many productions stand in for one

There is a choice at every place where a nullable variable stands, so `droppings` lists two
forms for each form it lists for the rest, or as many if the first symbol has to stay. That
makes a power of two. The productions are fewer if choices fall together, or if one of them
leaves nothing.

Choices fall together only where a variable stands twice: with the first symbol kept a form
begins with it, and a form that is left of the rest can do so only if that symbol comes
again. And nothing is left by exactly one choice, if by any.
-/

namespace ContextFree

section Droppable

variable {nullable : Std.ExtTreeSet Variable} {form : List Symbol}

/-- The symbols of a form that may be left out, each as often as it stands there. -/
def droppable (nullable : Std.ExtTreeSet Variable) (form : List Symbol) : List Symbol :=
  form.filter (·.isDroppable nullable)

theorem droppable_cons_of_pos {s : Symbol} (h : s.isDroppable nullable) :
    droppable nullable (s :: form) = s :: droppable nullable form :=
  List.filter_cons_of_pos h

theorem droppable_cons_of_neg {s : Symbol} (h : ¬ s.isDroppable nullable) :
    droppable nullable (s :: form) = droppable nullable form :=
  List.filter_cons_of_neg h

theorem length_droppings :
    (droppings nullable form).length = 2 ^ (droppable nullable form).length := by
  induction form with
  | nil => rfl
  | cons s rest ih =>
    rw [droppings_cons, List.length_append, List.length_map, ih]
    by_cases hs : s.isDroppable nullable
    · rw [if_pos hs, ih, droppable_cons_of_pos hs, List.length_cons, Nat.pow_succ]
      omega
    · rw [if_neg hs, droppable_cons_of_neg hs, List.length_nil, Nat.add_zero]

/-- Different choices leave different forms, unless a symbol may be left out at two places. -/
theorem nodup_droppings (h : (droppable nullable form).Nodup) :
    (droppings nullable form).Nodup := by
  induction form with
  | nil => exact List.nodup_singleton []
  | cons s rest ih =>
    rw [droppings_cons]
    by_cases hs : s.isDroppable nullable
    · rw [droppable_cons_of_pos hs, List.nodup_cons] at h
      obtain ⟨hnew, hrest⟩ := h
      have htails := ih hrest
      rw [if_pos hs]
      refine List.Nodup.append (htails.map (List.cons_injective)) htails ?_
      intro left hkept hleft
      obtain ⟨tail, _, rfl⟩ := List.mem_map.mp hkept
      have hagain : s ∈ rest := (mem_droppings_iff.mp hleft).mem List.mem_cons_self
      exact hnew (List.mem_filter.mpr ⟨hagain, hs⟩)
    · rw [droppable_cons_of_neg hs] at h
      rw [if_neg hs, List.append_nil]
      exact (ih h).map List.cons_injective

/-- Nothing is left only of what may be left out as a whole. -/
theorem nil_mem_droppings_iff :
    [] ∈ droppings nullable form ↔ form.all (·.isDroppable nullable) := by
  induction form with
  | nil => simp [droppings_nil]
  | cons s rest ih => simp [mem_droppings_cons, ih]

/-- One choice leaves nothing, if any does. -/
theorem length_nonempty_droppings (h : (droppable nullable form).Nodup) :
    ((droppings nullable form).filter (!·.isEmpty)).length =
      2 ^ (droppable nullable form).length -
        if form.all (·.isDroppable nullable) then 1 else 0 := by
  have herase : (droppings nullable form).filter (!·.isEmpty) =
      (droppings nullable form).erase [] := by
    rw [(nodup_droppings h).erase_eq_filter]
    refine List.filter_congr fun left _ => ?_
    cases left <;> rfl
  rw [herase, List.length_erase, length_droppings]
  by_cases hnil : [] ∈ droppings nullable form
  · rw [if_pos hnil, if_pos (nil_mem_droppings_iff.mp hnil)]
  · rw [if_neg hnil, if_neg (mt nil_mem_droppings_iff.mpr hnil), Nat.sub_zero]

end Droppable

namespace Production

/--
**The productions that stand in for one are those with some of its nullable symbols left out,
but not all that it has.** There are at most as many as there are choices of places; and if no
variable that may be left out stands there twice, there is one for each choice but the one that
leaves nothing, if there is such a choice.
-/
theorem droppings_exact (p : Production) (nullable : Std.ExtTreeSet Variable) :
    (∀ q, q ∈ p.droppings nullable ↔
      q.lhs = p.lhs ∧ q.rhs ≠ [] ∧ Thins nullable p.rhs q.rhs) ∧
    (p.droppings nullable).size ≤ 2 ^ (droppable nullable p.rhs).length ∧
    ((droppable nullable p.rhs).Nodup →
      (p.droppings nullable).size =
        2 ^ (droppable nullable p.rhs).length - if p.isNullable nullable then 1 else 0) := by
  refine ⟨fun q => mem_droppings_iff, ?_, fun hdistinct => ?_⟩
  · have hfilter := List.length_filter_le (!·.isEmpty) (ContextFree.droppings nullable p.rhs)
    have hsize : (p.droppings nullable).size ≤
        (((ContextFree.droppings nullable p.rhs).filter (!·.isEmpty)).map
          (Production.mk p.lhs)).length := Std.ExtTreeSet.size_ofList_le
    rw [List.length_map] at hsize
    rw [← length_droppings]
    exact Nat.le_trans hsize hfilter
  · have hinj : Function.Injective (Production.mk p.lhs) := by
      intro rhs rhs' heq
      exact (Production.mk.inj heq).2
    have hnodup : (((ContextFree.droppings nullable p.rhs).filter (!·.isEmpty)).map
        (Production.mk p.lhs)).Nodup := ((nodup_droppings hdistinct).filter _).map hinj
    have hsize : (p.droppings nullable).size =
        (((ContextFree.droppings nullable p.rhs).filter (!·.isEmpty)).map
          (Production.mk p.lhs)).length := by
      refine Std.ExtTreeSet.size_ofList (hnodup.imp fun {q q'} hne heq => hne ?_)
      exact Std.LawfulEqOrd.eq_of_compare heq
    rw [hsize, List.length_map]
    exact length_nonempty_droppings hdistinct

/-- Two variables at the ends, with a terminal and a third variable between them. -/
def flanked : Production :=
  ⟨⟨"S"⟩, [.var ⟨"A"⟩, .terminal '1', .var ⟨"C"⟩, .var ⟨"B"⟩]⟩

/-- The same without what stands between them. -/
def flanking : Production :=
  ⟨⟨"S"⟩, [.var ⟨"A"⟩, .var ⟨"B"⟩]⟩

/-- The two variables. -/
def flanks : Std.ExtTreeSet Variable :=
  .ofList [(⟨"A"⟩ : Variable), ⟨"B"⟩]

/-- All four choices leave something of the one, and three of them something of the other. -/
theorem flanked_droppings :
    (droppable flanks flanked.rhs).Nodup ∧ (flanked.droppings flanks).size = 4 ∧
      (droppable flanks flanking.rhs).Nodup ∧ (flanking.droppings flanks).size = 3 := by
  have hflanked : (droppable flanks flanked.rhs).Nodup := by decide +kernel
  have hflanking : (droppable flanks flanking.rhs).Nodup := by decide +kernel
  refine ⟨hflanked, ?_, hflanking, ?_⟩
  · exact ((droppings_exact flanked flanks).2.2 hflanked).trans (by decide +kernel)
  · exact ((droppings_exact flanking flanks).2.2 hflanking).trans (by decide +kernel)

end Production

end ContextFree
