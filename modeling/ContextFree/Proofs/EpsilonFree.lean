import ContextFree.EpsilonFree
import ContextFree.Proofs.Nullable

/-!
# Removing epsilon productions loses the empty word and nothing else

`droppings` lists what is left of a form for every choice of the places where a nullable
symbol stands. It does not matter from which number on the places are counted, so the list
for a form comes from the list for its rest: with the first symbol kept, and once more
without it if it may be left out (`droppings_cons`).

`Thins` says the same as a relation between the form and what is left of it, which is the
shape both directions of the proof recurse on:

* a tree over thinned right-hand sides becomes a tree over the old ones by putting
  a leafless tree back at every symbol that was left out;
* a tree over the old right-hand sides has, at each node, a thinning that keeps
  exactly the symbols with leaves below them.

The second step is about a whole form and its word, the empty word included. Only at
the end does a single variable with a non-empty word force the thinning to keep it.
-/

namespace ContextFree

/-- What is left of a form once some of the symbols that may be left out are. -/
inductive Thins (nullable : Std.ExtTreeSet Variable) : List Symbol → List Symbol → Prop where
  | nil : Thins nullable [] []
  | keep {form left : List Symbol} (s : Symbol) :
      Thins nullable form left → Thins nullable (s :: form) (s :: left)
  | drop {s : Symbol} {form left : List Symbol} :
      s.isDroppable nullable → Thins nullable form left → Thins nullable (s :: form) left

/-- Nothing is left that was not there. -/
theorem Thins.mem {nullable : Std.ExtTreeSet Variable} {form left : List Symbol}
    (h : Thins nullable form left) {s : Symbol} (hs : s ∈ left) : s ∈ form := by
  induction h with
  | nil => exact hs
  | keep _ _ ih =>
    rcases List.mem_cons.mp hs with rfl | hs
    · exact List.mem_cons_self
    · exact List.mem_cons_of_mem _ (ih hs)
  | drop _ _ ih => exact List.mem_cons_of_mem _ (ih hs)

/-! ## Choosing places and leaving them out -/

section Places

variable {nullable : Std.ExtTreeSet Variable}

/-- Only what there is to choose from is chosen. -/
theorem forall_mem_of_mem_choices {α : Type} {P : α → Prop} {as chosen : List α}
    (has : ∀ a ∈ as, P a) (h : chosen ∈ choices as) : ∀ a ∈ chosen, P a := by
  induction as generalizing chosen with
  | nil =>
    rw [List.mem_singleton.mp h]
    exact has
  | cons a rest ih =>
    obtain ⟨ha, hrest⟩ := List.forall_mem_cons.mp has
    rcases List.mem_append.mp h with h | h
    · exact ih hrest h
    · obtain ⟨others, hothers, rfl⟩ := List.mem_map.mp h
      exact List.forall_mem_cons.mpr ⟨ha, ih hrest hothers⟩

theorem droppablePlaces_cons {s : Symbol} {rest : List Symbol} {n : Nat} :
    droppablePlaces nullable (s :: rest) n =
      if s.isDroppable nullable then n :: droppablePlaces nullable rest (n + 1)
      else droppablePlaces nullable rest (n + 1) := by
  unfold droppablePlaces
  rw [List.zipIdx_cons, List.filter_cons]
  split <;> simp

theorem le_of_mem_droppablePlaces {form : List Symbol} {n i : Nat}
    (h : i ∈ droppablePlaces nullable form n) : n ≤ i := by
  obtain ⟨e, he, rfl⟩ := List.mem_map.mp h
  exact List.le_snd_of_mem_zipIdx (List.mem_filter.mp he).1

/-- The first symbol is kept if only later places are left out. -/
theorem withoutPlaces_keep {s : Symbol} {rest : List Symbol} {n : Nat} {dropped : List Nat}
    (h : ∀ i ∈ dropped, n + 1 ≤ i) :
    withoutPlaces (s :: rest) n dropped = s :: withoutPlaces rest (n + 1) dropped := by
  have hn : n ∉ dropped := fun hn => absurd (h n hn) (Nat.not_succ_le_self n)
  simp [withoutPlaces, List.zipIdx_cons, hn]

/-- The first symbol is left out with its place, which means nothing to the rest. -/
theorem withoutPlaces_drop {s : Symbol} {rest : List Symbol} {n : Nat} {dropped : List Nat} :
    withoutPlaces (s :: rest) n (n :: dropped) = withoutPlaces rest (n + 1) dropped := by
  have hrest : ∀ e ∈ rest.zipIdx (n + 1),
      (!(n :: dropped).contains e.2) = (!dropped.contains e.2) := by
    intro e he
    have hle : n + 1 ≤ e.2 := List.le_snd_of_mem_zipIdx he
    have hne : e.2 ≠ n := by omega
    simp [hne]
  unfold withoutPlaces
  rw [List.zipIdx_cons, List.filter_cons, List.filter_congr hrest]
  simp

/-- What is left of a form, counted from `n`, for every choice of places. -/
def droppingsFrom (nullable : Std.ExtTreeSet Variable) (form : List Symbol) (n : Nat) :
    List (List Symbol) :=
  (choices (droppablePlaces nullable form n)).map (withoutPlaces form n)

theorem droppingsFrom_cons {s : Symbol} {rest : List Symbol} {n : Nat} :
    droppingsFrom nullable (s :: rest) n =
      (droppingsFrom nullable rest (n + 1)).map (s :: ·) ++
        if s.isDroppable nullable then droppingsFrom nullable rest (n + 1) else [] := by
  -- whatever is chosen of the rest, the first symbol is kept
  have hkept : (choices (droppablePlaces nullable rest (n + 1))).map
      (withoutPlaces (s :: rest) n) = (droppingsFrom nullable rest (n + 1)).map (s :: ·) := by
    unfold droppingsFrom
    rw [List.map_map]
    refine List.map_congr_left fun chosen hchosen => withoutPlaces_keep ?_
    exact forall_mem_of_mem_choices (fun _ => le_of_mem_droppablePlaces) hchosen
  have hleft : ((choices (droppablePlaces nullable rest (n + 1))).map (n :: ·)).map
      (withoutPlaces (s :: rest) n) = droppingsFrom nullable rest (n + 1) := by
    unfold droppingsFrom
    rw [List.map_map]
    exact List.map_congr_left fun chosen _ => withoutPlaces_drop
  show (choices (droppablePlaces nullable (s :: rest) n)).map (withoutPlaces (s :: rest) n) = _
  rw [droppablePlaces_cons]
  split
  · rw [choices, List.map_append, hkept, hleft]
  · rw [hkept, List.append_nil]

/-- It does not matter from which number on the places are counted. -/
theorem droppingsFrom_eq (form : List Symbol) (n : Nat) :
    droppingsFrom nullable form n = droppings nullable form := by
  show droppingsFrom nullable form n = droppingsFrom nullable form 0
  induction form generalizing n with
  | nil => rfl
  | cons s rest ih => rw [droppingsFrom_cons, droppingsFrom_cons, ih (n + 1), ih (0 + 1)]

theorem droppings_nil : droppings nullable [] = [[]] := rfl

/-- The first symbol is kept or, if it may be, left out. -/
theorem droppings_cons {s : Symbol} {rest : List Symbol} :
    droppings nullable (s :: rest) =
      (droppings nullable rest).map (s :: ·) ++
        if s.isDroppable nullable then droppings nullable rest else [] := by
  show droppingsFrom nullable (s :: rest) 0 = _
  rw [droppingsFrom_cons, droppingsFrom_eq]

end Places

/-! ## The list and the relation -/

theorem mem_droppings_cons {nullable : Std.ExtTreeSet Variable} {s : Symbol}
    {form left : List Symbol} :
    left ∈ droppings nullable (s :: form) ↔
      (∃ tail ∈ droppings nullable form, s :: tail = left) ∨
        s.isDroppable nullable ∧ left ∈ droppings nullable form := by
  rw [droppings_cons, List.mem_append, List.mem_map]
  refine or_congr_right ?_
  split
  · rename_i hs
    exact (and_iff_right hs).symm
  · rename_i hs
    exact iff_of_false List.not_mem_nil fun h => hs h.1

/-- Every thinning is listed, and nothing else. -/
theorem mem_droppings_iff {nullable : Std.ExtTreeSet Variable} {form left : List Symbol} :
    left ∈ droppings nullable form ↔ Thins nullable form left := by
  constructor
  · intro h
    induction form generalizing left with
    | nil =>
      rw [List.mem_singleton.mp h]
      exact .nil
    | cons s rest ih =>
      rcases mem_droppings_cons.mp h with ⟨tail, htail, rfl⟩ | ⟨hs, hleft⟩
      · exact .keep s (ih htail)
      · exact .drop hs (ih hleft)
  · intro h
    induction h with
    | nil => exact List.mem_singleton.mpr rfl
    | keep s _ ih => exact mem_droppings_cons.mpr (.inl ⟨_, ih, rfl⟩)
    | drop hs _ ih => exact mem_droppings_cons.mpr (.inr ⟨hs, ih⟩)

theorem Production.mem_droppings_iff {p q : Production} {nullable : Std.ExtTreeSet Variable} :
    q ∈ p.droppings nullable ↔ q.lhs = p.lhs ∧ q.rhs ≠ [] ∧ Thins nullable p.rhs q.rhs := by
  unfold droppings
  rw [Std.ExtTreeSet.mem_ofList, List.contains_iff_mem, List.mem_map]
  constructor
  · rintro ⟨rhs, hrhs, rfl⟩
    obtain ⟨hmem, hne⟩ := List.mem_filter.mp hrhs
    exact ⟨rfl, by simpa using hne, ContextFree.mem_droppings_iff.mp hmem⟩
  · rintro ⟨hlhs, hne, hthin⟩
    refine ⟨q.rhs, List.mem_filter.mpr ⟨ContextFree.mem_droppings_iff.mpr hthin, ?_⟩, ?_⟩
    · simpa using hne
    · rw [← hlhs]

namespace Grammar

variable {g : Grammar}

theorem mem_withoutEpsilon_iff {nullable : Std.ExtTreeSet Variable} {q : Production} :
    q ∈ (g.withoutEpsilon nullable).productions ↔
      q.rhs ≠ [] ∧ ∃ form, ⟨q.lhs, form⟩ ∈ g.productions ∧ Thins nullable form q.rhs := by
  unfold withoutEpsilon withProductions
  simp only [Std.ExtTreeSet.mem_ofList, List.contains_iff_mem, List.mem_flatMap,
    Std.ExtTreeSet.mem_toList, Production.mem_droppings_iff]
  constructor
  · rintro ⟨p, hp, hlhs, hne, hthin⟩
    refine ⟨hne, p.rhs, ?_, hthin⟩
    rw [hlhs]
    exact hp
  · rintro ⟨hne, form, hp, hthin⟩
    exact ⟨⟨q.lhs, form⟩, hp, rfl, hne, hthin⟩

/-! ## The shape of the outcome -/

/-- No production has an empty right-hand side. -/
def IsEpsilonFree (g : Grammar) : Prop :=
  ∀ p ∈ g.productions, p.rhs ≠ []

/-- Whatever may be left out, nothing empty is put in. -/
theorem isEpsilonFree_withoutEpsilon (g : Grammar) (nullable : Std.ExtTreeSet Variable) :
    (g.withoutEpsilon nullable).IsEpsilonFree :=
  fun _ hq => (mem_withoutEpsilon_iff.mp hq).1

/-- Without epsilon productions every symbol has a leaf below it. -/
theorem Yields.length_le {form : List Symbol} {w : List Char} (hg : g.IsEpsilonFree)
    (h : g.Yields form w) : form.length ≤ w.length := by
  induction h with
  | nil => exact Nat.le_refl _
  | terminal _ ih => exact Nat.succ_le_succ ih
  | @var v rhs rest u w hp _ _ ihrhs ihrest =>
    have hrhs : 0 < rhs.length := List.length_pos_iff.mpr (hg _ hp)
    rw [List.length_cons, List.length_append]
    omega

theorem Yields.ne_nil {v : Variable} {w : List Char} (hg : g.IsEpsilonFree)
    (h : g.Yields [.var v] w) : w ≠ [] :=
  List.length_pos_iff.mp (h.length_le hg)

/-! ## Nothing is gained -/

end Grammar

/-- What was left out can be put back without changing the word. -/
theorem Thins.yields {g : Grammar} {form left : List Symbol} {w : List Char}
    (h : Thins g.nullable form left) (hw : g.Yields left w) : g.Yields form w := by
  induction h generalizing w with
  | nil => exact hw
  | keep s _ ih =>
    obtain ⟨u, v, rfl, hu, hv⟩ := Grammar.yields_cons_iff.mp hw
    exact Grammar.yields_cons_iff.mpr ⟨u, v, rfl, hu, ih hv⟩
  | drop hs _ ih =>
    exact Grammar.yields_cons_iff.mpr
      ⟨[], w, rfl, Grammar.yields_nil_of_isDroppable hs, ih hw⟩

namespace Grammar

variable {g : Grammar}

theorem yields_of_withoutEpsilon {form : List Symbol} {w : List Char}
    (h : (g.withoutEpsilon g.nullable).Yields form w) : g.Yields form w := by
  induction h with
  | nil => exact .nil
  | terminal _ ih => exact .terminal ih
  | var hp _ _ ihrhs ihrest =>
    obtain ⟨_, form, hform, hthin⟩ := mem_withoutEpsilon_iff.mp hp
    exact .var hform (hthin.yields ihrhs) ihrest

/-! ## Nothing but the empty word is lost -/

/-- **A tree over the old right-hand sides picks a thinning at every node.** -/
theorem Yields.exists_thins {form : List Symbol} {w : List Char} (h : g.Yields form w) :
    ∃ left, Thins g.nullable form left ∧ (g.withoutEpsilon g.nullable).Yields left w := by
  induction h with
  | nil => exact ⟨[], .nil, .nil⟩
  | @terminal c rest w _ ih =>
    obtain ⟨left, hthin, hleft⟩ := ih
    exact ⟨.terminal c :: left, .keep _ hthin, .terminal hleft⟩
  | @var v rhs rest u w hp hrhs _ ihrhs ihrest =>
    obtain ⟨left, hthin, hleft⟩ := ihrest
    obtain ⟨below, hbelow, hu⟩ := ihrhs
    by_cases hempty : u = []
    · -- no leaf below this symbol: it is nullable, and the thinning leaves it out
      have hnull : v ∈ g.nullable := by
        rw [hempty] at hrhs
        exact mem_nullable_iff.mpr (yields_var_iff.mpr ⟨rhs, hp, hrhs⟩)
      refine ⟨left, .drop (Symbol.isDroppable_iff.mpr ⟨v, rfl, hnull⟩) hthin, ?_⟩
      rw [hempty]
      exact hleft
    · -- otherwise something is left of its right-hand side, so that production is kept
      have hne : below ≠ [] := by
        intro hnil
        rw [hnil] at hu
        cases hu
        exact hempty rfl
      have hmem : ⟨v, below⟩ ∈ (g.withoutEpsilon g.nullable).productions :=
        mem_withoutEpsilon_iff.mpr ⟨hne, rhs, hp, hbelow⟩
      exact ⟨.var v :: left, .keep _ hthin, .var hmem hu hleft⟩

/-- **Removing epsilon productions loses the empty word and nothing else.** -/
theorem yields_withoutEpsilon_iff {v : Variable} {w : List Char} :
    (g.withoutEpsilon g.nullable).Yields [.var v] w ↔ w ≠ [] ∧ g.Yields [.var v] w := by
  constructor
  · intro h
    exact ⟨h.ne_nil (isEpsilonFree_withoutEpsilon g _), yields_of_withoutEpsilon h⟩
  · rintro ⟨hw, h⟩
    obtain ⟨left, hthin, hleft⟩ := h.exists_thins
    cases hthin with
    | keep _ hrest =>
      cases hrest
      exact hleft
    | drop _ hrest =>
      cases hrest
      cases hleft
      exact absurd rfl hw

/-- **Said of derivations: every variable keeps its words, all but the empty one.** -/
theorem produces_withoutEpsilon_iff (g : Grammar) (v : Variable) (w : List Char) :
    (g.withoutEpsilon g.nullable).Produces v w ↔ w ≠ [] ∧ g.Produces v w := by
  simp only [produces_iff_yields]
  exact yields_withoutEpsilon_iff

end Grammar

end ContextFree
