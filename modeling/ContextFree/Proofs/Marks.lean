import ContextFree.Recognizer

/-!
# The marks keep repetitions out of a cell

Candidates for a cell come with repetitions, one for every cut that yields them. The
marks drop these, and they are shared by all cells of the table, so two things have to
be true of filling one cell: the cell lists every candidate once, and the marks are
afterwards what they were before, namely all down.

While a cell is under construction a mark is up exactly if its number is in the cell.
That needs the numbers to be places of the row of marks: a mark that does not exist
cannot be put up, and its number would be listed every time.
-/

namespace ContextFree

/-- All marks down, one for each of `n` variables. -/
def Marks.clear (n : Nat) : Marks :=
  Array.replicate n false

/-- A cell under construction: the marks that are up are those of its numbers. -/
structure Noted (n : Nat) (state : Cell × Marks) : Prop where
  /-- There is a mark for each variable. -/
  size : state.2.size = n
  /-- A mark is up exactly if its number is in the cell. -/
  marked : ∀ a, state.2.getD a false = true ↔ a ∈ state.1
  /-- The cell lists nothing twice. -/
  nodup : state.1.Nodup

theorem getD_clear (n a : Nat) : (Marks.clear n).getD a false = false := by
  unfold Marks.clear
  rw [Array.getD_eq_getD_getElem?, Array.getElem?_replicate]
  split <;> rfl

theorem noted_clear (n : Nat) : Noted n ([], Marks.clear n) where
  size := Array.size_replicate
  marked := by
    intro a
    rw [getD_clear]
    simp
  nodup := List.nodup_nil

/-- Setting one mark leaves the others alone. -/
theorem getD_setIfInBounds {marks : Marks} {a b : Nat} {up : Bool} (ha : a < marks.size) :
    (marks.setIfInBounds a up).getD b false = if a = b then up else marks.getD b false := by
  rw [Array.getD_eq_getD_getElem?, Array.getElem?_setIfInBounds]
  by_cases hab : a = b
  · rw [if_pos hab, if_pos ha, if_pos hab]
    rfl
  · rw [if_neg hab, if_neg hab, Array.getD_eq_getD_getElem?]

namespace Recognizer

theorem note_noted {n a : Nat} {state : Cell × Marks} (h : Noted n state) (ha : a < n) :
    Noted n (note state a) := by
  obtain ⟨cell, marks⟩ := state
  rw [note]
  split
  · exact h
  · rename_i hdown
    have hnew : a ∉ cell := fun hmem => hdown ((h.marked a).mpr hmem)
    refine ⟨?_, ?_, List.nodup_cons.mpr ⟨hnew, h.nodup⟩⟩
    · rw [Array.size_setIfInBounds]
      exact h.size
    · intro b
      rw [getD_setIfInBounds (by rw [h.size]; exact ha), List.mem_cons]
      by_cases hab : a = b
      · simp [hab]
      · rw [if_neg hab]
        exact ⟨fun hb => .inr ((h.marked b).mp hb),
          fun hb => (h.marked b).mpr (hb.resolve_left fun he => hab he.symm)⟩

/-- Whether it was there already or not, the number is in the cell afterwards. -/
theorem mem_note {n a b : Nat} {state : Cell × Marks} (h : Noted n state) :
    b ∈ (note state a).1 ↔ b = a ∨ b ∈ state.1 := by
  obtain ⟨cell, marks⟩ := state
  rw [note]
  split
  · -- the mark is up, so the number is listed and nothing changes
    rename_i hup
    refine ⟨.inr, fun hb => ?_⟩
    rcases hb with rfl | hb
    · exact (h.marked b).mp hup
    · exact hb
  · exact List.mem_cons

/-- Noting numbers one after the other. -/
theorem foldl_note {n : Nat} {as : List Nat} {state : Cell × Marks} (h : Noted n state)
    (has : ∀ a ∈ as, a < n) :
    Noted n (as.foldl note state) ∧ ∀ b, b ∈ (as.foldl note state).1 ↔ b ∈ as ∨ b ∈ state.1 := by
  induction as generalizing state with
  | nil => exact ⟨h, by simp⟩
  | cons a rest ih =>
    obtain ⟨ha, hrest⟩ := List.forall_mem_cons.mp has
    obtain ⟨hnoted, hmem⟩ := ih (note_noted h ha) hrest
    refine ⟨hnoted, fun b => ?_⟩
    rw [List.foldl_cons, hmem, mem_note h, List.mem_cons, or_left_comm, or_assoc]

/-- Taking marks down affects those of the cell only. -/
theorem getD_unmark {cell : Cell} {marks : Marks} {b : Nat}
    (hcell : ∀ a ∈ cell, a < marks.size) :
    (unmark cell marks).getD b false = if b ∈ cell then false else marks.getD b false := by
  unfold unmark
  induction cell generalizing marks with
  | nil => simp
  | cons a rest ih =>
    obtain ⟨ha, hrest⟩ := List.forall_mem_cons.mp hcell
    rw [List.foldl_cons, ih (by rwa [Array.size_setIfInBounds]), getD_setIfInBounds ha]
    by_cases hb : b ∈ rest
    · simp [hb]
    · by_cases hab : a = b
      · simp [hab]
      · have hba : b ≠ a := fun he => hab he.symm
        simp [hb, hab, hba]

theorem size_unmark {cell : Cell} {marks : Marks} : (unmark cell marks).size = marks.size := by
  unfold unmark
  induction cell generalizing marks with
  | nil => rfl
  | cons a rest ih => rw [List.foldl_cons, ih, Array.size_setIfInBounds]

/-- Nothing stays behind: with its own marks taken down, a cell leaves all of them down. -/
theorem unmark_eq_clear {n : Nat} {state : Cell × Marks} (h : Noted n state) :
    unmark state.1 state.2 = Marks.clear n := by
  have hcell : ∀ a ∈ state.1, a < state.2.size := by
    intro a ha
    -- a mark outside the row reads as down
    have hup := (h.marked a).mpr ha
    rcases Nat.lt_or_ge a state.2.size with hlt | hge
    · exact hlt
    · rw [Array.getD_eq_getD_getElem?, Array.getElem?_eq_none hge] at hup
      exact absurd hup (by simp)
  have hdown : ∀ a, (unmark state.1 state.2).getD a false = false := by
    intro a
    rw [getD_unmark hcell]
    split
    · rfl
    · rename_i hmem
      exact Bool.eq_false_iff.mpr fun hup => hmem ((h.marked a).mp hup)
  have hsize : (unmark state.1 state.2).size = n := size_unmark.trans h.size
  refine Array.ext (hsize.trans Array.size_replicate.symm) fun i hi hi' => ?_
  have hval := hdown i
  rw [Array.getD_eq_getD_getElem?, Array.getElem?_eq_getElem hi, Option.getD_some] at hval
  rw [hval]
  exact (Array.getElem_replicate hi').symm

/-- **Filling a cell lists every candidate once and leaves the marks down.** -/
theorem fill_clear {r : Recognizer} {table : Table} {d i n : Nat}
    (hlt : ∀ a ∈ r.candidates table d i, a < n) :
    (r.fill table d i (Marks.clear n)).2 = Marks.clear n ∧
      (r.fill table d i (Marks.clear n)).1.Nodup ∧
      ∀ a, a ∈ (r.fill table d i (Marks.clear n)).1 ↔ a ∈ r.candidates table d i := by
  obtain ⟨hnoted, hmem⟩ := foldl_note (noted_clear n) hlt
  refine ⟨unmark_eq_clear hnoted, hnoted.nodup, fun a => ?_⟩
  exact (hmem a).trans ⟨fun h => h.resolve_right List.not_mem_nil, .inl⟩

/-- One cell more: it is filled with the marks that the cells before it leave. -/
theorem fillRow_succ {r : Recognizer} {table : Table} {d k : Nat} {marks : Marks} :
    r.fillRow table d (k + 1) marks =
      ((r.fillRow table d k marks).1.push (r.fill table d k (r.fillRow table d k marks).2).1,
        (r.fill table d k (r.fillRow table d k marks).2).2) := by
  rw [fillRow, List.range_succ, List.foldl_append]
  rfl

/-- If every cell leaves the marks as it finds them, so does the row. -/
theorem fillRow_marks {r : Recognizer} {table : Table} {d width : Nat} {marks : Marks}
    (hkeep : ∀ i < width, (r.fill table d i marks).2 = marks) :
    (r.fillRow table d width marks).2 = marks := by
  induction width with
  | zero => rfl
  | succ k ih =>
    rw [fillRow_succ, ih fun i hi => hkeep i (Nat.lt_succ_of_lt hi)]
    exact hkeep k (Nat.lt_succ_self k)

/-- A row consists of its cells, each filled with the marks as the ones before it leave them. -/
theorem fillRow_cells {r : Recognizer} {table : Table} {d width : Nat} {marks : Marks} :
    (r.fillRow table d width marks).1 = ((List.range width).map fun i =>
      (r.fill table d i (r.fillRow table d i marks).2).1).toArray := by
  induction width with
  | zero => rfl
  | succ k ih =>
    rw [fillRow_succ, ih, List.range_succ, List.map_append, List.push_toArray]
    rfl

end Recognizer

end ContextFree
