import ContextFree.Proofs.Table

/-!
# While the table is being filled

`Table.Fits` is what holds between two rows. This module follows it into the row that is
being filled, to each single cell.

The cells are filled from left to right and row after row, each with the marks that the one
before it leaves (`marksAt`). A cell leaves the marks down if it finds them down, so all
cells of a run find them down.

The table is read with a default for places that do not exist, and so are the marks: a cell
outside the table is empty, a mark outside the row is down and cannot be put up. A place
that is miscounted would therefore go unnoticed, and a variable would be missing from a cell
or be listed twice. `fill?` does what `fill` does without these defaults. It comes out with
nothing if any look goes past the end, and otherwise with what `fill` comes out with
(`fill?_eq_some_iff`). That no look misses is then an equation between the two.
-/

namespace ContextFree

/-! ## Looks that may miss -/

/-- The table has a cell in row `d` at place `i`. -/
def Table.Has (table : Table) (d i : Nat) : Prop :=
  ∃ row, table[d]? = some row ∧ i < row.size

/-- The cell in row `d` at place `i`, if there is one. -/
def Table.cell? (table : Table) (d i : Nat) : Option Cell := do
  let row ← table[d]?
  row[i]?

theorem Table.cell?_eq_some_iff {table : Table} {d i : Nat} {cell : Cell} :
    table.cell? d i = some cell ↔ table.Has d i ∧ table.cell d i = cell := by
  unfold cell? Has Table.cell
  rw [Array.getD_eq_getD_getElem?, Array.getD_eq_getD_getElem?]
  cases hrow : table[d]? with
  | none => simp
  | some row =>
    show row[i]? = some cell ↔ _
    rw [Option.getD_some]
    by_cases hi : i < row.size
    · rw [Array.getElem?_eq_getElem hi]
      simp [hi]
    · rw [Array.getElem?_eq_none (Nat.le_of_not_lt hi)]
      simp [hi]

/-- Puts a mark up or down, if there is one. -/
def Marks.set? (marks : Marks) (a : Nat) (up : Bool) : Option Marks :=
  if a < marks.size then some (marks.setIfInBounds a up) else none

namespace Recognizer

/-- `candidatesBelow` without a default for cells. Both parts of a cut are looked at, even if
the left one derives nothing. -/
def candidatesBelow? (r : Recognizer) (table : Table) (d i : Nat) : Nat → Option (List Nat)
  | 0 => some []
  | k + 1 => do
    let left ← table.cell? k i
    let right ← table.cell? (d - 1 - k) (i + k + 1)
    let rest ← r.candidatesBelow? table d i k
    return r.combine left right ++ rest

/-- `note` without a default for marks. -/
def note? : Cell × Marks → Nat → Option (Cell × Marks)
  | (cell, marks), a => do
    let up ← marks[a]?
    if up then
      return (cell, marks)
    else
      let marks ← marks.set? a true
      return (a :: cell, marks)

/-- `unmark` without a default for marks. -/
def unmark? (cell : Cell) (marks : Marks) : Option Marks :=
  cell.foldlM (fun marks a => marks.set? a false) marks

/-- `fill` without a default for either. -/
def fill? (r : Recognizer) (table : Table) (d i : Nat) (marks : Marks) :
    Option (Cell × Marks) := do
  let candidates ← r.candidatesBelow? table d i d
  let (cell, marks) ← candidates.foldlM note? ([], marks)
  let marks ← unmark? cell marks
  return (cell, marks)

/-- A cut is found on one side of the table and on the other. -/
theorem candidatesBelow?_eq_some_iff {r : Recognizer} {table : Table} {d i k : Nat}
    {as : List Nat} :
    r.candidatesBelow? table d i k = some as ↔
      (∀ j < k, table.Has j i ∧ table.Has (d - 1 - j) (i + j + 1)) ∧
        r.candidatesBelow table d i k = as := by
  induction k generalizing as with
  | zero => simp [candidatesBelow?, candidatesBelow]
  | succ k ih =>
    rw [candidatesBelow?, candidatesBelow_succ]
    simp only [Option.bind_eq_bind, Option.bind_eq_some_iff, Table.cell?_eq_some_iff, ih,
      Option.pure_def, Option.some.injEq]
    refine ⟨fun h => ?_, fun h => ?_⟩
    · obtain ⟨_, ⟨hleft, rfl⟩, _, ⟨hright, rfl⟩, _, ⟨hbelow, rfl⟩, rfl⟩ := h
      refine ⟨fun j hj => ?_, rfl⟩
      rcases Nat.lt_succ_iff_lt_or_eq.mp hj with hj | rfl
      · exact hbelow j hj
      · exact ⟨hleft, hright⟩
    · obtain ⟨hhas, rfl⟩ := h
      obtain ⟨hleft, hright⟩ := hhas k (Nat.lt_succ_self k)
      have hbelow : ∀ j < k, table.Has j i ∧ table.Has (d - 1 - j) (i + j + 1) :=
        fun j hj => hhas j (by omega)
      exact ⟨_, ⟨hleft, rfl⟩, _, ⟨hright, rfl⟩, _, ⟨hbelow, rfl⟩, rfl⟩

theorem size_note {state : Cell × Marks} {a : Nat} : (note state a).2.size = state.2.size := by
  obtain ⟨cell, marks⟩ := state
  rw [note]
  split
  · rfl
  · exact Array.size_setIfInBounds

theorem note?_eq {state : Cell × Marks} {a : Nat} :
    note? state a = if a < state.2.size then some (note state a) else none := by
  obtain ⟨cell, marks⟩ := state
  rw [note?, note, Array.getD_eq_getD_getElem?]
  by_cases ha : a < marks.size
  · rw [if_pos ha, Array.getElem?_eq_getElem ha]
    cases hup : marks[a] <;> simp [Marks.set?, ha]
  · rw [if_neg ha, Array.getElem?_eq_none (Nat.le_of_not_lt ha)]
    rfl

theorem foldlM_note?_eq_some_iff {as : List Nat} {state state' : Cell × Marks} :
    as.foldlM note? state = some state' ↔
      (∀ a ∈ as, a < state.2.size) ∧ as.foldl note state = state' := by
  induction as generalizing state with
  | nil => simp
  | cons a rest ih =>
    rw [List.foldlM_cons, note?_eq, List.foldl_cons, List.forall_mem_cons]
    by_cases ha : a < state.2.size
    · rw [if_pos ha, Option.bind_eq_bind, Option.bind_some, ih, size_note]
      simp [ha]
    · simp [ha]

theorem unmark?_eq_some_iff {cell : Cell} {marks marks' : Marks} :
    unmark? cell marks = some marks' ↔
      (∀ a ∈ cell, a < marks.size) ∧ unmark cell marks = marks' := by
  unfold unmark? unmark
  induction cell generalizing marks with
  | nil => simp
  | cons a rest ih =>
    rw [List.foldlM_cons, Marks.set?, List.foldl_cons, List.forall_mem_cons]
    by_cases ha : a < marks.size
    · rw [if_pos ha, Option.bind_eq_bind, Option.bind_some, ih, Array.size_setIfInBounds]
      simp [ha]
    · simp [ha]

/-- Only what is noted gets into the cell. -/
theorem mem_of_mem_foldl_note {as : List Nat} {state : Cell × Marks} {b : Nat}
    (hb : b ∈ (as.foldl note state).1) : b ∈ as ∨ b ∈ state.1 := by
  induction as generalizing state with
  | nil => exact .inr hb
  | cons a rest ih =>
    rcases ih hb with hb | hb
    · exact .inl (List.mem_cons_of_mem _ hb)
    · obtain ⟨cell, marks⟩ := state
      rw [note] at hb
      split at hb
      · exact .inr hb
      · rcases List.mem_cons.mp hb with rfl | hb
        · exact .inl List.mem_cons_self
        · exact .inr hb

theorem size_foldl_note {as : List Nat} {state : Cell × Marks} :
    (as.foldl note state).2.size = state.2.size := by
  induction as generalizing state with
  | nil => rfl
  | cons a rest ih => rw [List.foldl_cons, ih, size_note]

/-- **Without defaults a cell is filled exactly if no look misses, and then as with them.** -/
theorem fill?_eq_some_iff {r : Recognizer} {table : Table} {d i : Nat} {marks : Marks}
    {filled : Cell × Marks} :
    r.fill? table d i marks = some filled ↔
      (∀ k < d, table.Has k i ∧ table.Has (d - 1 - k) (i + k + 1)) ∧
        (∀ a ∈ r.candidates table d i, a < marks.size) ∧
          r.fill table d i marks = filled := by
  rw [fill?, fill]
  simp only [Option.bind_eq_bind, Option.bind_eq_some_iff, candidatesBelow?_eq_some_iff,
    foldlM_note?_eq_some_iff, unmark?_eq_some_iff, Option.pure_def, Option.some.injEq]
  refine ⟨fun h => ?_, fun h => ?_⟩
  · obtain ⟨_, ⟨hhas, rfl⟩, _, ⟨hlt, rfl⟩, _, ⟨_, rfl⟩, rfl⟩ := h
    exact ⟨hhas, hlt, rfl⟩
  · obtain ⟨hhas, hlt, rfl⟩ := h
    refine ⟨_, ⟨hhas, rfl⟩, _, ⟨hlt, rfl⟩, _, ⟨fun a ha => ?_, rfl⟩, rfl⟩
    -- what is taken down was put up, so there is a mark for it
    rw [size_foldl_note]
    exact hlt a ((mem_of_mem_foldl_note ha).resolve_right List.not_mem_nil)

/-! ## One cell after the other -/

/-- The marks with which the cell of row `d + 1` at `i` is filled: as the cells before it in
the row leave them, and the rows below have left them for the first one. -/
def marksAt (r : Recognizer) (base : Array Cell) (d i : Nat) : Marks :=
  (r.fillRow (r.fillTable base d).1 (d + 1) i (r.fillTable base d).2).2

/-- The next row of the table, cell by cell, and what the last cell leaves for the row after it. -/
theorem fillTable_succ {r : Recognizer} {base : Array Cell} {d : Nat} :
    r.fillTable base (d + 1) =
      ((r.fillTable base d).1.push ((List.range (base.size - (d + 1))).map fun i =>
        (r.fill (r.fillTable base d).1 (d + 1) i (r.marksAt base d i)).1).toArray,
      r.marksAt base d (base.size - (d + 1))) := by
  rw [fillTable]
  dsimp only
  rw [fillRow_cells]
  rfl

end Recognizer

/-! ## The invariant at every cell -/

theorem Table.Fits.exists_row {g : Grammar} {word : List Char} {rows : Nat} {table : Table}
    (h : table.Fits g word rows) {d : Nat} (hd : d < rows) :
    ∃ row, table[d]? = some row ∧ row.size = word.length - d := by
  have hlt : d < table.size := by rw [h.size]; exact hd
  have hwidth := h.width d hd
  rw [Array.getD_eq_getD_getElem?, Array.getElem?_eq_getElem hlt, Option.getD_some] at hwidth
  exact ⟨table[d], Array.getElem?_eq_getElem hlt, hwidth⟩

/-- A right table has a cell wherever a piece of the word can start. -/
theorem Table.Fits.has {g : Grammar} {word : List Char} {rows : Nat} {table : Table}
    (h : table.Fits g word rows) {d i : Nat} (hd : d < rows) (hi : i + d < word.length) :
    table.Has d i := by
  obtain ⟨row, hrow, hwidth⟩ := h.exists_row hd
  exact ⟨row, hrow, by omega⟩

/-- The variables a cell lists. -/
def Recognizer.listed (r : Recognizer) (cell : Cell) : List (Option Variable) :=
  cell.map fun a => r.names[a]?

variable {nf : NormalForm}

/-- A right cell lists each variable that derives the word once, and nothing else. -/
theorem Cell.Lists.listed_exact {w : List Char} {cell : Cell} (h : cell.Lists nf.grammar w) :
    ((Recognizer.ofNormalForm nf).listed cell).Nodup ∧
      ∀ x, x ∈ (Recognizer.ofNormalForm nf).listed cell ↔
        ∃ v, x = some v ∧ nf.grammar.Produces v w := by
  have hname : ∀ v ∈ nf.grammar.vars,
      (Recognizer.ofNormalForm nf).names[nf.grammar.number v]? = some v :=
    fun v hv => Grammar.getElem?_number hv
  refine ⟨List.pairwise_map.mpr ?_, fun x => ?_⟩
  · -- different numbers name different variables
    refine h.nodup.imp_of_mem fun ha hb hne heq => hne ?_
    obtain ⟨u, hu, rfl, _⟩ := (h.mem _).mp ha
    obtain ⟨v, hv, rfl, _⟩ := (h.mem _).mp hb
    rw [hname u hu, hname v hv] at heq
    rw [Option.some.inj heq]
  · rw [Recognizer.listed, List.mem_map]
    refine ⟨fun hx => ?_, fun hx => ?_⟩
    · obtain ⟨a, ha, rfl⟩ := hx
      obtain ⟨v, hv, rfl, hyield⟩ := (h.mem a).mp ha
      exact ⟨v, hname v hv, Grammar.produces_iff_yields.mpr hyield⟩
    · obtain ⟨v, rfl, hv⟩ := hx
      -- a variable that derives anything has a production, and so is one of the grammar
      have hyield := Grammar.produces_iff_yields.mp hv
      obtain ⟨_, hp, _⟩ := Grammar.yields_var_iff.mp hyield
      have hvars : v ∈ nf.grammar.vars := Grammar.lhs_mem_vars hp
      exact ⟨_, (h.number_mem_iff hvars).mpr hyield, hname v hvars⟩

namespace Recognizer

/-- **Above a table that is right, no look misses.** -/
theorem fill?_eq_fill {word : List Char} {table : Table} {d i : Nat}
    (hfits : table.Fits nf.grammar word d) (hd : 0 < d) (hi : i + d < word.length) :
    (ofNormalForm nf).fill? table d i (Marks.clear nf.grammar.vars.toList.length) =
      some ((ofNormalForm nf).fill table d i (Marks.clear nf.grammar.vars.toList.length)) := by
  refine fill?_eq_some_iff.mpr ⟨fun k hk => ⟨?_, ?_⟩, fun a ha => ?_, rfl⟩
  · exact hfits.has hk (by omega)
  · exact hfits.has (by omega) (by omega)
  · rw [Marks.clear, Array.size_replicate]
    exact lt_of_mem_candidates hfits hd hi ha

/-- **Each cell finds the marks down**, since those before it find them so and leave them so. -/
theorem marksAt_eq_clear {word : List Char} {d i : Nat} (hi : i + d < word.length) :
    (ofNormalForm nf).marksAt (word.map (ofNormalForm nf).terminalCell).toArray d i =
      Marks.clear nf.grammar.vars.toList.length := by
  obtain ⟨hmarks, hfits⟩ := @fillTable_fits nf word d (by omega)
  rw [marksAt, hmarks]
  exact fillRow_marks fun j hj => (fill_lists hfits (Nat.succ_pos d) (by omega)).1

/--
**What is true at every cell of a run.** Let the rows up to `d` be filled. Each has a cell for
every place, and each cell lists the variables that derive its piece of the word, every one of
them once. The row above them is filled cell by cell; whichever cell it is, all marks are down
before and after, and no look at a cell or a mark misses.

The word may be any, also one that is turned down for a character before any row is filled.
-/
theorem table_while_filling (nf : NormalForm) (word : List Char) {d : Nat}
    (hd : d < word.length) :
    let r := ofNormalForm nf
    let base := (word.map r.terminalCell).toArray
    let table := (r.fillTable base d).1
    (table.size = d + 1 ∧
      ∀ e ≤ d, (table[e]?).map Array.size = some (word.length - e)) ∧
    (∀ e i, e ≤ d → i + e < word.length → ∃ cell, table.cell? e i = some cell ∧
      (r.listed cell).Nodup ∧
      ∀ x, x ∈ r.listed cell ↔ ∃ v, x = some v ∧ nf.grammar.Produces v (piece word e i)) ∧
    (r.fillTable base (d + 1)).1 = table.push ((List.range (word.length - (d + 1))).map fun i =>
      (r.fill table (d + 1) i (r.marksAt base d i)).1).toArray ∧
    ∀ i, i + (d + 1) < word.length →
      r.marksAt base d i = Marks.clear r.names.length ∧
      (r.fill table (d + 1) i (r.marksAt base d i)).2 = Marks.clear r.names.length ∧
      r.fill? table (d + 1) i (r.marksAt base d i) =
        some (r.fill table (d + 1) i (r.marksAt base d i)) := by
  intro r base table
  obtain ⟨_, hfits⟩ := @fillTable_fits nf word d hd
  refine ⟨⟨hfits.size, fun e he => ?_⟩, fun e i he hi => ?_, ?_, fun i hi => ?_⟩
  · obtain ⟨row, hrow, hwidth⟩ := hfits.exists_row (show e < d + 1 by omega)
    rw [hrow, Option.map_some, hwidth]
  · have hcell := Table.cell?_eq_some_iff.mpr ⟨hfits.has (by omega) hi, rfl⟩
    exact ⟨_, hcell, (hfits.lists e i (by omega) hi).listed_exact⟩
  · have hsize : base.size = word.length := by simp [base]
    rw [fillTable_succ, hsize]
  · have hmarks : r.marksAt base d i = Marks.clear r.names.length := marksAt_eq_clear (by omega)
    rw [hmarks]
    exact ⟨rfl, (fill_lists hfits (Nat.succ_pos d) hi).1, fill?_eq_fill hfits (Nat.succ_pos d) hi⟩

/-- A normal grammar for one or more `1`, in which a word can be cut anywhere. -/
def ones : NormalForm where
  grammar := .ofList ⟨"S"⟩ [⟨⟨"S"⟩, [.var ⟨"S"⟩, .var ⟨"S"⟩]⟩, ⟨⟨"S"⟩, [.terminal '1']⟩]
  derivesEmpty := false
  normal := Grammar.normalFaults_eq_nil_iff.mp (by decide +kernel)

/-- Both cuts of `111` find the variable, and it is listed once. -/
theorem ones_filled :
    1 < ['1', '1', '1'].length ∧ ones.grammar.Produces ⟨"S"⟩ ['1', '1'] ∧
      (ofNormalForm ones).candidates #[#[[0], [0], [0]], #[[0], [0]]] 2 0 = [0, 0] ∧
      (ofNormalForm ones).fill? #[#[[0], [0], [0]], #[[0], [0]]] 2 0 #[false] =
        some ([0], #[false]) := by
  have hlt : 1 < ['1', '1', '1'].length := by decide
  obtain ⟨_, hcells, _, hcalls⟩ := table_while_filling ones ['1', '1', '1'] hlt
  have htable : ((ofNormalForm ones).fillTable
      (['1', '1', '1'].map (ofNormalForm ones).terminalCell).toArray 1).1 =
        #[#[[0], [0], [0]], #[[0], [0]]] := by decide +kernel
  refine ⟨hlt, ?_, by decide +kernel, ?_⟩
  · obtain ⟨cell, hcell, _, hmem⟩ := hcells 1 0 (by decide) (by decide)
    rw [htable] at hcell
    obtain rfl : [0] = cell := Option.some.inj hcell
    obtain ⟨v, hv, hproduces⟩ := (hmem (some ⟨"S"⟩)).mp (by decide +kernel)
    rw [Option.some.inj hv]
    exact hproduces
  · obtain ⟨hbefore, _, hfill⟩ := hcalls 0 (by decide)
    rw [hbefore, htable] at hfill
    exact hfill.trans (by decide +kernel)

end Recognizer

end ContextFree
