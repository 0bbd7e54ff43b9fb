import ContextFree.Proofs.Marks
import ContextFree.Proofs.NormalForm

/-!
# What the table holds

Row `d`, place `i` is about the piece of length `d + 1` that starts at `i`. `Table.Fits`
says that every cell lists the numbers of exactly the variables that derive its piece,
each once, and that the rows get shorter by one. It is what a row needs of the rows
below it, and filling a row on top of such a table makes one with a row more.

The recognizer knows variables by number, that is by their place in the ordered list of
all of them. Everything it looks up belongs to variables of the grammar, and among these
the number tells the variable. So the index arithmetic is settled once, for the layout,
and the invariant speaks of variables and words.
-/

namespace ContextFree

/-! ## Numbers of variables -/

/-- The place of a variable in the order of all of them. -/
def Grammar.number (g : Grammar) (v : Variable) : Nat :=
  g.vars.toList.idxOf v

theorem Grammar.number_lt {g : Grammar} {v : Variable} (hv : v ∈ g.vars) :
    g.number v < g.vars.toList.length :=
  List.idxOf_lt_length_of_mem (Std.ExtTreeSet.mem_toList.mpr hv)

theorem Grammar.getElem?_number {g : Grammar} {v : Variable} (hv : v ∈ g.vars) :
    g.vars.toList[g.number v]? = some v := by
  rw [List.getElem?_eq_getElem (g.number_lt hv)]
  exact congrArg some (List.getElem_idxOf _)

/-- A variable of the grammar can be told from its number. -/
theorem Grammar.number_inj {g : Grammar} {u v : Variable} (hu : u ∈ g.vars) (hv : v ∈ g.vars)
    (h : g.number u = g.number v) : u = v := by
  have hval : some u = some v := by
    rw [← getElem?_number hu, h, getElem?_number hv]
  exact Option.some.inj hval

/-! ## Pieces of a word -/

/-- The piece of length `d + 1` that starts at `i`. -/
def piece (word : List Char) (d i : Nat) : List Char :=
  (word.drop i).take (d + 1)

theorem length_piece {word : List Char} {d i : Nat} (h : i + d < word.length) :
    (piece word d i).length = d + 1 := by
  rw [piece, List.length_take, List.length_drop]
  omega

theorem take_piece {word : List Char} {d i k : Nat} (hk : k < d) :
    (piece word d i).take (k + 1) = piece word k i := by
  rw [piece, piece, List.take_take, Nat.min_eq_left (by omega)]

theorem drop_piece {word : List Char} {d i k : Nat} (hk : k < d) :
    (piece word d i).drop (k + 1) = piece word (d - 1 - k) (i + k + 1) := by
  rw [piece, piece, List.drop_take, List.drop_drop]
  congr 1
  omega

theorem piece_zero {word : List Char} {i : Nat} (h : i < word.length) :
    piece word 0 i = [word[i]] := by
  rw [piece, List.drop_eq_getElem_cons h]
  rfl

theorem piece_all {word : List Char} {d : Nat} (h : word.length = d + 1) :
    piece word d 0 = word := by
  rw [piece, List.drop_zero, ← h, List.take_length]

/-! ## The invariant -/

/-- The cell lists the numbers of the variables that derive the word, each once. -/
structure Cell.Lists (g : Grammar) (word : List Char) (cell : Cell) : Prop where
  /-- A number is there exactly if its variable derives the word. -/
  mem : ∀ a, a ∈ cell ↔ ∃ v ∈ g.vars, g.number v = a ∧ g.Yields [.var v] word
  /-- Nothing is listed twice. -/
  nodup : cell.Nodup

/-- The table is right about every piece of length up to `rows`. -/
structure Table.Fits (g : Grammar) (word : List Char) (rows : Nat) (table : Table) : Prop where
  /-- There are that many rows. -/
  size : table.size = rows
  /-- There is a cell for each place the piece can start at. -/
  width : ∀ d < rows, (table.getD d #[]).size = word.length - d
  /-- Each cell lists the variables that derive its piece. -/
  lists : ∀ d i, d < rows → i + d < word.length →
    (table.cell d i).Lists g (piece word d i)

/-- In such a cell, a variable's number stands for the variable. -/
theorem Cell.Lists.number_mem_iff {g : Grammar} {word : List Char} {cell : Cell}
    (h : cell.Lists g word) {v : Variable} (hv : v ∈ g.vars) :
    g.number v ∈ cell ↔ g.Yields [.var v] word := by
  rw [h.mem]
  constructor
  · rintro ⟨u, hu, hnum, hyield⟩
    rw [← Grammar.number_inj hu hv hnum]
    exact hyield
  · intro hyield
    exact ⟨v, hv, rfl, hyield⟩

/-- A row on top of the table leaves the rows below as they are. -/
theorem Table.getD_push {table : Table} {row : Array Cell} {d : Nat} :
    (table.push row).getD d #[] = if d = table.size then row else table.getD d #[] := by
  rw [Array.getD_eq_getD_getElem?, Array.getElem?_push]
  split
  · rfl
  · rw [Array.getD_eq_getD_getElem?]

/-- A right row on top of a right table. -/
theorem Table.Fits.push {g : Grammar} {word : List Char} {d : Nat} {table : Table}
    {row : Array Cell} (h : table.Fits g word d) (hsize : row.size = word.length - d)
    (hrow : ∀ i, i + d < word.length → Cell.Lists g (piece word d i) (row.getD i [])) :
    Table.Fits g word (d + 1) (table.push row) where
  size := by rw [Array.size_push, h.size]
  width := by
    intro e he
    rw [getD_push, h.size]
    split
    · rename_i heq
      rw [hsize, heq]
    · exact h.width e (by omega)
  lists := by
    intro e i he hi
    unfold Table.cell
    rw [getD_push, h.size]
    split
    · rename_i heq
      rw [heq] at hi ⊢
      exact hrow i hi
    · exact h.lists e i (by omega) hi

theorem Table.fits_empty (g : Grammar) (word : List Char) : Table.Fits g word 0 #[] where
  size := rfl
  width := fun _ hd => absurd hd (Nat.not_lt_zero _)
  lists := fun _ _ hd => absurd hd (Nat.not_lt_zero _)

namespace Recognizer

variable {nf : NormalForm}

/-! ## The layout -/

theorem terminalRule?_eq_some_iff {names : List Variable} {p : Production} {x : Char × Nat} :
    terminalRule? names p = some x ↔ p.rhs = [.terminal x.1] ∧ names.idxOf p.lhs = x.2 := by
  unfold terminalRule?
  split
  · rename_i c hrhs
    rw [hrhs, Option.some.injEq, Prod.ext_iff]
    simp
  · rename_i hother
    constructor
    · intro h
      exact absurd h (by simp)
    · intro h
      exact absurd h.1 (hother x.1)

theorem binaryRule?_eq_some_iff {names : List Variable} {b : Variable} {p : Production}
    {x : Nat × Nat} :
    binaryRule? names b p = some x ↔
      ∃ c, p.rhs = [.var b, .var c] ∧ names.idxOf c = x.1 ∧ names.idxOf p.lhs = x.2 := by
  unfold binaryRule?
  split
  · rename_i b' c hrhs
    rw [hrhs]
    split
    · rename_i hbb
      rw [hbb, Option.some.injEq, Prod.ext_iff]
      simp
    · rename_i hbb
      simp [hbb]
  · rename_i hother
    constructor
    · intro h
      exact absurd h (by simp)
    · rintro ⟨c, hrhs, _⟩
      exact absurd hrhs (hother b c)

theorem mem_terminalRules {c : Char} {a : Nat} :
    (c, a) ∈ (ofNormalForm nf).terminalRules ↔
      ∃ v, ⟨v, [.terminal c]⟩ ∈ nf.grammar.productions ∧ nf.grammar.number v = a := by
  show (c, a) ∈ nf.grammar.productions.toList.filterMap (terminalRule? nf.grammar.vars.toList) ↔ _
  simp only [List.mem_filterMap, terminalRule?_eq_some_iff, Std.ExtTreeSet.mem_toList]
  constructor
  · rintro ⟨p, hp, hrhs, hnum⟩
    exact ⟨p.lhs, hrhs ▸ hp, hnum⟩
  · rintro ⟨v, hp, hnum⟩
    exact ⟨⟨v, [.terminal c]⟩, hp, rfl, hnum⟩

theorem mem_terminalCell {c : Char} {a : Nat} :
    a ∈ (ofNormalForm nf).terminalCell c ↔
      ∃ v, ⟨v, [.terminal c]⟩ ∈ nf.grammar.productions ∧ nf.grammar.number v = a := by
  unfold terminalCell
  simp only [List.mem_map, List.mem_filter, decide_eq_true_eq]
  constructor
  · rintro ⟨⟨d, b⟩, ⟨hmem, rfl⟩, rfl⟩
    exact mem_terminalRules.mp hmem
  · intro h
    exact ⟨(c, a), ⟨mem_terminalRules.mpr h, rfl⟩, rfl⟩

theorem mem_binaryRules {b : Variable} (hb : b ∈ nf.grammar.vars) {m a : Nat} :
    (m, a) ∈ (ofNormalForm nf).binaryRules.getD (nf.grammar.number b) [] ↔
      ∃ v c, ⟨v, [.var b, .var c]⟩ ∈ nf.grammar.productions ∧
        nf.grammar.number c = m ∧ nf.grammar.number v = a := by
  have hentry : (ofNormalForm nf).binaryRules.getD (nf.grammar.number b) [] =
      nf.grammar.productions.toList.filterMap (binaryRule? nf.grammar.vars.toList b) := by
    show (nf.grammar.vars.toList.map _).toArray.getD _ [] = _
    rw [Array.getD_eq_getD_getElem?, List.getElem?_toArray, List.getElem?_map,
      Grammar.getElem?_number hb]
    rfl
  rw [hentry]
  simp only [List.mem_filterMap, binaryRule?_eq_some_iff, Std.ExtTreeSet.mem_toList]
  constructor
  · rintro ⟨p, hp, c, hrhs, hc, ha⟩
    exact ⟨p.lhs, c, hrhs ▸ hp, hc, ha⟩
  · rintro ⟨v, c, hp, hc, ha⟩
    exact ⟨⟨v, [.var b, .var c]⟩, hp, c, rfl, hc, ha⟩

theorem mem_combine {r : Recognizer} {left right : Cell} {a : Nat} :
    a ∈ r.combine left right ↔ ∃ b ∈ left, ∃ m ∈ right, (m, a) ∈ r.binaryRules.getD b [] := by
  unfold combine
  simp only [List.mem_flatMap, List.mem_map, List.mem_filter, decide_eq_true_eq]
  constructor
  · rintro ⟨b, hb, ⟨m, a'⟩, ⟨hrule, hm⟩, rfl⟩
    exact ⟨b, hb, m, hm, hrule⟩
  · rintro ⟨b, hb, m, hm, hrule⟩
    exact ⟨b, hb, (m, a), ⟨hrule, hm⟩, rfl⟩

/-- Combining two cells finds the variables that derive one word after the other. -/
theorem mem_combine_iff {u w : List Char} {left right : Cell}
    (hleft : left.Lists nf.grammar u) (hright : right.Lists nf.grammar w) {a : Nat} :
    a ∈ (ofNormalForm nf).combine left right ↔
      ∃ v b c, ⟨v, [.var b, .var c]⟩ ∈ nf.grammar.productions ∧ nf.grammar.number v = a ∧
        nf.grammar.Yields [.var b] u ∧ nf.grammar.Yields [.var c] w := by
  rw [mem_combine]
  constructor
  · rintro ⟨m, hm, n, hn, hrule⟩
    obtain ⟨b, hb, rfl, hbu⟩ := (hleft.mem m).mp hm
    obtain ⟨v, c, hp, rfl, rfl⟩ := (mem_binaryRules hb).mp hrule
    have hc : c ∈ nf.grammar.vars := Grammar.rhs_mem_vars hp (by simp)
    exact ⟨v, b, c, hp, rfl, hbu, (hright.number_mem_iff hc).mp hn⟩
  · rintro ⟨v, b, c, hp, rfl, hbu, hcw⟩
    have hb : b ∈ nf.grammar.vars := Grammar.rhs_mem_vars hp (by simp)
    have hc : c ∈ nf.grammar.vars := Grammar.rhs_mem_vars hp (by simp)
    exact ⟨_, (hleft.number_mem_iff hb).mpr hbu, _, (hright.number_mem_iff hc).mpr hcw,
      (mem_binaryRules hb).mpr ⟨v, c, hp, rfl, rfl⟩⟩

/-! ## One cell -/

/-- One cut more. A left part that derives nothing would give nothing. -/
theorem candidatesBelow_succ {r : Recognizer} {table : Table} {d i k : Nat} :
    r.candidatesBelow table d i (k + 1) =
      r.combine (table.cell k i) (table.cell (d - 1 - k) (i + k + 1)) ++
        r.candidatesBelow table d i k := by
  rw [candidatesBelow]
  split
  · rename_i hempty
    rw [hempty]
    rfl
  · rfl

theorem mem_candidatesBelow {r : Recognizer} {table : Table} {d i k a : Nat} :
    a ∈ r.candidatesBelow table d i k ↔
      ∃ j < k, a ∈ r.combine (table.cell j i) (table.cell (d - 1 - j) (i + j + 1)) := by
  induction k with
  | zero => simp [candidatesBelow]
  | succ k ih =>
    rw [candidatesBelow_succ, List.mem_append, ih]
    constructor
    · rintro (h | ⟨j, hj, h⟩)
      · exact ⟨k, Nat.lt_succ_self k, h⟩
      · exact ⟨j, Nat.lt_succ_of_lt hj, h⟩
    · rintro ⟨j, hj, h⟩
      rcases Nat.lt_succ_iff_lt_or_eq.mp hj with hj | rfl
      · exact .inr ⟨j, hj, h⟩
      · exact .inl h

/-- **Above a table that is right, the candidates are the variables that derive the piece.** -/
theorem mem_candidates_iff {word : List Char} {table : Table} {d i : Nat}
    (hfits : table.Fits nf.grammar word d) (hd : 0 < d) (hi : i + d < word.length) {a : Nat} :
    a ∈ (ofNormalForm nf).candidates table d i ↔ ∃ v ∈ nf.grammar.vars,
      nf.grammar.number v = a ∧ nf.grammar.Yields [.var v] (piece word d i) := by
  have hlen : (piece word d i).length = d + 1 := length_piece hi
  -- a left part of length `j + 1` leaves a right part of length `d - j`: both are below
  have hcut : ∀ j, j < d → (a ∈ (ofNormalForm nf).combine (table.cell j i)
      (table.cell (d - 1 - j) (i + j + 1)) ↔
      ∃ v b c, ⟨v, [.var b, .var c]⟩ ∈ nf.grammar.productions ∧ nf.grammar.number v = a ∧
        nf.grammar.Yields [.var b] ((piece word d i).take (j + 1)) ∧
        nf.grammar.Yields [.var c] ((piece word d i).drop (j + 1))) := by
    intro j hj
    rw [take_piece hj, drop_piece hj]
    exact mem_combine_iff (hfits.lists j i hj (by omega))
      (hfits.lists (d - 1 - j) (i + j + 1) (by omega) (by omega))
  unfold candidates
  rw [mem_candidatesBelow]
  constructor
  · rintro ⟨j, hj, hmem⟩
    obtain ⟨v, b, c, hp, hnum, hb, hc⟩ := (hcut j hj).mp hmem
    refine ⟨v, Grammar.lhs_mem_vars hp, hnum, ?_⟩
    exact (nf.normal.yields_cut_iff (by omega)).mpr
      ⟨b, c, j + 1, hp, Nat.succ_pos j, by omega, hb, hc⟩
  · rintro ⟨v, _, hnum, hyield⟩
    obtain ⟨b, c, k, hp, hk, hk', hb, hc⟩ := (nf.normal.yields_cut_iff (by omega)).mp hyield
    obtain ⟨j, rfl⟩ : ∃ j, k = j + 1 := ⟨k - 1, by omega⟩
    have hj : j < d := by omega
    exact ⟨j, hj, (hcut j hj).mpr ⟨v, b, c, hp, hnum, hb, hc⟩⟩

/-- There is a mark for every candidate. -/
theorem lt_of_mem_candidates {word : List Char} {table : Table} {d i : Nat}
    (hfits : table.Fits nf.grammar word d) (hd : 0 < d) (hi : i + d < word.length) {a : Nat}
    (ha : a ∈ (ofNormalForm nf).candidates table d i) : a < nf.grammar.vars.toList.length := by
  obtain ⟨v, hv, rfl, _⟩ := (mem_candidates_iff hfits hd hi).mp ha
  exact nf.grammar.number_lt hv

theorem fill_lists {word : List Char} {table : Table} {d i : Nat}
    (hfits : table.Fits nf.grammar word d) (hd : 0 < d) (hi : i + d < word.length) :
    ((ofNormalForm nf).fill table d i (Marks.clear nf.grammar.vars.toList.length)).2 =
        Marks.clear nf.grammar.vars.toList.length ∧
      ((ofNormalForm nf).fill table d i (Marks.clear nf.grammar.vars.toList.length)).1.Lists
        nf.grammar (piece word d i) := by
  obtain ⟨hmarks, hnodup, hmem⟩ := fill_clear fun _ => lt_of_mem_candidates hfits hd hi
  exact ⟨hmarks, fun a => (hmem a).trans (mem_candidates_iff hfits hd hi), hnodup⟩

/-! ## The row of single characters -/

theorem terminalCell_nodup {c : Char} : ((ofNormalForm nf).terminalCell c).Nodup := by
  have hrules : (ofNormalForm nf).terminalRules.Pairwise fun x y => x.1 = y.1 → x.2 ≠ y.2 := by
    show (nf.grammar.productions.toList.filterMap
      (terminalRule? nf.grammar.vars.toList)).Pairwise _
    rw [List.pairwise_filterMap]
    refine Std.ExtTreeSet.distinct_toList.imp_of_mem ?_
    intro p q hp hq hne x hx y hy hchar hnum
    obtain ⟨hprhs, hpnum⟩ := terminalRule?_eq_some_iff.mp hx
    obtain ⟨hqrhs, hqnum⟩ := terminalRule?_eq_some_iff.mp hy
    -- one number means one left-hand side, and then the productions are the same
    have hlhs : p.lhs = q.lhs :=
      Grammar.number_inj (Grammar.lhs_mem_vars (Std.ExtTreeSet.mem_toList.mp hp))
        (Grammar.lhs_mem_vars (Std.ExtTreeSet.mem_toList.mp hq))
        (hpnum.trans (hnum.trans hqnum.symm))
    have hrhs : p.rhs = q.rhs := by rw [hprhs, hqrhs, hchar]
    have heq : p = q := by
      cases p
      cases q
      rw [Production.mk.injEq]
      exact ⟨hlhs, hrhs⟩
    exact hne (heq ▸ Std.ReflOrd.compare_self)
  unfold terminalCell
  refine List.pairwise_map.mpr ((hrules.filter _).imp_of_mem ?_)
  intro x y hx hy hne
  have hxc : x.1 = c := by simpa using (List.mem_filter.mp hx).2
  have hyc : y.1 = c := by simpa using (List.mem_filter.mp hy).2
  exact hne (hxc.trans hyc.symm)

theorem terminalCell_lists {c : Char} :
    ((ofNormalForm nf).terminalCell c).Lists nf.grammar [c] := by
  refine ⟨fun a => ?_, terminalCell_nodup⟩
  rw [mem_terminalCell]
  constructor
  · rintro ⟨v, hp, hnum⟩
    exact ⟨v, Grammar.lhs_mem_vars hp, hnum, nf.normal.yields_char_iff.mpr hp⟩
  · rintro ⟨v, _, hnum, hyield⟩
    exact ⟨v, nf.normal.yields_char_iff.mp hyield, hnum⟩

/-! ## All rows -/

theorem fits_base (word : List Char) :
    Table.Fits nf.grammar word 1 #[(word.map (ofNormalForm nf).terminalCell).toArray] := by
  refine (Table.fits_empty nf.grammar word).push (by simp) fun i hi => ?_
  rw [Nat.add_zero] at hi
  have hcell : (word.map (ofNormalForm nf).terminalCell).toArray.getD i [] =
      (ofNormalForm nf).terminalCell word[i] := by
    rw [Array.getD_eq_getD_getElem?, List.getElem?_toArray, List.getElem?_map,
      List.getElem?_eq_getElem hi]
    rfl
  rw [hcell, piece_zero hi]
  exact terminalCell_lists

/-- **Filling row after row, the table is right at every stage and the marks are down.** -/
theorem fillTable_fits {word : List Char} {d : Nat} (hd : d < word.length) :
    ((ofNormalForm nf).fillTable (word.map (ofNormalForm nf).terminalCell).toArray d).2 =
        Marks.clear nf.grammar.vars.toList.length ∧
      ((ofNormalForm nf).fillTable (word.map (ofNormalForm nf).terminalCell).toArray d).1.Fits
        nf.grammar word (d + 1) := by
  induction d with
  | zero => exact ⟨rfl, fits_base word⟩
  | succ d ih =>
    obtain ⟨hmarks, hfits⟩ := ih (by omega)
    rw [fillTable]
    dsimp only
    rw [hmarks, List.size_toArray, List.length_map]
    -- the marks come back as they went in, so every cell is filled from a clear row
    have hfill := fun i (hi : i + (d + 1) < word.length) => fill_lists hfits (Nat.succ_pos d) hi
    have hdown := fun i (hi : i + d < word.length) =>
      fillRow_marks fun j (hj : j < i) => (hfill j (by omega)).1
    refine ⟨hdown _ (by omega), hfits.push (by rw [fillRow_cells]; simp) fun i hi => ?_⟩
    have hwidth : i < word.length - (d + 1) := by omega
    rw [fillRow_cells, Array.getD_eq_getD_getElem?, List.getElem?_toArray, List.getElem?_map,
      List.getElem?_range hwidth, Option.map_some, Option.getD_some, hdown i (by omega)]
    exact (hfill i hi).2

/-! ## The answer -/

/-- A character no production yields settles the question. -/
theorem not_yields_of_empty {word : List Char} {v : Variable}
    (h : (word.map (ofNormalForm nf).terminalCell).any List.isEmpty) :
    ¬ nf.grammar.Yields [.var v] word := by
  intro hyield
  obtain ⟨cell, hcell, hempty⟩ := List.any_eq_true.mp h
  obtain ⟨c, hc, rfl⟩ := List.mem_map.mp hcell
  rcases nf.normal.exists_production hyield hc with hmem | ⟨u, hp⟩
  · exact absurd hmem (by simp)
  · have hin := mem_terminalCell.mpr ⟨u, hp, rfl⟩
    rw [List.isEmpty_iff.mp hempty] at hin
    exact absurd hin List.not_mem_nil

/-- **The recognizer accepts a non-empty word exactly if the start variable derives it.** -/
theorem accepts_iff_yields {word : List Char} (hword : word ≠ []) :
    (ofNormalForm nf).accepts word ↔ nf.grammar.Yields [.var nf.grammar.start] word := by
  have hpos : 0 < word.length := List.length_pos_iff.mpr hword
  have hstart : nf.grammar.start ∈ nf.grammar.vars := nf.grammar.start_mem_vars
  unfold accepts
  rw [if_neg (by simpa using hword)]
  dsimp only
  split
  · rename_i hempty
    exact ⟨fun h => absurd h (by simp), fun h => absurd h (not_yields_of_empty hempty)⟩
  · -- the last row has one cell, and its piece is the whole word
    have hlast : word.length - 1 < word.length := by omega
    obtain ⟨_, hfits⟩ := fillTable_fits hlast
    have hlists := hfits.lists (word.length - 1) 0 (by omega) (by omega)
    rw [piece_all (by omega)] at hlists
    rw [List.contains_iff_mem]
    exact hlists.number_mem_iff hstart

end Recognizer

end ContextFree
