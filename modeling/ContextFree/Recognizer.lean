import ContextFree.NormalForm

/-!
# Recognizing words

Membership in the language of a normal grammar, decided by filling a triangular
table. The variables that derive a piece of the word longer than one character are
found from the two-variable productions and the ways of cutting the piece in two,
both parts of which are shorter and so already in the table.

Variables are numbered by their place in the order. A cell lists numbers, each at
most once; a row of marks, one per variable, tells which numbers the cell under
construction already has. The marks are shared by all cells, so whoever fills a cell
takes down every mark it has put up.
-/

namespace ContextFree

/-- The numbers of the variables that derive one piece of the word. -/
abbrev Cell := List Nat

/-- Row `d`, place `i` is about the piece of length `d + 1` that starts at `i`. -/
abbrev Table := Array (Array Cell)

/-- One mark per variable. -/
abbrev Marks := Array Bool

/-- The cell in row `d` at place `i`; outside the table every cell is empty. -/
def Table.cell (table : Table) (d i : Nat) : Cell :=
  (table.getD d #[]).getD i []

/-- A normal grammar laid out for recognition. -/
structure Recognizer where
  /-- Number `a` stands for the variable at place `a`. -/
  names : List Variable
  start : Nat
  derivesEmpty : Bool
  /-- `(c, a)` for each production `A → c`. -/
  terminalRules : List (Char × Nat)
  /-- At place `b`, `(c, a)` for each production `A → B C`. -/
  binaryRules : Array (List (Nat × Nat))

namespace Recognizer

/-! ## Layout -/

/-- What a production contributes to the cells of length one. -/
def terminalRule? (names : List Variable) (p : Production) : Option (Char × Nat) :=
  match p.rhs with
  | [.terminal c] => some (c, names.idxOf p.lhs)
  | _ => none

/-- What a production contributes to the entry of the variable `b`. -/
def binaryRule? (names : List Variable) (b : Variable) (p : Production) : Option (Nat × Nat) :=
  match p.rhs with
  | [.var b', .var c] => if b' = b then some (names.idxOf c, names.idxOf p.lhs) else none
  | _ => none

/-- Lays a normal grammar out. -/
def ofNormalForm (nf : NormalForm) : Recognizer :=
  let names := nf.grammar.vars.toList
  let productions := nf.grammar.productions.toList
  { names
    start := names.idxOf nf.grammar.start
    derivesEmpty := nf.derivesEmpty
    terminalRules := productions.filterMap (terminalRule? names)
    binaryRules := (names.map fun b => productions.filterMap (binaryRule? names b)).toArray }

/-! ## Filling a cell -/

/-- The variables that derive a single character. -/
def terminalCell (r : Recognizer) (c : Char) : Cell :=
  (r.terminalRules.filter (·.1 = c)).map (·.2)

/-- The left-hand sides of `A → B C` with `B` on the left and `C` on the right. -/
def combine (r : Recognizer) (left right : Cell) : List Nat :=
  left.flatMap fun b => ((r.binaryRules.getD b []).filter (·.1 ∈ right)).map (·.2)

/--
What belongs in the cell of row `d` at `i` for cuts whose left part is in a row below `k`,
repetitions included. The right part starts where the left one ends and has what remains
of the length. Most left parts derive nothing, and then the right part is not looked at.
-/
def candidatesBelow (r : Recognizer) (table : Table) (d i : Nat) : Nat → List Nat
  | 0 => []
  | k + 1 =>
    match table.cell k i with
    | [] => r.candidatesBelow table d i k
    | left =>
      r.combine left (table.cell (d - 1 - k) (i + k + 1)) ++ r.candidatesBelow table d i k

/-- Everything that belongs in the cell of row `d` at `i`, repetitions included. -/
def candidates (r : Recognizer) (table : Table) (d i : Nat) : List Nat :=
  r.candidatesBelow table d i d

/-- Puts a number into a cell and marks it, unless it is marked already. -/
def note : Cell × Marks → Nat → Cell × Marks
  | (cell, marks), a =>
    if marks.getD a false then (cell, marks) else (a :: cell, marks.setIfInBounds a true)

/-- Takes down the marks of a cell. -/
def unmark (cell : Cell) (marks : Marks) : Marks :=
  cell.foldl (fun marks a => marks.setIfInBounds a false) marks

/-- The cell of row `d` at `i`, and the marks as they were found. -/
def fill (r : Recognizer) (table : Table) (d i : Nat) (marks : Marks) : Cell × Marks :=
  let (cell, marks) := (r.candidates table d i).foldl note ([], marks)
  (cell, unmark cell marks)

/-! ## Filling the table -/

/-- Row `d`, the marks being handed from cell to cell. -/
def fillRow (r : Recognizer) (table : Table) (d width : Nat) (marks : Marks) :
    Array Cell × Marks :=
  (List.range width).foldl
    (fun (cells, marks) i =>
      let (cell, marks) := r.fill table d i marks
      (cells.push cell, marks))
    (#[], marks)

/-- Rows `0` to `d` over the given cells for single characters. -/
def fillTable (r : Recognizer) (base : Array Cell) : Nat → Table × Marks
  | 0 => (#[base], Array.replicate r.names.length false)
  | d + 1 =>
    let (table, marks) := r.fillTable base d
    let (row, marks) := r.fillRow table (d + 1) (base.size - (d + 1)) marks
    (table.push row, marks)

/--
Does the word belong to the language?

A character that no production yields settles the question before any table is
filled.
-/
def accepts (r : Recognizer) (word : List Char) : Bool :=
  if word.isEmpty then
    r.derivesEmpty
  else
    let base := word.map r.terminalCell
    if base.any List.isEmpty then
      false
    else
      let d := word.length - 1
      (r.fillTable base.toArray d).1.cell d 0 |>.contains r.start

end Recognizer

end ContextFree
