import ContextFree.Binary

/-!
# Binary form as a plan

Rewriting a grammar in place mixes three things: which names are handed out, which
productions are made, and what the set happens to hold meanwhile. The plan leaves out the
last one. The names that are taken are those of the grammar that came in, once and for all;
what is made is listed, and nothing is ever taken away.

That rewriting in place carries out the plan is a theorem. All the properties of the outcome
are then shown of the plan, by recursion on the lists it is made of.
-/

namespace ContextFree

/-- What has been introduced so far: the next number, and the wrapper of each terminal met. -/
structure Introduced where
  counter : Nat
  wrappers : List (Char × Variable) := []
deriving DecidableEq, Repr

/-- The productions that give the wrappers their terminals. -/
def Introduced.productions (s : Introduced) : List Production :=
  s.wrappers.map fun (c, v) => ⟨v, [.terminal c]⟩

/-! ## Wrapping terminals -/

/-- The wrapper of a terminal, introduced now if the terminal has none yet. -/
def wrapperOf (taken : Std.ExtTreeSet Variable) (c : Char) (s : Introduced) :
    Variable × Introduced :=
  match s.wrappers.lookup c with
  | some v => (v, s)
  | none =>
    let n := firstFree wrapperStem taken s.counter
    let v := Variable.numbered wrapperStem n
    (v, { counter := n + 1, wrappers := s.wrappers ++ [(c, v)] })

/-- A right-hand side with a wrapper in place of every terminal. -/
def wrapSymbols (taken : Std.ExtTreeSet Variable) :
    List Symbol → Introduced → List Variable × Introduced
  | [], s => ([], s)
  | .var v :: rest, s =>
    let (vs, s) := wrapSymbols taken rest s
    (v :: vs, s)
  | .terminal c :: rest, s =>
    let (v, s) := wrapperOf taken c s
    let (vs, s) := wrapSymbols taken rest s
    (v :: vs, s)

/-! ## Whole grammars -/

/-- The productions that stand in for `p`, those of its wrappers aside. -/
def Production.split (taken : Std.ExtTreeSet Variable) (p : Production) (s : Introduced) :
    List Production × Introduced :=
  match p.rhs with
  | [_] => ([p], s)
  | rhs =>
    let (vs, s) := wrapSymbols taken rhs s
    let (ps, n) := chain taken p.lhs vs s.counter
    (ps, { s with counter := n })

/-- The productions that stand in for all of a list, treated in turn. -/
def splitAll (taken : Std.ExtTreeSet Variable) :
    List Production → Introduced → List Production × Introduced
  | [], s => ([], s)
  | p :: rest, s =>
    let (ps, s) := p.split taken s
    let (qs, s) := splitAll taken rest s
    (ps ++ qs, s)

namespace Grammar

/-- The productions made from those of the grammar, in turn, and what was introduced. -/
def spelledOut (g : Grammar) : List Production × Introduced :=
  splitAll g.vars g.productions.toList { counter := g.counter }

/-- What they make up together. -/
def binaryForm (g : Grammar) : Grammar where
  start := g.start
  productions := .ofList (g.spelledOut.1 ++ g.spelledOut.2.productions)
  counter := g.spelledOut.2.counter

theorem mem_binaryForm_iff {g : Grammar} {p : Production} :
    p ∈ g.binaryForm.productions ↔ p ∈ g.spelledOut.1 ++ g.spelledOut.2.productions := by
  rw [binaryForm, Std.ExtTreeSet.mem_ofList, List.contains_iff_mem]

end Grammar

section Shapes

variable {taken : Std.ExtTreeSet Variable}

theorem wrapSymbols_var {v : Variable} {rest : List Symbol} {s : Introduced} :
    wrapSymbols taken (.var v :: rest) s =
      (v :: (wrapSymbols taken rest s).1, (wrapSymbols taken rest s).2) := rfl

theorem wrapSymbols_terminal {c : Char} {rest : List Symbol} {s : Introduced} :
    wrapSymbols taken (.terminal c :: rest) s =
      ((wrapperOf taken c s).1 :: (wrapSymbols taken rest (wrapperOf taken c s).2).1,
        (wrapSymbols taken rest (wrapperOf taken c s).2).2) := rfl

theorem split_single {p : Production} {s : Introduced} {x : Symbol} (hp : p.rhs = [x]) :
    p.split taken s = ([p], s) := by
  unfold Production.split
  rw [hp]

theorem split_long {p : Production} {s : Introduced} (hp : ∀ x, p.rhs ≠ [x]) :
    p.split taken s =
      ((chain taken p.lhs (wrapSymbols taken p.rhs s).1 (wrapSymbols taken p.rhs s).2.counter).1,
        { (wrapSymbols taken p.rhs s).2 with
          counter := (chain taken p.lhs (wrapSymbols taken p.rhs s).1
            (wrapSymbols taken p.rhs s).2.counter).2 }) := by
  unfold Production.split
  split
  · rename_i x hx
    exact absurd hx (hp x)
  · rfl

/-- A right-hand side of one symbol stays as it is, any other is wrapped and chained. -/
theorem split_cases (taken : Std.ExtTreeSet Variable) (p : Production) (s : Introduced) :
    ((∃ x, p.rhs = [x]) ∧ p.split taken s = ([p], s)) ∨
      ((∀ x, p.rhs ≠ [x]) ∧ p.split taken s =
        ((chain taken p.lhs (wrapSymbols taken p.rhs s).1 (wrapSymbols taken p.rhs s).2.counter).1,
          { (wrapSymbols taken p.rhs s).2 with
            counter := (chain taken p.lhs (wrapSymbols taken p.rhs s).1
              (wrapSymbols taken p.rhs s).2.counter).2 })) := by
  by_cases hsingle : ∃ x, p.rhs = [x]
  · obtain ⟨x, hx⟩ := hsingle
    exact .inl ⟨⟨x, hx⟩, split_single hx⟩
  · have hlong : ∀ x, p.rhs ≠ [x] := fun x hx => hsingle ⟨x, hx⟩
    exact .inr ⟨hlong, split_long hlong⟩

theorem splitAll_cons {p : Production} {ps : List Production} {s : Introduced} :
    splitAll taken (p :: ps) s =
      ((p.split taken s).1 ++ (splitAll taken ps (p.split taken s).2).1,
        (splitAll taken ps (p.split taken s).2).2) := rfl

end Shapes

end ContextFree
