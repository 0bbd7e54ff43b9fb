import Std.Data.ExtTreeSet

/-!
# Variables and symbols

A right-hand side is a sequence of symbols, and a symbol is either a character
of the words being derived or a variable still to be rewritten.

The order on symbols is part of the library's meaning, not a convenience: it
fixes the order in which productions are listed, and through that the order in
which names are handed out and alternatives are drawn. Every terminal comes
before every variable; terminals compare by code point and variables by the code
points of their names.
-/

namespace ContextFree

/-- A variable is known by its name alone. -/
structure Variable where
  name : String
deriving DecidableEq, Inhabited, Repr

namespace Variable

/-- Variables compare as their names do. -/
instance : Ord Variable where
  compare a b := compare a.name b.name

instance : Std.TransOrd Variable :=
  inferInstanceAs (Std.TransCmp (compareOn Variable.name))

instance : Std.LawfulEqOrd Variable where
  eq_of_compare {a b} h := by
    have hname : a.name = b.name := Std.LawfulEqOrd.eq_of_compare h
    cases a; cases b; simp_all

/-- The written form of a variable: its name in angle brackets. -/
def render (v : Variable) : String :=
  "<" ++ v.name ++ ">"

end Variable

/-- One place of a right-hand side. -/
inductive Symbol where
  | terminal (c : Char)
  | var (v : Variable)
deriving DecidableEq, Inhabited, Repr

namespace Symbol

/-- Terminals come before variables; within each kind the contents decide. -/
def order : Symbol → Symbol → Ordering
  | terminal a, terminal b => compare a b
  | terminal _, var _ => .lt
  | var _, terminal _ => .gt
  | var a, var b => compare a b

instance : Ord Symbol := ⟨order⟩

instance : Std.OrientedOrd Symbol where
  eq_swap {a b} :=
    match a, b with
    | terminal a, terminal b => Std.OrientedOrd.eq_swap (a := a) (b := b)
    | terminal _, var _ => rfl
    | var _, terminal _ => rfl
    | var a, var b => Std.OrientedOrd.eq_swap (a := a) (b := b)

instance : Std.TransOrd Symbol where
  isLE_trans {a b c} hab hbc :=
    match a, b, c with
    | terminal a, terminal b, terminal c =>
      Std.TransOrd.isLE_trans (a := a) (b := b) (c := c) hab hbc
    | terminal _, _, var _ => rfl
    | var a, var b, var c => Std.TransOrd.isLE_trans (a := a) (b := b) (c := c) hab hbc
    | terminal _, var _, terminal _ => nomatch hbc
    | var _, terminal _, _ => nomatch hab
    | var _, var _, terminal _ => nomatch hbc

instance : Std.LawfulEqOrd Symbol where
  eq_of_compare {a b} h :=
    match a, b with
    | terminal a, terminal b =>
      congrArg terminal (Std.LawfulEqOrd.eq_of_compare (a := a) (b := b) h)
    | terminal _, var _ => nomatch h
    | var _, terminal _ => nomatch h
    | var a, var b => congrArg var (Std.LawfulEqOrd.eq_of_compare (a := a) (b := b) h)

/-- The variable a symbol stands for, if it is one. -/
def var? : Symbol → Option Variable
  | terminal _ => none
  | var v => some v

theorem var?_eq_some_iff {s : Symbol} {v : Variable} : s.var? = some v ↔ s = var v := by
  cases s <;> simp [var?]

/-- A terminal is written as itself, a variable in brackets. -/
def render : Symbol → String
  | terminal c => c.toString
  | var v => v.render

end Symbol

end ContextFree
