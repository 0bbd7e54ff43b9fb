import ContextFree.Grammar

/-!
# Derivations

What a grammar means. A sentential form is a list of symbols; a step replaces one
variable in it, anywhere, by the right-hand side of one of its productions; a word is
derived once a form consists of its characters alone.

Steps may be taken in any order, which is what makes `Derives` the ordinary notion and
what makes it awkward to reason about. `Yields` reads the same words off derivation
trees, one symbol after the other: the yield of a form is the yields of its symbols in
a row. The two agree on words (`derives_terminals_iff_yields`), so a proof can take
whichever suits it.

`YieldsWithin` is `Yields` with a limit on the depth of the trees.
-/

namespace ContextFree

namespace Grammar

variable {g : Grammar}

/-! ## Rewriting -/

/-- Replaces one variable of a form by the right-hand side of one of its productions. -/
inductive Rewrites (g : Grammar) : List Symbol → List Symbol → Prop where
  | replace {p : Production} (before after : List Symbol) :
      p ∈ g.productions →
      Rewrites g (before ++ .var p.lhs :: after) (before ++ p.rhs ++ after)

/-- Any number of rewriting steps, none included. -/
inductive Derives (g : Grammar) : List Symbol → List Symbol → Prop where
  | refl (form : List Symbol) : Derives g form form
  | step {a b c : List Symbol} : Rewrites g a b → Derives g b c → Derives g a c

/-- The variable derives the word. -/
def Produces (g : Grammar) (v : Variable) (w : List Char) : Prop :=
  g.Derives [.var v] (w.map .terminal)

/-! ## Trees read off as words -/

/-- The form has trees for all its symbols whose leaves, from left to right, spell the word. -/
inductive Yields (g : Grammar) : List Symbol → List Char → Prop where
  | nil : Yields g [] []
  | terminal {c : Char} {rest : List Symbol} {w : List Char} :
      Yields g rest w → Yields g (.terminal c :: rest) (c :: w)
  | var {v : Variable} {rhs rest : List Symbol} {u w : List Char} :
      ⟨v, rhs⟩ ∈ g.productions → Yields g rhs u → Yields g rest w →
      Yields g (.var v :: rest) (u ++ w)

/--
The same, with no variable deeper than `budget` levels below the form. A variable of
the form itself uses up one level.
-/
inductive YieldsWithin (g : Grammar) : Nat → List Symbol → List Char → Prop where
  | nil {budget : Nat} : YieldsWithin g budget [] []
  | terminal {budget : Nat} {c : Char} {rest : List Symbol} {w : List Char} :
      YieldsWithin g budget rest w → YieldsWithin g budget (.terminal c :: rest) (c :: w)
  | var {budget : Nat} {v : Variable} {rhs rest : List Symbol} {u w : List Char} :
      ⟨v, rhs⟩ ∈ g.productions → YieldsWithin g budget rhs u →
      YieldsWithin g (budget + 1) rest w →
      YieldsWithin g (budget + 1) (.var v :: rest) (u ++ w)

/-! ## The two agree -/

theorem Yields.append {a b : List Symbol} {u w : List Char} (ha : g.Yields a u)
    (hb : g.Yields b w) : g.Yields (a ++ b) (u ++ w) := by
  induction ha with
  | nil => exact hb
  | terminal _ ih => exact .terminal ih
  | var hp hrhs _ _ ih => rw [List.append_assoc]; exact .var hp hrhs ih

/-- A yield splits wherever its form does. -/
theorem Yields.split {a b : List Symbol} {w : List Char} (h : g.Yields (a ++ b) w) :
    ∃ u v, w = u ++ v ∧ g.Yields a u ∧ g.Yields b v := by
  induction a generalizing w with
  | nil => exact ⟨[], w, rfl, .nil, h⟩
  | cons s rest ih =>
    cases h with
    | terminal h =>
      obtain ⟨u, v, rfl, hu, hv⟩ := ih h
      exact ⟨_, v, rfl, .terminal hu, hv⟩
    | var hp hrhs h =>
      obtain ⟨u, v, rfl, hu, hv⟩ := ih h
      exact ⟨_, v, (List.append_assoc ..).symm, .var hp hrhs hu, hv⟩

theorem yields_append_iff {a b : List Symbol} {w : List Char} :
    g.Yields (a ++ b) w ↔ ∃ u v, w = u ++ v ∧ g.Yields a u ∧ g.Yields b v :=
  ⟨Yields.split, fun ⟨_, _, hw, ha, hb⟩ => hw ▸ ha.append hb⟩

theorem yields_terminals (g : Grammar) (w : List Char) : g.Yields (w.map .terminal) w := by
  induction w with
  | nil => exact .nil
  | cons c rest ih => exact .terminal ih

/-- A variable yields what one of its right-hand sides yields. -/
theorem yields_var_iff {v : Variable} {w : List Char} :
    g.Yields [.var v] w ↔ ∃ rhs, ⟨v, rhs⟩ ∈ g.productions ∧ g.Yields rhs w := by
  constructor
  · intro h
    cases h with
    | var hp hrhs hrest =>
      cases hrest
      exact ⟨_, hp, (List.append_nil _).symm ▸ hrhs⟩
  · rintro ⟨rhs, hp, hrhs⟩
    exact List.append_nil w ▸ .var hp hrhs .nil

/-- More productions yield no fewer words. -/
theorem Yields.mono {h : Grammar} {form : List Symbol} {w : List Char}
    (hsub : ∀ p ∈ g.productions, p ∈ h.productions) (hw : g.Yields form w) :
    h.Yields form w := by
  induction hw with
  | nil => exact .nil
  | terminal _ ih => exact .terminal ih
  | var hp _ _ ihrhs ihrest => exact .var (hsub _ hp) ihrhs ihrest

/-- Rewriting backwards keeps the yield: what the right-hand side yields, the variable does. -/
theorem Rewrites.yields {a b : List Symbol} {w : List Char} (h : g.Rewrites a b)
    (hb : g.Yields b w) : g.Yields a w := by
  cases h with
  | replace before after hp =>
    obtain ⟨x, y, rfl, hx, hy⟩ := hb.split
    obtain ⟨u, v, rfl, hu, hv⟩ := hx.split
    rw [List.append_assoc]
    exact hu.append (.var hp hv hy)

theorem Derives.yields {a b : List Symbol} {w : List Char} (h : g.Derives a b)
    (hb : g.Yields b w) : g.Yields a w := by
  induction h with
  | refl => exact hb
  | step hstep _ ih => exact hstep.yields (ih hb)

theorem Derives.trans {a b c : List Symbol} (hab : g.Derives a b) (hbc : g.Derives b c) :
    g.Derives a c := by
  induction hab with
  | refl => exact hbc
  | step hstep _ ih => exact .step hstep (ih hbc)

/-- A derivation can be carried out inside a longer form. -/
theorem Derives.inside {a b : List Symbol} (h : g.Derives a b) (before after : List Symbol) :
    g.Derives (before ++ a ++ after) (before ++ b ++ after) := by
  induction h with
  | refl => exact .refl _
  | step hstep _ ih =>
    refine .step ?_ ih
    cases hstep with
    | replace front back hp =>
      simpa only [List.append_assoc, List.cons_append] using
        Rewrites.replace (before ++ front) (back ++ after) hp

/-- The leaves of a tree can be reached by rewriting. -/
theorem Yields.derives {form : List Symbol} {w : List Char} (h : g.Yields form w) :
    g.Derives form (w.map .terminal) := by
  induction h with
  | nil => exact .refl _
  | @terminal c rest w _ ih => simpa using ih.inside [.terminal c] []
  | @var v rhs rest u w hp _ _ ihrhs ihrest =>
    have hfirst : g.Derives (.var v :: rest) (rhs ++ rest) :=
      .step (Rewrites.replace (p := ⟨v, rhs⟩) [] rest hp) (.refl _)
    have hrhs : g.Derives (rhs ++ rest) (u.map .terminal ++ rest) := by
      simpa using ihrhs.inside [] rest
    have hrest : g.Derives (u.map .terminal ++ rest) (u.map .terminal ++ w.map .terminal) := by
      simpa using ihrest.inside (u.map .terminal) []
    rw [List.map_append]
    exact hfirst.trans (hrhs.trans hrest)

theorem derives_terminals_iff_yields {form : List Symbol} {w : List Char} :
    g.Derives form (w.map .terminal) ↔ g.Yields form w :=
  ⟨fun h => h.yields (yields_terminals g w), Yields.derives⟩

theorem produces_iff_yields {v : Variable} {w : List Char} :
    g.Produces v w ↔ g.Yields [.var v] w :=
  derives_terminals_iff_yields

end Grammar

end ContextFree
