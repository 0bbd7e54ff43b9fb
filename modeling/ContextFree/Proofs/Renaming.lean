import ContextFree.Proofs.Conversion
import ContextFree.Proofs.Unfolding
import Mathlib.Data.List.Forall2

/-!
# The counter matters up to renaming

Two grammars with the same rules may have handed out different numbers of names. Their
conversions then draw different names, and each skips others on the way, since what is taken
from one number on need not be taken from another.

What does not depend on the counter is where a name is drawn. The plan makes its productions in
the same places, one list beside the other, and it asks for wrappers of the same terminals in the
same order. So the two lists of left-hand sides have their old variables in the same places, and
a name handed out stands on the left of one production only: sending each left-hand side of the
first list to the one beside it is a renaming.

**It renames the right-hand sides too.** A chain names the variable at the end of a link and then
makes it the left-hand side of the next one; a wrapper has its production on record. There is no
name on the right that does not stand on the left somewhere, and the renaming was made from
these.

**It is one-to-one**, because the same can be said with the two lists exchanged.
-/

namespace ContextFree

/-! ## Renaming variables -/

/-- The symbol with its variable, if it is one, renamed. -/
def Symbol.rename (f : Variable → Variable) : Symbol → Symbol
  | terminal c => terminal c
  | var v => var (f v)

/-- The production with all of its variables renamed. -/
def Production.rename (f : Variable → Variable) (p : Production) : Production :=
  ⟨f p.lhs, p.rhs.map (Symbol.rename f)⟩

/-- The renaming takes one grammar to the other and is one-to-one where it matters. -/
structure Grammar.Renames (f : Variable → Variable) (g h : Grammar) : Prop where
  /-- The starts go with each other. -/
  start : f g.start = h.start
  /-- So do the variables, -/
  vars : Set.BijOn f {v | v ∈ g.vars} {v | v ∈ h.vars}
  /-- and the productions. -/
  productions : Set.BijOn (Production.rename f) {p | p ∈ g.productions} {p | p ∈ h.productions}

theorem Symbol.rename_eq_var_iff {f : Variable → Variable} {s : Symbol} {v : Variable} :
    s.rename f = var v ↔ ∃ u, s = var u ∧ f u = v := by
  cases s <;> simp [rename]

namespace Production

variable {f f' : Variable → Variable} {p : Production}

theorem mem_vars_rename {v : Variable} : v ∈ (p.rename f).vars ↔ ∃ u ∈ p.vars, f u = v := by
  constructor
  · intro hv
    rcases mem_vars.mp hv with rfl | hv
    · exact ⟨p.lhs, p.lhs_mem_vars, rfl⟩
    · obtain ⟨s, hs, heq⟩ := List.mem_map.mp hv
      obtain ⟨u, rfl, hu⟩ := Symbol.rename_eq_var_iff.mp heq
      exact ⟨u, rhs_mem_vars hs, hu⟩
  · rintro ⟨u, hu, rfl⟩
    rcases mem_vars.mp hu with rfl | hu
    · exact (p.rename f).lhs_mem_vars
    · exact rhs_mem_vars (List.mem_map_of_mem (f := Symbol.rename f) hu)

theorem rename_rename : (p.rename f).rename f' = p.rename (f' ∘ f) := by
  have hsymbol : Symbol.rename f' ∘ Symbol.rename f = Symbol.rename (f' ∘ f) := by
    funext s
    cases s <;> rfl
  simp only [rename, List.map_map, hsymbol, Function.comp_apply]

theorem rename_eq_self (h : ∀ v ∈ p.vars, f v = v) : p.rename f = p := by
  have hlhs : f p.lhs = p.lhs := h p.lhs p.lhs_mem_vars
  have hrhs : p.rhs.map (Symbol.rename f) = p.rhs := by
    refine (List.map_congr_left fun s hs => ?_).trans (List.map_id _)
    cases s with
    | terminal c => rfl
    | var v => exact congrArg Symbol.var (h v (rhs_mem_vars hs))
  rw [rename, hlhs, hrhs]

end Production

/-- A renaming that can be undone, and takes the productions to those of another grammar. -/
theorem Grammar.renames_of_inverse {f f' : Variable → Variable} {g h : Grammar}
    (hstart : f g.start = h.start) (hback : ∀ v ∈ g.vars, f' (f v) = v)
    (hmem : ∀ q, q ∈ h.productions ↔ ∃ p ∈ g.productions, p.rename f = q) :
    Grammar.Renames f g h := by
  have hvars : ∀ v, v ∈ h.vars ↔ ∃ u ∈ g.vars, f u = v := by
    intro v
    constructor
    · intro hv
      rcases mem_vars.mp hv with rfl | ⟨q, hq, hv⟩
      · exact ⟨g.start, g.start_mem_vars, hstart⟩
      · obtain ⟨p, hp, rfl⟩ := (hmem q).mp hq
        obtain ⟨u, hu, rfl⟩ := Production.mem_vars_rename.mp hv
        exact ⟨u, mem_vars_of_mem hp hu, rfl⟩
    · rintro ⟨u, hu, rfl⟩
      rcases mem_vars.mp hu with rfl | ⟨p, hp, hu⟩
      · exact mem_vars.mpr (.inl hstart)
      · exact mem_vars_of_mem ((hmem _).mpr ⟨p, hp, rfl⟩)
          (Production.mem_vars_rename.mpr ⟨u, hu, rfl⟩)
  have hproduction : ∀ p ∈ g.productions, (p.rename f).rename f' = p := by
    intro p hp
    rw [Production.rename_rename]
    exact Production.rename_eq_self fun v hv => hback v (mem_vars_of_mem hp hv)
  refine ⟨hstart, ⟨?_, ?_, ?_⟩, ?_, ?_, ?_⟩
  · exact fun u hu => (hvars _).mpr ⟨u, hu, rfl⟩
  · intro u hu v hv heq
    rw [← hback u hu, heq, hback v hv]
  · exact fun v hv => (hvars v).mp hv
  · exact fun p hp => (hmem _).mpr ⟨p, hp, rfl⟩
  · intro p hp q hq heq
    rw [← hproduction p hp, heq, hproduction q hq]
  · exact fun q hq => (hmem q).mp hq

/-! ## Old variables in the same places -/

section Places

variable {taken : Std.ExtTreeSet Variable}

/-- The old variables of the one list stand in the other one, in the same places. -/
def SameOld (taken : Std.ExtTreeSet Variable) : List Variable → List Variable → Prop :=
  List.Forall₂ fun u v => u ∈ taken → u = v

/-- Where nothing is old, only the lengths have to agree. -/
theorem sameOld_of_new {us vs : List Variable} (hlength : us.length = vs.length)
    (hus : ∀ u ∈ us, u ∉ taken) : SameOld taken us vs :=
  List.forall₂_iff_zip.mpr ⟨hlength, fun hmem hold => absurd hold (hus _ (List.of_mem_zip hmem).1)⟩

/--
**A renaming from lists side by side**: what is not old may stand in the first list once only,
and then each variable can be sent to the one beside it.
-/
theorem SameOld.exists_map_eq {us vs : List Variable} (h : SameOld taken us vs)
    (hus : us.Pairwise fun u v => u ∉ taken → u ≠ v) :
    ∃ f : Variable → Variable, (∀ v ∈ taken, f v = v) ∧ us.map f = vs := by
  induction h with
  | nil => exact ⟨id, fun _ _ => rfl, rfl⟩
  | @cons u v us vs hold _ ih =>
    obtain ⟨hu, hrest⟩ := List.pairwise_cons.mp hus
    obtain ⟨f, hfix, hmap⟩ := ih hrest
    by_cases hmem : u ∈ taken
    · exact ⟨f, hfix, by rw [List.map_cons, hmap, hfix u hmem, hold hmem]⟩
    · -- the new variable does not come again, so sending it elsewhere changes nothing else
      refine ⟨Function.update f u v, fun w hw => ?_, ?_⟩
      · have hne : w ≠ u := fun heq => hmem (heq ▸ hw)
        rw [Function.update_of_ne hne, hfix w hw]
      · have htail : us.map (Function.update f u v) = us.map f :=
          List.map_congr_left fun w hw => Function.update_of_ne (hu w hw hmem).symm v f
        rw [List.map_cons, Function.update_self, htail, hmap]

/-- All left-hand sides of a chain but the first are new. -/
theorem exists_chain_lhs (taken : Std.ExtTreeSet Variable) (lhs : Variable)
    (vs : List Variable) (n : Nat) :
    ∃ names, (chain taken lhs vs n).1.map (·.lhs) = lhs :: names ∧ ∀ v ∈ names, v ∉ taken := by
  fun_induction chain taken lhs vs n with
  | case1 lhs x y z rest n m next ps n' heq ih =>
    have hnext : next ∉ taken := numbered_firstFree_notMem chainStem taken n
    rw [heq] at ih
    obtain ⟨names, hnames, hnew⟩ := ih
    exact ⟨next :: names, congrArg (lhs :: ·) hnames, List.forall_mem_cons.mpr ⟨hnext, hnew⟩⟩
  | case2 lhs vs n _ => exact ⟨[], rfl, by simp⟩

theorem exists_split_lhs (taken : Std.ExtTreeSet Variable) (p : Production) (s : Introduced) :
    ∃ names, (p.split taken s).1.map (·.lhs) = p.lhs :: names ∧ ∀ v ∈ names, v ∉ taken := by
  rcases split_cases taken p s with ⟨_, hsplit⟩ | ⟨_, hsplit⟩
  · rw [hsplit]
    exact ⟨[], rfl, by simp⟩
  · rw [hsplit]
    exact exists_chain_lhs taken _ _ _

theorem split_sameOld (p : Production) (s s' : Introduced) :
    SameOld taken ((p.split taken s).1.map (·.lhs)) ((p.split taken s').1.map (·.lhs)) := by
  obtain ⟨names, hnames, hnew⟩ := exists_split_lhs taken p s
  obtain ⟨names', hnames', _⟩ := exists_split_lhs taken p s'
  have hlength : (p.lhs :: names).length = (p.lhs :: names').length := by
    rw [← hnames, ← hnames', List.length_map, List.length_map, length_split, length_split]
  rw [hnames, hnames']
  exact .cons (fun _ => rfl) (sameOld_of_new (Nat.succ.inj hlength) hnew)

theorem splitAll_sameOld (ps : List Production) (s s' : Introduced) :
    SameOld taken ((splitAll taken ps s).1.map (·.lhs))
      ((splitAll taken ps s').1.map (·.lhs)) := by
  induction ps generalizing s s' with
  | nil => exact .nil
  | cons p rest ih =>
    rw [splitAll_cons, splitAll_cons, List.map_append, List.map_append]
    exact List.rel_append (split_sameOld p s s') (ih _ _)

/-! ## The same terminals on record -/

/-- Which terminals have wrappers depends on which had some, not on how they are called. -/
theorem wrapped_wrapperOf_congr (taken : Std.ExtTreeSet Variable) (c : Char) {s s' : Introduced}
    (h : s.wrapped = s'.wrapped) :
    (wrapperOf taken c s).2.wrapped = (wrapperOf taken c s').2.wrapped := by
  rw [wrapped_wrapperOf, wrapped_wrapperOf, h]

theorem wrapped_wrapSymbols_congr (rhs : List Symbol) {s s' : Introduced}
    (h : s.wrapped = s'.wrapped) :
    (wrapSymbols taken rhs s).2.wrapped = (wrapSymbols taken rhs s').2.wrapped := by
  induction rhs generalizing s s' with
  | nil => exact h
  | cons x rest ih =>
    cases x with
    | terminal c => exact ih (wrapped_wrapperOf_congr taken c h)
    | var v => exact ih h

theorem wrapped_split_congr (taken : Std.ExtTreeSet Variable) (p : Production)
    {s s' : Introduced} (h : s.wrapped = s'.wrapped) :
    (p.split taken s).2.wrapped = (p.split taken s').2.wrapped := by
  unfold Production.split
  split
  · exact h
  · exact wrapped_wrapSymbols_congr _ h

theorem wrapped_splitAll_congr (taken : Std.ExtTreeSet Variable) (ps : List Production)
    {s s' : Introduced} (h : s.wrapped = s'.wrapped) :
    (splitAll taken ps s).2.wrapped = (splitAll taken ps s').2.wrapped := by
  induction ps generalizing s s' with
  | nil => exact h
  | cons p rest ih => exact ih (wrapped_split_congr taken p h)

/-! ## What is known of left-hand sides is known of productions -/

/-- The one record has the wrappers of the other one, renamed. -/
def Introduced.Renames (f : Variable → Variable) (s s' : Introduced) : Prop :=
  s'.wrappers = s.wrappers.map (Prod.map id f)

/-- What is so in the end was so before: records only get longer, and these two alike. -/
theorem Introduced.Renames.of_extends {f : Variable → Variable} {s s' t t' : Introduced}
    (h : Introduced.Renames f t t') (hwrapped : s.wrapped = s'.wrapped) (hs : s.Extends t)
    (hs' : s'.Extends t') : Introduced.Renames f s s' := by
  obtain ⟨more, hmore⟩ := hs.ext
  obtain ⟨more', hmore'⟩ := hs'.ext
  have hlength : s'.wrappers.length = (s.wrappers.map (Prod.map id f)).length := by
    have := congrArg List.length hwrapped
    simp only [Introduced.wrapped, List.length_map] at this
    rw [List.length_map, this]
  unfold Renames at h
  rw [hmore, hmore', List.map_append] at h
  exact (List.append_inj h hlength).1

theorem lookup_map_snd (f : Variable → Variable) (c : Char) (l : List (Char × Variable)) :
    (l.map (Prod.map id f)).lookup c = (l.lookup c).map f := by
  induction l with
  | nil => rfl
  | cons e rest ih =>
    rw [List.map_cons, List.lookup_cons, List.lookup_cons, ih]
    cases h : c == e.1 with
    | true => simp [h]
    | false => simp [h]

/-- The wrapper given for a terminal is the one found when the terminal comes up again. -/
theorem lookup_wrapperOf (taken : Std.ExtTreeSet Variable) (c : Char) (s : Introduced) :
    (wrapperOf taken c s).2.wrappers.lookup c = some (wrapperOf taken c s).1 := by
  unfold wrapperOf
  split
  · assumption
  · rename_i hnone
    rw [List.lookup_append, hnone]
    simp

variable {f : Variable → Variable}

theorem wrapperOf_rename {c : Char} {s s' : Introduced}
    (h : Introduced.Renames f (wrapperOf taken c s).2 (wrapperOf taken c s').2) :
    (wrapperOf taken c s').1 = f (wrapperOf taken c s).1 := by
  have hlookup := lookup_wrapperOf taken c s'
  rw [h, lookup_map_snd, lookup_wrapperOf] at hlookup
  exact (Option.some.inj hlookup).symm

theorem wrapSymbols_rename {rhs : List Symbol} {s s' : Introduced}
    (h : Introduced.Renames f (wrapSymbols taken rhs s).2 (wrapSymbols taken rhs s').2)
    (hwrapped : s.wrapped = s'.wrapped) (hrhs : ∀ v, .var v ∈ rhs → f v = v) :
    (wrapSymbols taken rhs s').1 = (wrapSymbols taken rhs s).1.map f := by
  induction rhs generalizing s s' with
  | nil => rfl
  | cons x rest ih =>
    have hrest : ∀ v, .var v ∈ rest → f v = v := fun v hv => hrhs v (List.mem_cons_of_mem _ hv)
    cases x with
    | var v =>
      rw [wrapSymbols_var, wrapSymbols_var] at h ⊢
      rw [List.map_cons, ih h hwrapped hrest, hrhs v List.mem_cons_self]
    | terminal c =>
      rw [wrapSymbols_terminal, wrapSymbols_terminal] at h ⊢
      have hafter := wrapped_wrapperOf_congr taken c hwrapped
      have hhead := h.of_extends hafter wrapSymbols_extends wrapSymbols_extends
      rw [List.map_cons, ih h hafter hrest, wrapperOf_rename hhead]

/-- The variable at the end of a link is the one the rest of the chain is for. -/
theorem exists_chain_cons (taken : Std.ExtTreeSet Variable) (lhs x y z : Variable)
    (rest : List Variable) (n : Nat) :
    ∃ next m, (chain taken lhs (x :: y :: z :: rest) n).1 =
      ⟨lhs, [.var x, .var next]⟩ :: (chain taken next (y :: z :: rest) m).1 :=
  ⟨_, _, rfl⟩

/-- **Links whose left-hand sides are renamed are renamed.** -/
theorem chain_rename {lhs lhs' : Variable} {vs : List Variable} {n n' : Nat}
    (h : (chain taken lhs' (vs.map f) n').1.map (·.lhs) =
      ((chain taken lhs vs n).1.map (·.lhs)).map f) :
    (chain taken lhs' (vs.map f) n').1 = (chain taken lhs vs n).1.map (Production.rename f) := by
  fun_induction chain taken lhs vs n generalizing lhs' n' with
  | case1 lhs x y z rest n m next ps k =>
    rename_i heq ih
    obtain ⟨next', m', hlink⟩ :=
      exists_chain_cons taken lhs' (f x) (f y) (f z) (rest.map f) n'
    obtain ⟨names, hnames, _⟩ := exists_chain_lhs taken next (y :: z :: rest) (m + 1)
    obtain ⟨names', hnames', _⟩ :=
      exists_chain_lhs taken next' (f y :: f z :: rest.map f) m'
    rw [heq] at ih hnames
    rw [List.map_cons, List.map_cons, List.map_cons, hlink] at h ⊢
    obtain ⟨hlhs, htail⟩ := List.cons.inj h
    obtain rfl : lhs' = f lhs := hlhs
    -- both chains go on with what they have just named
    obtain rfl : next' = f next := by
      rw [hnames', hnames] at htail
      exact (List.cons.inj htail).1
    rw [List.map_cons, ← ih htail]
    rfl
  | case2 lhs vs n hshort =>
    obtain ⟨names', hnames', _⟩ := exists_chain_lhs taken lhs' (vs.map f) n'
    rw [hnames'] at h
    obtain rfl : lhs' = f lhs := (List.cons.inj h).1
    rcases vs with _ | ⟨x, _ | ⟨y, _ | ⟨z, rest⟩⟩⟩
    · rfl
    · rfl
    · rfl
    · exact absurd rfl (hshort x y z rest)

theorem split_rename {p : Production} {s s' : Introduced} (hp : ∀ v ∈ p.vars, f v = v)
    (hwrapped : s.wrapped = s'.wrapped)
    (h : Introduced.Renames f (p.split taken s).2 (p.split taken s').2)
    (hlhs : (p.split taken s').1.map (·.lhs) = ((p.split taken s).1.map (·.lhs)).map f) :
    (p.split taken s').1 = (p.split taken s).1.map (Production.rename f) := by
  rcases split_cases taken p s with ⟨⟨x, hx⟩, hsplit⟩ | ⟨hlong, hsplit⟩
  · rw [split_single hx, split_single hx, List.map_singleton, Production.rename_eq_self hp]
  · rw [split_long hlong, split_long hlong] at h hlhs ⊢
    have hrhs : ∀ v, .var v ∈ p.rhs → f v = v :=
      fun v hv => hp v (Production.rhs_mem_vars hv)
    rw [wrapSymbols_rename h hwrapped hrhs] at hlhs ⊢
    exact chain_rename hlhs

theorem splitAll_rename {ps : List Production} {s s' : Introduced}
    (hps : ∀ p ∈ ps, ∀ v ∈ p.vars, f v = v) (hwrapped : s.wrapped = s'.wrapped)
    (h : Introduced.Renames f (splitAll taken ps s).2 (splitAll taken ps s').2)
    (hlhs : (splitAll taken ps s').1.map (·.lhs) =
      ((splitAll taken ps s).1.map (·.lhs)).map f) :
    (splitAll taken ps s').1 = (splitAll taken ps s).1.map (Production.rename f) := by
  induction ps generalizing s s' with
  | nil => rfl
  | cons p rest ih =>
    obtain ⟨hp, hrest⟩ := List.forall_mem_cons.mp hps
    have hafter := wrapped_split_congr taken p hwrapped
    rw [splitAll_cons, splitAll_cons] at h hlhs ⊢
    simp only [List.map_append] at hlhs ⊢
    have hlength : ((p.split taken s').1.map (·.lhs)).length =
        (((p.split taken s).1.map (·.lhs)).map f).length := by
      simp only [List.length_map, length_split]
    obtain ⟨hfirst, hothers⟩ := List.append_inj hlhs hlength
    have hsplit := h.of_extends hafter splitAll_extends splitAll_extends
    rw [split_rename hp hwrapped hsplit hfirst, ih hrest hafter h hothers]

/-- The record is renamed if the names on it are and it is for the same terminals. -/
theorem Introduced.renames_of_names {s s' : Introduced} (hwrapped : s.wrapped = s'.wrapped)
    (hnames : s'.wrappers.map Prod.snd = (s.wrappers.map Prod.snd).map f) :
    Introduced.Renames f s s' := by
  have hfst : (s.wrappers.map (Prod.map id f)).map Prod.fst = s'.wrapped := by
    rw [← hwrapped, wrapped, List.map_map]
    rfl
  have hsnd : (s.wrappers.map (Prod.map id f)).map Prod.snd = s'.wrappers.map Prod.snd := by
    rw [hnames, List.map_map, List.map_map]
    rfl
  exact (List.zip_of_prod rfl rfl).trans (List.zip_of_prod hfst hsnd).symm

theorem Introduced.Renames.productions_eq {s s' : Introduced} (h : Introduced.Renames f s s') :
    s'.productions = s.productions.map (Production.rename f) := by
  rw [Introduced.productions, h, Introduced.productions, List.map_map, List.map_map]
  rfl

theorem Introduced.map_lhs_productions (s : Introduced) :
    s.productions.map (·.lhs) = s.wrappers.map Prod.snd :=
  List.map_map

/-- The names on record are all new, and there is one for each terminal on record. -/
theorem splitAll_wrappers_sameOld (ps : List Production) (n n' : Nat) :
    SameOld taken ((splitAll taken ps { counter := n }).2.wrappers.map Prod.snd)
      ((splitAll taken ps { counter := n' }).2.wrappers.map Prod.snd) := by
  have hgrows : (splitAll taken ps { counter := n }).2.Grows taken n :=
    splitAll_grows (Introduced.grows_init taken n)
  have hwrapped : (splitAll taken ps { counter := n }).2.wrapped =
      (splitAll taken ps { counter := n' }).2.wrapped := wrapped_splitAll_congr taken ps rfl
  refine sameOld_of_new ?_ fun v hv => ?_
  · simpa only [Introduced.wrapped, List.length_map] using congrArg List.length hwrapped
  · obtain ⟨e, he, rfl⟩ := List.mem_map.mp hv
    exact (hgrows.issued e he).fresh

/-- **From another number on the same is made in the same places**, under other names. -/
theorem exists_splitAll_rename {ps : List Production} (hps : ∀ p ∈ ps, ∀ v ∈ p.vars, v ∈ taken)
    (n n' : Nat) :
    ∃ f : Variable → Variable, (∀ v ∈ taken, f v = v) ∧
      (splitAll taken ps { counter := n' }).1 =
        (splitAll taken ps { counter := n }).1.map (Production.rename f) ∧
      (splitAll taken ps { counter := n' }).2.productions =
        (splitAll taken ps { counter := n }).2.productions.map (Production.rename f) := by
  have hlhs : ∀ p ∈ ps, p.lhs ∈ taken := fun p hp => hps p hp p.lhs p.lhs_mem_vars
  have hmade : SameOld taken ((splitAll taken ps { counter := n }).1.map (·.lhs))
      ((splitAll taken ps { counter := n' }).1.map (·.lhs)) := splitAll_sameOld ps _ _
  have hwrapped : (splitAll taken ps { counter := n }).2.wrapped =
      (splitAll taken ps { counter := n' }).2.wrapped := wrapped_splitAll_congr taken ps rfl
  have honce : ((splitAll taken ps { counter := n }).1.map (·.lhs) ++
      (splitAll taken ps { counter := n }).2.wrappers.map Prod.snd).Pairwise
      fun u v => u ∉ taken → u ≠ v := by
    rw [← Introduced.map_lhs_productions, ← List.map_append]
    exact List.pairwise_map.mpr (splitAll_productions_issuedOnce hlhs)
  obtain ⟨f, hfix, hmap⟩ := SameOld.exists_map_eq
    (List.rel_append hmade (splitAll_wrappers_sameOld ps n n')) honce
  -- the one list of names is again two, those of the chains and those on record
  rw [List.map_append] at hmap
  obtain ⟨hchains, hnames⟩ := List.append_inj hmap ((List.length_map _).trans hmade.length_eq)
  have hrenames := Introduced.renames_of_names hwrapped hnames.symm
  have hps' : ∀ p ∈ ps, ∀ v ∈ p.vars, f v = v := fun p hp v hv => hfix v (hps p hp v hv)
  exact ⟨f, hfix, splitAll_rename hps' rfl hrenames hchains.symm, hrenames.productions_eq⟩

end Places

/-! ## Binary forms and normal forms -/

namespace Grammar

variable {g g' : Grammar}

theorem SameRules.symm (h : g.SameRules g') : g'.SameRules g :=
  ⟨h.1.symm, h.2.symm⟩

theorem SameRules.mem_vars_iff (h : g.SameRules g') {v : Variable} : v ∈ g'.vars ↔ v ∈ g.vars := by
  rw [mem_vars, mem_vars, h.1, h.2]

/-- Two grammars with the same rules make the same in the same places. -/
theorem SameRules.exists_replacements (h : g.SameRules g') :
    ∃ f : Variable → Variable, (∀ v ∈ g.vars, f v = v) ∧
      g'.replacements = g.replacements.map (Production.rename f) := by
  obtain ⟨start, productions, n⟩ := g
  obtain ⟨start', productions', n'⟩ := g'
  obtain ⟨rfl, rfl⟩ : start = start' ∧ productions = productions' := h
  obtain ⟨f, hfix, hmade, hrecord⟩ :=
    exists_splitAll_rename (mem_vars_of_mem_toList ⟨start, productions, n⟩) n n'
  refine ⟨f, hfix, ?_⟩
  unfold replacements
  rw [List.map_append]
  exact congr (congrArg _ hmade) hrecord

/-- **Their binary forms are renamings of each other.** -/
theorem SameRules.exists_binaryForm_renames (h : g.SameRules g') :
    ∃ f : Variable → Variable, (∀ v ∈ g.vars, f v = v) ∧
      Renames f g.binaryForm g'.binaryForm := by
  obtain ⟨f, hfix, hthere⟩ := h.exists_replacements
  obtain ⟨f', hfix', hback⟩ := h.symm.exists_replacements
  -- there and back again, every production is what it was
  have hself : ∀ p ∈ g.replacements, (p.rename f).rename f' = p := by
    rw [hthere, List.map_map] at hback
    exact List.map_inj_left.mp (hback.symm.trans (List.map_id _).symm)
  have hstart : f g.binaryForm.start = g'.binaryForm.start :=
    (hfix g.start g.start_mem_vars).trans h.1
  have hinverse : ∀ v ∈ g.binaryForm.vars, f' (f v) = v := by
    intro v hv
    by_cases hold : v ∈ g.vars
    · rw [hfix v hold, hfix' v (h.mem_vars_iff.mpr hold)]
    · obtain ⟨rhs, hp⟩ := g.binaryForm_spellsOut.exists_production hv hold
      exact congrArg Production.lhs (hself _ (mem_binaryForm_iff.mp hp))
  have hproductions : ∀ q, q ∈ g'.binaryForm.productions ↔
      ∃ p ∈ g.binaryForm.productions, p.rename f = q := by
    intro q
    have hq : q ∈ g'.binaryForm.productions ↔ q ∈ g'.replacements := mem_binaryForm_iff
    rw [hq, hthere, List.mem_map]
    exact exists_congr fun p => and_congr_left fun _ => mem_binaryForm_iff.symm
  exact ⟨f, hfix, renames_of_inverse hstart hinverse hproductions⟩

theorem SameRules.nullable_eq (h : g.SameRules g') : g'.nullable = g.nullable := by
  rw [nullable, nullable, h.2]

/-- The first two passes do not look at the counter. -/
theorem SameRules.unitFree (h : g.SameRules g') : g.unitFree.SameRules g'.unitFree := by
  obtain ⟨start, productions, n⟩ := g
  obtain ⟨start', productions', n'⟩ := g'
  obtain ⟨rfl, rfl⟩ : start = start' ∧ productions = productions' := h
  exact ⟨rfl, rfl⟩

/--
**The conversion depends on the counter only up to renaming.** Grammars with the same rules have
the same answer for the empty word, and between their normal forms there is a renaming, one-to-one
on the variables and on the productions, that leaves every variable that reached binarization
as it is.
-/
theorem normal_form_up_to_renaming (h : g.SameRules g') :
    ∃ nf nf', g.toNormalForm = .ok nf ∧ g'.toNormalForm = .ok nf' ∧
      nf.derivesEmpty = nf'.derivesEmpty ∧
      ∃ f : Variable → Variable, (∀ v ∈ g.unitFree.vars, f v = v) ∧
        Renames f nf.grammar nf'.grammar := by
  obtain ⟨nf, hnf⟩ := g.exists_toNormalForm
  obtain ⟨nf', hnf'⟩ := g'.exists_toNormalForm
  obtain ⟨hgrammar, hempty⟩ := toNormalForm_eq_ok_iff.mp hnf
  obtain ⟨hgrammar', hempty'⟩ := toNormalForm_eq_ok_iff.mp hnf'
  obtain ⟨f, hfix, hrenames⟩ := h.unitFree.exists_binaryForm_renames
  refine ⟨nf, nf', hnf, hnf', ?_, f, hfix, ?_⟩
  · rw [hempty, hempty', h.nullable_eq, h.1]
  · rw [hgrammar, hgrammar']
    exact hrenames

/-- From the number 7 on no name of the crowded grammar is in the way; from 1 on there were two. -/
theorem crowded_renamed :
    crowded.SameRules { crowded with counter := 7 } ∧
      ∃ nf f, toNormalForm { crowded with counter := 7 } = .ok nf ∧ nf.grammar.counter = 10 ∧
        f ⟨"C4"⟩ = ⟨"C4"⟩ ∧ Renames f crowdedBinary nf.grammar := by
  have hsame : crowded.SameRules { crowded with counter := 7 } := ⟨rfl, rfl⟩
  obtain ⟨nf, nf', hnf, hnf', -, f, hfix, hrenames⟩ := normal_form_up_to_renaming hsame
  have hbinary : nf.grammar = crowdedBinary :=
    (toNormalForm_eq_ok_iff.mp hnf).1.trans (by decide +kernel)
  rw [hbinary] at hrenames
  refine ⟨hsame, nf', f, hnf', ?_, hfix ⟨"C4"⟩ (by decide +kernel), hrenames⟩
  rw [(toNormalForm_eq_ok_iff.mp hnf').1]
  decide +kernel

end Grammar

end ContextFree
