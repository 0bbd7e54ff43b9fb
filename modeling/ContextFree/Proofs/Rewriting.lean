import ContextFree.Proofs.Issue

/-!
# Rewriting in place carries out the plan

The plan takes the names of the grammar that came in for taken and lists what is made. The
program asks the set it is rewriting. `Rewriting.Follows` is what keeps the two together.

**The names agree.** The set mentions every variable the grammar did, and besides these only
names that were handed out. Those have numbers below the counter, and only numbers from the
counter on are looked at. What is taken away costs no name, because the chain that takes its
place is written with all of them.

**The set agrees.** It holds what is still to be treated, what the plan has listed, and the
wrappers. So a production that is taken away must not be on the list. All that is made and
not just kept mentions a name handed out, and a production of the grammar does not: the only
production on the list that could be the one to go is the one it was made from, and that one
stays.
-/

namespace ContextFree

variable {taken : Std.ExtTreeSet Variable}

/-! ## Chains -/

/-- A chain does not depend on names with numbers below the counter. -/
theorem chain_congr {taken' : Std.ExtTreeSet Variable} {lhs : Variable} {vs : List Variable}
    {n : Nat} (h : ∀ k, n ≤ k →
      (Variable.numbered chainStem k ∈ taken ↔ Variable.numbered chainStem k ∈ taken')) :
    chain taken lhs vs n = chain taken' lhs vs n := by
  fun_induction chain taken lhs vs n with
  | case1 lhs x y z rest n m next ps n' heq ih =>
    have hm : n ≤ m := le_firstFree chainStem taken n
    have hfree : firstFree chainStem taken' n = m := (firstFree_congr h).symm
    have htail := ih fun k hk => h k (by omega)
    rw [heq] at htail
    rw [chain, hfree, ← htail]
  | case2 lhs vs n hshort =>
    rw [chain]
    exact hshort

/-- A chain is written with the variables it is for and with names it hands out. -/
theorem chain_vars {lhs : Variable} {vs : List Variable} {n : Nat} :
    ∀ q ∈ (chain taken lhs vs n).1, ∀ v ∈ q.vars,
      v = lhs ∨ v ∈ vs ∨ Issued taken chainStem n (chain taken lhs vs n).2 v := by
  fun_induction chain taken lhs vs n with
  | case1 lhs x y z rest n m next ps n' heq ih =>
    have hm : n ≤ m := le_firstFree chainStem taken n
    have hn' : m + 1 ≤ (chain taken next (y :: z :: rest) (m + 1)).2 := chain_le
    rw [heq] at ih hn'
    have hnext : Issued taken chainStem n n' next := (issued_firstFree n).mono (Nat.le_refl _) hn'
    intro q hq v hv
    rcases List.mem_cons.mp hq with rfl | hq
    · rcases Production.mem_vars.mp hv with hlhs | hrhs
      · exact .inl hlhs
      · rcases List.mem_cons.mp hrhs with hx | hrhs
        · exact .inr (.inl (Symbol.var.inj hx ▸ List.mem_cons_self))
        · have hlast := Symbol.var.inj (List.mem_singleton.mp hrhs)
          exact .inr (.inr (hlast ▸ hnext))
    · rcases ih q hq v hv with rfl | hrest | hissued
      · exact .inr (.inr hnext)
      · exact .inr (.inl (List.mem_cons_of_mem _ hrest))
      · exact .inr (.inr (hissued.mono (by omega) (Nat.le_refl _)))
  | case2 lhs vs n _ =>
    intro q hq v hv
    rw [List.mem_singleton.mp hq] at hv
    rcases Production.mem_vars.mp hv with hlhs | hrhs
    · exact .inl hlhs
    · exact .inr (.inl (by simpa using hrhs))

/-- Every variable a chain is for stands in one of its links. -/
theorem exists_link {lhs : Variable} {vs : List Variable} {n : Nat} {v : Variable}
    (hv : v = lhs ∨ v ∈ vs) : ∃ q ∈ (chain taken lhs vs n).1, v ∈ q.vars := by
  fun_induction chain taken lhs vs n with
  | case1 lhs x y z rest n m next ps n' heq ih =>
    rw [heq] at ih
    rcases hv with hlhs | hv
    · exact ⟨_, List.mem_cons_self, Production.mem_vars.mpr (.inl hlhs)⟩
    · rcases List.mem_cons.mp hv with rfl | hrest
      · exact ⟨_, List.mem_cons_self, Production.rhs_mem_vars List.mem_cons_self⟩
      · obtain ⟨q, hq, hmem⟩ := ih (.inr hrest)
        exact ⟨q, List.mem_cons_of_mem _ hq, hmem⟩
  | case2 lhs vs n _ =>
    refine ⟨_, List.mem_singleton_self _, Production.mem_vars.mpr ?_⟩
    exact hv.imp_right fun hv => List.mem_map_of_mem hv

/-- A link without a name handed out is the whole chain. -/
theorem link_eq_of_old {lhs : Variable} {vs : List Variable} {n : Nat} {q : Production}
    (hq : q ∈ (chain taken lhs vs n).1) (hold : ∀ v ∈ q.vars, v ∈ taken) :
    q = ⟨lhs, vs.map .var⟩ := by
  fun_induction chain taken lhs vs n with
  | case1 lhs x y z rest n m next ps n' heq ih =>
    have hnext : next ∉ taken := numbered_firstFree_notMem chainStem taken n
    rw [heq] at ih
    -- `next` ends the first link and begins the second, so no link is without a new name
    rcases List.mem_cons.mp hq with rfl | hq
    · have hmem : next ∈ (⟨lhs, [.var x, .var next]⟩ : Production).vars :=
        Production.rhs_mem_vars (by simp)
      exact absurd (hold next hmem) hnext
    · have hlhs : q.lhs = next := congrArg Production.lhs (ih hq)
      have hmem : next ∈ q.vars := Production.mem_vars.mpr (.inl hlhs.symm)
      exact absurd (hold next hmem) hnext
  | case2 lhs vs n _ => exact List.mem_singleton.mp hq

/-! ## Exchanging -/

namespace Grammar

variable {g : Grammar} {p q : Production} {links : List Production}

/-- A production only goes if it is not among those that take its place. -/
theorem mem_exchange :
    q ∈ (g.exchange p links).productions ↔ q ∈ links ∨ q ∈ g.productions ∧ q ≠ p := by
  have hgrown : q ∈ g.productions.insertMany links ↔ q ∈ links ∨ q ∈ g.productions := by
    rw [Std.ExtTreeSet.mem_insertMany_list, List.contains_iff_mem]
    exact or_comm
  unfold exchange
  by_cases hp : p ∈ links
  · rw [if_pos hp]
    refine hgrown.trans ⟨fun hq => ?_, Or.imp_right And.left⟩
    by_cases heq : q = p
    · exact .inl (heq ▸ hp)
    · exact hq.imp_right (⟨·, heq⟩)
  · rw [if_neg hp]
    have hne : q ∈ links → q ≠ p := fun hq heq => hp (heq ▸ hq)
    have hdiff : (compare p q ≠ .eq) ↔ q ≠ p :=
      not_congr (Std.LawfulEqCmp.compare_eq_iff_eq.trans eq_comm)
    refine (Std.ExtTreeSet.mem_erase.trans (and_congr hdiff hgrown)).trans ?_
    rw [and_or_left, and_iff_right_of_imp hne, and_comm]

/-- If the production is nowhere else, it is the links that are added and only it that goes. -/
theorem mem_exchange_of_first {todo made others : List Production}
    (hg : ∀ q, q ∈ g.productions ↔ q ∈ p :: todo ∨ q ∈ made ∨ q ∈ others) (htodo : p ∉ todo)
    (hmade : p ∉ made) (hothers : p ∉ others) :
    q ∈ (g.exchange p links).productions ↔ q ∈ todo ∨ q ∈ made ++ links ∨ q ∈ others := by
  rw [mem_exchange, hg, List.mem_append]
  constructor
  · rintro (hq | ⟨hq | hq | hq, hne⟩)
    · exact .inr (.inl (.inr hq))
    · exact .inl ((List.mem_cons.mp hq).resolve_left hne)
    · exact .inr (.inl (.inl hq))
    · exact .inr (.inr hq)
  · rintro (hq | (hq | hq) | hq)
    · exact .inr ⟨.inl (List.mem_cons_of_mem _ hq), fun heq => htodo (heq ▸ hq)⟩
    · exact .inr ⟨.inr (.inl hq), fun heq => hmade (heq ▸ hq)⟩
    · exact .inl hq
    · exact .inr ⟨.inr (.inr hq), fun heq => hothers (heq ▸ hq)⟩

theorem exchange_start : (g.exchange p links).start = g.start := by
  unfold exchange
  split <;> rfl

theorem exchange_counter : (g.exchange p links).counter = g.counter := by
  unfold exchange
  split <;> rfl

/-- An exchange costs no variable if the links are written with all that the production is. -/
theorem mem_vars_exchange (hlinks : ∀ v ∈ p.vars, ∃ q ∈ links, v ∈ q.vars) {v : Variable}
    (hv : v ∈ g.vars) : v ∈ (g.exchange p links).vars := by
  rw [mem_vars, exchange_start]
  refine (mem_vars.mp hv).imp_right fun ⟨q, hq, hmem⟩ => ?_
  by_cases heq : q = p
  · -- only the production that goes could take a variable with it
    obtain ⟨link, hlink, hmem'⟩ := hlinks v (heq ▸ hmem)
    exact ⟨link, mem_exchange.mpr (.inl hlink), hmem'⟩
  · exact ⟨q, mem_exchange.mpr (.inr ⟨hq, heq⟩), hmem⟩

/-- The variables it brings in stand in the links. -/
theorem mem_vars_of_exchange {v : Variable} (hv : v ∈ (g.exchange p links).vars) :
    v ∈ g.vars ∨ ∃ q ∈ links, v ∈ q.vars := by
  rw [mem_vars, exchange_start] at hv
  rcases hv with hstart | ⟨q, hq, hmem⟩
  · exact .inl (mem_vars.mpr (.inl hstart))
  · rcases mem_exchange.mp hq with hq | ⟨hq, _⟩
    · exact .inr ⟨q, hq, hmem⟩
    · exact .inl (mem_vars_of_mem hq hmem)

end Grammar

/-! ## Wrapping -/

/-- What stands in a right-hand side after wrapping is an old variable of it or a wrapper. -/
theorem mem_wrapSymbols {rhs : List Symbol} {s : Introduced} {v : Variable}
    (hv : v ∈ (wrapSymbols taken rhs s).1) :
    .var v ∈ rhs ∨ ∃ e ∈ (wrapSymbols taken rhs s).2.wrappers, e.2 = v := by
  induction rhs generalizing s with
  | nil => exact absurd hv List.not_mem_nil
  | cons x rest ih =>
    cases x with
    | var u =>
      rw [wrapSymbols_var] at hv ⊢
      rcases List.mem_cons.mp hv with rfl | hv
      · exact .inl List.mem_cons_self
      · exact (ih hv).imp_left (List.mem_cons_of_mem _)
    | terminal c =>
      rw [wrapSymbols_terminal] at hv ⊢
      rcases List.mem_cons.mp hv with heq | hv
      · have hc : (c, (wrapperOf taken c s).1) ∈
            (wrapSymbols taken rest (wrapperOf taken c s).2).2.wrappers :=
          wrapSymbols_extends.mem wrapperOf_mem
        exact .inr ⟨_, hc, heq.symm⟩
      · exact (ih hv).imp_left (List.mem_cons_of_mem _)

/-- Wrapping leaves variables alone. -/
theorem mem_wrapSymbols_of_mem {rhs : List Symbol} {s : Introduced} {v : Variable}
    (hv : .var v ∈ rhs) : v ∈ (wrapSymbols taken rhs s).1 := by
  induction rhs generalizing s with
  | nil => exact absurd hv List.not_mem_nil
  | cons x rest ih =>
    cases x with
    | var u =>
      rw [wrapSymbols_var]
      rcases List.mem_cons.mp hv with heq | hv
      · exact Symbol.var.inj heq ▸ List.mem_cons_self
      · exact List.mem_cons_of_mem _ (ih hv)
    | terminal c =>
      rw [wrapSymbols_terminal]
      rcases List.mem_cons.mp hv with heq | hv
      · exact absurd heq (by simp)
      · exact List.mem_cons_of_mem _ (ih hv)

/-- Without a wrapper in it a right-hand side is what it was. -/
theorem map_wrapSymbols_of_old {base : Nat} {rhs : List Symbol} {s : Introduced}
    (hs : s.Grows taken base) (hold : ∀ v ∈ (wrapSymbols taken rhs s).1, v ∈ taken) :
    (wrapSymbols taken rhs s).1.map .var = rhs := by
  induction rhs generalizing s with
  | nil => rfl
  | cons x rest ih =>
    cases x with
    | var u =>
      rw [wrapSymbols_var] at hold ⊢
      rw [List.map_cons, ih hs (List.forall_mem_cons.mp hold).2]
    | terminal c =>
      -- the wrapper would be a new name
      rw [wrapSymbols_terminal] at hold
      have hfresh := ((wrapperOf_grows hs).issued _ (wrapperOf_mem (c := c))).fresh
      exact absurd (List.forall_mem_cons.mp hold).1 hfresh

/-- **Of what is made from a production, all but the production itself has a new name in it.** -/
theorem split_eq_of_old {base : Nat} {p q : Production} {s : Introduced}
    (hs : s.Grows taken base) (hq : q ∈ (p.split taken s).1) (hold : ∀ v ∈ q.vars, v ∈ taken) :
    q = p := by
  rcases split_cases taken p s with ⟨_, hsplit⟩ | ⟨_, hsplit⟩
  · rw [hsplit] at hq
    exact List.mem_singleton.mp hq
  · rw [hsplit] at hq
    have heq := link_eq_of_old hq hold
    rw [heq] at hold
    have hvs : ∀ v ∈ (wrapSymbols taken p.rhs s).1, v ∈ taken := fun v hv =>
      hold v (Production.rhs_mem_vars (List.mem_map_of_mem hv))
    rw [heq, map_wrapSymbols_of_old hs hvs]

/-! ## The set and the plan -/

/--
`r.Follows g todo made s`: in rewriting the grammar `g` everything before `todo` has been
treated, and the plan has come to the state `s` with these productions made.
-/
structure Rewriting.Follows (g : Grammar) (todo made : List Production) (s : Introduced)
    (r : Rewriting) : Prop where
  /-- The plan has handed names out properly. -/
  grows : s.Grows g.vars g.counter
  /-- The start is the same. -/
  start : r.grammar.start = g.start
  /-- The next number is the same. -/
  counter : r.grammar.counter = s.counter
  /-- The wrappers are the same. -/
  wrappers : r.wrappers = s.wrappers
  /-- The set holds what is to be treated, what was made, and the wrappers. -/
  mem_iff : ∀ q, q ∈ r.grammar.productions ↔ q ∈ todo ∨ q ∈ made ∨ q ∈ s.productions
  /-- No variable has been lost on the way. -/
  keeps : ∀ v ∈ g.vars, v ∈ r.grammar.vars
  /-- Every other variable has a name that was handed out. -/
  names : ∀ v ∈ r.grammar.vars, v ∈ g.vars ∨
    Issued g.vars chainStem g.counter s.counter v ∨
    Issued g.vars wrapperStem g.counter s.counter v

namespace Rewriting.Follows

variable {g : Grammar} {todo made : List Production} {s : Introduced} {r : Rewriting}

/-- From the counter on, a name is taken now if it was taken at the beginning. -/
theorem numbered_mem_iff (h : r.Follows g todo made s) {stem : String}
    (hstem : stem = chainStem ∨ stem = wrapperStem) {k : Nat} (hk : s.counter ≤ k) :
    Variable.numbered stem k ∈ r.grammar.vars ↔ Variable.numbered stem k ∈ g.vars := by
  refine ⟨fun hmem => ?_, h.keeps _⟩
  rcases h.names _ hmem with hold | hissued | hissued
  · exact hold
  · obtain ⟨n, _, hn, heq⟩ := hissued.number
    have hkn : k = n := Variable.number_eq hstem (.inl rfl) heq
    omega
  · obtain ⟨n, _, hn, heq⟩ := hissued.number
    have hkn : k = n := Variable.number_eq hstem (.inr rfl) heq
    omega

theorem names_mono (h : r.Follows g todo made s) {n : Nat} (hn : s.counter ≤ n) :
    ∀ v ∈ r.grammar.vars, v ∈ g.vars ∨ Issued g.vars chainStem g.counter n v ∨
      Issued g.vars wrapperStem g.counter n v := by
  intro v hv
  rcases h.names v hv with hold | hissued | hissued
  · exact .inl hold
  · exact .inr (.inl (hissued.mono (Nat.le_refl _) hn))
  · exact .inr (.inr (hissued.mono (Nat.le_refl _) hn))

/-- A new wrapper goes on record and its production into the set. -/
theorem define (h : r.Follows g todo made s) {c : Char} {v : Variable} {n : Nat}
    (hc : ∀ e ∈ s.wrappers, e.1 ≠ c) (hv : Issued g.vars wrapperStem s.counter n v) :
    Rewriting.Follows g todo made { counter := n, wrappers := s.wrappers ++ [(c, v)] }
      { grammar := { r.grammar with counter := n }.insert ⟨v, [.terminal c]⟩
        wrappers := s.wrappers ++ [(c, v)] } := by
  have hle : s.counter ≤ n := by
    obtain ⟨k, hk, hkn, _⟩ := hv.number
    omega
  refine ⟨h.grows.push hc hv, h.start, rfl, rfl, fun q => ?_, fun u hu => ?_, fun u hu => ?_⟩
  · have hrecord : q ∈ Introduced.productions ⟨n, s.wrappers ++ [(c, v)]⟩ ↔
        q ∈ s.productions ∨ q = ⟨v, [.terminal c]⟩ := by
      simp [Introduced.productions]
    rw [Grammar.mem_insert, hrecord, h.mem_iff, or_comm, or_assoc, or_assoc]
  · exact Grammar.mem_vars_insert.mpr (.inr (h.keeps u hu))
  · rcases Grammar.mem_vars_insert.mp hu with hnew | hu
    · have hwrapper : u = v := by simpa [Production.mem_vars] using hnew
      exact .inr (.inr (hwrapper ▸ hv.mono h.grows.le (Nat.le_refl _)))
    · exact h.names_mono hle u hu

theorem wrapperFor (h : r.Follows g todo made s) (c : Char) :
    (r.wrapperFor c).1 = (wrapperOf g.vars c s).1 ∧
      (r.wrapperFor c).2.Follows g todo made (wrapperOf g.vars c s).2 := by
  cases hlookup : s.wrappers.lookup c with
  | some v =>
    have hplan : wrapperOf g.vars c s = (v, s) := by
      rw [wrapperOf, hlookup]
    have hprogram : r.wrapperFor c = (v, r) := by
      rw [Rewriting.wrapperFor, h.wrappers, hlookup]
    rw [hplan, hprogram]
    exact ⟨rfl, h⟩
  | none =>
    have hfree : firstFree wrapperStem r.grammar.vars r.grammar.counter =
        firstFree wrapperStem g.vars s.counter := by
      rw [h.counter]
      exact firstFree_congr fun k hk => h.numbered_mem_iff (.inr rfl) hk
    have hnone : ∀ e ∈ s.wrappers, e.1 ≠ c := by
      intro e he heq
      exact bne_iff_ne.mp (List.lookup_eq_none_iff.mp hlookup e he) heq.symm
    rw [wrapperOf, hlookup, Rewriting.wrapperFor, h.wrappers, hlookup, Grammar.fresh, hfree]
    exact ⟨rfl, h.define hnone (issued_firstFree _)⟩

theorem wrapAll (h : r.Follows g todo made s) (rhs : List Symbol) :
    (r.wrapAll rhs).1 = (wrapSymbols g.vars rhs s).1 ∧
      (r.wrapAll rhs).2.Follows g todo made (wrapSymbols g.vars rhs s).2 := by
  induction rhs generalizing r s with
  | nil => exact ⟨rfl, h⟩
  | cons x rest ih =>
    cases x with
    | var v =>
      obtain ⟨hvs, hrest⟩ := ih h
      exact ⟨congrArg (v :: ·) hvs, hrest⟩
    | terminal c =>
      obtain ⟨hv, hfirst⟩ := h.wrapperFor c
      obtain ⟨hvs, hrest⟩ := ih hfirst
      exact ⟨List.cons_eq_cons.mpr ⟨hv, hvs⟩, hrest⟩

theorem chain_eq (h : r.Follows g todo made s) (lhs : Variable) (vs : List Variable) :
    chain r.grammar.vars lhs vs r.grammar.counter = chain g.vars lhs vs s.counter := by
  rw [h.counter]
  exact chain_congr fun k hk => h.numbered_mem_iff (.inl rfl) hk

/-- **Exchanging a production for its chain keeps the set with the plan.** -/
theorem exchange {p : Production} (h : r.Follows g (p :: todo) made s)
    (hold : ∀ v ∈ p.vars, v ∈ g.vars) (hp : p ∉ todo) (hmade : p ∉ made) {vs : List Variable}
    (hvs : ∀ v ∈ vs, .var v ∈ p.rhs ∨ ∃ e ∈ s.wrappers, e.2 = v)
    (hrhs : ∀ v, .var v ∈ p.rhs → v ∈ vs) {links : List Production} {n : Nat}
    (hchain : chain g.vars p.lhs vs s.counter = (links, n)) :
    Rewriting.Follows g todo (made ++ links) { s with counter := n }
      { r with grammar := { r.grammar with counter := n }.exchange p links } := by
  have hn : s.counter ≤ (chain g.vars p.lhs vs s.counter).2 := chain_le
  have hlinks := @chain_vars g.vars p.lhs vs s.counter
  have hcovered : ∀ v ∈ p.vars, ∃ q ∈ (chain g.vars p.lhs vs s.counter).1, v ∈ q.vars :=
    fun v hv => exists_link ((Production.mem_vars.mp hv).imp_right (hrhs v))
  rw [hchain] at hn hlinks hcovered
  -- a wrapper is no old variable, so the production of one is not the one to go
  have hwrapper : p ∉ s.productions := by
    intro hmem
    obtain ⟨e, he, rfl⟩ := List.mem_map.mp hmem
    exact (h.grows.issued e he).fresh (hold e.2 (Production.lhs_mem_vars _))
  refine ⟨h.grows.advance hn, Grammar.exchange_start.trans h.start, Grammar.exchange_counter,
    h.wrappers, fun q => ?_, fun v hv => ?_, fun v hv => ?_⟩
  · exact Grammar.mem_exchange_of_first h.mem_iff hp hmade hwrapper
  · exact Grammar.mem_vars_exchange hcovered (h.keeps v hv)
  · rcases Grammar.mem_vars_of_exchange hv with hv | ⟨q, hq, hmem⟩
    · exact h.names_mono hn v hv
    · rcases hlinks q hq v hmem with hlhs | hv | hissued
      · exact .inl (hold v (Production.mem_vars.mpr (.inl hlhs)))
      · rcases hvs v hv with hv | ⟨e, he, rfl⟩
        · exact .inl (hold v (Production.rhs_mem_vars hv))
        · exact .inr (.inr ((h.grows.issued e he).mono (Nat.le_refl _) hn))
      · exact .inr (.inl (hissued.mono h.grows.le (Nat.le_refl _)))

theorem replace {p : Production} (h : r.Follows g (p :: todo) made s)
    (hold : ∀ v ∈ p.vars, v ∈ g.vars) (hp : p ∉ todo) (hmade : p ∉ made)
    (hlong : ∀ x, p.rhs ≠ [x]) :
    (r.replace p).Follows g todo (made ++ (p.split g.vars s).1) (p.split g.vars s).2 := by
  obtain ⟨hvs, hwrapped⟩ := h.wrapAll p.rhs
  unfold Rewriting.replace
  generalize r.wrapAll p.rhs = wrapped at hvs hwrapped ⊢
  obtain ⟨vs, r'⟩ := wrapped
  obtain rfl : vs = (wrapSymbols g.vars p.rhs s).1 := hvs
  dsimp only at hwrapped ⊢
  rw [split_long hlong, hwrapped.chain_eq]
  exact hwrapped.exchange hold hp hmade (fun v => mem_wrapSymbols)
    (fun v => mem_wrapSymbols_of_mem) rfl

/-- A single terminal is its own replacement. -/
theorem keep {p : Production} (h : r.Follows g (p :: todo) made s) (hp : p.isTerminal) :
    r.Follows g todo (made ++ (p.split g.vars s).1) (p.split g.vars s).2 := by
  obtain ⟨c, hc⟩ := Production.isTerminal_iff.mp hp
  rw [split_single hc]
  refine { h with mem_iff := fun q => ?_ }
  rw [h.mem_iff, List.mem_cons, List.mem_append, List.mem_singleton]
  simp only [or_assoc, or_left_comm]

theorem treat {p : Production} (h : r.Follows g (p :: todo) made s)
    (hold : ∀ v ∈ p.vars, v ∈ g.vars) (hp : p ∉ todo) (hmade : p ∉ made)
    (hnone : p.leftover? = none) :
    ∃ r', r.treat p = .ok r' ∧
      r'.Follows g todo (made ++ (p.split g.vars s).1) (p.split g.vars s).2 := by
  rw [Rewriting.treat, hnone]
  refine ⟨_, rfl, ?_⟩
  by_cases hterminal : p.isTerminal
  · rw [if_pos hterminal]
    exact h.keep hterminal
  · rw [if_neg hterminal]
    refine h.replace hold hp hmade fun x hx => ?_
    cases x with
    | terminal c => exact hterminal (Production.isTerminal_iff.mpr ⟨c, hx⟩)
    | var v =>
      exact (Production.leftover?_eq_none_iff.mp hnone).2 (Production.isUnit_iff.mpr ⟨v, hx⟩)

/-- **The whole run follows the plan.** -/
theorem treatAll (h : r.Follows g todo made s) (hold : ∀ p ∈ todo, ∀ v ∈ p.vars, v ∈ g.vars)
    (hnodup : todo.Nodup) (hapart : ∀ p ∈ todo, p ∉ made)
    (hnone : ∀ p ∈ todo, p.leftover? = none) :
    ∃ r', r.treatAll todo = .ok r' ∧
      r'.Follows g [] (made ++ (splitAll g.vars todo s).1) (splitAll g.vars todo s).2 := by
  induction todo generalizing made s r with
  | nil =>
    refine ⟨r, rfl, ?_⟩
    rw [splitAll, List.append_nil]
    exact h
  | cons p rest ih =>
    obtain ⟨hfirst, hothers⟩ := List.forall_mem_cons.mp hold
    obtain ⟨hp, hrest⟩ := List.nodup_cons.mp hnodup
    obtain ⟨r', htreat, hr'⟩ := h.treat hfirst hp (hapart p List.mem_cons_self)
      (hnone p List.mem_cons_self)
    have hapart' : ∀ q ∈ rest, q ∉ made ++ (p.split g.vars s).1 := by
      intro q hq hmem
      rcases List.mem_append.mp hmem with hmem | hmem
      · exact hapart q (List.mem_cons_of_mem _ hq) hmem
      · -- it has no new name, so it is the production just treated
        exact hp (split_eq_of_old h.grows hmem (hothers q hq) ▸ hq)
    obtain ⟨r'', hrun, hr''⟩ := ih hr' hothers hrest hapart'
      fun q hq => hnone q (List.mem_cons_of_mem _ hq)
    refine ⟨r'', ?_, ?_⟩
    · rw [Rewriting.treatAll, htreat]
      exact hrun
    · rw [splitAll_cons, ← List.append_assoc]
      exact hr''

end Rewriting.Follows

/-- The run stops at the first production that has no binary form. -/
theorem Rewriting.treatAll_eq_error {ps : List Production} {leftover : Leftover}
    (h : ps.findSome? Production.leftover? = some leftover) (r : Rewriting) :
    r.treatAll ps = .error leftover := by
  induction ps generalizing r with
  | nil => cases h
  | cons p rest ih =>
    rw [List.findSome?_cons] at h
    rw [treatAll, treat]
    cases hp : p.leftover? with
    | some l =>
      rw [hp] at h
      exact congrArg Except.error (Option.some.inj h)
    | none =>
      rw [hp] at h
      exact ih h _

namespace Grammar

theorem rewriting_follows (g : Grammar) :
    Rewriting.Follows g g.productions.toList [] { counter := g.counter } { grammar := g } where
  grows := Introduced.grows_init g.vars g.counter
  start := rfl
  counter := rfl
  wrappers := rfl
  mem_iff := by simp [Introduced.productions]
  keeps := fun _ hv => hv
  names := fun _ hv => .inl hv

/-- **Rewriting in place gives the planned outcome, or the first production without one.** -/
theorem binarize_eq (g : Grammar) :
    g.binarize =
      match g.productions.toList.findSome? Production.leftover? with
      | some leftover => .error leftover
      | none => .ok g.binaryForm := by
  cases hleftover : g.productions.toList.findSome? Production.leftover? with
  | some leftover => rw [binarize, Rewriting.treatAll_eq_error hleftover]
  | none =>
    obtain ⟨r, hrun, hr⟩ := g.rewriting_follows.treatAll g.mem_vars_of_mem_toList
      g.nodup_toList (by simp) (List.findSome?_eq_none_iff.mp hleftover)
    have houtcome : r.grammar = g.binaryForm := by
      refine Grammar.ext hr.start (Std.ExtTreeSet.ext_mem fun q => ?_) hr.counter
      rw [hr.mem_iff, mem_binaryForm_iff, List.mem_append]
      simp [spelledOut]
    rw [binarize, hrun, ← houtcome]

end Grammar

end ContextFree
