import ContextFree.Proofs.Plan

/-!
# Names handed out by binarization

Wrappers and chain variables take their numbers from one counter. Three facts about
that counter are all the later modules use.

**Names are fresh.** A name is only handed out if the grammar that came in does not
mention it.

**Names are kept.** Treating more productions moves the counter up and adds wrappers
behind those there are already, so a terminal keeps its wrapper.

**Names are handed out once.** Of two productions whose left-hand side is a name handed
out, the later one has another left-hand side. For chain variables this is because the
counter moves up, for wrappers because one is only made when the terminal has none, and
between the two because the stems differ.
-/

namespace ContextFree

/-! ## A single name -/

/-- The stems keep the two kinds of names apart, whatever the numbers. -/
theorem Variable.numbered_chain_ne_wrapper (m n : Nat) :
    numbered chainStem m ≠ numbered wrapperStem n := by
  intro h
  have hhead : (chainStem ++ toString m).toList.head? = (wrapperStem ++ toString n).toList.head? :=
    congrArg (fun v => v.name.toList.head?) h
  simp [chainStem, wrapperStem] at hhead

/-- So among the names of both kinds the number can be read back as well. -/
theorem Variable.number_eq {stem stem' : String} {m n : Nat}
    (hstem : stem = chainStem ∨ stem = wrapperStem)
    (hstem' : stem' = chainStem ∨ stem' = wrapperStem)
    (h : numbered stem m = numbered stem' n) : m = n := by
  rcases hstem with rfl | rfl
  · rcases hstem' with rfl | rfl
    · exact numbered_inj h
    · exact absurd h (numbered_chain_ne_wrapper m n)
  · rcases hstem' with rfl | rfl
    · exact absurd h.symm (numbered_chain_ne_wrapper n m)
    · exact numbered_inj h

/-- A name with the stem and a number in `[lo, hi)` that is not taken. -/
structure Issued (taken : Std.ExtTreeSet Variable) (stem : String) (lo hi : Nat)
    (v : Variable) : Prop where
  /-- Nothing had this name before. -/
  fresh : v ∉ taken
  /-- The number comes out of the range. -/
  number : ∃ n, lo ≤ n ∧ n < hi ∧ v = .numbered stem n

variable {taken : Std.ExtTreeSet Variable} {stem : String}

theorem issued_firstFree (n : Nat) :
    Issued taken stem n (firstFree stem taken n + 1)
      (.numbered stem (firstFree stem taken n)) where
  fresh := numbered_firstFree_notMem stem taken n
  number := ⟨_, le_firstFree stem taken n, Nat.lt_succ_self _, rfl⟩

theorem Issued.mono {lo lo' hi hi' : Nat} {v : Variable} (h : Issued taken stem lo hi v)
    (hlo : lo' ≤ lo) (hhi : hi ≤ hi') : Issued taken stem lo' hi' v := by
  obtain ⟨n, hn, hn', rfl⟩ := h.number
  exact ⟨h.fresh, n, Nat.le_trans hlo hn, Nat.lt_of_lt_of_le hn' hhi, rfl⟩

/-- Names from ranges one after the other are different. -/
theorem Issued.ne_of_le {lo hi lo' hi' : Nat} {v v' : Variable} (h : Issued taken stem lo hi v)
    (h' : Issued taken stem lo' hi' v') (hle : hi ≤ lo') : v ≠ v' := by
  obtain ⟨n, _, hn, rfl⟩ := h.number
  obtain ⟨n', hn', _, rfl⟩ := h'.number
  intro heq
  have := Variable.numbered_inj heq
  omega

/-! ## How the state grows -/

/-- What holds of the state if the counter started at `base` and no terminal had a wrapper. -/
structure Introduced.Grows (taken : Std.ExtTreeSet Variable) (base : Nat) (s : Introduced) :
    Prop where
  /-- The counter never went down. -/
  le : base ≤ s.counter
  /-- Every wrapper has a name handed out since. -/
  issued : ∀ e ∈ s.wrappers, Issued taken wrapperStem base s.counter e.2
  /-- No two wrappers have one name. -/
  nodup : (s.wrappers.map Prod.snd).Nodup
  /-- No terminal has two wrappers. -/
  nodup_terminals : (s.wrappers.map Prod.fst).Nodup

/-- The later state has the counter further up and wrappers added at the end. -/
structure Introduced.Extends (s s' : Introduced) : Prop where
  /-- The counter did not go down. -/
  le : s.counter ≤ s'.counter
  /-- No wrapper was lost. -/
  ext : ∃ more, s'.wrappers = s.wrappers ++ more

theorem Introduced.grows_init (taken : Std.ExtTreeSet Variable) (base : Nat) :
    Introduced.Grows taken base { counter := base } :=
  ⟨Nat.le_refl _, by simp, by simp, by simp⟩

theorem Introduced.extends_refl (s : Introduced) : s.Extends s :=
  ⟨Nat.le_refl _, [], by simp⟩

theorem Introduced.Extends.trans {s t u : Introduced} (h : s.Extends t) (h' : t.Extends u) :
    s.Extends u := by
  obtain ⟨more, hmore⟩ := h.ext
  obtain ⟨more', hmore'⟩ := h'.ext
  exact ⟨Nat.le_trans h.le h'.le, more ++ more', by rw [hmore', hmore, List.append_assoc]⟩

theorem Introduced.Extends.mem {s s' : Introduced} (h : s.Extends s') {e : Char × Variable}
    (he : e ∈ s.wrappers) : e ∈ s'.wrappers := by
  obtain ⟨more, hmore⟩ := h.ext
  rw [hmore]
  exact List.mem_append_left _ he

/-- Skipping numbers does no harm. -/
theorem Introduced.Grows.advance {base n : Nat} {s : Introduced} (h : s.Grows taken base)
    (hn : s.counter ≤ n) : { s with counter := n }.Grows taken base where
  le := Nat.le_trans h.le hn
  issued := fun e he => (h.issued e he).mono (Nat.le_refl _) hn
  nodup := h.nodup
  nodup_terminals := h.nodup_terminals

theorem Introduced.extends_advance {n : Nat} {s : Introduced} (hn : s.counter ≤ n) :
    s.Extends { s with counter := n } :=
  ⟨hn, [], by simp⟩

/-! ## Wrappers -/

/-- A new wrapper for a terminal that has none. -/
theorem Introduced.Grows.push {base n : Nat} {c : Char} {v : Variable} {s : Introduced}
    (h : s.Grows taken base) (hc : ∀ e ∈ s.wrappers, e.1 ≠ c)
    (hv : Issued taken wrapperStem s.counter n v) :
    Introduced.Grows taken base { counter := n, wrappers := s.wrappers ++ [(c, v)] } := by
  -- a name was found in the range, so the range is not empty
  have hle : s.counter ≤ n := by
    obtain ⟨m, hm, hmn, _⟩ := hv.number
    omega
  refine ⟨Nat.le_trans h.le hle, ?_, ?_, ?_⟩
  · intro e he
    rcases List.mem_append.mp he with he | he
    · exact (h.issued e he).mono (Nat.le_refl _) hle
    · rw [List.mem_singleton.mp he]
      exact hv.mono h.le (Nat.le_refl _)
  · rw [List.map_append, List.nodup_append]
    refine ⟨h.nodup, by simp, fun a ha b hb => ?_⟩
    obtain ⟨e, he, rfl⟩ := List.mem_map.mp ha
    rw [List.mem_singleton.mp hb]
    exact (h.issued e he).ne_of_le hv (Nat.le_refl _)
  · rw [List.map_append, List.nodup_append]
    refine ⟨h.nodup_terminals, by simp, fun a ha b hb => ?_⟩
    obtain ⟨e, he, rfl⟩ := List.mem_map.mp ha
    rw [List.mem_singleton.mp hb]
    exact hc e he

theorem wrapperOf_grows {base : Nat} {c : Char} {s : Introduced} (h : s.Grows taken base) :
    (wrapperOf taken c s).2.Grows taken base := by
  unfold wrapperOf
  split
  · exact h
  · rename_i hnone
    refine h.push (fun e he heq => ?_) (issued_firstFree _)
    have hmiss : c ≠ e.1 := bne_iff_ne.mp (List.lookup_eq_none_iff.mp hnone e he)
    exact hmiss heq.symm

theorem wrapperOf_extends {c : Char} {s : Introduced} : s.Extends (wrapperOf taken c s).2 := by
  unfold wrapperOf
  split
  · exact s.extends_refl
  · have hle := le_firstFree wrapperStem taken s.counter
    exact ⟨Nat.le_succ_of_le hle, _, rfl⟩

/-- The variable given for a terminal is on record as its wrapper. -/
theorem wrapperOf_mem {c : Char} {s : Introduced} :
    (c, (wrapperOf taken c s).1) ∈ (wrapperOf taken c s).2.wrappers := by
  unfold wrapperOf
  split
  · rename_i hsome
    obtain ⟨front, back, hwrappers, _⟩ := List.lookup_eq_some_iff.mp hsome
    rw [hwrappers]
    exact List.mem_append_right _ List.mem_cons_self
  · exact List.mem_append_right _ List.mem_cons_self

theorem wrapSymbols_grows {base : Nat} {rhs : List Symbol} {s : Introduced}
    (h : s.Grows taken base) : (wrapSymbols taken rhs s).2.Grows taken base := by
  induction rhs generalizing s with
  | nil => exact h
  | cons x rest ih =>
    cases x with
    | terminal c => exact ih (wrapperOf_grows h)
    | var v => exact ih h

theorem wrapSymbols_extends {rhs : List Symbol} {s : Introduced} :
    s.Extends (wrapSymbols taken rhs s).2 := by
  induction rhs generalizing s with
  | nil => exact s.extends_refl
  | cons x rest ih =>
    cases x with
    | terminal c => exact wrapperOf_extends.trans ih
    | var v => exact ih

theorem length_wrapSymbols {rhs : List Symbol} {s : Introduced} :
    (wrapSymbols taken rhs s).1.length = rhs.length := by
  induction rhs generalizing s with
  | nil => rfl
  | cons x rest ih =>
    cases x with
    | terminal c => exact congrArg Nat.succ ih
    | var v => exact congrArg Nat.succ ih

/-! ## Chains -/

/-- Of two productions with a left-hand side handed out, the later one has another. -/
def IssuedOnce (taken : Std.ExtTreeSet Variable) (ps : List Production) : Prop :=
  ps.Pairwise fun p q => p.lhs ∉ taken → p.lhs ≠ q.lhs

theorem chain_le {lhs : Variable} {vs : List Variable} {n : Nat} :
    n ≤ (chain taken lhs vs n).2 := by
  fun_induction chain taken lhs vs n with
  | case1 lhs x y z rest n m next ps n' heq ih =>
    have hm : n ≤ m := le_firstFree chainStem taken n
    rw [heq] at ih
    show n ≤ n'
    omega
  | case2 => exact Nat.le_refl _

/-- Whatever a chain defines besides the variable it is for, it names itself. -/
theorem chain_lhs {lhs : Variable} {vs : List Variable} {n : Nat} :
    ∀ p ∈ (chain taken lhs vs n).1,
      p.lhs = lhs ∨ Issued taken chainStem n (chain taken lhs vs n).2 p.lhs := by
  fun_induction chain taken lhs vs n with
  | case1 lhs x y z rest n m next ps n' heq ih =>
    have hm : n ≤ m := le_firstFree chainStem taken n
    have hn' : m + 1 ≤ n' := by
      have hle : m + 1 ≤ (chain taken next (y :: z :: rest) (m + 1)).2 := chain_le
      rw [heq] at hle
      exact hle
    have hnext : Issued taken chainStem n (m + 1) next := issued_firstFree n
    rw [heq] at ih
    -- `next` is numbered `m`, and what the rest of the chain names is numbered above
    intro p hp
    rcases List.mem_cons.mp hp with rfl | hp
    · exact .inl rfl
    · rcases ih p hp with hlhs | hissued
      · rw [hlhs]
        exact .inr (hnext.mono (Nat.le_refl _) hn')
      · exact .inr (hissued.mono (by omega) (Nat.le_refl _))
  | case2 lhs vs n _ =>
    intro p hp
    rw [List.mem_singleton.mp hp]
    exact .inl rfl

/-- A chain for a variable that is not handed out from here on defines every name once. -/
theorem chain_issuedOnce {lhs : Variable} {vs : List Variable} {n : Nat}
    (hlhs : ∀ hi v, Issued taken chainStem n hi v → lhs ≠ v) :
    IssuedOnce taken (chain taken lhs vs n).1 := by
  fun_induction chain taken lhs vs n with
  | case1 lhs x y z rest n m next ps n' heq ih =>
    have hm : n ≤ m := le_firstFree chainStem taken n
    have hnext : Issued taken chainStem n (m + 1) next := issued_firstFree n
    have htail : ∀ q ∈ (chain taken next (y :: z :: rest) (m + 1)).1, q.lhs = next ∨
        Issued taken chainStem (m + 1) (chain taken next (y :: z :: rest) (m + 1)).2 q.lhs :=
      chain_lhs
    rw [heq] at ih htail
    -- the rest is a chain for `next`, which has a lower number than all it hands out
    refine List.pairwise_cons.mpr ⟨fun q hq _ => ?_, ih fun hi v hv => ?_⟩
    · rcases htail q hq with hq | hq
      · rw [hq]
        exact hlhs _ _ hnext
      · exact hlhs _ _ (hq.mono (by omega) (Nat.le_refl _))
    · exact hnext.ne_of_le hv (Nat.le_refl _)
  | case2 => exact List.pairwise_singleton _ _

/-! ## Whole grammars -/

theorem split_grows {base : Nat} {p : Production} {s : Introduced} (h : s.Grows taken base) :
    (p.split taken s).2.Grows taken base := by
  unfold Production.split
  split
  · exact h
  · exact (wrapSymbols_grows h).advance chain_le

theorem split_extends {p : Production} {s : Introduced} : s.Extends (p.split taken s).2 := by
  unfold Production.split
  split
  · exact s.extends_refl
  · exact wrapSymbols_extends.trans (Introduced.extends_advance chain_le)

theorem split_lhs {p : Production} {s : Introduced} :
    ∀ q ∈ (p.split taken s).1,
      q.lhs = p.lhs ∨ Issued taken chainStem s.counter (p.split taken s).2.counter q.lhs := by
  unfold Production.split
  split
  · intro q hq
    rw [List.mem_singleton.mp hq]
    exact .inl rfl
  · intro q hq
    rcases chain_lhs q hq with hlhs | hissued
    · exact .inl hlhs
    · exact .inr (hissued.mono wrapSymbols_extends.le (Nat.le_refl _))

theorem split_issuedOnce {p : Production} {s : Introduced} (hp : p.lhs ∈ taken) :
    IssuedOnce taken (p.split taken s).1 := by
  unfold Production.split
  split
  · exact List.pairwise_singleton _ _
  · refine chain_issuedOnce fun hi v hv heq => ?_
    exact hv.fresh (heq ▸ hp)

theorem splitAll_grows {base : Nat} {ps : List Production} {s : Introduced}
    (h : s.Grows taken base) : (splitAll taken ps s).2.Grows taken base := by
  induction ps generalizing s with
  | nil => exact h
  | cons p rest ih => exact ih (split_grows h)

theorem splitAll_extends {ps : List Production} {s : Introduced} :
    s.Extends (splitAll taken ps s).2 := by
  induction ps generalizing s with
  | nil => exact s.extends_refl
  | cons p rest ih => exact split_extends.trans ih

theorem splitAll_lhs {ps : List Production} {s : Introduced} (hps : ∀ p ∈ ps, p.lhs ∈ taken) :
    ∀ q ∈ (splitAll taken ps s).1,
      q.lhs ∈ taken ∨ Issued taken chainStem s.counter (splitAll taken ps s).2.counter q.lhs := by
  induction ps generalizing s with
  | nil => intro q hq; exact absurd hq List.not_mem_nil
  | cons p rest ih =>
    have hp : p.lhs ∈ taken := hps p List.mem_cons_self
    have hrest : ∀ q ∈ rest, q.lhs ∈ taken := fun q hq => hps q (List.mem_cons_of_mem _ hq)
    have hsplit : s.counter ≤ (p.split taken s).2.counter := split_extends.le
    intro q hq
    rcases List.mem_append.mp hq with hq | hq
    · rcases split_lhs q hq with hlhs | hissued
      · exact .inl (hlhs ▸ hp)
      · exact .inr (hissued.mono (Nat.le_refl _) splitAll_extends.le)
    · rcases ih hrest q hq with hlhs | hissued
      · exact .inl hlhs
      · exact .inr (hissued.mono hsplit (Nat.le_refl _))

theorem splitAll_issuedOnce {ps : List Production} {s : Introduced}
    (hps : ∀ p ∈ ps, p.lhs ∈ taken) : IssuedOnce taken (splitAll taken ps s).1 := by
  induction ps generalizing s with
  | nil => exact List.Pairwise.nil
  | cons p rest ih =>
    have hp : p.lhs ∈ taken := hps p List.mem_cons_self
    have hrest : ∀ q ∈ rest, q.lhs ∈ taken := fun q hq => hps q (List.mem_cons_of_mem _ hq)
    refine List.pairwise_append.mpr ⟨split_issuedOnce hp, ih hrest, fun q hq r hr hfresh => ?_⟩
    -- the first name comes from the first production, so from a lower range than the second
    have hq' : Issued taken chainStem s.counter (p.split taken s).2.counter q.lhs := by
      rcases split_lhs q hq with hlhs | hissued
      · exact absurd (hlhs ▸ hp) hfresh
      · exact hissued
    rcases splitAll_lhs hrest r hr with hr' | hr'
    · intro heq
      exact hfresh (heq ▸ hr')
    · exact hq'.ne_of_le hr' (Nat.le_refl _)

theorem Introduced.Grows.issuedOnce {base : Nat} {s : Introduced} (h : s.Grows taken base) :
    IssuedOnce taken s.productions := by
  have hne : s.wrappers.Pairwise fun e e' => e.2 ≠ e'.2 := List.pairwise_map.mp h.nodup
  refine List.pairwise_map.mpr (hne.imp ?_)
  intro e e' hdiff _
  exact hdiff

/-- **Every name handed out has one production.** -/
theorem splitAll_productions_issuedOnce {ps : List Production} {base : Nat}
    (hps : ∀ p ∈ ps, p.lhs ∈ taken) :
    IssuedOnce taken ((splitAll taken ps { counter := base }).1 ++
      (splitAll taken ps { counter := base }).2.productions) := by
  have hgrows : (splitAll taken ps { counter := base }).2.Grows taken base :=
    splitAll_grows (Introduced.grows_init taken base)
  refine List.pairwise_append.mpr
    ⟨splitAll_issuedOnce hps, hgrows.issuedOnce, fun q hq r hr hfresh => ?_⟩
  obtain ⟨e, he, rfl⟩ := List.mem_map.mp hr
  rcases splitAll_lhs hps q hq with hq' | hq'
  · exact absurd hq' hfresh
  · -- a chain variable and a wrapper: only the stems tell them apart
    obtain ⟨m, _, _, hm⟩ := hq'.number
    obtain ⟨n, _, _, hn⟩ := (hgrows.issued e he).number
    show q.lhs ≠ e.2
    rw [hm, hn]
    exact Variable.numbered_chain_ne_wrapper m n

/-- So the left-hand side tells which production it is. -/
theorem IssuedOnce.eq {ps : List Production} {p q : Production} (h : IssuedOnce taken ps)
    (hp : p ∈ ps) (hq : q ∈ ps) (hlhs : p.lhs = q.lhs) (hfresh : p.lhs ∉ taken) : p = q := by
  induction ps with
  | nil => exact absurd hp List.not_mem_nil
  | cons r rest ih =>
    obtain ⟨hr, hrest⟩ := List.pairwise_cons.mp h
    -- if one of them comes first, the other one differs from it unless it is the same
    rcases List.mem_cons.mp hp with hpr | hp'
    · rcases List.mem_cons.mp hq with hqr | hq'
      · rw [hpr, hqr]
      · exact absurd (hpr ▸ hlhs) (hr q hq' (hpr ▸ hfresh))
    · rcases List.mem_cons.mp hq with hqr | hq'
      · exact absurd (hqr ▸ hlhs.symm) (hr p hp' (hqr ▸ hlhs ▸ hfresh))
      · exact ih hrest hp' hq'

end ContextFree
