import ContextFree.Proofs.Issue

/-!
# Names over the whole life of a grammar

Between two names a grammar may be given productions, lose some, or make way for the next
grammar of a pipeline. What it mentioned it may mention no longer, and a name that was handed
out may never come to be used. So that a name is not mentioned does not make it new.

The counter does. It never goes down, whatever happens to the grammar, and each name moves it
past its own number. Names handed out in a run have increasing numbers.

**Different numbers, and nearly always different names.** Two names with the same text end in
the same digits. The later one has the larger number, so its number takes up more of them, and
those it has in addition stand at the end of the other's stem. The stems used by binarization
have no digits in them, so its names are never the same.
-/

namespace ContextFree

/-! ## What a number can be mistaken for -/

/-- A number with digits put before it does not get smaller. -/
theorem le_of_toDigits_eq_append {m n : Nat} {front : List Char}
    (h : Nat.toDigits 10 m = front ++ Nat.toDigits 10 n) : n ≤ m := by
  have hvalue : m = Nat.ofDigitChars 10 (Nat.toDigits 10 n) (Nat.ofDigitChars 10 front 0) := by
    rw [← Nat.ofDigitChars_append, ← h, read_toDigits]
  rw [Nat.ofDigitChars_eq_ofDigitChars_zero, read_toDigits] at hvalue
  omega

/-- If a larger number gives the same name, its first digits belong to the other stem. -/
theorem Variable.stem_eq_append_digits {stem stem' : String} {m n : Nat}
    (h : numbered stem m = numbered stem' n) (hlt : m < n) :
    ∃ digits : List Char, digits ≠ [] ∧ (∀ c ∈ digits, c.isDigit = true) ∧
      stem = stem' ++ String.ofList digits := by
  have htext : stem.toList ++ Nat.toDigits 10 m = stem'.toList ++ Nat.toDigits 10 n := by
    have hname : stem ++ toString m = stem' ++ toString n := congrArg Variable.name h
    rw [Nat.toString_eq_ofList_toDigits, Nat.toString_eq_ofList_toDigits] at hname
    simpa using congrArg String.toList hname
  rcases List.append_eq_append_iff.mp htext with ⟨front, _, hm⟩ | ⟨front, hstem, hn⟩
  · have hle := le_of_toDigits_eq_append hm
    omega
  · refine ⟨front, ?_, fun c hc => ?_, ?_⟩
    · intro hnil
      rw [hnil, List.nil_append] at hn
      have heq : Nat.toDigits 10 m = [] ++ Nat.toDigits 10 n := hn.symm
      have hle := le_of_toDigits_eq_append heq
      omega
    · have hmem : c ∈ Nat.toDigits 10 n := by
        rw [hn]
        exact List.mem_append_left _ hc
      exact Nat.isDigit_of_mem_toDigits (by decide) (by decide) hmem
    · rw [← String.toList_inj, hstem]
      simp

/-! ## What may happen to a grammar -/

/-- Something that is done to a grammar. -/
inductive Change where
  /-- A name is asked for. -/
  | fresh (stem : String)
  | insert (p : Production)
  | erase (p : Production)
  /-- The next grammar of a pipeline is made from it. -/
  | derive (ps : Std.ExtTreeSet Production)

/-- The grammar afterwards. -/
def Change.apply (g : Grammar) : Change → Grammar
  | fresh stem => (g.fresh stem).2
  | insert p => g.insert p
  | erase p => g.erase p
  | derive ps => g.withProductions ps

/-- A request for a name, and the grammar at that moment. -/
structure Handout where
  grammar : Grammar
  stem : String

namespace Handout

variable {h : Handout}

/-- The name that was handed out. -/
def name (h : Handout) : Variable :=
  (h.grammar.fresh h.stem).1

/-- The number in it. -/
def number (h : Handout) : Nat :=
  firstFree h.stem h.grammar.vars h.grammar.counter

theorem name_eq (h : Handout) : h.name = .numbered h.stem h.number := rfl

theorem counter_le_number (h : Handout) : h.grammar.counter ≤ h.number :=
  le_firstFree ..

/--
The numbers tried are those from the counter on. All but the last name variables that the
grammar mentions, so there are no more of them than it has variables, and one.
-/
theorem exists_tries (h : Handout) :
    ∃ misses ≤ h.grammar.vars.size,
      h.name = .numbered h.stem (h.grammar.counter + misses) ∧
      h.grammar.mentions h.name = false ∧
      ∀ i < misses, h.grammar.mentions (.numbered h.stem (h.grammar.counter + i)) = true := by
  have hle := h.counter_le_number
  have hbound : h.number ≤ h.grammar.counter + h.grammar.vars.size := firstFree_le ..
  have hnumber : h.grammar.counter + (h.number - h.grammar.counter) = h.number := by omega
  refine ⟨h.number - h.grammar.counter, by omega, ?_, ?_, fun i hi => ?_⟩
  · rw [hnumber, name_eq]
  · have hfree : h.name ∉ h.grammar.vars :=
      numbered_firstFree_notMem h.stem h.grammar.vars h.grammar.counter
    exact Bool.eq_false_iff.mpr (mt Grammar.mentions_iff.mp hfree)
  · have hlt : h.grammar.counter + i < h.number := by omega
    exact Grammar.mentions_iff.mpr (mem_of_lt_firstFree (Nat.le_add_right _ _) hlt)

end Handout

/-- The request a change makes, if it makes one. -/
def Change.handout? (g : Grammar) : Change → Option Handout
  | fresh stem => some ⟨g, stem⟩
  | _ => none

/-- All the names handed out while a grammar goes through changes, in order. -/
def Grammar.handouts : Grammar → List Change → List Handout
  | _, [] => []
  | g, c :: rest => (c.handout? g).toList ++ (c.apply g).handouts rest

/-! ## The counter only grows -/

/-- **A change does not set the counter back**, and a name moves it past its number. -/
theorem Change.counter_le (g : Grammar) (c : Change) :
    g.counter ≤ (c.apply g).counter ∧
      ∀ h, c.handout? g = some h → h.grammar = g ∧ h.number < (c.apply g).counter := by
  cases c with
  | fresh stem =>
    have hle := le_firstFree stem g.vars g.counter
    refine ⟨Nat.le_succ_of_le hle, fun h hh => ?_⟩
    obtain rfl := Option.some.inj hh
    exact ⟨rfl, Nat.lt_succ_self _⟩
  | insert p => exact ⟨Nat.le_refl _, fun h hh => absurd hh (by simp [handout?])⟩
  | erase p => exact ⟨Nat.le_refl _, fun h hh => absurd hh (by simp [handout?])⟩
  | derive ps => exact ⟨Nat.le_refl _, fun h hh => absurd hh (by simp [handout?])⟩

theorem Grammar.mem_handouts_cons {g : Grammar} {c : Change} {rest : List Change} {h : Handout} :
    h ∈ g.handouts (c :: rest) ↔ c.handout? g = some h ∨ h ∈ (c.apply g).handouts rest := by
  rw [handouts, List.mem_append, Option.mem_toList]

/-- What a run hands out has numbers from the counter on. -/
theorem Grammar.counter_le_of_mem_handouts {g : Grammar} {changes : List Change} {h : Handout}
    (hh : h ∈ g.handouts changes) : g.counter ≤ h.number := by
  induction changes generalizing g with
  | nil => exact absurd hh List.not_mem_nil
  | cons c rest ih =>
    obtain ⟨hcounter, hfirst⟩ := c.counter_le g
    rcases mem_handouts_cons.mp hh with hh | hh
    · obtain ⟨hgrammar, _⟩ := hfirst h hh
      rw [← hgrammar]
      exact h.counter_le_number
    · exact Nat.le_trans hcounter (ih hh)

/-- **So over a run the numbers increase.** -/
theorem Grammar.handouts_increasing (g : Grammar) (changes : List Change) :
    (g.handouts changes).Pairwise fun earlier later => earlier.number < later.number := by
  induction changes generalizing g with
  | nil => exact List.Pairwise.nil
  | cons c rest ih =>
    obtain ⟨_, hfirst⟩ := c.counter_le g
    refine List.pairwise_append.mpr ⟨?_, ih _, fun h hh later hlater => ?_⟩
    · cases c.handout? g with
      | none => exact List.Pairwise.nil
      | some h => exact List.pairwise_singleton _ h
    · obtain ⟨_, hlt⟩ := hfirst h (Option.mem_toList.mp hh)
      exact Nat.lt_of_lt_of_le hlt (counter_le_of_mem_handouts hlater)

/--
**Whatever happens to a grammar, a name it hands out is one it does not mention**, and it is found
after at most as many misses as the grammar has variables. Two names of a run are the same only if
the stem of the earlier one is that of the later one with digits behind it; those for chains and
wrappers are all different.
-/
theorem names_over_run (g : Grammar) (changes : List Change) :
    (∀ h ∈ g.handouts changes, ∃ misses ≤ h.grammar.vars.size,
      h.name = .numbered h.stem (h.grammar.counter + misses) ∧
      h.grammar.mentions h.name = false ∧
      ∀ i < misses, h.grammar.mentions (.numbered h.stem (h.grammar.counter + i)) = true) ∧
    ((g.handouts changes).Pairwise fun earlier later => earlier.name = later.name →
      ∃ digits : List Char, digits ≠ [] ∧ (∀ c ∈ digits, c.isDigit = true) ∧
        earlier.stem = later.stem ++ String.ofList digits) ∧
    (((g.handouts changes).filter fun h => h.stem = chainStem ∨ h.stem = wrapperStem).map
      Handout.name).Nodup := by
  have hincreasing := g.handouts_increasing changes
  refine ⟨fun h _ => h.exists_tries, hincreasing.imp fun hlt hname => ?_, ?_⟩
  · exact Variable.stem_eq_append_digits hname hlt
  · refine List.pairwise_map.mpr ((hincreasing.filter _).imp_of_mem fun he hl hlt hname => ?_)
    have hearlier := of_decide_eq_true (List.mem_filter.mp he).2
    have hlater := of_decide_eq_true (List.mem_filter.mp hl).2
    exact Nat.ne_of_lt hlt (Variable.number_eq hearlier hlater hname)

/-- A stem with a digit can come out as a name of the stem without it. -/
example : ((Grammar.ofList ⟨"S"⟩ []).handouts
    (.fresh "C1" :: List.replicate 9 (.fresh "X") ++ [.fresh "C"])).map (·.name.name) =
      ["C10", "X1", "X2", "X3", "X4", "X5", "X6", "X7", "X8", "X9", "C10"] := by
  decide +kernel

end ContextFree
