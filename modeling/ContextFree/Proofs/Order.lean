import ContextFree.Proofs.Run

/-!
# Order and repetition

A grammar is a set of productions. In which order its lines stood, and how often one of them
was repeated, should not show, neither in the grammar nor in anything that is made from it.

A set can be listed in many ways, but strictly increasing in only one. So the listing every
pass goes through, and with it every name that is handed out, depends on nothing but which
productions there are: `Grammar.toList_eq_iff`.

What a document keeps of a text is little: the productions, the variable that the first of
them is for, and the lines after them. Texts that agree on these are the same document, and
no others are: `Document.eq_iff_sameContent`.
-/

namespace ContextFree

/-! ## Increasing lists -/

/-- Every production comes before all that follow it. -/
def Production.Increasing (ps : List Production) : Prop :=
  ps.Pairwise fun p q => compare p q = .lt

/-- The productions of a grammar are listed increasing, and no other list of them is. -/
theorem Grammar.toList_eq_iff {g : Grammar} {ps : List Production} :
    g.productions.toList = ps ↔ Production.Increasing ps ∧ ∀ p, p ∈ ps ↔ p ∈ g.productions := by
  have hincreasing : Production.Increasing g.productions.toList := Std.ExtTreeSet.ordered_toList
  constructor
  · intro h
    rw [← h]
    exact ⟨hincreasing, fun p => Std.ExtTreeSet.mem_toList⟩
  · intro h
    exact eq_of_increasing (fun _ _ => Std.OrientedCmp.not_lt_of_lt) hincreasing h.1
      fun p => Std.ExtTreeSet.mem_toList.trans (h.2 p).symm

/-! ## The content of a text -/

namespace Document

/-- The content lines that are announced as productions, as far as they are there. -/
def productionLines (text : List Char) : List (List Char) :=
  match contents text with
  | [] => []
  | countLine :: lines => lines.take ((readCount countLine).getD 0)

/-- The content lines after the productions. -/
def remainingLines (text : List Char) : List (List Char) :=
  match contents text with
  | [] => []
  | countLine :: lines => lines.drop ((readCount countLine).getD 0)

/-- What the production lines read as, line by line. -/
def readings (text : List Char) : List (Except LineFault Production) :=
  (productionLines text).map Production.read

/-- One of the production lines is this production. -/
def Lists (text : List Char) (p : Production) : Prop :=
  .ok p ∈ readings text

/-- The first production line is a production for this variable. -/
def Opens (text : List Char) (v : Variable) : Prop :=
  ∃ p, (readings text).head? = some (.ok p) ∧ p.lhs = v

/--
The texts have the same productions, in whatever order and however often. They begin with
one for the same variable, and the same lines follow.
-/
structure SameContent (text text' : List Char) : Prop where
  productions : ∀ p, Lists text p ↔ Lists text' p
  start : ∀ v, Opens text v ↔ Opens text' v
  rest : remainingLines text = remainingLines text'

/-- What there is in a document is what the text says. -/
structure Records (text : List Char) (d : Document) : Prop where
  productions : ∀ p, p ∈ d.grammar.productions ↔ Lists text p
  start : ∀ v, Opens text v ↔ d.grammar.start = v
  /-- No names have been handed out yet. -/
  counter : d.grammar.counter = 0
  rest : d.rest = "\n".intercalate ((remainingLines text).map String.ofList)

variable {file file₁ file₂ : Path} {text text₁ text₂ : List Char} {d d₁ d₂ : Document}

theorem records_of_ofText (h : ofText file text = .ok d) : Records text d := by
  obtain ⟨countLine, body, rest, first, others, hcontents, hcount, hps, rfl⟩ :=
    ofText_eq_ok_iff.mp h
  have hreadings : readings text = (first :: others).map .ok := by
    unfold readings productionLines
    simp [hcontents, hcount, hps]
  have hrest : remainingLines text = rest := by
    unfold remainingLines
    simp [hcontents, hcount]
  constructor
  · intro p
    unfold Lists
    rw [Grammar.mem_ofList, hreadings]
    simp
  · intro v
    unfold Opens
    rw [hreadings]
    simp [Grammar.ofList]
  · rfl
  · rw [hrest]

theorem mem_contents_of_mem_remainingLines {line : List Char} (h : line ∈ remainingLines text) :
    line ∈ contents text := by
  unfold remainingLines at h
  cases hcontents : contents text with
  | nil =>
    rw [hcontents] at h
    exact h
  | cons countLine lines =>
    rw [hcontents] at h
    exact List.mem_cons_of_mem _ (List.mem_of_mem_drop h)

/-- The lines after the productions can be told from what is kept of them. -/
theorem filter_splitOn_remainingLines (text : List Char) :
    ((['\n'].intercalate (remainingLines text)).splitOn '\n').filter (· ≠ []) =
      remainingLines text := by
  have hlines : ∀ line ∈ remainingLines text, '\n' ∉ line ∧ line ≠ [] := by
    intro line hline
    obtain ⟨hmem, c, hc, _⟩ := mem_contents.mp (mem_contents_of_mem_remainingLines hline)
    exact ⟨Text.feed_notMem_lines line hmem, List.ne_nil_of_mem hc⟩
  by_cases hnil : remainingLines text = []
  · rw [hnil]
    rfl
  · rw [List.splitOn_intercalate '\n' (fun line hline => (hlines line hline).1) hnil]
    exact List.filter_eq_self.mpr fun line hline => decide_eq_true (hlines line hline).2

/--
**A document is the content of its text.** Two texts are the same document exactly if they
have the same content.
-/
theorem eq_iff_sameContent (h₁ : ofText file₁ text₁ = .ok d₁) (h₂ : ofText file₂ text₂ = .ok d₂) :
    d₁ = d₂ ↔ SameContent text₁ text₂ := by
  have hd₁ := records_of_ofText h₁
  have hd₂ := records_of_ofText h₂
  constructor
  · intro heq
    subst heq
    refine ⟨fun p => (hd₁.productions p).symm.trans (hd₂.productions p),
      fun v => (hd₁.start v).trans (hd₂.start v).symm, ?_⟩
    have hrest := congrArg String.toList (hd₁.rest.symm.trans hd₂.rest)
    rw [Text.toList_intercalate_feed, Text.toList_intercalate_feed] at hrest
    rw [← filter_splitOn_remainingLines text₁, hrest, filter_splitOn_remainingLines]
  · intro hsame
    have hproductions : d₁.grammar.productions = d₂.grammar.productions := by
      refine Std.ExtTreeSet.ext_mem fun p => ?_
      rw [hd₁.productions p, hd₂.productions p]
      exact hsame.productions p
    have hstart : d₁.grammar.start = d₂.grammar.start :=
      (hd₁.start _).mp ((hsame.start _).mpr ((hd₂.start _).mpr rfl))
    have hgrammar : d₁.grammar = d₂.grammar :=
      Grammar.ext hstart hproductions (hd₁.counter.trans hd₂.counter.symm)
    have hrest : d₁.rest = d₂.rest := by
      rw [hd₁.rest, hd₂.rest, hsame.rest]
    cases d₁
    cases d₂
    subst hgrammar hrest
    rfl

/--
**Order and repetition do not matter.** Texts with the same productions, in whatever order
and however often, are the same document if the first production is for the same variable
and the same lines follow. The productions are gone through in the one order that there is
for them, and conversion prints the same normal form with the same names.
-/
theorem order_free {file₁ file₂ : Path} {text₁ text₂ : String} {d₁ d₂ : Document}
    (h₁ : ofText file₁ text₁.toList = .ok d₁) (h₂ : ofText file₂ text₂.toList = .ok d₂)
    (hsame : SameContent text₁.toList text₂.toList) :
    d₁ = d₂ ∧
    (∀ ps, d₁.grammar.productions.toList = ps ↔
      Production.Increasing ps ∧ ∀ p, p ∈ ps ↔ Lists text₁.toList p) ∧
    ∃ nf, d₁.grammar.toNormalForm = .ok nf ∧ d₂.grammar.toNormalForm = .ok nf ∧
      ∀ input₁ input₂ trace draws₁ draws₂,
        ((Command.cnf input₁ trace).run (.ok text₁.toUTF8) draws₁).output = nf.grammar.render ∧
        (Command.cnf input₁ trace).run (.ok text₁.toUTF8) draws₁ =
          (Command.cnf input₂ trace).run (.ok text₂.toUTF8) draws₂ := by
  obtain rfl := (eq_iff_sameContent h₁ h₂).mpr hsame
  obtain ⟨nf, hnf⟩ := d₁.grammar.exists_toNormalForm
  refine ⟨rfl, fun ps => ?_, nf, hnf, hnf, fun input₁ input₂ trace draws₁ draws₂ => ⟨?_, ?_⟩⟩
  · simp only [Grammar.toList_eq_iff, (records_of_ofText h₁).productions]
  · rw [Command.run_cnf h₁ hnf]
    rfl
  · rw [Command.run_cnf h₁ hnf, Command.run_cnf h₂ hnf]

/-- Balanced brackets around nothing, and a word. -/
def straight : String :=
  "2\nS:(S)\nS:\n()"

/-- The same the other way round, with one of the productions in it twice. -/
def shuffled : String :=
  "3\nS:\nS:(S)\n<S> :\n()"

theorem shuffled_sameContent : SameContent straight.toList shuffled.toList := by
  have hstraight : readings straight.toList =
      [.ok ⟨⟨"S"⟩, [.terminal '(', .var ⟨"S"⟩, .terminal ')']⟩, .ok ⟨⟨"S"⟩, []⟩] := by
    decide +kernel
  have hshuffled : readings shuffled.toList =
      [.ok ⟨⟨"S"⟩, []⟩, .ok ⟨⟨"S"⟩, [.terminal '(', .var ⟨"S"⟩, .terminal ')']⟩,
        .ok ⟨⟨"S"⟩, []⟩] := by
    decide +kernel
  refine ⟨fun p => ?_, fun v => ?_, by decide +kernel⟩
  · unfold Lists
    rw [hstraight, hshuffled]
    grind
  · unfold Opens
    rw [hstraight, hshuffled]
    simp

theorem shuffled_prints_alike :
    ∃ d₁ d₂, ofText ⟨"a"⟩ straight.toList = .ok d₁ ∧ ofText ⟨"b"⟩ shuffled.toList = .ok d₂ ∧
      SameContent straight.toList shuffled.toList ∧ d₁ = d₂ ∧
      ∃ nf, d₁.grammar.toNormalForm = .ok nf ∧
        ((Command.cnf none false).run (.ok straight.toUTF8) { script := [] }).output =
          nf.grammar.render ∧
        (Command.cnf none false).run (.ok straight.toUTF8) { script := [] } =
          (Command.cnf none false).run (.ok shuffled.toUTF8) { script := [] } := by
  have h₁ : ofText ⟨"a"⟩ straight.toList = .ok { brackets with rest := "()" } := by decide +kernel
  have h₂ : ofText ⟨"b"⟩ shuffled.toList = .ok {
      grammar := .ofList ⟨"S"⟩ [⟨⟨"S"⟩, []⟩, ⟨⟨"S"⟩, [.terminal '(', .var ⟨"S"⟩, .terminal ')']⟩,
        ⟨⟨"S"⟩, []⟩]
      rest := "()" } := by
    decide +kernel
  obtain ⟨hsame, _, nf, hnf, _, hrun⟩ := order_free h₁ h₂ shuffled_sameContent
  obtain ⟨houtput, halike⟩ := hrun none none false { script := [] } { script := [] }
  exact ⟨_, _, h₁, h₂, shuffled_sameContent, hsame, nf, hnf, houtput, halike⟩

end Document

end ContextFree
