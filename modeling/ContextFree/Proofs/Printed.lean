import ContextFree.Proofs.Run
import ContextFree.Proofs.Symbols

/-!
# Printed normal forms

A normal form is printed like any grammar, and the question is whether the printed text can
take the place of the document it was made from. Its symbols are no obstacle: what was read
is printable, and numbered names are. So the productions can be read back whenever there are
any. If there are none the text announces none, and a document has at least one.

The start is another matter. A variable with no words but the empty one may come out of the
conversion without productions, and a grammar does not say in writing which variable is its
start other than by listing that variable's productions first. If the start has lost its
productions, the variable listed first is read in its place.

A membership question about the text, the empty word aside, has the answer that the document
itself has with a conversion as long as the start has kept a production. Without one the
document has no such word, so the answers differ on the words of the variable that was read
in place of the start and on no others.
-/

namespace ContextFree

variable {g : Grammar} {nf : NormalForm}

/-! ## Names that were handed out can be written -/

theorem Variable.isPrintable_numbered {stem : String}
    (hstem : stem.toList.all Char.isAlphanum) (n : Nat) :
    (Variable.numbered stem n).IsPrintable := by
  have hname : (Variable.numbered stem n).name.toList = stem.toList ++ Nat.toDigits 10 n := by
    simp [numbered, String.toList_append]
  have hchars : ∀ c ∈ (Variable.numbered stem n).name.toList, c.isAlphanum := by
    rw [hname]
    intro c hc
    rcases List.mem_append.mp hc with hc | hc
    · exact List.all_eq_true.mp hstem c hc
    · have hdigit : c.isDigit := Text.isDigit_of_mem_toDigits hc
      simp [Char.isAlphanum, hdigit]
  constructor
  · intro hempty
    rw [hempty] at hname
    exact absurd (List.append_eq_nil_iff.mp hname.symm).2 Nat.toDigits_ne_nil
  · intro c hc
    have halphanum := hchars c hc
    refine ⟨?_, ?_, ?_⟩ <;>
    · rintro rfl
      exact absurd halphanum (by decide)

/-- The productions of a normal form can be written if those it was made from can. -/
theorem Grammar.IsPrintable.toNormalForm (hg : g.IsPrintable) (hnf : g.toNormalForm = .ok nf) :
    ∀ p ∈ nf.grammar.productions, p.IsPrintable := by
  have hover : g.Over Symbol.IsPrintable := by
    intro p hp
    obtain ⟨hlhs, hrhs⟩ := (isPrintable_iff.mp hg).2 p hp
    exact ⟨hlhs, hrhs⟩
  have hnumbered : nf.grammar.Over Symbol.IsPrintable :=
    hover.toNormalForm (fun n => Variable.isPrintable_numbered (by decide) n)
      (fun n => Variable.isPrintable_numbered (by decide) n) hnf
  exact fun p hp => ⟨(hnumbered p hp).1, (hnumbered p hp).2⟩

/-! ## Words without their start -/

section Words

variable {v : Variable} {w : List Char}

/-- What a variable derives is a matter of the productions alone. -/
theorem Grammar.produces_congr {h : Grammar} (hproductions : g.productions = h.productions) :
    g.Produces v w ↔ h.Produces v w := by
  simp only [produces_iff_yields]
  refine ⟨?_, ?_⟩
  · exact Yields.mono fun p hp => hproductions ▸ hp
  · exact Yields.mono fun p hp => hproductions ▸ hp

theorem Grammar.Produces.exists_production (h : g.Produces v w) :
    ∃ p ∈ g.productions, p.lhs = v := by
  obtain ⟨rhs, hp, _⟩ := yields_var_iff.mp (produces_iff_yields.mp h)
  exact ⟨_, hp, rfl⟩

/--
A variable that is read as the start agrees with it on a word, unless the start is lost and the
variable derives the word.
-/
theorem Grammar.produces_iff_start
    (hstart : v = g.start ↔ ∃ p ∈ g.productions, p.lhs = g.start) :
    (g.Produces v w ↔ g.Produces g.start w) ↔
      (∃ p ∈ g.productions, p.lhs = g.start) ∨ ¬ g.Produces v w := by
  by_cases hkept : ∃ p ∈ g.productions, p.lhs = g.start
  · rw [hstart.mpr hkept]
    exact ⟨fun _ => .inl hkept, fun _ => Iff.rfl⟩
  · have hnone : ¬ g.Produces g.start w := fun hw => hkept hw.exists_production
    rw [iff_false_right hnone, or_iff_right hkept]

end Words

/-! ## Feeding the text back -/

namespace Document

variable {file : Path}

theorem run_cnf_output {text : String} {d : Document} (hread : ofText file text.toList = .ok d)
    (hnf : d.grammar.toNormalForm = .ok nf) (f : Option Path) (trace : Bool) (draws : Draws) :
    ((Command.cnf f trace).run (.ok text.toUTF8) draws).output = nf.grammar.render := by
  rw [Command.run_cnf hread hnf]
  rfl

/-- A grammar without productions announces none, which is no count. -/
theorem ofText_render_empty (hempty : g.productions = ∅) :
    ofText file g.render.toList = .error [⟨⟨file, 1⟩, .invalidCount "0"⟩] := by
  have hrender : g.render.toList = ['0', '\n'] := by
    rw [Grammar.toList_render, Grammar.listing, Grammar.productionsOf, hempty]
    rfl
  have hlines : contentLines ['0', '\n'] = [(1, ['0'])] := by decide +kernel
  have hcount : readCount ['0'] = none := by decide +kernel
  have htrim : Text.trim ['0'] = ['0'] := by decide +kernel
  unfold ofText
  rw [hrender, hlines]
  dsimp only
  rw [hcount, htrim]

/--
A text with a normal grammar answers without a conversion, and as another text does with one
just if their grammars agree on the word.
-/
theorem cyk_output_eq_iff {text fed : String} {d e : Document}
    (hread : ofText file text.toList = .ok d) (hfed : ofText file fed.toList = .ok e)
    (hnormal : e.grammar.IsNormal) (word : String) (f f' : Option Path) (trace trace' : Bool)
    (draws draws' : Draws) :
    ((Command.cyk f false (some word) trace).run (.ok fed.toUTF8) draws).status = 0 ∧
      (((Command.cyk f false (some word) trace).run (.ok fed.toUTF8) draws).output =
        ((Command.cyk f' true (some word) trace').run (.ok text.toUTF8) draws').output ↔
        (e.grammar.Produces e.grammar.start word.toList ↔
          d.grammar.Produces d.grammar.start word.toList)) := by
  rw [Command.run_of_holds (holds_toUTF8 hfed), Command.run_of_holds (holds_toUTF8 hread)]
  have hassumed := Command.runOn_cyk_assume (Command.cyk f false (some word) trace).input.name e
    draws f (some word) trace hnormal
  have hconverted := Command.runOn_cyk_convert
    (Command.cyk f' true (some word) trace').input.name d draws' f' (some word) trace'
  exact ⟨hassumed.1, hassumed.output_eq_iff hconverted⟩

/--
**A printed normal form can be fed back, though its start may be lost.** If it has a production
it is read as the productions that were printed. The start is read off the first of them, which
is the start that was printed just if that has a production. Without a conversion the text then
answers for a word other than the empty one as the document does with a conversion, unless the
start is lost and what was read in its place derives the word. Without any production the text
is refused for its count.
-/
theorem printed_reads_back {text : String} {d : Document}
    (hread : ofText file text.toList = .ok d) (hnf : d.grammar.toNormalForm = .ok nf)
    (hsize : nf.grammar.productions.size < countLimit) :
    (∀ f trace draws,
      ((Command.cnf f trace).run (.ok text.toUTF8) draws).output = nf.grammar.render) ∧
    (nf.grammar.productions ≠ ∅ →
      ∃ e : Document, (∀ file' : Path, ofText file' nf.grammar.render.toList = .ok e) ∧
        e.grammar.productions = nf.grammar.productions ∧ e.rest = "" ∧
        nf.grammar.listing.head?.map (·.lhs) = some e.grammar.start ∧
        (e.grammar.start = nf.grammar.start ↔
          ∃ p ∈ nf.grammar.productions, p.lhs = nf.grammar.start) ∧
        ∀ word : String, word ≠ "" → ∀ f f' trace trace' draws draws',
          ((Command.cyk f false (some word) trace).run (.ok nf.grammar.render.toUTF8)
              draws).status = 0 ∧
            (((Command.cyk f false (some word) trace).run (.ok nf.grammar.render.toUTF8)
                draws).output =
              ((Command.cyk f' true (some word) trace').run (.ok text.toUTF8) draws').output ↔
              (∃ p ∈ nf.grammar.productions, p.lhs = nf.grammar.start) ∨
                ¬ nf.grammar.Produces e.grammar.start word.toList)) ∧
    (nf.grammar.productions = ∅ → ∀ file' : Path,
      ofText file' nf.grammar.render.toList = .error [⟨⟨file', 1⟩, .invalidCount "0"⟩]) := by
  refine ⟨fun f trace draws => run_cnf_output hread hnf f trace draws, fun hne => ?_,
    fun hempty file' => ofText_render_empty hempty⟩
  have hprintable := (isPrintable_of_ofText hread).1.toNormalForm hnf
  obtain ⟨first, others, hlisting⟩ := Grammar.exists_listing hne
  have hback (file' : Path) : ofText file' nf.grammar.render.toList =
      .ok { grammar := .ofList first.lhs nf.grammar.listing, rest := "" } :=
    ofText_render_listing hprintable hlisting hsize
  have hproductions : (Grammar.ofList first.lhs nf.grammar.listing).productions =
      nf.grammar.productions := nf.grammar.sameRules_ofList_listing.2
  have hstart := Grammar.lhs_eq_start_iff hlisting
  refine ⟨_, hback, hproductions, rfl, ?_, hstart, ?_⟩
  · rw [hlisting]
    rfl
  · intro word hword f f' trace trace' draws draws'
    have hnormal : (Grammar.ofList first.lhs nf.grammar.listing).IsNormal := by
      intro p hp
      exact nf.normal p (hproductions ▸ hp)
    obtain ⟨hstatus, hsame⟩ :=
      cyk_output_eq_iff hread (hback file) hnormal word f f' trace trace' draws draws'
    refine ⟨hstatus, hsame.trans ?_⟩
    -- the document has the words that the normal form derives from the start it had
    have hnonempty : word.toList ≠ [] := by simpa using hword
    have hwords := (NormalForm.standsFor_of_toNormalForm hnf).words word.toList hnonempty
    exact (iff_congr (Grammar.produces_congr hproductions) hwords.symm).trans
      (Grammar.produces_iff_start hstart)

/-- The normal form of `brackets`, with two wrappers and a chain variable. -/
def bracketsNormal : NormalForm where
  grammar :=
    { start := ⟨"S"⟩
      productions := .ofList [(⟨⟨"C2"⟩, [.var ⟨"S"⟩, .var ⟨"T1"⟩]⟩ : Production),
        ⟨⟨"S"⟩, [.var ⟨"T0"⟩, .var ⟨"C2"⟩]⟩, ⟨⟨"S"⟩, [.var ⟨"T0"⟩, .var ⟨"T1"⟩]⟩,
        ⟨⟨"T0"⟩, [.terminal '(']⟩, ⟨⟨"T1"⟩, [.terminal ')']⟩]
      counter := 3 }
  derivesEmpty := true
  normal := Grammar.normalFaults_eq_nil_iff.mp (by decide +kernel)

theorem brackets_fed_back :
    ofText ⟨"g"⟩ "2\nS:(S)\nS:\n".toList = .ok brackets ∧
      brackets.grammar.toNormalForm = .ok bracketsNormal ∧
      bracketsNormal.grammar.productions.size < countLimit ∧
      ∃ e, ofText ⟨"h"⟩ bracketsNormal.grammar.render.toList = .ok e ∧
        e.grammar.start = ⟨"S"⟩ ∧
        e.grammar.productions = bracketsNormal.grammar.productions ∧
        ((Command.cyk none false (some "(())") false).run
            (.ok bracketsNormal.grammar.render.toUTF8) { script := [] }).output =
          ((Command.cyk none true (some "(())") true).run
            (.ok "2\nS:(S)\nS:\n".toUTF8) { script := [] }).output := by
  have hnf : brackets.grammar.toNormalForm = .ok bracketsNormal :=
    Grammar.toNormalForm_eq_ok_iff.mpr ⟨by decide +kernel, by decide +kernel⟩
  have hsize : bracketsNormal.grammar.productions.size < countLimit := by decide +kernel
  have hkept : ∃ p ∈ bracketsNormal.grammar.productions, p.lhs = bracketsNormal.grammar.start :=
    ⟨⟨⟨"S"⟩, [.var ⟨"T0"⟩, .var ⟨"T1"⟩]⟩, by decide +kernel, rfl⟩
  have hne : bracketsNormal.grammar.productions ≠ ∅ := by
    obtain ⟨p, hp, _⟩ := hkept
    exact Std.ExtTreeSet.ne_empty_of_mem hp
  obtain ⟨_, hback, _⟩ := printed_reads_back ofText_brackets hnf hsize
  obtain ⟨e, he, hproductions, _, _, hstart, hanswer⟩ := hback hne
  have hword := (hanswer "(())" (by decide) none none false true { script := [] }
    { script := [] }).2.mpr (.inl hkept)
  exact ⟨ofText_brackets, hnf, hsize, e, he ⟨"h"⟩, hstart.mpr hkept, hproductions, hword⟩

/-! ## Starts that are lost -/

/-- The start has no word but the empty one; another variable has `1`. -/
def orphan : Document where
  grammar := .ofList ⟨"S"⟩ [⟨⟨"S"⟩, []⟩, ⟨⟨"A"⟩, [.terminal '1']⟩]
  rest := ""

/-- Its normal form, where nothing is left of the start. -/
def orphanNormal : NormalForm where
  grammar := .ofList ⟨"S"⟩ [⟨⟨"A"⟩, [.terminal '1']⟩]
  derivesEmpty := true
  normal := Grammar.normalFaults_eq_nil_iff.mp (by decide +kernel)

/-- The start has no word but the empty one, and there is no other variable. -/
def hollow : Document where
  grammar := .ofList ⟨"S"⟩ [⟨⟨"S"⟩, []⟩]
  rest := ""

/-- Its normal form, where nothing is left at all. -/
def hollowNormal : NormalForm where
  grammar := .ofList ⟨"S"⟩ []
  derivesEmpty := true
  normal := Grammar.normalFaults_eq_nil_iff.mp (by decide +kernel)

/--
Without its start a printed normal form is refused, or it is read as a grammar with another
start and has other words.
-/
theorem printed_without_start :
    (ofText ⟨"g"⟩ "1\nS:\n".toList = .ok hollow ∧
      hollow.grammar.toNormalForm = .ok hollowNormal ∧
      ofText ⟨"g"⟩ hollowNormal.grammar.render.toList =
        .error [⟨⟨⟨"g"⟩, 1⟩, .invalidCount "0"⟩]) ∧
    ofText ⟨"g"⟩ "2\nS:\nA:1\n".toList = .ok orphan ∧
      orphan.grammar.toNormalForm = .ok orphanNormal ∧
      (∃ e, ofText ⟨"g"⟩ orphanNormal.grammar.render.toList = .ok e ∧
        e.grammar.start ≠ orphanNormal.grammar.start) ∧
      ((Command.cyk none true (some "1") false).run (.ok "2\nS:\nA:1\n".toUTF8)
        { script := [] }).output = "No\n" ∧
      ((Command.cyk none false (some "1") false).run (.ok orphanNormal.grammar.render.toUTF8)
        { script := [] }).output = "Yes\n" := by
  have hread : ofText ⟨"g"⟩ "2\nS:\nA:1\n".toList = .ok orphan := by decide +kernel
  have hback : ofText ⟨"g"⟩ orphanNormal.grammar.render.toList =
      .ok { grammar := .ofList ⟨"A"⟩ [⟨⟨"A"⟩, [.terminal '1']⟩], rest := "" } := by decide +kernel
  refine ⟨⟨by decide +kernel, ?_, ofText_render_empty (by decide +kernel)⟩, hread, ?_,
    ⟨_, hback, by decide +kernel⟩, ?_, ?_⟩
  · exact Grammar.toNormalForm_eq_ok_iff.mpr ⟨by decide +kernel, by decide +kernel⟩
  · exact Grammar.toNormalForm_eq_ok_iff.mpr ⟨by decide +kernel, by decide +kernel⟩
  · rw [Command.run_of_holds (holds_toUTF8 hread)]
    decide +kernel
  · rw [Command.run_of_holds (holds_toUTF8 hback)]
    decide +kernel

end Document

end ContextFree
