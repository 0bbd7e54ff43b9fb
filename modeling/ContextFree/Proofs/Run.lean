import ContextFree.Proofs.Document
import ContextFree.Proofs.Membership
import ContextFree.Run

/-!
# What a run answers

A run stops at the first thing that fails, so there are three things it can end with:
the input is no document, the grammar is not normal and was not to be converted, or
nothing is wrong. The three are told apart by the status alone, and standard output holds
nothing unless the status is zero.

Between a document and an answer to a membership question stands a normal form, made by
conversion or taken from the grammar as it is. Either way it *stands for* the grammar: the
recognizer answers as the grammar does. That is the only thing the answers rest on.
-/

namespace ContextFree

/-! ## Normal forms that answer for a grammar -/

/-- What the normal form says about words is what the grammar says about them. -/
structure NormalForm.StandsFor (nf : NormalForm) (g : Grammar) : Prop where
  /-- The answer for the empty word is kept beside the productions. -/
  empty : nf.derivesEmpty = true ↔ g.Produces g.start []
  /-- The productions answer for all other words. -/
  words : ∀ word, word ≠ [] →
    (nf.grammar.Produces nf.grammar.start word ↔ g.Produces g.start word)

namespace NormalForm

variable {g : Grammar} {nf : NormalForm}

/-- The recognizer of a normal form answers for the grammar it stands for. -/
theorem StandsFor.accepts_iff (h : nf.StandsFor g) (word : List Char) :
    (Recognizer.ofNormalForm nf).accepts word = true ↔ g.Produces g.start word := by
  by_cases hword : word = []
  · rw [hword, Recognizer.accepts_nil]
    exact h.empty
  · rw [Recognizer.accepts_iff_yields hword, ← Grammar.produces_iff_yields]
    exact h.words word hword

theorem standsFor_of_toNormalForm (h : g.toNormalForm = .ok nf) : nf.StandsFor g := by
  obtain ⟨hgrammar, hempty⟩ := Grammar.toNormalForm_eq_ok_iff.mp h
  have hstart : nf.grammar.start = g.start := by
    rw [hgrammar]
    exact g.unitFree.binaryForm_spellsOut.start
  constructor
  · rw [hempty, Std.ExtTreeSet.contains_iff_mem, Grammar.produces_iff_yields]
    exact Grammar.mem_nullable_iff
  · intro word hword
    simp only [Grammar.produces_iff_yields]
    rw [hstart, Grammar.yields_toNormalForm_iff h g.start_mem_unitFree]
    exact and_iff_right hword

/-- A normal grammar derives no empty word, so nothing is lost in taking it as it is. -/
theorem standsFor_of_assume (h : NormalForm.assume g = .ok nf) : nf.StandsFor g := by
  obtain ⟨_, rfl, hempty⟩ := Recognizer.assume_eq_ok_iff.mp h
  constructor
  · rw [hempty, Grammar.produces_iff_yields]
    constructor
    · intro hfalse
      exact absurd hfalse (by simp)
    · intro hyield
      exact absurd rfl (hyield.ne_nil nf.normal.isEpsilonFree)
  · exact fun _ _ => Iff.rfl

end NormalForm

/-! ## The outcomes of the stages -/

section Stages

variable {g : Grammar}

/-- The outcome is an answer to the question on a line of its own. -/
def Outcome.Answers (o : Outcome) (question : Prop) : Prop :=
  o.status = 0 ∧ (o.output = "Yes\n" ∧ question ∨ o.output = "No\n" ∧ ¬ question)

namespace Outcome.Answers

variable {o o' : Outcome} {question question' : Prop}

/-- What is written to standard error does not touch the answer. -/
theorem afterErrors (h : o.Answers question) (errors : String) :
    (o.afterErrors errors).Answers question :=
  h

theorem yes_or_no (h : o.Answers question) : o.output = "Yes\n" ∨ o.output = "No\n" :=
  h.2.imp And.left And.left

theorem yes_iff (h : o.Answers question) : o.output = "Yes\n" ↔ question := by
  obtain ⟨_, ⟨hyes, hq⟩ | ⟨hno, hq⟩⟩ := h
  · exact iff_of_true hyes hq
  · rw [hno]
    exact iff_of_false (by decide) hq

/-- Two answers are the same just if the questions are equivalent. -/
theorem output_eq_iff (h : o.Answers question) (h' : o'.Answers question') :
    o.output = o'.output ↔ (question ↔ question') := by
  rw [← h.yes_iff, ← h'.yes_iff]
  refine ⟨fun heq => by rw [heq], fun hiff => ?_⟩
  rcases h.yes_or_no with hyes | hno
  · rw [hyes, hiff.mp hyes]
  · rcases h'.yes_or_no with hyes' | hno'
    · rw [hyes', hiff.mpr hyes']
    · rw [hno, hno']

end Outcome.Answers

theorem membershipAnswer_answers {nf : NormalForm} (h : nf.StandsFor g) (word : List Char) :
    (membershipAnswer word nf).Answers (g.Produces g.start word) := by
  unfold membershipAnswer
  by_cases hword : (Recognizer.ofNormalForm nf).accepts word = true
  · rw [if_pos hword]
    exact ⟨rfl, .inl ⟨rfl, (h.accepts_iff word).mp hword⟩⟩
  · rw [if_neg hword]
    exact ⟨rfl, .inr ⟨rfl, fun hg => hword ((h.accepts_iff word).mpr hg)⟩⟩

/-- A conversion goes on with its normal form, after whatever it has shown on the way. -/
theorem withConversion_eq {nf : NormalForm} (hnf : g.toNormalForm = .ok nf) (name : Path)
    (trace : Bool) (k : NormalForm → Outcome) :
    withConversion name g trace k =
      (k nf).afterErrors (if trace then g.convert.trace else "") := by
  have hresult : g.convert.result = .ok nf := hnf
  unfold withConversion
  dsimp only
  rw [hresult]
  cases trace with
  | true => rfl
  | false => simp [Outcome.afterErrors]

theorem withAssumption_of_isNormal (name : Path) (hg : g.IsNormal) (k : NormalForm → Outcome) :
    ∃ nf, NormalForm.assume g = .ok nf ∧ withAssumption name g k = k nf := by
  have hok : NormalForm.assume g = .ok ⟨g, false, hg⟩ :=
    Recognizer.assume_eq_ok_iff.mpr ⟨Grammar.normalFaults_eq_nil_iff.mpr hg, rfl, rfl⟩
  refine ⟨_, hok, ?_⟩
  unfold withAssumption
  rw [hok]

/-- A grammar that is not normal ends the run, and that is a usage fault. -/
theorem withAssumption_of_not_isNormal (name : Path) (hg : ¬ g.IsNormal)
    (k : NormalForm → Outcome) :
    (withAssumption name g k).status = 2 ∧ (withAssumption name g k).output = "" := by
  have hfaults : g.normalFaults ≠ [] := fun h => hg (Grammar.normalFaults_eq_nil_iff.mp h)
  have herror : NormalForm.assume g = .error g.normalFaults := by
    unfold NormalForm.assume NormalForm.ofGrammar
    rw [dif_neg hfaults]
  obtain ⟨fault, others, hcons⟩ := List.exists_cons_of_ne_nil hfaults
  unfold withAssumption
  rw [herror, hcons]
  exact ⟨rfl, rfl⟩

/-- The faults of a document are nobody's usage faults. -/
theorem Outcome.unread_status (faults : List (Located DocumentFault)) :
    (Outcome.unread faults).status = 1 := by
  have hnone : (faults.map fun l => (⟨l.location, .document l.fault⟩ : Located Fault)).any
      (·.fault.isUsage) = false := by
    rw [List.any_map]
    exact List.any_eq_false.mpr fun l _ => by simp [Fault.isUsage]
  unfold unread failed
  rw [hnone]
  rfl

end Stages

/-! ## Documents and words -/

/-- The content can be had, is UTF-8, and is this document. -/
def Document.Holds (file : Path) (content : Except ReadFault ByteArray) (d : Document) : Prop :=
  ∃ bytes text, content = .ok bytes ∧ String.fromUTF8? bytes = some text ∧
    ofText file text.toList = .ok d

theorem Document.ofContent_eq_ok_iff {file : Path} {content : Except ReadFault ByteArray}
    {d : Document} : ofContent file content = .ok d ↔ Holds file content d := by
  unfold ofContent Holds
  cases content with
  | error fault => simp
  | ok bytes =>
    cases htext : String.fromUTF8? bytes with
    | none => simp [htext]
    | some text => simp [htext]

/-- There is one document at most. -/
theorem Document.Holds.unique {file : Path} {content : Except ReadFault ByteArray}
    {d e : Document} (hd : Holds file content d) (he : Holds file content e) : d = e := by
  have hok := (ofContent_eq_ok_iff.mpr hd).symm.trans (ofContent_eq_ok_iff.mpr he)
  exact Except.ok.inj hok

/-- A text in memory can be had. The name it goes by shows in faults only. -/
theorem Document.holds_toUTF8 {file file' : Path} {text : String} {d : Document}
    (hread : ofText file text.toList = .ok d) : Holds file' (.ok text.toUTF8) d := by
  have hread' : ofText file' text.toList = .ok d :=
    ofText_eq_ok_iff.mpr (ofText_eq_ok_iff.mp hread)
  exact ⟨_, text, rfl, dif_pos text.isValidUTF8, hread'⟩

/-- The word a membership question is about: the one given, or the first one in the rest. -/
def Document.Asks (d : Document) (input : Option String) (word : List Char) : Prop :=
  match input with
  | some given => word = given.toList
  | none => Text.IsFirstWord d.rest.toList word

theorem Document.asks (d : Document) (input : Option String) :
    d.Asks input ((input.map String.toList).getD d.word) := by
  cases input with
  | some given => rfl
  | none => exact Text.isFirstWord_firstWord d.rest.toList

/-! ## Whole runs -/

namespace Command

variable {content : Except ReadFault ByteArray} {d : Document}

theorem run_of_holds {command : Command} (h : Document.Holds command.input.name content d)
    (draws : Draws) : command.run content draws = command.runOn command.input.name d draws := by
  unfold run
  dsimp only
  rw [Document.ofContent_eq_ok_iff.mpr h]

/-- Without a document there is nothing to carry a command out on. -/
theorem run_of_not_holds {command : Command}
    (h : ¬ ∃ d, Document.Holds command.input.name content d) (draws : Draws) :
    (command.run content draws).status = 1 ∧ (command.run content draws).output = "" := by
  unfold run
  dsimp only
  cases hcontent : Document.ofContent command.input.name content with
  | ok d => exact absurd ⟨d, Document.ofContent_eq_ok_iff.mp hcontent⟩ h
  | error faults => exact ⟨Outcome.unread_status faults, rfl⟩

theorem runOn_cnf {nf : NormalForm} (hnf : d.grammar.toNormalForm = .ok nf) (name : Path)
    (draws : Draws) (file : Option Path) (trace : Bool) :
    (cnf file trace).runOn name d draws =
      (Outcome.printed nf.grammar.render).afterErrors
        (if trace then d.grammar.convert.trace else "") := by
  unfold runOn
  exact withConversion_eq hnf name trace _

/-- What is printed of a text depends neither on its name nor on what is drawn. -/
theorem run_cnf {text : String} {file : Path} {nf : NormalForm}
    (hread : Document.ofText file text.toList = .ok d) (hnf : d.grammar.toNormalForm = .ok nf)
    (input : Option Path) (trace : Bool) (draws : Draws) :
    (cnf input trace).run (.ok text.toUTF8) draws =
      (Outcome.printed nf.grammar.render).afterErrors
        (if trace then d.grammar.convert.trace else "") := by
  rw [run_of_holds (Document.holds_toUTF8 hread), runOn_cnf hnf]

/-- With a conversion the answer is about the grammar of the document. -/
theorem runOn_cyk_convert (name : Path) (d : Document) (draws : Draws) (file : Option Path)
    (input : Option String) (trace : Bool) :
    ((cyk file true input trace).runOn name d draws).Answers
      (d.grammar.Produces d.grammar.start ((input.map String.toList).getD d.word)) := by
  obtain ⟨nf, hnf⟩ := d.grammar.exists_toNormalForm
  have hanswer := membershipAnswer_answers (NormalForm.standsFor_of_toNormalForm hnf)
    ((input.map String.toList).getD d.word)
  unfold runOn
  dsimp only
  rw [if_pos rfl, withConversion_eq hnf]
  exact hanswer.afterErrors _

/-- Without one it is too, if the grammar is normal. -/
theorem runOn_cyk_assume (name : Path) (d : Document) (draws : Draws) (file : Option Path)
    (input : Option String) (trace : Bool) (hnormal : d.grammar.IsNormal) :
    ((cyk file false input trace).runOn name d draws).Answers
      (d.grammar.Produces d.grammar.start ((input.map String.toList).getD d.word)) := by
  obtain ⟨nf, hnf, hrun⟩ := withAssumption_of_isNormal name hnormal
    (membershipAnswer ((input.map String.toList).getD d.word))
  have hanswer := membershipAnswer_answers (NormalForm.standsFor_of_assume hnf)
    ((input.map String.toList).getD d.word)
  unfold runOn
  dsimp only
  rw [if_neg (by decide), hrun]
  exact hanswer

theorem runOn_cyk_refuse (name : Path) (d : Document) (draws : Draws) (file : Option Path)
    (input : Option String) (trace : Bool) (hnormal : ¬ d.grammar.IsNormal) :
    ((cyk file false input trace).runOn name d draws).status = 2 ∧
      ((cyk file false input trace).runOn name d draws).output = "" :=
  withAssumption_of_not_isNormal name hnormal _

/-- The command asks for a normal grammar, and the document has another one. -/
def Refuses (command : Command) (d : Document) : Prop :=
  (∃ file input trace, command = .cyk file false input trace) ∧ ¬ d.grammar.IsNormal

/-- The three things that a run other than one for samples can end with. -/
inductive Ends (command : Command) (content : Except ReadFault ByteArray) (o : Outcome) :
    Prop where
  | unread : (¬ ∃ d, Document.Holds command.input.name content d) → o.status = 1 →
      o.output = "" → Ends command content o
  | refused {d : Document} : Document.Holds command.input.name content d → command.Refuses d →
      o.status = 2 → o.output = "" → Ends command content o
  | done {d : Document} : Document.Holds command.input.name content d → ¬ command.Refuses d →
      o.status = 0 →
      (∀ file convert input trace, command = .cyk file convert input trace →
        o.Answers (d.grammar.Produces d.grammar.start ((input.map String.toList).getD d.word))) →
      Ends command content o

theorem run_ends {command : Command}
    (hcommand : ∀ file amount maxDepth, command ≠ .generate file amount maxDepth)
    (content : Except ReadFault ByteArray) (draws : Draws) :
    command.Ends content (command.run content draws) := by
  by_cases hholds : ∃ d, Document.Holds command.input.name content d
  · obtain ⟨d, hd⟩ := hholds
    rw [run_of_holds hd]
    match command with
    | .cnf file trace =>
      obtain ⟨nf, hnf⟩ := d.grammar.exists_toNormalForm
      rw [runOn_cnf hnf]
      refine .done hd (fun hrefuses => ?_) rfl (by simp)
      obtain ⟨⟨_, _, _, heq⟩, _⟩ := hrefuses
      exact absurd heq (by simp)
    | .cyk file true input trace =>
      have hanswers := runOn_cyk_convert (cyk file true input trace).input.name d draws file
        input trace
      refine .done hd (fun hrefuses => ?_) hanswers.1 ?_
      · obtain ⟨⟨_, _, _, heq⟩, _⟩ := hrefuses
        exact absurd heq (by simp)
      · rintro _ _ _ _ ⟨⟩
        exact hanswers
    | .cyk file false input trace =>
      by_cases hnormal : d.grammar.IsNormal
      · have hanswers := runOn_cyk_assume (cyk file false input trace).input.name d draws file
          input trace hnormal
        refine .done hd (fun hrefuses => hrefuses.2 hnormal) hanswers.1 ?_
        rintro _ _ _ _ ⟨⟩
        exact hanswers
      · obtain ⟨hstatus, houtput⟩ := runOn_cyk_refuse (cyk file false input trace).input.name d
          draws file input trace hnormal
        exact .refused hd ⟨⟨file, input, trace, rfl⟩, hnormal⟩ hstatus houtput
    | .generate file amount maxDepth => exact absurd rfl (hcommand file amount maxDepth)
  · obtain ⟨hstatus, houtput⟩ := run_of_not_holds hholds draws
    exact .unread hholds hstatus houtput

/--
**The status of a run tells what went wrong, and only a run that went well prints
anything.** A membership question is answered in one line, for the grammar of the document.
-/
theorem run_status_output {command : Command}
    (hcommand : ∀ file amount maxDepth, command ≠ .generate file amount maxDepth)
    (content : Except ReadFault ByteArray) (draws : Draws) :
    ((command.run content draws).status = 1 ↔
      ¬ ∃ d, Document.Holds command.input.name content d) ∧
    ((command.run content draws).status = 2 ↔
      (∃ file input trace, command = .cyk file false input trace) ∧
        ∃ d, Document.Holds command.input.name content d ∧
          ∃ p ∈ d.grammar.productions,
            (∀ c, p.rhs ≠ [.terminal c]) ∧ ∀ b c, p.rhs ≠ [.var b, .var c]) ∧
    ((command.run content draws).status ≠ 1 → (command.run content draws).status ≠ 2 →
      (command.run content draws).status = 0) ∧
    ((command.run content draws).status ≠ 0 → (command.run content draws).output = "") ∧
    ∀ file convert input trace, command = .cyk file convert input trace →
      (command.run content draws).status = 0 →
        ∃ d word, Document.Holds command.input.name content d ∧ d.Asks input word ∧
          ((command.run content draws).output = "Yes\n" ∨
            (command.run content draws).output = "No\n") ∧
          ((command.run content draws).output = "Yes\n" ↔
            d.grammar.Produces d.grammar.start word) := by
  have hends := run_ends hcommand content draws
  generalize command.run content draws = o at hends ⊢
  cases hends with
  | unread hnone hstatus houtput =>
    rw [hstatus]
    refine ⟨⟨fun _ => hnone, fun _ => rfl⟩, ⟨?_, ?_⟩, by simp, fun _ => houtput, by simp⟩
    · intro h
      exact absurd h (by simp)
    · rintro ⟨_, d, hd, _⟩
      exact absurd ⟨d, hd⟩ hnone
  | @refused d hd hrefuses hstatus houtput =>
    have hproduction := Grammar.not_isNormal_iff.mp hrefuses.2
    rw [hstatus]
    refine ⟨⟨by simp, fun hnone => absurd ⟨d, hd⟩ hnone⟩,
      ⟨fun _ => ⟨hrefuses.1, d, hd, hproduction⟩, fun _ => rfl⟩, by simp, fun _ => houtput, ?_⟩
    simp
  | @done d hd hnot hstatus hanswers =>
    rw [hstatus]
    refine ⟨⟨by simp, fun hnone => absurd ⟨d, hd⟩ hnone⟩, ⟨by simp, ?_⟩, by simp, by simp, ?_⟩
    · rintro ⟨hcyk, e, he, hproduction⟩
      rw [← hd.unique he] at hproduction
      exact absurd ⟨hcyk, Grammar.not_isNormal_iff.mpr hproduction⟩ hnot
    · intro file convert input trace hcyk _
      have hanswer := hanswers file convert input trace hcyk
      exact ⟨d, _, hd, d.asks input, hanswer.yes_or_no, hanswer.yes_iff⟩

end Command

/-! ## A run that is refused -/

namespace Document

/-- Balanced brackets around nothing. -/
def brackets : Document where
  grammar := .ofList ⟨"S"⟩ [⟨⟨"S"⟩, [.terminal '(', .var ⟨"S"⟩, .terminal ')']⟩, ⟨⟨"S"⟩, []⟩]
  rest := ""

theorem ofText_brackets : ofText ⟨"g"⟩ "2\nS:(S)\nS:\n".toList = .ok brackets := by
  decide +kernel

/-- The grammar is not normal, so a membership question about it has to ask for a conversion. -/
theorem brackets_refused :
    (∀ file amount maxDepth,
      Command.cyk none false (some "()") false ≠ .generate file amount maxDepth) ∧
    ((Command.cyk none false (some "()") false).run (.ok "2\nS:(S)\nS:\n".toUTF8)
      { script := [] }).status = 2 ∧
    ((Command.cyk none false (some "()") false).run (.ok "2\nS:(S)\nS:\n".toUTF8)
      { script := [] }).output = "" := by
  have hcommand : ∀ file amount maxDepth,
      Command.cyk none false (some "()") false ≠ .generate file amount maxDepth := by simp
  have hrun := Command.run_status_output hcommand (.ok "2\nS:(S)\nS:\n".toUTF8) { script := [] }
  have hstatus := hrun.2.1.mpr ⟨⟨none, some "()", false, rfl⟩, brackets,
    holds_toUTF8 ofText_brackets, ⟨⟨"S"⟩, []⟩, by decide +kernel, by simp, by simp⟩
  exact ⟨hcommand, hstatus, hrun.2.2.2.1 (by rw [hstatus]; decide)⟩

end Document

end ContextFree
