import ContextFree.Proofs.Reading
import Mathlib.Control.Monad.Basic

/-!
# Printing and reading grammars

A printed grammar does not say which variable is its start, and a document gets its
grammar from nothing but the lines that hold something. So this module begins with what a
document *is*, said about its content lines alone: a count, as many productions, and the
rest (`ofText_eq_ok_iff`). Line numbers and the file's name only ever show in faults.

From there the two directions are short.

* A printed grammar has as many content lines as it has productions, and one more. If each
  production can be written they are what was printed, and the start that is read is the one
  of the first. It is the start that was printed if that has a production.
* What was read is printable, since every line it was read from is a line. So nothing that
  is not printable can come back from its printed form: `printing_inverse`.
-/

namespace ContextFree

/-! ## Printable grammars -/

/-- The grammar can be written so that a reader finds it again. -/
structure Grammar.IsPrintable (g : Grammar) : Prop where
  /-- The start has a production, which is what tells a reader that it is the start. -/
  start : ∃ p ∈ g.productions, p.lhs = g.start
  /-- Every name can stand between brackets. -/
  names : ∀ v ∈ g.vars, v.IsPrintable
  /-- Every terminal means itself. -/
  terminals : ∀ p ∈ g.productions, ∀ c, .terminal c ∈ p.rhs → IsPrintableTerminal c

namespace Grammar

variable {g h : Grammar}

/-- Apart from the start, being printable is a matter of single productions. -/
theorem isPrintable_iff :
    g.IsPrintable ↔
      (∃ p ∈ g.productions, p.lhs = g.start) ∧ ∀ p ∈ g.productions, p.IsPrintable := by
  constructor
  · intro hg
    refine ⟨hg.start, fun p hp => ⟨hg.names _ (lhs_mem_vars hp), fun s hs => ?_⟩⟩
    cases s with
    | terminal c => exact hg.terminals p hp c hs
    | var v => exact hg.names v (rhs_mem_vars hp hs)
  · rintro ⟨hstart, hall⟩
    refine ⟨hstart, fun v hv => ?_, fun p hp c hc => (hall p hp).rhs _ hc⟩
    rcases mem_vars.mp hv with rfl | ⟨p, hp, hv⟩
    · obtain ⟨p, hp, hlhs⟩ := hstart
      exact hlhs ▸ (hall p hp).lhs
    · rcases Production.mem_vars.mp hv with rfl | hv
      · exact (hall p hp).lhs
      · exact (hall p hp).rhs _ hv

theorem SameRules.isPrintable (hgh : g.SameRules h) (hg : g.IsPrintable) : h.IsPrintable := by
  obtain ⟨hstart, hproductions⟩ := hgh
  rw [isPrintable_iff] at hg ⊢
  rwa [hstart, hproductions] at hg

/-! ## The listing -/

theorem length_listing : g.listing.length = g.productions.size := by
  unfold listing productionsOf
  rw [List.length_append, ← List.countP_eq_length_filter, ← List.countP_eq_length_filter,
    ← Std.ExtTreeSet.length_toList,
    List.length_eq_countP_add_countP (fun p : Production => decide (p.lhs = g.start))]
  simp

/-- Something is listed first unless there is nothing to list. -/
theorem exists_listing (hne : g.productions ≠ ∅) :
    ∃ first others, g.listing = first :: others := by
  refine List.exists_cons_of_ne_nil fun hnil => hne ?_
  rw [Std.ExtTreeSet.eq_empty_iff_size_eq_zero, ← length_listing, hnil]
  rfl

/-- What is listed first is a production of the start if the start has any. -/
theorem lhs_eq_start_iff {first : Production} {others : List Production}
    (hlisting : g.listing = first :: others) :
    first.lhs = g.start ↔ ∃ p ∈ g.productions, p.lhs = g.start := by
  refine ⟨fun hlhs => ?_, fun hstart => ?_⟩
  · exact ⟨first, mem_listing.mp (hlisting ▸ List.mem_cons_self), hlhs⟩
  · obtain ⟨p, hp, hlhs⟩ := hstart
    have hmem : p ∈ g.productionsOf g.start := mem_productionsOf.mpr ⟨hp, hlhs⟩
    obtain ⟨q, rest, heq⟩ := List.exists_cons_of_ne_nil (List.ne_nil_of_mem hmem)
    rw [listing, heq, List.cons_append] at hlisting
    obtain ⟨rfl, _⟩ := List.cons.inj hlisting
    exact (mem_productionsOf.mp (heq ▸ List.mem_cons_self)).2

/-- The grammar of the listing is the grammar. -/
theorem sameRules_ofList_listing (g : Grammar) : (ofList g.start g.listing).SameRules g := by
  refine ⟨rfl, Std.ExtTreeSet.ext_mem fun p => ?_⟩
  rw [mem_ofList]
  exact mem_listing

/-- The lines of a written grammar, each with its ending. -/
theorem toList_render (g : Grammar) :
    g.render.toList =
      (Nat.toDigits 10 g.productions.size :: g.listing.map fun p => p.render.toList).flatMap
        (· ++ ['\n']) := by
  simp [render, String.toList_append, String.toList_join, List.flatMap_map]

end Grammar

/-! ## Documents by their content lines -/

namespace Document

/-- The lines that hold something besides blanks. -/
def contents (text : List Char) : List (List Char) :=
  (Text.lines text).filter fun line => !line.all Text.isBlank

theorem mem_contents {text line : List Char} :
    line ∈ contents text ↔ line ∈ Text.lines text ∧ ∃ c ∈ line, Text.isBlank c = false := by
  rw [contents, List.mem_filter, Bool.not_eq_true', isContent_iff]

theorem contentLines_map_snd (text : List Char) :
    (contentLines text).map Prod.snd = contents text := by
  unfold contentLines contents
  generalize 1 = number
  induction Text.lines text generalizing number with
  | nil => rfl
  | cons line rest ih =>
    have htail := ih (number + 1)
    rw [List.zipIdx_cons, List.filterMap_cons, List.filter_cons]
    cases hblank : line.all Text.isBlank with
    | true => simpa [hblank] using htail
    | false => simpa [hblank] using htail

/-! ### Lines that are there to be read -/

/-- The line is a content line of its own once it is written with an ending. -/
structure IsContent (line : List Char) : Prop where
  /-- It is a single line. -/
  feed_notMem : '\n' ∉ line
  /-- No part of it is taken for the ending. -/
  last : line.getLast? ≠ some '\r'
  /-- It is not passed over. -/
  not_blank : line.all Text.isBlank = false

theorem contents_ended {ls : List (List Char)} (h : ∀ line ∈ ls, IsContent line) :
    contents (ls.flatMap (· ++ ['\n'])) = ls := by
  unfold contents
  rw [Text.lines_ended fun line hline => ⟨(h line hline).feed_notMem, (h line hline).last⟩]
  refine List.filter_eq_self.mpr fun line hline => ?_
  rw [(h line hline).not_blank]
  rfl

theorem isContent_toDigits (n : Nat) : IsContent (Nat.toDigits 10 n) := by
  refine ⟨fun hmem => ?_, fun hlast => ?_, ?_⟩
  · exact absurd (Text.isDigit_of_mem_toDigits hmem) (by decide)
  · exact absurd (Text.isDigit_of_mem_toDigits (List.mem_of_getLast? hlast)) (by decide)
  · obtain ⟨c, digits, heq⟩ := List.exists_cons_of_ne_nil (Nat.toDigits_ne_nil (n := n))
    have hc : Text.isBlank c = false :=
      Text.not_isBlank_of_isDigit (Text.isDigit_of_mem_toDigits (heq ▸ List.mem_cons_self))
    rw [heq, List.all_cons, hc, Bool.false_and]

theorem isContent_render {p : Production} (hp : p.IsPrintable) :
    IsContent p.render.toList := by
  refine ⟨hp.feed_notMem, fun hlast => ?_, ?_⟩
  · exact absurd (hp.last '\r' hlast) (by decide)
  · obtain ⟨line, heq⟩ := List.head?_eq_some_iff.mp p.head?_render
    rw [heq, List.all_cons]
    rfl

/-! ### Documents -/

variable {file : Path}

/--
**What a document is.** Its content lines are a count, as many productions as it says, and
a rest. The first production is for the start variable.
-/
theorem ofText_eq_ok_iff {text : List Char} {d : Document} :
    ofText file text = .ok d ↔
      ∃ countLine body rest first others,
        contents text = countLine :: (body ++ rest) ∧
        readCount countLine = some body.length ∧
        body.map Production.read = (first :: others).map .ok ∧
        d = { grammar := .ofList first.lhs (first :: others)
              rest := "\n".intercalate (rest.map String.ofList) } := by
  rw [← contentLines_map_snd]
  constructor
  · intro h
    rw [ofText_eq_iff] at h
    generalize contentLines text = numbered at h
    cases h with
    | @document number countLine announced rest _ hcount hd =>
      obtain ⟨first, others, hps, rfl⟩ := (collects_iff (List.length_pos_iff.mp hcount.pos)).mp hd
      refine ⟨countLine, announced.map Prod.snd, rest.map Prod.snd, first, others, ?_, ?_, ?_, ?_⟩
      · rw [List.map_cons, List.map_append]
      · rw [List.length_map]
        exact readCount_eq_some_iff.mpr hcount
      · rw [List.map_map]
        exact hps
      · rw [List.map_map]
        rfl
  · intro h
    obtain ⟨countLine, body, rest, first, others, hlines, hcount, hps, rfl⟩ := h
    obtain ⟨⟨number, line⟩, numbered, hcontent, rfl, hnumbered⟩ := List.map_eq_cons_iff.mp hlines
    obtain ⟨announced, back, rfl, rfl, rfl⟩ := List.map_eq_append_iff.mp hnumbered
    rw [List.length_map] at hcount
    rw [List.map_map] at hps
    rw [ofText_eq_of_values hcontent hcount hps, List.map_map]
    rfl

/-! ## Printed, then read -/

variable {g : Grammar}

/-- If every production can be written, the content lines are the lines that were printed. -/
theorem contents_render (hg : ∀ p ∈ g.productions, p.IsPrintable) :
    contents g.render.toList =
      Nat.toDigits 10 g.productions.size :: g.listing.map fun p => p.render.toList := by
  rw [Grammar.toList_render]
  refine contents_ended (List.forall_mem_cons.mpr ⟨isContent_toDigits _, fun line hline => ?_⟩)
  obtain ⟨p, hp, rfl⟩ := List.mem_map.mp hline
  exact isContent_render (hg p (Grammar.mem_listing.mp hp))

theorem readCount_toDigits {n : Nat} (hpos : 0 < n) (hlimit : n < countLimit) :
    readCount (Nat.toDigits 10 n) = some n := by
  have hblank : ∀ c ∈ Nat.toDigits 10 n, Text.isBlank c = false :=
    fun c hc => Text.not_isBlank_of_isDigit (Text.isDigit_of_mem_toDigits hc)
  have htrim : Text.trim (Nat.toDigits 10 n) = Nat.toDigits 10 n :=
    Text.trim_eq_self (fun c hc => hblank c (List.mem_of_head? hc))
      (fun c hc => hblank c (List.mem_of_getLast? hc))
  unfold readCount
  rw [htrim, Text.numeral?_toDigits hlimit]
  exact if_pos (by simpa using hpos)

/--
**The productions read back**, if each of them can be written and there is a count for them.
The start that is read is the one of the production listed first.
-/
theorem ofText_render_listing (hg : ∀ p ∈ g.productions, p.IsPrintable) {first : Production}
    {others : List Production} (hlisting : g.listing = first :: others)
    (hsize : g.productions.size < countLimit) :
    ofText file g.render.toList = .ok { grammar := .ofList first.lhs g.listing, rest := "" } := by
  have hpos : 0 < g.productions.size := by
    rw [← Grammar.length_listing, hlisting]
    exact Nat.succ_pos _
  have hread : ∀ p ∈ g.listing, Production.read p.render.toList = .ok p :=
    fun p hp => Production.read_render (hg p (Grammar.mem_listing.mp hp))
  refine ofText_eq_ok_iff.mpr ⟨Nat.toDigits 10 g.productions.size,
    g.listing.map fun p => p.render.toList, [], first, others,
    ?_, ?_, ?_, ?_⟩
  · rw [contents_render hg, List.append_nil]
  · rw [List.length_map, Grammar.length_listing]
    exact readCount_toDigits hpos hsize
  · rw [List.map_map, ← hlisting]
    exact List.map_congr_left hread
  · rw [← hlisting]
    rfl

/-- **A printable grammar reads back**, its start included. -/
theorem ofText_render (hg : g.IsPrintable) (hsize : g.productions.size < countLimit) :
    ofText file g.render.toList = .ok { grammar := .ofList g.start g.listing, rest := "" } := by
  obtain ⟨⟨p, hp, hlhs⟩, hall⟩ := Grammar.isPrintable_iff.mp hg
  obtain ⟨first, others, hlisting⟩ := Grammar.exists_listing (Std.ExtTreeSet.ne_empty_of_mem hp)
  have hfirst := (Grammar.lhs_eq_start_iff hlisting).mpr ⟨p, hp, hlhs⟩
  rw [ofText_render_listing hall hlisting hsize, hfirst]

/-! ## Read, then printed -/

/-- **Whatever was read is printable.** -/
theorem isPrintable_of_ofText {text : List Char} {d : Document} (h : ofText file text = .ok d) :
    d.grammar.IsPrintable ∧ d.grammar.productions.size < countLimit := by
  obtain ⟨countLine, body, rest, first, others, hlines, hcount, hps, rfl⟩ :=
    ofText_eq_ok_iff.mp h
  have hlength : body.length = (first :: others).length := by
    simpa using congrArg List.length hps
  refine ⟨Grammar.isPrintable_iff.mpr ⟨⟨first, Grammar.mem_ofList.mpr List.mem_cons_self, rfl⟩,
    fun p hp => ?_⟩, ?_⟩
  · -- the production was read from a line of the text, so from one without a line feed
    have hok : .ok p ∈ body.map Production.read := by
      rw [hps]
      exact List.mem_map.mpr ⟨p, Grammar.mem_ofList.mp hp, rfl⟩
    obtain ⟨line, hline, hread⟩ := List.mem_map.mp hok
    have hcontent : line ∈ contents text := by
      rw [hlines]
      exact List.mem_cons_of_mem _ (List.mem_append_left _ hline)
    have hfeed : '\n' ∉ line := Text.feed_notMem_lines line (mem_contents.mp hcontent).1
    exact Production.isPrintable_of_read hfeed hread
  · have hle : (Grammar.ofList first.lhs (first :: others)).productions.size ≤ body.length := by
      rw [hlength]
      exact Std.ExtTreeSet.size_ofList_le
    exact Nat.lt_of_le_of_lt hle (readCount_eq_some_iff.mp hcount).limit

/--
**Printing and reading are inverse on the printable grammars and on no others.** A count
has to be below its limit, and what was read keeps to that too.
-/
theorem printing_inverse :
    (∀ (g : Grammar) (file : Path),
      (∃ d, ofText file g.render.toList = .ok d ∧ d.grammar.SameRules g ∧ d.rest = "") ↔
        g.IsPrintable ∧ g.productions.size < countLimit) ∧
    ∀ (file : Path) (text : List Char) (d : Document), ofText file text = .ok d →
      d.grammar.IsPrintable ∧ d.grammar.productions.size < countLimit ∧
        ∀ file' : Path, ∃ e, ofText file' d.grammar.render.toList = .ok e ∧
          e.grammar.SameRules d.grammar ∧ e.rest = "" := by
  constructor
  · intro g file
    constructor
    · rintro ⟨d, hread, hsame, _⟩
      obtain ⟨hprintable, hsize⟩ := isPrintable_of_ofText hread
      exact ⟨hsame.isPrintable hprintable, hsame.2 ▸ hsize⟩
    · rintro ⟨hprintable, hsize⟩
      exact ⟨_, ofText_render hprintable hsize, g.sameRules_ofList_listing, rfl⟩
  · intro file text d hread
    obtain ⟨hprintable, hsize⟩ := isPrintable_of_ofText hread
    refine ⟨hprintable, hsize, fun file' => ?_⟩
    exact ⟨_, ofText_render hprintable hsize, d.grammar.sameRules_ofList_listing, rfl⟩

/-- Two productions and a word, written as loosely as a document may be. -/
def loose : List Char :=
  " +2\r\n\n <long name> : : <a:b\r> é\r\nS:\n\n word".toList

/-- A name with a blank, a name with a colon and a carriage return, and the colon itself. -/
def loosened : Document where
  grammar :=
    .ofList ⟨"long name"⟩
      [⟨⟨"long name"⟩, [.terminal ':', .var ⟨"a:b\r"⟩, .terminal 'é']⟩, ⟨⟨"S"⟩, []⟩]
  rest := " word"

theorem loosened_reads_back :
    ofText ⟨"g"⟩ loose = .ok loosened ∧ loosened.grammar.IsPrintable ∧
      ∃ e, ofText ⟨"g"⟩ loosened.grammar.render.toList = .ok e ∧
        e.grammar.SameRules loosened.grammar ∧ e.rest = "" := by
  have hread : ofText ⟨"g"⟩ loose = .ok loosened := by decide +kernel
  obtain ⟨hprintable, _, hback⟩ := printing_inverse.2 ⟨"g"⟩ loose loosened hread
  exact ⟨hread, hprintable, hback ⟨"g"⟩⟩

end Document

end ContextFree
