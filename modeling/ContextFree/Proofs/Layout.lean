import ContextFree.Proofs.Document
import Mathlib.Logic.Relation

/-!
# Layout

How a document is laid out is up to its writer. Blank lines can be put anywhere, lines can
end either way, and a production can have blanks between its symbols and brackets around its
letters.

Two things carry this, one for the lines and one for what is on them.

**A text says what its trimmed content lines say.** The count and the productions are read
from lines whose ends do not matter, and the word is the first one of the first line of the
rest. So an edit of whole lines, which leaves the trimmed content lines as they were, changes
nothing: `Document.means_iff`.

**Outside of names a line can be cut between two items.** A place where every bracket that was
opened has been closed again is never inside an item, so what is put there stands between the
items of the line and becomes one of them.
-/

namespace ContextFree

/-! ## Edits -/

/-- Every bracket that is opened here is closed again. -/
def OutsideName (left : List Char) : Prop :=
  ∀ before after, left = before ++ '<' :: after → '>' ∈ after

theorem outsideName_of_notMem {left : List Char} (h : '<' ∉ left) : OutsideName left :=
  fun _ _ heq => absurd (heq ▸ List.mem_append_right _ List.mem_cons_self) h

/-- A line written differently. -/
inductive LineEdit : List Char → List Char → Prop where
  /-- A blank is put outside of a name. -/
  | blank {left right : List Char} {c : Char} (hout : OutsideName left)
      (hblank : Text.isBlank c = true) (hfeed : c ≠ '\n') :
      LineEdit (left ++ right) (left ++ c :: right)
  /-- Brackets are put around a letter outside of a name. -/
  | brackets {left right : List Char} {c : Char} (hout : OutsideName left)
      (hletter : c.isAlpha = true) :
      LineEdit (left ++ c :: right) (left ++ '<' :: c :: '>' :: right)

namespace Document

/-- The text has a line here, and it is one of the productions that were announced. -/
structure IsProductionLine (before line after : List Char) : Prop where
  starts : Text.StartsLine before
  single : '\n' ∉ line
  ends : Text.EndsLine after
  /-- It is no blank line. -/
  content : ∃ c ∈ line, Text.isBlank c = false
  /-- Fewer productions than announced come before it. -/
  announced : ∃ countLine earlier count, contents before = countLine :: earlier ∧
    Announces countLine count ∧ earlier.length < count

/-- A text laid out differently. -/
inductive Edit : List Char → List Char → Prop where
  /-- A blank line is put where a line starts. -/
  | blankLine {before after blanks : List Char} (hstart : Text.StartsLine before)
      (hblank : ∀ c ∈ blanks, Text.isBlank c = true) (hfeed : '\n' ∉ blanks) :
      Edit (before ++ after) (before ++ (blanks ++ '\n' :: after))
  /-- A blank line without a line feed of its own is put at the end. -/
  | openLine {text blanks : List Char} (hstart : Text.StartsLine text)
      (hblank : ∀ c ∈ blanks, Text.isBlank c = true) (hfeed : '\n' ∉ blanks) :
      Edit text (text ++ blanks)
  /-- The last line gets a line feed, and a blank line is put behind it. -/
  | lastLine {text blanks : List Char} (hblank : ∀ c ∈ blanks, Text.isBlank c = true)
      (hfeed : '\n' ∉ blanks) : Edit text (text ++ '\n' :: blanks)
  /-- Every line feed gets a carriage return. -/
  | returns (text : List Char) : Edit text (Text.withReturns text)
  /-- A production is written differently. -/
  | line {before line line' after : List Char} (hline : IsProductionLine before line after)
      (hedit : LineEdit line line') : Edit (before ++ (line ++ after)) (before ++ (line' ++ after))

end Document

/-! ## Lines written differently -/

namespace Item

/-- If no name is open behind some characters, no item that they begin reaches beyond them. -/
theorem not_beyond {item : Item} {left beyond : List Char} (h : item.text = left ++ beyond)
    (hne : left ≠ []) (hout : OutsideName left) : beyond = [] := by
  obtain ⟨c, left, rfl⟩ := List.exists_cons_of_ne_nil hne
  cases item with
  | char d hd => exact (List.append_eq_nil_iff.mp (List.cons.inj h).2.symm).2
  | name cs _ hcs =>
    obtain ⟨hopen, hrest⟩ := List.cons.inj h
    have hclosed : '>' ∈ left := hout [] left (by rw [← hopen]; rfl)
    have hnot : '>' ∉ cs := fun hmem => (hcs '>' hmem).2 rfl
    rcases List.append_eq_append_iff.mp hrest with ⟨close, hleft, hclose⟩ | ⟨name, hname, _⟩
    · cases close with
      | nil =>
        rw [hleft, List.append_nil] at hclosed
        exact absurd hclosed hnot
      | cons d close => exact (List.append_eq_nil_iff.mp (List.cons.inj hclose).2.symm).2
    · exact absurd (hname ▸ List.mem_append_left name hclosed) hnot

/-- A line can be cut between two items wherever no name is open. -/
theorem exists_cut {items : List Item} {left right : List Char}
    (h : spell items = left ++ right) (hout : OutsideName left) :
    ∃ front back, items = front ++ back ∧ spell front = left ∧ spell back = right := by
  induction items generalizing left with
  | nil =>
    obtain ⟨rfl, rfl⟩ := List.append_eq_nil_iff.mp h.symm
    exact ⟨[], [], rfl, rfl, rfl⟩
  | cons item items ih =>
    by_cases hleft : left = []
    · subst hleft
      exact ⟨[], item :: items, rfl, rfl, h⟩
    · rw [spell_cons] at h
      obtain ⟨tail, rfl⟩ : ∃ tail, left = item.text ++ tail := by
        rcases List.append_eq_append_iff.mp h with ⟨tail, htail, _⟩ | ⟨beyond, htext, _⟩
        · exact ⟨tail, htail⟩
        · have hbeyond := not_beyond htext hleft hout
          exact ⟨[], by rw [htext, hbeyond, List.append_nil, List.append_nil]⟩
      have htail : OutsideName tail := by
        intro before after heq
        exact hout (item.text ++ before) after (by rw [heq, List.append_assoc])
      rw [List.append_assoc, List.append_cancel_left_eq] at h
      obtain ⟨front, back, rfl, hfront, hback⟩ := ih h htail
      exact ⟨item :: front, back, rfl, by rw [spell_cons, hfront], hback⟩

end Item

namespace LineEdit

variable {line line' : List Char}

theorem tokens_eq (h : LineEdit line line') {items : List Item} (hline : Item.spell items = line) :
    ∃ items', Item.spell items' = line' ∧ Item.tokens items' = Item.tokens items := by
  cases h with
  | @blank left right c hout hblank _ =>
    obtain ⟨front, back, rfl, rfl, rfl⟩ := Item.exists_cut hline hout
    obtain ⟨_, hopen, hclose, _⟩ := Token.of_isBlank hblank
    refine ⟨front ++ .char c ⟨hopen, hclose⟩ :: back, ?_, ?_⟩
    · rw [Item.spell_append, Item.spell_cons]
      rfl
    · rw [Item.tokens_append, Item.tokens_append, Item.tokens_cons, Item.token?,
        Token.ofChar?_blank hblank]
      rfl
  | @brackets left right c hout hletter =>
    obtain ⟨front, back, rfl, rfl, hback⟩ := Item.exists_cut hline hout
    cases back with
    | nil => exact absurd hback (by simp [Item.spell])
    | cons item back =>
      rw [Item.spell_cons] at hback
      cases item with
      | name cs _ _ =>
        -- a bracket is no letter
        exact absurd hletter ((List.cons.inj hback).1 ▸ by decide)
      | char d hd =>
        obtain ⟨rfl, rfl⟩ := List.cons.inj hback
        have hname : ∀ e ∈ [d], e ≠ '<' ∧ e ≠ '>' := fun e he => List.mem_singleton.mp he ▸ hd
        refine ⟨front ++ .name [d] (List.cons_ne_nil _ _) hname :: back, ?_, ?_⟩
        · rw [Item.spell_append, Item.spell_cons]
          rfl
        · have hmeaning : Token.ofChar? d = some (.var ⟨d.toString⟩) := Token.ofChar?_letter hletter
          rw [Item.tokens_append, Item.tokens_append, Item.tokens_cons, Item.tokens_cons,
            Item.token?, Item.token?, hmeaning]
          rfl

/-- A line that is written differently is still the same production. -/
theorem read_eq (h : LineEdit line line') {p : Production}
    (hp : Production.read line = .ok p) : Production.read line' = .ok p := by
  obtain ⟨ts, hline, hts⟩ := Production.read_eq_ok_iff.mp hp
  obtain ⟨items, hspell, rfl⟩ := Token.readLine_eq_ok_iff.mp hline
  obtain ⟨items', rfl, htokens⟩ := h.tokens_eq hspell
  rw [Production.read_spell, htokens, hts]

/-- Nothing of the line is lost. -/
theorem sublist (h : LineEdit line line') : line.Sublist line' := by
  cases h with
  | blank => exact (List.Sublist.refl _).append (List.sublist_cons_self _ _)
  | brackets =>
    exact (List.Sublist.refl _).append (.cons _ (.cons_cons _ (List.sublist_cons_self _ _)))

theorem feed_notMem (h : LineEdit line line') (hline : '\n' ∉ line) : '\n' ∉ line' := by
  cases h with
  | blank _ _ hfeed => simpa [hfeed.symm] using hline
  | brackets => simpa using hline

end LineEdit

namespace Document

/-! ## What a text says -/

/-- The content lines of a text without the blanks at their ends. -/
def entries (text : List Char) : List (List Char) :=
  (contents text).map Text.trim

/-- The text is a document with this grammar and this word. -/
def Means (text : List Char) (g : Grammar) (word : List Char) : Prop :=
  ∃ countLine body rest first others, entries text = countLine :: (body ++ rest) ∧
    readCount countLine = some body.length ∧
    body.map Production.read = (first :: others).map .ok ∧
    g = .ofList first.lhs (first :: others) ∧ word = (rest.head?.map Text.firstWord).getD []

theorem readCount_trim (line : List Char) : readCount (Text.trim line) = readCount line := by
  unfold readCount
  rw [Text.trim_trim]

theorem firstWord_rest {rest : List (List Char)}
    (h : ∀ line ∈ rest, ∃ c ∈ line, Text.isBlank c = false) :
    Text.firstWord ("\n".intercalate (rest.map String.ofList)).toList =
      ((rest.map Text.trim).head?.map Text.firstWord).getD [] := by
  rw [Text.toList_intercalate_feed]
  cases rest with
  | nil => rfl
  | cons line rest =>
    have hline := h line List.mem_cons_self
    have hword : ∀ more : List Char, (∀ c ∈ more.head?, Text.isBlank c = true) →
        Text.firstWord (line ++ more) = Text.firstWord (Text.trim line) := by
      intro more hmore
      rw [Text.firstWord_append hline hmore, Text.firstWord_trim hline]
    cases rest with
    | nil =>
      rw [List.intercalate_singleton, ← List.append_nil line, hword [] (by simp), List.append_nil]
      rfl
    | cons next rest =>
      rw [List.intercalate_cons_cons, List.append_assoc]
      refine hword _ fun c hc => ?_
      rw [← Option.some.inj hc]
      decide

variable {file : Path} {text text' : List Char} {g : Grammar} {word : List Char}

theorem content_of_rest {countLine line : List Char} {body rest : List (List Char)}
    (hcontents : contents text = countLine :: (body ++ rest)) (hline : line ∈ rest) :
    ∃ c ∈ line, Text.isBlank c = false := by
  have hmem : line ∈ contents text := by
    rw [hcontents]
    exact List.mem_cons_of_mem _ (List.mem_append_right _ hline)
  exact (mem_contents.mp hmem).2

/-- **A text says what its trimmed content lines say**, if only the grammar and the word count. -/
theorem means_iff :
    Means text g word ↔ ∃ d, ofText file text = .ok d ∧ d.grammar = g ∧ d.word = word := by
  constructor
  · intro h
    obtain ⟨countLine, body, rest, first, others, hentries, hcount, hps, rfl, rfl⟩ := h
    obtain ⟨countLine, lines, hcontents, rfl, hlines⟩ := List.map_eq_cons_iff.mp hentries
    obtain ⟨body, rest, rfl, rfl, rfl⟩ := List.map_eq_append_iff.mp hlines
    have hread : body.map Production.read = (first :: others).map .ok := by
      rw [← hps, List.map_map]
      exact List.map_congr_left fun line _ => (Production.read_trim line).symm
    rw [readCount_trim, List.length_map] at hcount
    refine ⟨_, ofText_eq_ok_iff.mpr ⟨countLine, body, rest, first, others, hcontents, hcount,
      hread, rfl⟩, rfl, ?_⟩
    exact firstWord_rest fun line hline => content_of_rest hcontents hline
  · intro h
    obtain ⟨d, hd, rfl, rfl⟩ := h
    obtain ⟨countLine, body, rest, first, others, hcontents, hcount, hps, rfl⟩ :=
      ofText_eq_ok_iff.mp hd
    refine ⟨Text.trim countLine, body.map Text.trim, rest.map Text.trim, first, others,
      ?_, ?_, ?_, rfl, ?_⟩
    · rw [entries, hcontents, List.map_cons, List.map_append]
    · rw [readCount_trim, List.length_map]
      exact hcount
    · rw [← hps, List.map_map]
      exact List.map_congr_left fun line _ => Production.read_trim line
    · exact firstWord_rest fun line hline => content_of_rest hcontents hline

/-! ### Entries line by line -/

section Entries

variable {before line after : List Char}

theorem contents_append (h : Text.StartsLine before) (after : List Char) :
    contents (before ++ after) = contents before ++ contents after := by
  rw [contents, Text.lines_append h, List.filter_append]
  rfl

theorem entries_append (h : Text.StartsLine before) (after : List Char) :
    entries (before ++ after) = entries before ++ entries after := by
  rw [entries, contents_append h, List.map_append]
  rfl

theorem entries_last (h : '\n' ∉ line) :
    entries line = if line.all Text.isBlank then [] else [Text.trim line] := by
  rw [entries, contents, Text.lines_last h]
  by_cases hblank : line.all Text.isBlank = true
  · rw [if_pos hblank]
    cases line with
    | nil => rfl
    | cons c line =>
      rw [if_neg (by simp), List.filter_cons_of_neg (by simpa using hblank)]
      rfl
  · rw [if_neg hblank, if_neg, List.filter_cons_of_pos (by simpa using hblank)]
    · rfl
    · intro hnil
      exact hblank (by rw [List.isEmpty_iff.mp hnil]; rfl)

/-- What a line says does not depend on how it ends. -/
theorem entries_ended (h : '\n' ∉ line) (rest : List Char) :
    entries (line ++ '\n' :: rest) = entries line ++ entries rest := by
  rw [entries_last h, entries, contents, Text.lines_append_feed h, List.filter_cons,
    Text.all_isBlank_dropReturn]
  by_cases hblank : line.all Text.isBlank = true
  · rw [hblank]
    rfl
  · rw [if_neg hblank, if_pos (by simpa using hblank), List.map_cons, Text.trim_dropReturn]
    rfl

theorem entries_line (h : '\n' ∉ line) (hafter : Text.EndsLine after) :
    entries (line ++ after) = entries line ++ entries after := by
  cases after with
  | nil =>
    rw [List.append_nil]
    exact (List.append_nil _).symm
  | cons c rest =>
    rw [hafter c rfl, entries_ended h]
    exact congrArg (entries line ++ ·) (entries_ended List.not_mem_nil rest).symm

theorem entries_blank (hblank : ∀ c ∈ line, Text.isBlank c = true) (hfeed : '\n' ∉ line) :
    entries line = [] := by
  rw [entries_last hfeed, if_pos (List.all_eq_true.mpr hblank)]

theorem entries_feed (text : List Char) : entries (text ++ ['\n']) = entries text := by
  induction text using Text.line_induction with
  | last line hline =>
    rw [entries_ended hline]
    exact List.append_nil _
  | ended line rest hline ih =>
    rw [List.append_assoc, List.cons_append, entries_ended hline, entries_ended hline, ih]

theorem entries_return (h : '\n' ∉ line) : entries (line ++ ['\r']) = entries line := by
  have hfeed : '\n' ∉ line ++ ['\r'] := by simpa using h
  have hreturn : ['\r'].all Text.isBlank = true := by decide
  rw [entries_last hfeed, entries_last h, List.all_append, hreturn, Bool.and_true,
    Text.trim_append_blanks (List.all_eq_true.mp hreturn)]

theorem entries_withReturns (text : List Char) :
    entries (Text.withReturns text) = entries text := by
  induction text using Text.line_induction with
  | last line hline =>
    have hsame : Text.withReturns line = line := by
      rw [← List.append_nil line, Text.withReturns_append hline]
      rfl
    rw [hsame]
  | ended line rest hline ih =>
    have hended : Text.withReturns (line ++ '\n' :: rest) =
        (line ++ ['\r']) ++ '\n' :: Text.withReturns rest := by
      rw [Text.withReturns_append hline, List.append_assoc]
      rfl
    rw [hended, entries_ended (by simpa using hline), entries_ended hline, entries_return hline,
      ih]

end Entries

/-! ## Edits change nothing -/

/-- One of the announced lines among the entries of a text may be any line for its production. -/
theorem Means.exchange {countLine line line' : List Char} {earlier later : List (List Char)}
    {count : Nat} (h : Means text g word)
    (hentries : entries text = countLine :: (earlier ++ line :: later))
    (hcount : readCount countLine = some count) (hlt : earlier.length < count)
    (hline : ∀ p, Production.read line = .ok p → Production.read line' = .ok p)
    (hentries' : entries text' = countLine :: (earlier ++ line' :: later)) :
    Means text' g word := by
  obtain ⟨countLine', body, rest, first, others, heq, hcount', hps, rfl, rfl⟩ := h
  obtain ⟨rfl, hlines⟩ := List.cons.inj (hentries.symm.trans heq)
  have hlength : body.length = count := Option.some.inj (hcount'.symm.trans hcount)
  obtain ⟨middle, rfl, rfl⟩ : ∃ middle, body = earlier ++ line :: middle ∧
      later = middle ++ rest := by
    rcases List.append_eq_append_iff.mp hlines with ⟨back, hbody, hback⟩ | ⟨back, hearlier, _⟩
    · cases back with
      | nil =>
        rw [hbody, List.append_nil] at hlength
        omega
      | cons l middle =>
        obtain ⟨rfl, hlater⟩ := List.cons.inj hback
        exact ⟨middle, hbody, hlater⟩
    · rw [hearlier, List.length_append] at hlt
      omega
  refine ⟨countLine, earlier ++ line' :: middle, rest, first, others, ?_, ?_, ?_, rfl, rfl⟩
  · rw [hentries', List.append_assoc]
    rfl
  · rw [hcount', List.length_append, List.length_append]
    rfl
  · have hread : Production.read line ∈ (first :: others).map .ok := by
      rw [← hps]
      exact List.mem_map_of_mem (List.mem_append_right _ List.mem_cons_self)
    obtain ⟨p, _, hp⟩ := List.mem_map.mp hread
    rw [← hps, List.map_append, List.map_append, List.map_cons, List.map_cons,
      hline p hp.symm, ← hp]

theorem Means.congr (h : Means text g word) (hentries : entries text' = entries text) :
    Means text' g word := by
  unfold Means
  rw [hentries]
  exact h

/-- A production line is an entry, behind the count and fewer productions than it says. -/
theorem IsProductionLine.entries_eq {before line after : List Char}
    (h : IsProductionLine before line after) :
    entries (before ++ (line ++ after)) = entries before ++ Text.trim line :: entries after := by
  have hblank : ¬ line.all Text.isBlank = true := by
    rw [isContent_iff.mpr h.content]
    decide
  rw [entries_append h.starts, entries_line h.single h.ends, entries_last h.single, if_neg hblank]
  rfl

/-- **No edit changes what a text says.** -/
theorem Edit.means (h : Edit text text') (hmeans : Means text g word) : Means text' g word := by
  cases h with
  | @blankLine before after blanks hstart hblank hfeed =>
    refine hmeans.congr ?_
    rw [entries_append hstart, entries_append hstart, entries_ended hfeed,
      entries_blank hblank hfeed, List.nil_append]
  | @openLine _ blanks hstart hblank hfeed =>
    refine hmeans.congr ?_
    rw [entries_append hstart, entries_blank hblank hfeed, List.append_nil]
  | @lastLine _ blanks hblank hfeed =>
    refine hmeans.congr ?_
    have hstart : Text.StartsLine (text ++ ['\n']) := by
      intro c hc
      rw [List.getLast?_concat] at hc
      exact (Option.some.inj hc).symm
    rw [← List.singleton_append, ← List.append_assoc, entries_append hstart,
      entries_blank hblank hfeed, List.append_nil, entries_feed]
  | returns => exact hmeans.congr (entries_withReturns text)
  | @line before line line' after hline hedit =>
    obtain ⟨countLine, earlier, count, hcontents, hcount, hlt⟩ := hline.announced
    have hbefore : entries before = Text.trim countLine :: earlier.map Text.trim := by
      rw [entries, hcontents, List.map_cons]
    have hline' : IsProductionLine before line' after := {
      starts := hline.starts
      single := hedit.feed_notMem hline.single
      ends := hline.ends
      content := by
        obtain ⟨c, hc, hnot⟩ := hline.content
        exact ⟨c, hedit.sublist.mem hc, hnot⟩
      announced := hline.announced }
    have hentries := hline.entries_eq
    have hentries' := hline'.entries_eq
    rw [hbefore, List.cons_append] at hentries hentries'
    have hcount' : readCount (Text.trim countLine) = some count := by
      rw [readCount_trim]
      exact readCount_eq_some_iff.mpr hcount
    have hsame : ∀ p, Production.read (Text.trim line) = .ok p →
        Production.read (Text.trim line') = .ok p := by
      intro p hp
      rw [Production.read_trim] at hp ⊢
      exact hedit.read_eq hp
    rw [← List.length_map (f := Text.trim)] at hlt
    exact hmeans.exchange hentries hcount' hlt hsame hentries'

/--
**Layout does not matter.** A text that was edited any number of times is still a document,
with the same grammar and the same word.
-/
theorem layout_free {file file' : Path} {text text' : List Char} {d : Document}
    (hedits : Relation.ReflTransGen Edit text text') (hread : ofText file text = .ok d) :
    ∃ d', ofText file' text' = .ok d' ∧ d'.grammar = d.grammar ∧ d'.word = d.word := by
  have hmeans : Means text d.grammar d.word := means_iff.mpr ⟨d, hread, rfl, rfl⟩
  refine means_iff.mp ?_
  induction hedits with
  | refl => exact hmeans
  | tail _ hedit ih => exact hedit.means ih

/-- A production and a word, without a character too many. -/
def tight : List Char :=
  "1\nS:(b)\nb".toList

/-- The same with a blank line, carriage returns, a tab, and brackets around the letter. -/
def airy : List Char :=
  "1\r\n \r\nS:\t(<b>)\r\nb".toList

/-- Whatever it looks like, the second line of this document is its production. -/
theorem isProductionLine_second {line : List Char} (hfeed : '\n' ∉ line)
    (hcontent : ∃ c ∈ line, Text.isBlank c = false) :
    IsProductionLine ['1', '\n'] line ['\n', 'b'] where
  starts := fun c hc => (Option.some.inj hc).symm
  single := hfeed
  ends := fun c hc => (Option.some.inj hc).symm
  content := hcontent
  announced :=
    ⟨['1'], [], 1, by decide, readCount_eq_some_iff.mp (by decide), Nat.one_pos⟩

theorem edits_airy : Relation.ReflTransGen Edit tight airy := by
  have hletter : LineEdit ['S', ':', '(', 'b', ')'] ['S', ':', '(', '<', 'b', '>', ')'] :=
    .brackets (outsideName_of_notMem (by decide : '<' ∉ ['S', ':', '('])) (by decide)
  have hcolon : LineEdit ['S', ':', '(', '<', 'b', '>', ')']
      ['S', ':', '\t', '(', '<', 'b', '>', ')'] :=
    .blank (outsideName_of_notMem (by decide : '<' ∉ ['S', ':'])) (by decide) (by decide)
  have hbrackets : Edit tight "1\nS:(<b>)\nb".toList :=
    .line (isProductionLine_second (by decide) ⟨'S', by decide, by decide⟩) hletter
  have htab : Edit "1\nS:(<b>)\nb".toList "1\nS:\t(<b>)\nb".toList :=
    .line (isProductionLine_second (by decide) ⟨'S', by decide, by decide⟩) hcolon
  have hline : Edit "1\nS:\t(<b>)\nb".toList "1\n \nS:\t(<b>)\nb".toList := by
    have hstart : Text.StartsLine ['1', '\n'] := fun c hc => (Option.some.inj hc).symm
    have hblank : ∀ c ∈ [' '], Text.isBlank c = true :=
      List.forall_mem_singleton.mpr (by decide)
    exact .blankLine hstart hblank (by decide)
  have hreturns : Edit "1\n \nS:\t(<b>)\nb".toList airy :=
    .returns "1\n \nS:\t(<b>)\nb".toList
  exact .tail (.tail (.tail (.single hbrackets) htab) hline) hreturns

/-- Four edits, and it is still the same document. -/
theorem airy_reads_alike :
    Relation.ReflTransGen Edit tight airy ∧ ∃ d, ofText ⟨"g"⟩ tight = .ok d ∧
      ∃ d', ofText ⟨"g"⟩ airy = .ok d' ∧ d'.grammar = d.grammar ∧ d'.word = d.word := by
  have hread : ofText ⟨"g"⟩ tight = .ok {
      grammar := .ofList ⟨"S"⟩ [⟨⟨"S"⟩, [.terminal '(', .var ⟨"b"⟩, .terminal ')']⟩]
      rest := "b" } := by
    decide +kernel
  exact ⟨edits_airy, _, hread, layout_free edits_airy hread⟩

end Document

end ContextFree
