import ContextFree.Proofs.Lines
import ContextFree.Token

/-!
# Lines as sequences of items

A line is read item by item, and what an item is does not depend on what comes before it
or after it. So there is a grammar of lines that does not mention the reader: an item is a
single character that is no bracket, or a name between brackets, and a line is any sequence
of items, written one behind the other.

Two facts make the grammar and the reader agree.

**Every text begins with an item, or says why it does not.** A `>` closes nothing, `<>` is
no name, and a `<` may never be closed. So a text is some items and then either its end or
a fault, and the reader gets through the items and stops at the fault.

**No item is the beginning of another one.** So the items of a line are determined by the
line, and however far some other items get, they are among those that come before the fault.
-/

namespace ContextFree

/-! ## Items -/

namespace Token

/-- What a character outside of brackets means; a blank means nothing. -/
def ofChar? (c : Char) : Option Token :=
  if Text.isBlank c then none
  else if c = ':' then some .colon
  else if c.isAlpha then some (.var ⟨c.toString⟩)
  else some (.terminal c)

theorem isNameChar_iff {c : Char} : isNameChar c ↔ c ≠ '<' ∧ c ≠ '>' := by
  simp [isNameChar]

end Token

/-- A part of a line that is read at once. -/
inductive Item where
  /-- A single character. -/
  | char (c : Char) (h : c ≠ '<' ∧ c ≠ '>')
  /-- A name between brackets. -/
  | name (cs : List Char) (hne : cs ≠ []) (h : ∀ c ∈ cs, c ≠ '<' ∧ c ≠ '>')

namespace Item

/-- How an item is written. -/
def text : Item → List Char
  | char c _ => [c]
  | name cs _ _ => '<' :: (cs ++ ['>'])

/-- The token an item is. -/
def token? : Item → Option Token
  | char c _ => Token.ofChar? c
  | name cs _ _ => some (.var ⟨String.ofList cs⟩)

/-- The line of some items. -/
def spell (items : List Item) : List Char :=
  items.flatMap text

/-- The tokens of some items, in order. -/
def tokens (items : List Item) : List Token :=
  items.filterMap token?

theorem text_ne_nil (item : Item) : item.text ≠ [] := by
  cases item <;> exact List.cons_ne_nil _ _

theorem spell_cons (item : Item) (items : List Item) :
    spell (item :: items) = item.text ++ spell items := List.flatMap_cons

theorem spell_append (items others : List Item) :
    spell (items ++ others) = spell items ++ spell others := List.flatMap_append

theorem tokens_append (items others : List Item) :
    tokens (items ++ others) = tokens items ++ tokens others := List.filterMap_append

theorem tokens_cons (item : Item) (items : List Item) :
    tokens (item :: items) = item.token?.toList ++ tokens items := by
  unfold tokens
  rw [List.filterMap_cons]
  cases item.token? <;> rfl

end Item

/-- Why no item can be read here. -/
inductive LineFault.StandsAt : LineFault → List Char → Prop where
  /-- A bracket closes nothing. -/
  | closing (rest : List Char) : StandsAt .unexpectedBracket ('>' :: rest)
  /-- There is nothing between the brackets. -/
  | empty (rest : List Char) : StandsAt .emptyVariable ('<' :: '>' :: rest)
  /-- The name runs into the end of the line. -/
  | unclosed {name : List Char} (h : ∀ c ∈ name, c ≠ '<' ∧ c ≠ '>') :
      StandsAt .unmatchedBracket ('<' :: name)
  /-- The name runs into another opening bracket. -/
  | reopened {name : List Char} (h : ∀ c ∈ name, c ≠ '<' ∧ c ≠ '>') (rest : List Char) :
      StandsAt .unmatchedBracket ('<' :: (name ++ '<' :: rest))

/-! ## Reading items -/

namespace Token

/-- No blank means anything else. -/
theorem of_isBlank {c : Char} (h : Text.isBlank c = true) :
    c ≠ ':' ∧ c ≠ '<' ∧ c ≠ '>' ∧ c.isAlpha = false := by
  refine ⟨fun hc => ?_, fun hc => ?_, fun hc => ?_, Bool.eq_false_iff.mpr fun hletter => ?_⟩
  · exact absurd (hc ▸ h) (by decide)
  · exact absurd (hc ▸ h) (by decide)
  · exact absurd (hc ▸ h) (by decide)
  · rw [Text.not_isBlank_of_isAlpha hletter] at h
    exact absurd h (by decide)

theorem ofChar?_blank {c : Char} (h : Text.isBlank c = true) : ofChar? c = none :=
  if_pos h

theorem ofChar?_letter {c : Char} (h : c.isAlpha = true) :
    ofChar? c = some (.var ⟨c.toString⟩) := by
  have hcolon : c ≠ ':' := fun hc => absurd (hc ▸ h) (by decide)
  rw [ofChar?, if_neg (by simp [Text.not_isBlank_of_isAlpha h]), if_neg hcolon, if_pos h]

theorem readFrom_char {c : Char} (h : c ≠ '<' ∧ c ≠ '>') (found : List Token)
    (rest : List Char) :
    readFrom found (c :: rest) = readFrom ((ofChar? c).toList ++ found) rest := by
  rw [readFrom]
  by_cases hblank : Text.isBlank c = true
  · obtain ⟨hcolon, _, _, hletter⟩ := of_isBlank hblank
    simp only [ofChar?, if_neg hcolon, if_neg h.1, if_neg h.2, hletter, if_pos hblank,
      Bool.false_eq_true, if_false]
    rfl
  · by_cases hcolon : c = ':'
    · simp only [ofChar?, if_neg hblank, if_pos hcolon]
      rfl
    · by_cases hletter : c.isAlpha = true
      · simp only [ofChar?, if_neg hblank, if_neg hcolon, if_neg h.1, if_neg h.2, if_pos hletter]
        rfl
      · simp only [ofChar?, if_neg hblank, if_neg hcolon, if_neg h.1, if_neg h.2, if_neg hletter]
        rfl

/-- A name ends where its closing bracket is. -/
theorem readBracketed_closed {name : List Char} (h : ∀ c ∈ name, c ≠ '<' ∧ c ≠ '>')
    (rest : List Char) :
    readBracketed ('<' :: (name ++ '>' :: rest)) =
      (if name.isEmpty then .error .emptyVariable else .ok ⟨String.ofList name⟩, rest) := by
  have hname : ∀ c ∈ name, isNameChar c = true := fun c hc => isNameChar_iff.mpr (h c hc)
  have htake : (name ++ '>' :: rest).takeWhile isNameChar = name := by
    rw [List.takeWhile_append_of_pos hname, List.takeWhile_cons_of_neg (by decide),
      List.append_nil]
  have hdrop : (name ++ '>' :: rest).dropWhile isNameChar = '>' :: rest := by
    rw [List.dropWhile_append_of_pos hname, List.dropWhile_cons_of_neg (by decide)]
  unfold readBracketed
  rw [List.tail_cons, htake, hdrop]
  rfl

/-- A name that ends nowhere or at another opening bracket is not closed. -/
theorem readBracketed_open {name rest : List Char} (h : ∀ c ∈ name, c ≠ '<' ∧ c ≠ '>')
    (hrest : rest = [] ∨ ∃ more, rest = '<' :: more) :
    readBracketed ('<' :: (name ++ rest)) = (.error .unmatchedBracket, rest.tail) := by
  have hname : ∀ c ∈ name, isNameChar c = true := fun c hc => isNameChar_iff.mpr (h c hc)
  have hdrop : (name ++ rest).dropWhile isNameChar = rest := by
    rw [List.dropWhile_append_of_pos hname]
    rcases hrest with rfl | ⟨more, rfl⟩
    · rfl
    · exact List.dropWhile_cons_of_neg (by decide)
  unfold readBracketed
  rw [List.tail_cons, hdrop]
  rcases hrest with rfl | ⟨more, rfl⟩
  · rfl
  · rfl

theorem readFrom_of_closed {cs after : List Char} {v : Variable}
    (h : readBracketed ('<' :: cs) = (.ok v, after)) (found : List Token) :
    readFrom found ('<' :: cs) = readFrom (.var v :: found) after := by
  rw [readFrom, if_neg (by decide), if_pos rfl]
  split
  · rename_i heq
    rw [h] at heq
    exact absurd heq (by simp)
  · rename_i heq
    rw [h, Prod.mk.injEq, Except.ok.injEq] at heq
    rw [heq.1, heq.2]

theorem readFrom_of_fault {cs after : List Char} {fault : LineFault}
    (h : readBracketed ('<' :: cs) = (.error fault, after)) (found : List Token) :
    readFrom found ('<' :: cs) = .error fault := by
  rw [readFrom, if_neg (by decide), if_pos rfl]
  split
  · rename_i heq
    rw [h, Prod.mk.injEq, Except.error.injEq] at heq
    rw [heq.1]
  · rename_i heq
    rw [h] at heq
    exact absurd heq (by simp)

/-- Reading gets through an item, whatever comes after it. -/
theorem readFrom_item (item : Item) (found : List Token) (rest : List Char) :
    readFrom found (item.text ++ rest) = readFrom (item.token?.toList ++ found) rest := by
  cases item with
  | char c h => exact readFrom_char h found rest
  | name cs hne h =>
    have hclosed : readBracketed ('<' :: (cs ++ '>' :: rest)) =
        (.ok ⟨String.ofList cs⟩, rest) := by
      rw [readBracketed_closed h, if_neg (by simpa using hne)]
    rw [Item.text, List.cons_append, List.append_assoc, List.singleton_append,
      readFrom_of_closed hclosed]
    rfl

/-- It gets through any number of items. -/
theorem readFrom_spell (items : List Item) (found : List Token) (rest : List Char) :
    readFrom found (Item.spell items ++ rest) =
      readFrom ((Item.tokens items).reverse ++ found) rest := by
  induction items generalizing found with
  | nil => rfl
  | cons item items ih =>
    rw [Item.spell_cons, List.append_assoc, readFrom_item, ih, Item.tokens_cons,
      List.reverse_append, List.append_assoc]
    cases item.token? <;> rfl

theorem readBracketed_standsAt {fault : LineFault} {cs : List Char}
    (h : fault.StandsAt ('<' :: cs)) :
    ∃ after, readBracketed ('<' :: cs) = (.error fault, after) := by
  cases h with
  | empty rest => exact ⟨rest, readBracketed_closed (List.forall_mem_nil _) rest⟩
  | unclosed h =>
    have hopen := readBracketed_open h (.inl rfl)
    rw [List.append_nil] at hopen
    exact ⟨_, hopen⟩
  | reopened h rest => exact ⟨_, readBracketed_open h (.inr ⟨rest, rfl⟩)⟩

/-- And it does not get past a fault. -/
theorem readFrom_standsAt {fault : LineFault} {cs : List Char} (h : fault.StandsAt cs)
    (found : List Token) : readFrom found cs = .error fault := by
  have hbracket : ∀ rest, cs = '<' :: rest → readFrom found cs = .error fault := by
    intro rest hcs
    subst hcs
    obtain ⟨_, hread⟩ := readBracketed_standsAt h
    exact readFrom_of_fault hread found
  cases h with
  | closing rest => rw [readFrom, if_neg (by decide), if_neg (by decide), if_pos rfl]
  | empty rest => exact hbracket _ rfl
  | unclosed h => exact hbracket _ rfl
  | reopened h rest => exact hbracket _ rfl

theorem readLine_spell (items : List Item) :
    readLine (Item.spell items) = .ok (Item.tokens items) := by
  have hread := readFrom_spell items [] []
  rw [List.append_nil, List.append_nil, readFrom, List.reverse_reverse] at hread
  exact hread

theorem readLine_of_standsAt {fault : LineFault} {rest : List Char} (h : fault.StandsAt rest)
    (items : List Item) : readLine (Item.spell items ++ rest) = .error fault := by
  rw [readLine, readFrom_spell]
  exact readFrom_standsAt h _

end Token

/-! ## Every text begins with an item or a fault -/

namespace Item

/-- What begins with a bracket is a name or a fault, by what the name ends with. -/
theorem begins_bracket (cs : List Char) :
    (∃ item rest, '<' :: cs = text item ++ rest) ∨
      ∃ fault, LineFault.StandsAt fault ('<' :: cs) := by
  have hname : ∀ c ∈ cs.takeWhile Token.isNameChar, c ≠ '<' ∧ c ≠ '>' :=
    fun c hc => Token.isNameChar_iff.mp (List.all_eq_true.mp List.all_takeWhile c hc)
  have hcs : cs.takeWhile Token.isNameChar ++ cs.dropWhile Token.isNameChar = cs :=
    List.takeWhile_append_dropWhile
  have hend := List.head?_dropWhile_not Token.isNameChar cs
  generalize cs.takeWhile Token.isNameChar = name at hname hcs
  generalize cs.dropWhile Token.isNameChar = rest at hcs hend
  subst hcs
  cases rest with
  | nil =>
    rw [List.append_nil]
    exact .inr ⟨_, .unclosed hname⟩
  | cons c rest =>
    by_cases hopen : c = '<'
    · rw [hopen]
      exact .inr ⟨_, .reopened hname rest⟩
    · have hclose : c = '>' := by
        have hc : Token.isNameChar c = false := hend
        by_cases h : c = '>'
        · exact h
        · rw [Token.isNameChar_iff.mpr ⟨hopen, h⟩] at hc
          exact absurd hc (by decide)
      rw [hclose]
      cases name with
      | nil => exact .inr ⟨_, .empty rest⟩
      | cons d name =>
        refine .inl ⟨.name (d :: name) (List.cons_ne_nil _ _) hname, rest, ?_⟩
        simp [text]

theorem begins (cs : List Char) :
    cs = [] ∨ (∃ item rest, cs = text item ++ rest) ∨ ∃ fault, LineFault.StandsAt fault cs := by
  cases cs with
  | nil => exact .inl rfl
  | cons c cs =>
    right
    by_cases hopen : c = '<'
    · rw [hopen]
      exact begins_bracket cs
    · by_cases hclose : c = '>'
      · rw [hclose]
        exact .inr ⟨_, .closing cs⟩
      · exact .inl ⟨.char c ⟨hopen, hclose⟩, cs, rfl⟩

/-- A text is some items, and then its end or a fault. -/
theorem exists_items (cs : List Char) :
    ∃ items rest, cs = spell items ++ rest ∧
      (rest = [] ∨ ∃ fault, LineFault.StandsAt fault rest) := by
  induction hlength : cs.length using Nat.strongRecOn generalizing cs with
  | ind n ih =>
    rcases begins cs with hnil | ⟨item, rest, hcs⟩ | hfault
    · exact ⟨[], cs, rfl, .inl hnil⟩
    · have hlt : rest.length < n := by
        have hpos := List.length_pos_iff.mpr item.text_ne_nil
        rw [← hlength, hcs, List.length_append]
        omega
      obtain ⟨items, last, hrest, hlast⟩ := ih rest.length hlt rest rfl
      refine ⟨item :: items, last, ?_, hlast⟩
      rw [hcs, hrest, spell_cons, List.append_assoc]
    · exact ⟨[], cs, rfl, .inr hfault⟩

/-! ## No item begins another -/

theorem text_append_inj {i j : Item} {r s : List Char} (h : i.text ++ r = j.text ++ s) :
    i = j ∧ r = s := by
  cases i with
  | char c hc =>
    cases j with
    | char d hd =>
      obtain ⟨rfl, rfl⟩ := List.cons.inj h
      exact ⟨rfl, rfl⟩
    | name ds _ _ => exact absurd (List.cons.inj h).1 hc.1
  | name cs _ hcs =>
    cases j with
    | char d hd => exact absurd (List.cons.inj h).1.symm hd.1
    | name ds _ hds =>
      -- both names end where the reader finds their closing bracket
      have hread : Token.readBracketed ('<' :: (cs ++ '>' :: r)) =
          Token.readBracketed ('<' :: (ds ++ '>' :: s)) := by
        simpa [text] using congrArg Token.readBracketed h
      rw [Token.readBracketed_closed hcs, Token.readBracketed_closed hds] at hread
      obtain ⟨hname, hrest⟩ := Prod.mk.inj hread
      rw [if_neg (by simpa using ‹cs ≠ []›), if_neg (by simpa using ‹ds ≠ []›), Except.ok.injEq,
        Variable.mk.injEq] at hname
      have hchars := congrArg String.toList hname
      rw [String.toList_ofList, String.toList_ofList] at hchars
      subst hchars
      exact ⟨rfl, hrest⟩

theorem not_standsAt (item : Item) (rest : List Char) (fault : LineFault) :
    ¬ fault.StandsAt (item.text ++ rest) := by
  intro hstands
  cases item with
  | char c h =>
    rw [text, List.singleton_append] at hstands
    cases hstands with
    | closing => exact h.2 rfl
    | empty => exact h.1 rfl
    | unclosed => exact h.1 rfl
    | reopened => exact h.1 rfl
  | name cs hne h =>
    rw [text, List.cons_append, List.append_assoc, List.singleton_append] at hstands
    obtain ⟨after, hread⟩ := Token.readBracketed_standsAt hstands
    rw [Token.readBracketed_closed h, if_neg (by simpa using hne), Prod.mk.injEq] at hread
    exact absurd hread.1 (by simp)

/-- If no item comes next, no items get any further than those already there. -/
theorem isPrefix_of_stuck {items others : List Item} {rest more : List Char}
    (hstuck : ∀ item after, rest ≠ text item ++ after)
    (h : spell items ++ rest = spell others ++ more) : others <+: items := by
  induction others generalizing items with
  | nil => exact List.nil_prefix
  | cons other others ih =>
    rw [spell_cons, List.append_assoc] at h
    cases items with
    | nil => exact absurd h (hstuck other _)
    | cons item items =>
      rw [spell_cons, List.append_assoc] at h
      obtain ⟨rfl, htail⟩ := text_append_inj h
      exact List.prefix_cons_inj _ |>.mpr (ih htail)

/-- **A line has one decomposition into items.** -/
theorem spell_inj {items others : List Item} (h : spell items = spell others) :
    items = others := by
  have hend : ∀ item after, [] ≠ text item ++ after :=
    fun item after hnil => item.text_ne_nil (List.append_eq_nil_iff.mp hnil.symm).1
  have hall : spell items ++ [] = spell others ++ [] := by rw [h]
  have hothers := isPrefix_of_stuck hend hall
  have hitems := isPrefix_of_stuck hend hall.symm
  exact hitems.eq_of_length_le hothers.length_le

end Item

/-! ## What is read from a line -/

namespace Token

theorem readLine_eq_ok_iff {cs : List Char} {ts : List Token} :
    readLine cs = .ok ts ↔ ∃ items, Item.spell items = cs ∧ Item.tokens items = ts := by
  constructor
  · intro h
    obtain ⟨items, rest, rfl, hrest⟩ := Item.exists_items cs
    rcases hrest with rfl | ⟨fault, hfault⟩
    · rw [List.append_nil] at h ⊢
      rw [readLine_spell, Except.ok.injEq] at h
      exact ⟨items, rfl, h⟩
    · rw [readLine_of_standsAt hfault] at h
      exact absurd h (by simp)
  · intro h
    obtain ⟨items, rfl, rfl⟩ := h
    exact readLine_spell items

theorem readLine_eq_error_iff {cs : List Char} {fault : LineFault} :
    readLine cs = .error fault ↔
      ∃ items rest, cs = Item.spell items ++ rest ∧ fault.StandsAt rest := by
  constructor
  · intro h
    obtain ⟨items, rest, rfl, hrest⟩ := Item.exists_items cs
    rcases hrest with rfl | ⟨other, hother⟩
    · rw [List.append_nil, readLine_spell] at h
      exact absurd h (by simp)
    · rw [readLine_of_standsAt hother, Except.error.injEq] at h
      exact ⟨items, rest, rfl, h ▸ hother⟩
  · intro h
    obtain ⟨items, rest, rfl, hfault⟩ := h
    exact readLine_of_standsAt hfault items

/-! ### Blanks at the ends -/

/-- A blank is an item of its own. -/
theorem exists_blanks {blanks : List Char} (h : ∀ c ∈ blanks, Text.isBlank c = true) :
    ∃ items, Item.spell items = blanks ∧ Item.tokens items = [] := by
  induction blanks with
  | nil => exact ⟨[], rfl, rfl⟩
  | cons c blanks ih =>
    obtain ⟨hc, hblanks⟩ := List.forall_mem_cons.mp h
    obtain ⟨items, hspell, htokens⟩ := ih hblanks
    obtain ⟨_, hopen, hclose, _⟩ := of_isBlank hc
    refine ⟨.char c ⟨hopen, hclose⟩ :: items, ?_, ?_⟩
    · rw [Item.spell_cons, hspell]
      rfl
    · rw [Item.tokens_cons, htokens, Item.token?, ofChar?_blank hc]
      rfl

theorem readLine_blanks_append {blanks : List Char} (h : ∀ c ∈ blanks, Text.isBlank c = true)
    (cs : List Char) : readLine (blanks ++ cs) = readLine cs := by
  obtain ⟨items, rfl, htokens⟩ := exists_blanks h
  rw [readLine, readFrom_spell, htokens]
  rfl

/-- A fault stays where it is if blanks are put behind it. -/
theorem standsAt_append_blanks {fault : LineFault} {cs blanks : List Char}
    (hblanks : ∀ c ∈ blanks, Text.isBlank c = true) (h : fault.StandsAt cs) :
    fault.StandsAt (cs ++ blanks) := by
  cases h with
  | closing rest => exact .closing _
  | empty rest => exact .empty _
  | @unclosed name hname =>
    refine .unclosed fun c hc => ?_
    rcases List.mem_append.mp hc with hc | hc
    · exact hname c hc
    · obtain ⟨_, hopen, hclose, _⟩ := of_isBlank (hblanks c hc)
      exact ⟨hopen, hclose⟩
  | reopened hname rest =>
    rw [List.cons_append, List.append_assoc, List.cons_append]
    exact .reopened hname _

theorem readLine_append_blanks {blanks : List Char} (h : ∀ c ∈ blanks, Text.isBlank c = true)
    (cs : List Char) : readLine (cs ++ blanks) = readLine cs := by
  obtain ⟨items, rest, rfl, hrest⟩ := Item.exists_items cs
  rcases hrest with rfl | ⟨fault, hfault⟩
  · obtain ⟨others, rfl, htokens⟩ := exists_blanks h
    rw [List.append_nil, ← Item.spell_append, readLine_spell, readLine_spell,
      Item.tokens_append, htokens, List.append_nil]
  · rw [List.append_assoc, readLine_of_standsAt (standsAt_append_blanks h hfault),
      readLine_of_standsAt hfault]

theorem readLine_trim (cs : List Char) : readLine (Text.trim cs) = readLine cs := by
  obtain ⟨before, after, hcs, hbefore, hafter⟩ := Text.exists_trim cs
  calc readLine (Text.trim cs)
      = readLine (Text.trim cs ++ after) := (readLine_append_blanks hafter _).symm
    _ = readLine (before ++ (Text.trim cs ++ after)) := (readLine_blanks_append hbefore _).symm
    _ = readLine cs := by rw [← hcs]

/--
**The reader accepts exactly the lines that are sequences of items.** The items are
determined by the line, and the tokens are theirs. Any other line is some items and a fault
after them; no items get further than these, and the fault is what is reported. Blanks at
the ends make no difference.
-/
theorem line_grammar :
    (∀ cs ts, readLine cs = .ok ts ↔
      ∃ items, Item.spell items = cs ∧ Item.tokens items = ts ∧
        ∀ others, Item.spell others = cs → others = items) ∧
    (∀ cs fault, readLine cs = .error fault ↔
      ∃ items rest, cs = Item.spell items ++ rest ∧ fault.StandsAt rest ∧
        ∀ others more, cs = Item.spell others ++ more → others <+: items) ∧
    ∀ cs, readLine (Text.trim cs) = readLine cs := by
  refine ⟨fun cs ts => ?_, fun cs fault => ?_, readLine_trim⟩
  · rw [readLine_eq_ok_iff]
    constructor
    · intro h
      obtain ⟨items, hspell, htokens⟩ := h
      exact ⟨items, hspell, htokens, fun others hothers => Item.spell_inj (hothers.trans hspell.symm)⟩
    · intro h
      obtain ⟨items, hspell, htokens, _⟩ := h
      exact ⟨items, hspell, htokens⟩
  · rw [readLine_eq_error_iff]
    constructor
    · intro h
      obtain ⟨items, rest, hcs, hfault⟩ := h
      refine ⟨items, rest, hcs, hfault, fun others more hothers => ?_⟩
      have hstuck : ∀ item after, rest ≠ Item.text item ++ after :=
        fun item after heq => item.not_standsAt after fault (heq ▸ hfault)
      exact Item.isPrefix_of_stuck hstuck (hcs.symm.trans hothers)
    · intro h
      obtain ⟨items, rest, hcs, hfault, _⟩ := h
      exact ⟨items, rest, hcs, hfault⟩

end Token

end ContextFree
