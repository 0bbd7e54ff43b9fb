import ContextFree.Text

/-!
# Lines, blanks and numerals, looked at from the writer's side

What a reader of lines owes those who write them: a text made of lines that were ended
one by one has just these lines. One thing can go wrong even if no line has a line feed
in it. A carriage return at the end of a line is taken for part of the ending.

The same for the two things that are done to a line before it is looked at. Taking the
blanks off its ends changes nothing if neither end is blank, and a numeral that was
printed reads as the number it was printed from.
-/

namespace ContextFree.Text

/-! ## Splitting -/

theorem pieces_cons {separator c : Char} {cs : List Char} :
    pieces separator (c :: cs) =
      if c = separator then ([], (pieces separator cs).1 :: (pieces separator cs).2)
      else (c :: (pieces separator cs).1, (pieces separator cs).2) := rfl

/-- What stands before the first separator is the first piece. -/
theorem pieces_append_separator {separator : Char} {piece rest : List Char}
    (h : separator ∉ piece) :
    pieces separator (piece ++ separator :: rest) =
      (piece, (pieces separator rest).1 :: (pieces separator rest).2) := by
  induction piece with
  | nil => rw [List.nil_append, pieces_cons, if_pos rfl]
  | cons c piece ih =>
    obtain ⟨hne, hpiece⟩ := not_or.mp (mt List.mem_cons.mpr h)
    have hc : c ≠ separator := fun heq => hne heq.symm
    rw [List.cons_append, pieces_cons, if_neg hc, ih hpiece]

/-- The separators are gone. -/
theorem separator_notMem_pieces {separator : Char} {cs : List Char} :
    ∀ piece ∈ (pieces separator cs).1 :: (pieces separator cs).2, separator ∉ piece := by
  induction cs with
  | nil => simp [pieces]
  | cons c cs ih =>
    obtain ⟨hfirst, hrest⟩ := List.forall_mem_cons.mp ih
    rw [pieces_cons]
    split
    · exact List.forall_mem_cons.mpr ⟨List.not_mem_nil, ih⟩
    · rename_i hc
      refine List.forall_mem_cons.mpr ⟨fun hmem => ?_, hrest⟩
      rcases List.mem_cons.mp hmem with heq | hmem
      · exact hc heq.symm
      · exact hfirst hmem

/-! ## Lines -/

theorem lines_nil : lines [] = [] := rfl

/-- The line up to the first line feed comes first. -/
theorem lines_append_feed {line rest : List Char} (h : '\n' ∉ line) :
    lines (line ++ '\n' :: rest) = dropReturn line :: lines rest := by
  unfold lines
  rw [pieces_append_separator h]
  rfl

/-- Nothing is taken off a line that ends in something else. -/
theorem dropReturn_eq_self {line : List Char} (h : line.getLast? ≠ some '\r') :
    dropReturn line = line :=
  if_neg h

theorem mem_of_mem_dropReturn {line : List Char} {c : Char} (h : c ∈ dropReturn line) :
    c ∈ line := by
  unfold dropReturn at h
  split at h
  · exact (List.dropLast_sublist _).mem h
  · exact h

/-- **Lines that were ended one by one are read as they were.** -/
theorem lines_ended {ls : List (List Char)}
    (h : ∀ line ∈ ls, '\n' ∉ line ∧ line.getLast? ≠ some '\r') :
    lines (ls.flatMap (· ++ ['\n'])) = ls := by
  induction ls with
  | nil => exact lines_nil
  | cons line rest ih =>
    obtain ⟨⟨hfeed, hreturn⟩, hrest⟩ := List.forall_mem_cons.mp h
    rw [List.flatMap_cons, List.append_assoc, List.singleton_append, lines_append_feed hfeed,
      dropReturn_eq_self hreturn, ih hrest]

/-- No line has a line feed in it. -/
theorem feed_notMem_lines {cs : List Char} : ∀ line ∈ lines cs, '\n' ∉ line := by
  have hpieces : ∀ piece ∈ (pieces '\n' cs).1 :: (pieces '\n' cs).2, '\n' ∉ piece :=
    separator_notMem_pieces
  unfold lines
  generalize (pieces '\n' cs).1 = first at hpieces ⊢
  generalize (pieces '\n' cs).2 = others at hpieces ⊢
  induction others generalizing first with
  | nil =>
    intro line hline
    unfold linesOfPieces at hline
    split at hline
    · exact absurd hline List.not_mem_nil
    · rw [List.mem_singleton.mp hline]
      exact hpieces first List.mem_cons_self
  | cons next rest ih =>
    obtain ⟨hfirst, hothers⟩ := List.forall_mem_cons.mp hpieces
    refine List.forall_mem_cons.mpr ⟨fun hmem => hfirst (mem_of_mem_dropReturn hmem), ?_⟩
    exact ih next hothers

/-- A text is a line without an ending, or a line with one and the text after it. -/
theorem line_induction {P : List Char → Prop} (last : ∀ line, '\n' ∉ line → P line)
    (ended : ∀ line rest, '\n' ∉ line → P rest → P (line ++ '\n' :: rest)) (cs : List Char) :
    P cs := by
  induction hlength : cs.length using Nat.strongRecOn generalizing cs with
  | ind n ih =>
    by_cases hmem : '\n' ∈ cs
    · obtain ⟨line, rest, rfl, hline⟩ := List.eq_append_cons_of_mem hmem
      refine ended line rest hline (ih rest.length ?_ rest rfl)
      rw [← hlength, List.length_append, List.length_cons]
      omega
    · exact last cs hmem

theorem lines_last {line : List Char} (h : '\n' ∉ line) :
    lines line = if line.isEmpty then [] else [line] := by
  have hpieces : pieces '\n' line = (line, []) := by
    induction line with
    | nil => rfl
    | cons c line ih =>
      obtain ⟨hc, hline⟩ := not_or.mp (mt List.mem_cons.mpr h)
      rw [pieces_cons, if_neg fun heq => hc heq.symm, ih hline]
  unfold lines
  rw [hpieces]
  rfl

/-- A line begins behind this: nothing comes before it, or a line feed right before it. -/
def StartsLine (before : List Char) : Prop :=
  ∀ c ∈ before.getLast?, c = '\n'

/-- A line ends before this: nothing comes after it, or a line feed right after it. -/
def EndsLine (after : List Char) : Prop :=
  ∀ c ∈ after.head?, c = '\n'

/-- The same lines with a carriage return before every line feed. -/
def withReturns (cs : List Char) : List Char :=
  cs.flatMap fun c => if c = '\n' then ['\r', '\n'] else [c]

theorem withReturns_append {line : List Char} (h : '\n' ∉ line) (rest : List Char) :
    withReturns (line ++ rest) = line ++ withReturns rest := by
  induction line with
  | nil => rfl
  | cons c line ih =>
    obtain ⟨hc, hline⟩ := not_or.mp (mt List.mem_cons.mpr h)
    rw [List.cons_append, withReturns, List.flatMap_cons, if_neg fun heq => hc heq.symm]
    exact congrArg (c :: ·) (ih hline)

theorem toList_intercalate_feed (ls : List (List Char)) :
    ("\n".intercalate (ls.map String.ofList)).toList = ['\n'].intercalate ls := by
  have hchars : (ls.map String.ofList).map String.toList = ls := by
    rw [List.map_map]
    exact List.map_id'' (fun line => String.toList_ofList) ls
  rw [String.toList_intercalate, hchars]
  rfl

theorem StartsLine.tail {line rest : List Char} (h : StartsLine (line ++ '\n' :: rest)) :
    StartsLine rest := by
  intro c hc
  obtain ⟨cs, rfl⟩ := List.getLast?_eq_some_iff.mp hc
  refine h c ?_
  rw [← List.cons_append, ← List.append_assoc, List.getLast?_concat]
  rfl

/-- What comes before the beginning of a line and what comes after it are read apart. -/
theorem lines_append {before : List Char} (h : StartsLine before) (after : List Char) :
    lines (before ++ after) = lines before ++ lines after := by
  induction before using line_induction with
  | last line hline =>
    have hnil : line = [] := by
      refine List.getLast?_eq_none_iff.mp (Option.eq_none_iff_forall_not_mem.mpr fun c hc => ?_)
      exact hline (h c hc ▸ List.mem_of_getLast? hc)
    rw [hnil, lines_nil, List.nil_append, List.nil_append]
  | ended line rest hline ih =>
    rw [List.append_assoc, List.cons_append, lines_append_feed hline, lines_append_feed hline,
      ih h.tail, List.cons_append]

/-! ## Blanks -/

/-- No blank is among the characters from the exclamation mark to the tilde. -/
theorem not_isBlank_of_range {c : Char} (h : 33 ≤ c.toNat ∧ c.toNat ≤ 126) :
    isBlank c = false := by
  simp only [isBlank, blankRanges, List.any_cons, List.any_nil, Bool.or_false,
    Bool.or_eq_false_iff, Bool.and_eq_false_iff, decide_eq_false_iff_not]
  omega

theorem not_isBlank_of_isDigit {c : Char} (h : c.isDigit) : isBlank c = false := by
  have hrange : 48 ≤ c.toNat ∧ c.toNat ≤ 57 := by
    simp only [Char.isDigit, Bool.and_eq_true, decide_eq_true_eq, ge_iff_le,
      UInt32.le_iff_toNat_le] at h
    exact h
  exact not_isBlank_of_range (by omega)

theorem not_isBlank_of_isAlpha {c : Char} (h : c.isAlpha) : isBlank c = false := by
  have hrange : (65 ≤ c.toNat ∧ c.toNat ≤ 90) ∨ (97 ≤ c.toNat ∧ c.toNat ≤ 122) := by
    rcases Bool.or_eq_true_iff.mp h with hupper | hlower
    · have hcase : c.val ≥ 65 ∧ c.val ≤ 90 := of_decide_eq_true hupper
      exact .inl (by simpa [UInt32.le_iff_toNat_le] using hcase)
    · have hcase : (c.val ≥ 97 && c.val ≤ 122) = true := hlower
      exact .inr (by simpa [UInt32.le_iff_toNat_le] using hcase)
  exact not_isBlank_of_range (by omega)

/-- What is taken off is blank. -/
theorem exists_trim (cs : List Char) :
    ∃ before after, cs = before ++ (trim cs ++ after) ∧ (∀ c ∈ before, isBlank c = true) ∧
      ∀ c ∈ after, isBlank c = true := by
  have hall (xs : List Char) : ∀ c ∈ xs.takeWhile isBlank, isBlank c = true :=
    List.all_eq_true.mp List.all_takeWhile
  refine ⟨cs.takeWhile isBlank, ((cs.dropWhile isBlank).reverse.takeWhile isBlank).reverse,
    ?_, hall cs, fun c hc => hall _ c (List.mem_reverse.mp hc)⟩
  unfold trim
  rw [← List.reverse_append, List.takeWhile_append_dropWhile, List.reverse_reverse,
    List.takeWhile_append_dropWhile]

/-- A text with no blank at either end is trimmed already. -/
theorem trim_eq_self {cs : List Char} (hfirst : ∀ c ∈ cs.head?, isBlank c = false)
    (hlast : ∀ c ∈ cs.getLast?, isBlank c = false) : trim cs = cs := by
  have hkept {xs : List Char} (h : ∀ c ∈ xs.head?, isBlank c = false) :
      xs.dropWhile isBlank = xs := by
    cases xs with
    | nil => rfl
    | cons c rest => exact List.dropWhile_cons_of_neg (by simp [h c rfl])
  unfold trim
  rw [hkept hfirst, hkept (by rwa [List.head?_reverse]), List.reverse_reverse]

/-- The first word is over where a blank comes. -/
theorem firstWord_append {cs more : List Char} (h : ∃ c ∈ cs, isBlank c = false)
    (hmore : ∀ c ∈ more.head?, isBlank c = true) : firstWord (cs ++ more) = firstWord cs := by
  have hne : (cs.dropWhile isBlank).isEmpty = false := by
    obtain ⟨c, hc, hnot⟩ := h
    rw [List.isEmpty_eq_false_iff]
    intro hnil
    rw [← List.takeWhile_append_dropWhile (p := isBlank) (l := cs), hnil, List.append_nil] at hc
    rw [List.all_eq_true.mp List.all_takeWhile c hc] at hnot
    exact absurd hnot (by decide)
  have hstop : more.takeWhile (!isBlank ·) = [] := by
    cases more with
    | nil => rfl
    | cons c more => exact List.takeWhile_cons_of_neg (by simp [hmore c rfl])
  unfold firstWord
  rw [List.dropWhile_append, hne, if_neg (by decide), List.takeWhile_append, hstop,
    List.append_nil]
  split
  · rename_i hlength
    exact ((List.takeWhile_prefix _).eq_of_length hlength).symm
  · rfl

theorem firstWord_trim {cs : List Char} (h : ∃ c ∈ cs, isBlank c = false) :
    firstWord (trim cs) = firstWord cs := by
  obtain ⟨before, after, hcs, hbefore, hafter⟩ := exists_trim cs
  have hsome : ∃ c ∈ trim cs, isBlank c = false := by
    obtain ⟨c, hc, hnot⟩ := h
    refine ⟨c, ?_, hnot⟩
    rw [hcs] at hc
    rcases List.mem_append.mp hc with hc | hc
    · rw [hbefore c hc] at hnot
      exact absurd hnot (by decide)
    · rcases List.mem_append.mp hc with hc | hc
      · exact hc
      · rw [hafter c hc] at hnot
        exact absurd hnot (by decide)
  have hfirst : firstWord (before ++ (trim cs ++ after)) = firstWord (trim cs ++ after) := by
    unfold firstWord
    rw [List.dropWhile_append_of_pos hbefore]
  rw [← hcs, firstWord_append hsome fun c hc => hafter c (List.mem_of_head? hc)] at hfirst
  exact hfirst.symm

/--
The first run of characters that are not blank: blanks alone stand before it, and what
comes after it begins with a blank. It is empty only if there is nothing but blanks.
-/
def IsFirstWord (cs word : List Char) : Prop :=
  ∃ before after, cs = before ++ word ++ after ∧ (∀ c ∈ before, isBlank c) ∧
    (∀ c ∈ word, ¬ isBlank c) ∧ (∀ c ∈ after.head?, isBlank c) ∧ (word = [] → after = [])

theorem isFirstWord_firstWord (cs : List Char) : IsFirstWord cs (firstWord cs) := by
  unfold firstWord
  have hrest := List.head?_dropWhile_not isBlank cs
  have hafter := List.head?_dropWhile_not (!isBlank ·) (cs.dropWhile isBlank)
  refine ⟨cs.takeWhile isBlank, (cs.dropWhile isBlank).dropWhile (!isBlank ·), ?_, ?_, ?_, ?_, ?_⟩
  · rw [List.append_assoc, List.takeWhile_append_dropWhile, List.takeWhile_append_dropWhile]
  · exact fun c hc => List.all_eq_true.mp List.all_takeWhile c hc
  · intro c hc
    have hnot := List.all_eq_true.mp List.all_takeWhile c hc
    simpa using hnot
  · intro c hc
    rw [hc] at hafter
    simpa using hafter
  · -- an empty word leaves no room for anything that is not blank
    intro hword
    cases hcs : cs.dropWhile isBlank with
    | nil => rfl
    | cons c rest =>
      rw [hcs, List.head?_cons] at hrest
      have hc : isBlank c = false := hrest
      rw [hcs, List.takeWhile_cons_of_pos (by simp [hc])] at hword
      exact absurd hword (List.cons_ne_nil _ _)

/-- Blanks put at the end are taken off again. -/
theorem trim_append_blanks {blanks : List Char} (h : ∀ c ∈ blanks, isBlank c = true)
    (cs : List Char) : trim (cs ++ blanks) = trim cs := by
  have hdrop : blanks.dropWhile isBlank = [] := by
    rw [← List.append_nil blanks, List.dropWhile_append_of_pos h]
    rfl
  unfold trim
  rw [List.dropWhile_append]
  split
  · rename_i hnil
    rw [hdrop, List.isEmpty_iff.mp hnil]
  · rw [List.reverse_append, List.dropWhile_append_of_pos]
    exact fun c hc => h c (List.mem_reverse.mp hc)

theorem not_isBlank_of_dropWhile {cs : List Char} :
    ∀ c ∈ (cs.dropWhile isBlank).head?, isBlank c = false := by
  intro c hc
  have hnot := List.head?_dropWhile_not isBlank cs
  rw [hc] at hnot
  exact hnot

theorem trim_trim (cs : List Char) : trim (trim cs) = trim cs := by
  refine trim_eq_self (fun c hc => ?_) (fun c hc => ?_)
  · -- what is taken off at the end leaves the first character where it is
    have hprefix : trim cs <+: cs.dropWhile isBlank := by
      rw [← List.reverse_suffix, trim, List.reverse_reverse]
      exact List.dropWhile_suffix _
    obtain ⟨rest, hrest⟩ := hprefix
    have hkept : c ∈ (cs.dropWhile isBlank).head? := by
      rw [← hrest, List.head?_append, hc]
      rfl
    exact not_isBlank_of_dropWhile c hkept
  · rw [trim, List.getLast?_reverse] at hc
    exact not_isBlank_of_dropWhile c hc

theorem all_isBlank_dropReturn (line : List Char) :
    (dropReturn line).all isBlank = line.all isBlank := by
  unfold dropReturn
  split
  · rename_i hlast
    obtain ⟨cs, rfl⟩ := List.getLast?_eq_some_iff.mp hlast
    have hreturn : ['\r'].all isBlank = true := by decide
    rw [List.dropLast_concat, List.all_append, hreturn, Bool.and_true]
  · rfl

theorem trim_dropReturn (line : List Char) : trim (dropReturn line) = trim line := by
  unfold dropReturn
  split
  · rename_i hlast
    obtain ⟨cs, rfl⟩ := List.getLast?_eq_some_iff.mp hlast
    rw [List.dropLast_concat, trim_append_blanks]
    exact fun c hc => List.mem_singleton.mp hc ▸ by decide
  · rfl

/-! ## Numerals -/

theorem isDigit_of_mem_toDigits {n : Nat} {c : Char} (h : c ∈ Nat.toDigits 10 n) : c.isDigit :=
  Nat.isDigit_of_mem_toDigits (by decide) (by decide) h

theorem digits?_toDigits (n : Nat) : digits? (Nat.toDigits 10 n) = some n := by
  have hne : Nat.toDigits 10 n ≠ [] := Nat.toDigits_ne_nil
  have hdigits : (Nat.toDigits 10 n).all Char.isDigit = true :=
    List.all_eq_true.mpr fun c hc => isDigit_of_mem_toDigits hc
  unfold digits?
  rw [hdigits, Bool.and_true, if_pos (by simp),
    Nat.ofDigitChars_toDigits (by decide) (by decide)]

/-- The text is digits, perhaps behind a plus sign, and that number. -/
def IsNumeral (cs : List Char) (n : Nat) : Prop :=
  ∃ sign digits, cs = sign ++ digits ∧ (sign = [] ∨ sign = ['+']) ∧ digits ≠ [] ∧
    (∀ c ∈ digits, c.isDigit = true) ∧ Nat.ofDigitChars 10 digits 0 = n

theorem digits?_eq_some_iff {cs : List Char} {n : Nat} :
    digits? cs = some n ↔
      cs ≠ [] ∧ (∀ c ∈ cs, c.isDigit = true) ∧ Nat.ofDigitChars 10 cs 0 = n := by
  unfold digits?
  by_cases h : (!cs.isEmpty && cs.all Char.isDigit) = true
  · rw [if_pos h, Option.some.injEq]
    rw [Bool.and_eq_true, Bool.not_eq_true', List.isEmpty_eq_false_iff, List.all_eq_true] at h
    exact ⟨fun hn => ⟨h.1, h.2, hn⟩, fun hn => hn.2.2⟩
  · rw [if_neg h]
    rw [Bool.and_eq_true, Bool.not_eq_true', List.isEmpty_eq_false_iff, List.all_eq_true] at h
    exact ⟨fun hn => absurd hn (by simp), fun hn => absurd ⟨hn.1, hn.2.1⟩ h⟩

/-- **A numeral is read as its value**, and nothing else is read, nor a value beyond the limit. -/
theorem numeral?_eq_some_iff {limit n : Nat} {cs : List Char} :
    numeral? limit cs = some n ↔ IsNumeral cs n ∧ n < limit := by
  unfold numeral?
  rw [Option.filter_eq_some_iff, decide_eq_true_eq]
  refine and_congr_left' ?_
  split
  · rename_i digits
    rw [digits?_eq_some_iff]
    constructor
    · intro h
      exact ⟨['+'], digits, rfl, .inr rfl, h⟩
    · intro h
      obtain ⟨sign, others, heq, hsign, hne, hdigits, hvalue⟩ := h
      rcases hsign with rfl | rfl
      · -- a sign is no digit
        rw [List.nil_append] at heq
        exact absurd (hdigits '+' (heq ▸ List.mem_cons_self)) (by decide)
      · rw [(List.cons.inj heq).2]
        exact ⟨hne, hdigits, hvalue⟩
  · rename_i hsigned
    rw [digits?_eq_some_iff]
    constructor
    · intro h
      exact ⟨[], cs, rfl, .inl rfl, h⟩
    · intro h
      obtain ⟨sign, digits, heq, hsign, h⟩ := h
      rcases hsign with rfl | rfl
      · rw [heq]
        exact h
      · exact absurd heq (hsigned digits)

/-- A number below the limit reads back. -/
theorem numeral?_toDigits {limit n : Nat} (h : n < limit) :
    numeral? limit (Nat.toDigits 10 n) = some n := by
  refine numeral?_eq_some_iff.mpr ⟨⟨[], _, rfl, .inl rfl, ?_⟩, h⟩
  exact digits?_eq_some_iff.mp (digits?_toDigits n)

end ContextFree.Text
