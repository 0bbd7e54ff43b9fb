import ContextFree.Proofs.Items

/-!
# A written production reads back

A production is written symbol by symbol, with nothing between them, and read token by
token. The two meet if every name can stand between brackets and every terminal is a
character that means itself: not a letter, which is a variable of its own, not a blank,
which is skipped, and not a bracket. The colon is such a terminal. Only the first one
separates, and that is the one behind the left-hand side.

**Written, then read.** A written symbol is an item, whatever comes after it, and the token
of that item stands for the symbol.

**Read, then written.** What is read from a line is printable again, item by item. There is
one thing to be asked of the line: no line feed, since between brackets that would be part of
a name.
-/

namespace ContextFree

/-! ## What can be written -/

/-- The name can stand between brackets. -/
structure Variable.IsPrintable (v : Variable) : Prop where
  /-- There is something between the brackets. -/
  ne_empty : v.name ≠ ""
  /-- Neither the brackets nor the line end early. -/
  chars : ∀ c ∈ v.name.toList, c ≠ '<' ∧ c ≠ '>' ∧ c ≠ '\n'

/-- The character means itself wherever it stands on the right of a production. -/
structure IsPrintableTerminal (c : Char) : Prop where
  /-- A letter is a variable. -/
  not_letter : c.isAlpha = false
  /-- A blank is skipped. -/
  not_blank : Text.isBlank c = false
  /-- A bracket opens or closes a name. -/
  not_bracket : c ≠ '<' ∧ c ≠ '>'

/-- The symbol can be written. -/
def Symbol.IsPrintable : Symbol → Prop
  | terminal c => IsPrintableTerminal c
  | var v => v.IsPrintable

/-- Every symbol of the production can be written. -/
structure Production.IsPrintable (p : Production) : Prop where
  lhs : p.lhs.IsPrintable
  rhs : ∀ s ∈ p.rhs, s.IsPrintable

theorem isPrintableTerminal_colon : IsPrintableTerminal ':' :=
  ⟨by decide, by decide, by decide⟩

/-! ## The shape of a written line -/

section Shape

theorem Variable.toList_render (v : Variable) :
    v.render.toList = '<' :: (v.name.toList ++ ['>']) := by
  simp [render, String.toList_append]

theorem Symbol.toList_render_terminal (c : Char) : (terminal c).render.toList = [c] := by
  simp [render, Char.toString]

theorem Production.toList_render (p : Production) :
    p.render.toList =
      p.lhs.render.toList ++ ':' :: p.rhs.flatMap fun s => s.render.toList := by
  simp [render, String.toList_append, String.toList_join, List.flatMap_map]

/-- What holds of the last character of each part holds of the last character of all. -/
theorem getLast?_flatMap {α : Type} {P : Char → Prop} {f : α → List Char} {as : List α}
    (h : ∀ a ∈ as, ∀ c ∈ (f a).getLast?, P c) : ∀ c ∈ (as.flatMap f).getLast?, P c := by
  induction as with
  | nil => intro c hc; exact absurd hc (by simp)
  | cons a rest ih =>
    obtain ⟨ha, hrest⟩ := List.forall_mem_cons.mp h
    intro c hc
    rw [List.flatMap_cons, List.getLast?_append, Option.mem_def, Option.or_eq_some_iff] at hc
    rcases hc with hc | ⟨_, hc⟩
    · exact ih hrest c hc
    · exact ha c hc

theorem Variable.getLast?_render (v : Variable) : v.render.toList.getLast? = some '>' := by
  rw [toList_render, ← List.cons_append, List.getLast?_concat]

/-- No written symbol ends in a blank. -/
theorem Symbol.IsPrintable.last {s : Symbol} (h : s.IsPrintable) :
    ∀ c ∈ s.render.toList.getLast?, Text.isBlank c = false := by
  cases s with
  | terminal c =>
    intro d hd
    rw [toList_render_terminal, List.getLast?_singleton, Option.mem_some_iff] at hd
    exact hd ▸ h.not_blank
  | var v =>
    intro d hd
    rw [render, v.getLast?_render, Option.mem_some_iff] at hd
    exact hd ▸ by decide

variable {p : Production}

/-- A written line begins with a bracket. -/
theorem Production.head?_render (p : Production) : p.render.toList.head? = some '<' := by
  rw [toList_render, Variable.toList_render]
  rfl

/-- It does not end in a blank: what comes last is a symbol or the colon. -/
theorem Production.IsPrintable.last (h : p.IsPrintable) :
    ∀ c ∈ p.render.toList.getLast?, Text.isBlank c = false := by
  have hrhs : ∀ c ∈ (p.rhs.flatMap fun s => s.render.toList).getLast?, Text.isBlank c = false :=
    getLast?_flatMap fun s hs => (h.rhs s hs).last
  intro c hc
  rw [toList_render, List.getLast?_append, Option.mem_def, Option.or_eq_some_iff] at hc
  rcases hc with hc | ⟨hnone, _⟩
  · rw [← List.singleton_append, List.getLast?_append, Option.or_eq_some_iff] at hc
    rcases hc with hc | ⟨_, hc⟩
    · exact hrhs c hc
    · rw [List.getLast?_singleton, Option.some.injEq] at hc
      exact hc ▸ by decide
  · exact absurd hnone (by simp)

theorem Variable.IsPrintable.feed_notMem {v : Variable} (h : v.IsPrintable) :
    '\n' ∉ v.render.toList := by
  rw [Variable.toList_render]
  intro hmem
  rcases List.mem_cons.mp hmem with heq | hmem
  · exact absurd heq (by decide)
  · rcases List.mem_append.mp hmem with hname | hclose
    · exact (h.chars '\n' hname).2.2 rfl
    · exact absurd (List.mem_singleton.mp hclose) (by decide)

theorem Symbol.IsPrintable.feed_notMem {s : Symbol} (h : s.IsPrintable) :
    '\n' ∉ s.render.toList := by
  cases s with
  | terminal c =>
    rw [toList_render_terminal]
    intro hmem
    have hblank : Text.isBlank '\n' = false := List.mem_singleton.mp hmem ▸ h.not_blank
    exact absurd hblank (by decide)
  | var v => exact Variable.IsPrintable.feed_notMem h

/-- A written production is a single line. -/
theorem Production.IsPrintable.feed_notMem (h : p.IsPrintable) : '\n' ∉ p.render.toList := by
  rw [Production.toList_render]
  intro hmem
  rcases List.mem_append.mp hmem with hmem | hmem
  · exact h.lhs.feed_notMem hmem
  · rcases List.mem_cons.mp hmem with heq | hmem
    · exact absurd heq (by decide)
    · obtain ⟨s, hs, hmem⟩ := List.mem_flatMap.mp hmem
      exact (h.rhs s hs).feed_notMem hmem

end Shape

/-! ## Written, then read -/

/-- The token a written symbol is read as. -/
def Symbol.token : Symbol → Token
  | terminal c => if c = ':' then .colon else .terminal c
  | var v => .var v

theorem Symbol.symbol_token (s : Symbol) : s.token.symbol = s := by
  cases s with
  | terminal c =>
    by_cases hc : c = ':'
    · simp [token, hc, Token.symbol]
    · simp [token, hc, Token.symbol]
  | var v => rfl

/-- A symbol is written as an item. -/
theorem Symbol.exists_item {s : Symbol} (h : s.IsPrintable) :
    ∃ item : Item, item.text = s.render.toList ∧ item.token? = some s.token := by
  cases s with
  | var v =>
    have hname : ∀ c ∈ v.name.toList, c ≠ '<' ∧ c ≠ '>' := by
      intro c hc
      obtain ⟨hopen, hclose, _⟩ := h.chars c hc
      exact ⟨hopen, hclose⟩
    refine ⟨.name v.name.toList (by simpa using h.ne_empty) hname, ?_, ?_⟩
    · rw [Symbol.render, Variable.toList_render]
      rfl
    · rw [Item.token?, String.ofList_toList]
      rfl
  | terminal c =>
    refine ⟨.char c h.not_bracket, ?_, ?_⟩
    · rw [Symbol.toList_render_terminal]
      rfl
    · rw [Item.token?, Token.ofChar?, if_neg (by simp [h.not_blank]), Symbol.token]
      by_cases hc : c = ':'
      · rw [if_pos hc, if_pos hc]
      · rw [if_neg hc, if_neg hc, if_neg (by simp [h.not_letter])]

theorem Symbol.exists_items {symbols : List Symbol} (h : ∀ s ∈ symbols, s.IsPrintable) :
    ∃ items, Item.spell items = (symbols.flatMap fun s => s.render.toList) ∧
      Item.tokens items = symbols.map token := by
  induction symbols with
  | nil => exact ⟨[], rfl, rfl⟩
  | cons s rest ih =>
    obtain ⟨hs, hrest⟩ := List.forall_mem_cons.mp h
    obtain ⟨item, htext, htoken⟩ := exists_item hs
    obtain ⟨items, hspell, htokens⟩ := ih hrest
    refine ⟨item :: items, ?_, ?_⟩
    · rw [Item.spell_cons, htext, hspell, List.flatMap_cons]
    · rw [Item.tokens_cons, htoken, htokens]
      rfl

/-- A line is a production if its tokens are. -/
theorem Production.read_eq_ok_iff {line : List Char} {p : Production} :
    Production.read line = .ok p ↔
      ∃ ts, Token.readLine line = .ok ts ∧ ofTokens ts = .ok p := by
  unfold Production.read
  cases Token.readLine line with
  | error fault => simp [bind, Except.bind]
  | ok ts => simp [bind, Except.bind]

/-- **A written production reads back.** -/
theorem Production.read_render {p : Production} (h : p.IsPrintable) :
    Production.read p.render.toList = .ok p := by
  -- what stands left of the colon and the colon itself are symbols like those on its right
  have hsymbols : ∀ s ∈ Symbol.var p.lhs :: .terminal ':' :: p.rhs, s.IsPrintable :=
    List.forall_mem_cons.mpr ⟨h.lhs, List.forall_mem_cons.mpr ⟨isPrintableTerminal_colon, h.rhs⟩⟩
  obtain ⟨items, hspell, htokens⟩ := Symbol.exists_items hsymbols
  have hline : Item.spell items = p.render.toList := by
    rw [hspell, toList_render]
    rfl
  have hread : Token.readLine p.render.toList =
      .ok (.var p.lhs :: .colon :: p.rhs.map Symbol.token) :=
    Token.readLine_eq_ok_iff.mpr ⟨items, hline, htokens⟩
  have hrhs : (p.rhs.map Symbol.token).map Token.symbol = p.rhs := by
    rw [List.map_map]
    exact List.map_id'' Symbol.symbol_token p.rhs
  refine read_eq_ok_iff.mpr ⟨_, hread, ?_⟩
  rw [ofTokens, hrhs]

/-! ## Read, then written -/

/-- What a token stands for can be written. -/
def Token.IsPrintable (t : Token) : Prop :=
  t.symbol.IsPrintable

/-- The token of an item can be written, if there is no line feed in a name. -/
theorem Item.isPrintable_token {item : Item} {t : Token} (hfeed : '\n' ∉ item.text)
    (h : item.token? = some t) : t.IsPrintable := by
  cases item with
  | name cs hne hcs =>
    rw [← Option.some.inj h]
    refine ⟨by simpa using hne, fun c hc => ?_⟩
    rw [String.toList_ofList] at hc
    obtain ⟨hopen, hclose⟩ := hcs c hc
    refine ⟨hopen, hclose, fun heq => hfeed ?_⟩
    exact List.mem_cons_of_mem _ (List.mem_append_left _ (heq ▸ hc))
  | char c hc =>
    rw [token?, Token.ofChar?] at h
    by_cases hblank : Text.isBlank c = true
    · rw [if_pos hblank] at h
      exact absurd h (by simp)
    · rw [if_neg hblank] at h
      by_cases hcolon : c = ':'
      · rw [if_pos hcolon] at h
        exact Option.some.inj h ▸ isPrintableTerminal_colon
      · rw [if_neg hcolon] at h
        by_cases hletter : c.isAlpha = true
        · rw [if_pos hletter] at h
          rw [← Option.some.inj h]
          refine ⟨by simp [Char.toString], fun d hd => ?_⟩
          have hd : d = c := by simpa [Char.toString] using hd
          rw [hd]
          exact ⟨hc.1, hc.2, fun heq => hfeed (heq ▸ List.mem_cons_self)⟩
        · rw [if_neg hletter] at h
          rw [← Option.some.inj h]
          exact ⟨by simpa using hletter, by simpa using hblank, hc⟩

/-- **A production that was read from a line can be written on one.** -/
theorem Production.isPrintable_of_read {line : List Char} {p : Production}
    (hfeed : '\n' ∉ line) (h : Production.read line = .ok p) : p.IsPrintable := by
  obtain ⟨ts, hline, hp⟩ := read_eq_ok_iff.mp h
  obtain ⟨items, rfl, htokens⟩ := Token.readLine_eq_ok_iff.mp hline
  have hts : ∀ t ∈ ts, t.IsPrintable := by
    intro t ht
    rw [← htokens] at ht
    obtain ⟨item, hitem, htoken⟩ := List.mem_filterMap.mp ht
    refine Item.isPrintable_token (fun hmem => hfeed ?_) htoken
    exact List.mem_flatMap.mpr ⟨item, hitem, hmem⟩
  unfold ofTokens at hp
  split at hp
  · rename_i lhs rhs
    obtain ⟨hlhs, hrest⟩ := List.forall_mem_cons.mp hts
    rw [← Except.ok.inj hp]
    refine ⟨hlhs, fun s hs => ?_⟩
    obtain ⟨t, ht, rfl⟩ := List.mem_map.mp hs
    exact hrest t (List.mem_cons_of_mem _ ht)
  · exact absurd hp (by simp)
  · exact absurd hp (by simp)

end ContextFree
