import ContextFree.Document
import ContextFree.Proofs.Token

/-!
# What a document is read as

A document is read in one pass, from numbered lines that are passed on from one stage to the
next. What comes out can be said without any of that. Some lines hold something besides
blanks, and each has its number. The first one is a count or it is not. If it is, the lines
it announces are there or some are missing, and each of them is a production or it is not,
whatever stands on the others. That makes five outcomes, and a text has one of them:
`Document.Reading`.

All that has to be shown is that each list in the answer is the only one with its entries in
the order of the lines: the numbered lines themselves, and the faults found on them.
-/

namespace ContextFree

/-! ## Lines on their own -/

/--
What a line is read as: its items are those of a production, or they are not, or there is a
fault after them.
-/
inductive Production.Reads : List Char → Except LineFault Production → Prop where
  | production {items : List Item} {lhs : Variable} {rhs : List Token}
      (h : Item.tokens items = .var lhs :: .colon :: rhs) :
      Reads (Item.spell items) (.ok ⟨lhs, rhs.map Token.symbol⟩)
  | missingColon {items : List Item} {lhs : Variable} {rest : List Token}
      (h : Item.tokens items = .var lhs :: rest) (hcolon : rest.head? ≠ some .colon) :
      Reads (Item.spell items) (.error .missingColon)
  | missingVariable {items : List Item}
      (h : ∀ lhs, (Item.tokens items).head? ≠ some (.var lhs)) :
      Reads (Item.spell items) (.error .missingVariable)
  | bracket {items : List Item} {rest : List Char} {fault : LineFault}
      (h : fault.StandsAt rest) : Reads (Item.spell items ++ rest) (.error fault)

namespace Production

theorem read_spell (items : List Item) :
    Production.read (Item.spell items) = ofTokens (Item.tokens items) := by
  rw [Production.read, Token.readLine_spell]
  rfl

theorem read_of_standsAt {fault : LineFault} {rest : List Char} (h : fault.StandsAt rest)
    (items : List Item) : Production.read (Item.spell items ++ rest) = .error fault := by
  rw [Production.read, Token.readLine_of_standsAt h]
  rfl

theorem reads_ofTokens (items : List Item) :
    Reads (Item.spell items) (ofTokens (Item.tokens items)) := by
  cases htokens : Item.tokens items with
  | nil => exact .missingVariable (by simp [htokens])
  | cons t ts =>
    cases t with
    | colon => exact .missingVariable (by simp [htokens])
    | terminal c => exact .missingVariable (by simp [htokens])
    | var lhs =>
      cases ts with
      | nil => exact .missingColon htokens (by simp)
      | cons u rhs =>
        cases u with
        | colon => exact .production htokens
        | var v => exact .missingColon htokens (by simp)
        | terminal c => exact .missingColon htokens (by simp)

theorem ofTokens_missingColon {lhs : Variable} {rest : List Token}
    (h : rest.head? ≠ some .colon) : ofTokens (.var lhs :: rest) = .error .missingColon := by
  unfold ofTokens
  split
  · rename_i heq
    rw [(List.cons.inj heq).2] at h
    exact absurd rfl h
  · rfl
  · rename_i hnot
    exact absurd rfl (hnot lhs rest)

theorem ofTokens_missingVariable {ts : List Token} (h : ∀ lhs, ts.head? ≠ some (.var lhs)) :
    ofTokens ts = .error .missingVariable := by
  unfold ofTokens
  split
  · exact absurd rfl (h _)
  · exact absurd rfl (h _)
  · rfl

/-- **A line is read as what its items are**, or as the fault after them. -/
theorem read_eq_iff {line : List Char} {outcome : Except LineFault Production} :
    Production.read line = outcome ↔ Reads line outcome := by
  constructor
  · intro h
    subst h
    obtain ⟨items, rest, rfl, hrest⟩ := Item.exists_items line
    rcases hrest with rfl | ⟨fault, hfault⟩
    · rw [List.append_nil, read_spell]
      exact reads_ofTokens items
    · rw [read_of_standsAt hfault]
      exact .bracket hfault
  · intro h
    cases h with
    | production h => rw [read_spell, h, ofTokens]
    | missingColon h hcolon => rw [read_spell, h, ofTokens_missingColon hcolon]
    | missingVariable h => rw [read_spell, ofTokens_missingVariable h]
    | bracket h => exact read_of_standsAt h _

/-- Blanks at the ends of a line make no difference. -/
theorem read_trim (line : List Char) :
    Production.read (Text.trim line) = Production.read line := by
  unfold Production.read
  rw [Token.readLine_trim]

end Production

/-! ## Lists in order -/

/-- Two lists of the same things are the same if both are in the same order. -/
theorem eq_of_increasing {α : Type} {r : α → α → Prop} {as bs : List α}
    (hasymm : ∀ a b, r a b → ¬ r b a) (ha : as.Pairwise r) (hb : bs.Pairwise r)
    (h : ∀ a, a ∈ as ↔ a ∈ bs) : as = bs := by
  have hnodup {xs : List α} (hxs : xs.Pairwise r) : xs.Nodup := by
    refine hxs.imp fun {a b} hab heq => ?_
    rw [heq] at hab
    exact hasymm b b hab hab
  have hperm : as.Perm bs := (List.perm_ext_iff_of_nodup (hnodup ha) (hnodup hb)).mpr h
  exact hperm.eq_of_pairwise (fun a b _ _ hab hba => absurd hba (hasymm a b hab)) ha hb

/-! ## Counts -/

/-- The line is a numeral for that many, with blanks around it, and not too many. -/
structure Document.Announces (line : List Char) (count : Nat) : Prop where
  numeral : Text.IsNumeral (Text.trim line) count
  pos : 0 < count
  limit : count < Document.countLimit

theorem Document.readCount_eq_some_iff {line : List Char} {count : Nat} :
    readCount line = some count ↔ Announces line count := by
  rw [readCount, Option.filter_eq_some_iff, Text.numeral?_eq_some_iff, decide_eq_true_eq]
  constructor
  · intro h
    obtain ⟨⟨hnumeral, hlimit⟩, hpos⟩ := h
    exact ⟨hnumeral, hpos, hlimit⟩
  · intro h
    exact ⟨⟨h.numeral, h.limit⟩, h.pos⟩

namespace Document

variable {file : Path} {text : List Char} {numbered : List (Nat × List Char)}

/-! ## Numbered lines -/

/-- The lines that hold something besides blanks, in order, each with its number. -/
structure Numbers (text : List Char) (numbered : List (Nat × List Char)) : Prop where
  increasing : numbered.Pairwise fun a b => a.1 < b.1
  mem_iff : ∀ number line, (number, line) ∈ numbered ↔
    1 ≤ number ∧ (Text.lines text)[number - 1]? = some line ∧ ∃ c ∈ line, Text.isBlank c = false

theorem isContent_iff {line : List Char} :
    line.all Text.isBlank = false ↔ ∃ c ∈ line, Text.isBlank c = false := by
  simp

/-- What is kept of a line and its number. -/
theorem kept_iff {line : List Char} {number : Nat} {kept : Nat × List Char} :
    (if line.all Text.isBlank then none else some (number, line)) = some kept ↔
      kept = (number, line) ∧ ∃ c ∈ line, Text.isBlank c = false := by
  rw [← isContent_iff]
  cases hblank : line.all Text.isBlank with
  | true => simp
  | false =>
    rw [if_neg (by decide), Option.some.injEq, and_iff_left rfl]
    exact eq_comm

theorem numbers_contentLines (text : List Char) : Numbers text (contentLines text) := by
  unfold contentLines
  constructor
  · rw [List.pairwise_filterMap]
    have hnumbers : ((Text.lines text).zipIdx 1).Pairwise fun a b => a.2 < b.2 := by
      rw [← List.pairwise_map, List.zipIdx_map_snd]
      exact List.pairwise_lt_range'
    refine hnumbers.imp fun {a b} hlt c hc d hd => ?_
    rw [(kept_iff.mp hc).1, (kept_iff.mp hd).1]
    exact hlt
  · intro number line
    rw [List.mem_filterMap]
    constructor
    · intro h
      obtain ⟨⟨line', number'⟩, hmem, hkept⟩ := h
      obtain ⟨heq, hsome⟩ := kept_iff.mp hkept
      obtain ⟨rfl, rfl⟩ := Prod.mk.inj heq
      rw [List.mk_mem_zipIdx_iff_le_and_getElem?_sub] at hmem
      exact ⟨hmem.1, hmem.2, hsome⟩
    · intro h
      obtain ⟨hpos, hline, hsome⟩ := h
      refine ⟨(line, number), ?_, kept_iff.mpr ⟨rfl, hsome⟩⟩
      exact List.mk_mem_zipIdx_iff_le_and_getElem?_sub.mpr ⟨hpos, hline⟩

theorem Numbers.eq_contentLines (h : Numbers text numbered) :
    numbered = contentLines text := by
  refine eq_of_increasing (fun _ _ => Nat.lt_asymm) h.increasing
    (numbers_contentLines text).increasing fun entry => ?_
  obtain ⟨number, line⟩ := entry
  rw [h.mem_iff, (numbers_contentLines text).mem_iff]

/-! ## Outcomes -/

/-- The faults of some numbered lines: one for each that is no production, in order. -/
structure Reports (file : Path) (numbered : List (Nat × List Char))
    (faults : List (Located DocumentFault)) : Prop where
  increasing : faults.Pairwise fun a b => a.location.line < b.location.line
  mem_iff : ∀ f, f ∈ faults ↔ ∃ number line fault, (number, line) ∈ numbered ∧
    Production.Reads line (.error fault) ∧ f = ⟨⟨file, number⟩, .line fault⟩

/-- The document has its grammar from the announced lines, and the other lines for its rest. -/
structure Collects (d : Document) (announced rest : List (Nat × List Char)) : Prop where
  /-- Every announced line is a production. -/
  wellFormed : ∀ entry ∈ announced, ∃ p, Production.Reads entry.2 (.ok p)
  productions : ∀ p, p ∈ d.grammar.productions ↔
    ∃ entry ∈ announced, Production.Reads entry.2 (.ok p)
  /-- The first line is about the start variable. -/
  start : ∀ first ∈ announced.head?, ∃ p, Production.Reads first.2 (.ok p) ∧
    d.grammar.start = p.lhs
  /-- No fresh name has been handed out yet. -/
  counter : d.grammar.counter = 0
  rest : d.rest = "\n".intercalate (rest.map fun entry => String.ofList entry.2)

/-- What a text with these numbered lines is read as. -/
inductive Reading (file : Path) :
    List (Nat × List Char) → Except (List (Located DocumentFault)) Document → Prop where
  /-- There is nothing to read. -/
  | missingCount : Reading file [] (.error [⟨.whole file, .missingCount⟩])
  /-- The first line announces nothing, and no other line is looked at. -/
  | invalidCount {number : Nat} {countLine : List Char} {body : List (Nat × List Char)}
      (hcount : ∀ count, ¬ Announces countLine count) :
      Reading file ((number, countLine) :: body)
        (.error [⟨⟨file, number⟩, .invalidCount (String.ofList (Text.trim countLine))⟩])
  /-- Lines are missing, and those that are there may have faults of their own. -/
  | missingProductions {number count : Nat} {countLine : List Char}
      {announced : List (Nat × List Char)} {faults : List (Located DocumentFault)}
      (hcount : Announces countLine count) (hshort : announced.length < count)
      (hfaults : Reports file announced faults) :
      Reading file ((number, countLine) :: announced)
        (.error (⟨.whole file, .missingProductions count announced.length⟩ :: faults))
  /-- No line is missing, and some have faults. -/
  | malformed {number : Nat} {countLine : List Char} {announced rest : List (Nat × List Char)}
      {faults : List (Located DocumentFault)}
      (hcount : Announces countLine announced.length)
      (hfault : ∃ entry ∈ announced, ∃ fault, Production.Reads entry.2 (.error fault))
      (hfaults : Reports file announced faults) :
      Reading file ((number, countLine) :: (announced ++ rest)) (.error faults)
  /-- No line is missing, and none has a fault. -/
  | document {number : Nat} {countLine : List Char} {announced rest : List (Nat × List Char)}
      {d : Document} (hcount : Announces countLine announced.length)
      (hd : d.Collects announced rest) :
      Reading file ((number, countLine) :: (announced ++ rest)) (.ok d)

/-! ### Faults and values among some results -/

section Results

variable {ε α : Type} {results : List (Except ε α)}

theorem faultOf_eq_some_iff {result : Except ε α} {fault : ε} :
    (match result with
      | .error fault => some fault
      | .ok _ => none) = some fault ↔ result = .error fault := by
  cases result with
  | error other =>
    exact ⟨fun h => congrArg _ (Option.some.inj h), fun h => congrArg _ (Except.error.inj h)⟩
  | ok value => simp

theorem mem_faultsOf {fault : ε} : fault ∈ faultsOf results ↔ .error fault ∈ results := by
  unfold faultsOf
  rw [List.mem_filterMap]
  constructor
  · intro h
    obtain ⟨result, hmem, hfault⟩ := h
    exact faultOf_eq_some_iff.mp hfault ▸ hmem
  · intro h
    exact ⟨_, h, rfl⟩

theorem valuesOf_map_ok (values : List α) :
    valuesOf (values.map (.ok : α → Except ε α)) = values := by
  induction values with
  | nil => rfl
  | cons value others ih => exact congrArg (value :: ·) ih

/-- Without a fault there are only values. -/
theorem faultsOf_eq_nil_iff : faultsOf results = [] ↔ results = (valuesOf results).map .ok := by
  constructor
  · intro h
    induction results with
    | nil => rfl
    | cons result rest ih =>
      cases result with
      | error fault => exact absurd h (List.cons_ne_nil _ _)
      | ok value => exact congrArg (.ok value :: ·) (ih h)
  · intro h
    refine List.eq_nil_iff_forall_not_mem.mpr fun fault hfault => ?_
    rw [mem_faultsOf, h, List.mem_map] at hfault
    obtain ⟨value, _, hvalue⟩ := hfault
    exact absurd hvalue (by simp)

end Results

/-! ### Faults and productions of announced lines -/

section Announced

variable {announced rest : List (Nat × List Char)} {faults : List (Located DocumentFault)}
  {d : Document} {number : Nat} {line : List Char}

theorem readProduction_eq (file : Path) (number : Nat) (line : List Char) :
    readProduction file (number, line) =
      (Production.read line).mapError fun fault => ⟨⟨file, number⟩, .line fault⟩ := by
  unfold readProduction
  dsimp only
  rw [Production.read_trim]

/-- The number of a line is for its faults only. -/
theorem map_readProduction {ps : List Production}
    (h : announced.map (fun entry => Production.read entry.2) = ps.map .ok) :
    announced.map (readProduction file) = ps.map .ok := by
  induction announced generalizing ps with
  | nil => cases ps <;> simp_all
  | cons entry entries ih =>
    cases ps with
    | nil => exact absurd h (by simp)
    | cons p others =>
      obtain ⟨hp, hothers⟩ := List.cons.inj h
      have hp : Production.read entry.2 = .ok p := hp
      rw [List.map_cons, List.map_cons, ih hothers, readProduction_eq, hp]
      rfl

theorem readProduction_eq_error_iff {f : Located DocumentFault} :
    readProduction file (number, line) = .error f ↔
      ∃ fault, Production.Reads line (.error fault) ∧ f = ⟨⟨file, number⟩, .line fault⟩ := by
  rw [readProduction_eq]
  simp only [← Production.read_eq_iff]
  cases Production.read line with
  | error fault =>
    show Except.error _ = Except.error f ↔ _
    simp [eq_comm]
  | ok q =>
    show Except.ok q = Except.error f ↔ _
    simp

theorem mem_faultsOf_announced {f : Located DocumentFault} :
    f ∈ faultsOf (announced.map (readProduction file)) ↔
      ∃ number line fault, (number, line) ∈ announced ∧
        Production.Reads line (.error fault) ∧ f = ⟨⟨file, number⟩, .line fault⟩ := by
  rw [mem_faultsOf, List.mem_map]
  constructor
  · intro h
    obtain ⟨⟨number, line⟩, hmem, hread⟩ := h
    obtain ⟨fault, hfault, hf⟩ := readProduction_eq_error_iff.mp hread
    exact ⟨number, line, fault, hmem, hfault, hf⟩
  · intro h
    obtain ⟨number, line, fault, hmem, hfault, hf⟩ := h
    exact ⟨(number, line), hmem, readProduction_eq_error_iff.mpr ⟨fault, hfault, hf⟩⟩

theorem reports_faultsOf (hincreasing : announced.Pairwise fun a b => a.1 < b.1) :
    Reports file announced (faultsOf (announced.map (readProduction file))) := by
  refine ⟨?_, fun f => mem_faultsOf_announced⟩
  have hline : ∀ (entry : Nat × List Char) (f : Located DocumentFault),
      readProduction file entry = .error f → f.location.line = entry.1 := by
    intro entry f hread
    obtain ⟨fault, _, hf⟩ := readProduction_eq_error_iff.mp hread
    rw [hf]
  unfold faultsOf
  rw [List.pairwise_filterMap, List.pairwise_map]
  refine hincreasing.imp fun {a b} hlt f hf g hg => ?_
  rw [hline a f (faultOf_eq_some_iff.mp hf), hline b g (faultOf_eq_some_iff.mp hg)]
  exact hlt

/-- The faults are these and no others, and in this order only. -/
theorem reports_iff (hincreasing : announced.Pairwise fun a b => a.1 < b.1) :
    Reports file announced faults ↔
      faults = faultsOf (announced.map (readProduction file)) := by
  have hfaults : Reports file announced (faultsOf (announced.map (readProduction file))) :=
    reports_faultsOf hincreasing
  constructor
  · intro h
    refine eq_of_increasing (fun _ _ => Nat.lt_asymm) h.increasing hfaults.increasing fun f => ?_
    rw [h.mem_iff, hfaults.mem_iff]
  · intro h
    rw [h]
    exact hfaults

theorem mem_values_iff {ps : List Production}
    (hps : announced.map (fun entry => Production.read entry.2) = ps.map .ok) {p : Production} :
    p ∈ ps ↔ ∃ entry ∈ announced, Production.Reads entry.2 (.ok p) := by
  have hmem : p ∈ ps ↔ (.ok p : Except LineFault Production) ∈ ps.map .ok := by simp
  rw [hmem, ← hps, List.mem_map]
  simp only [Production.read_eq_iff]

/-- Lines that are all productions have the productions in their order. -/
theorem exists_values (h : ∀ entry ∈ announced, ∃ p, Production.Reads entry.2 (.ok p)) :
    ∃ ps : List Production,
      announced.map (fun entry => Production.read entry.2) = ps.map .ok := by
  refine ⟨_, faultsOf_eq_nil_iff.mp (List.eq_nil_iff_forall_not_mem.mpr fun fault hfault => ?_)⟩
  obtain ⟨entry, hentry, hread⟩ := List.mem_map.mp (mem_faultsOf.mp hfault)
  obtain ⟨p, hp⟩ := h entry hentry
  rw [Production.read_eq_iff.mpr hp] at hread
  exact absurd hread (by simp)

/-- There is one document that the announced lines and the rest make. -/
theorem collects_iff (hne : announced ≠ []) :
    d.Collects announced rest ↔
      ∃ first others,
        announced.map (fun entry => Production.read entry.2) = (first :: others).map .ok ∧
        d = { grammar := .ofList first.lhs (first :: others)
              rest := "\n".intercalate (rest.map fun entry => String.ofList entry.2) } := by
  obtain ⟨entry, entries, rfl⟩ := List.exists_cons_of_ne_nil hne
  constructor
  · intro hd
    obtain ⟨ps, hps⟩ := exists_values hd.wellFormed
    obtain ⟨first, others, rfl⟩ : ∃ first others, ps = first :: others := by
      cases ps with
      | nil => exact absurd hps (by simp)
      | cons first others => exact ⟨first, others, rfl⟩
    obtain ⟨p, hp, hstart⟩ := hd.start entry rfl
    have hread : Production.read entry.2 = .ok first := (List.cons.inj hps).1
    have hfirst : p = first := by
      rw [← Production.read_eq_iff, hread] at hp
      exact (Except.ok.inj hp).symm
    refine ⟨first, others, hps, ?_⟩
    have hgrammar : d.grammar = .ofList first.lhs (first :: others) := by
      refine Grammar.ext (hfirst ▸ hstart) (Std.ExtTreeSet.ext_mem fun q => ?_) hd.counter
      rw [hd.productions, Grammar.mem_ofList, mem_values_iff hps]
    obtain ⟨grammar, tail⟩ := d
    rw [Document.mk.injEq]
    exact ⟨hgrammar, hd.rest⟩
  · intro h
    obtain ⟨first, others, hps, rfl⟩ := h
    refine ⟨fun e he => ?_, fun p => ?_, fun e he => ?_, rfl, rfl⟩
    · have hread : Production.read e.2 ∈ (first :: others).map .ok :=
        hps ▸ List.mem_map_of_mem he
      obtain ⟨p, _, hp⟩ := List.mem_map.mp hread
      exact ⟨p, Production.read_eq_iff.mp hp.symm⟩
    · rw [Grammar.mem_ofList, mem_values_iff hps]
    · rw [List.head?_cons, Option.mem_some_iff] at he
      rw [← he]
      exact ⟨first, Production.read_eq_iff.mp (List.cons.inj hps).1, rfl⟩

end Announced

/-! ### A text has one of the outcomes -/

theorem ofText_eq_of_faults {number count : Nat} {countLine : List Char}
    {body : List (Nat × List Char)} (hlines : contentLines text = (number, countLine) :: body)
    (hcount : readCount countLine = some count)
    (hfaults : missingLines file count (body.take count).length ++
      faultsOf ((body.take count).map (readProduction file)) ≠ []) :
    ofText file text = .error (missingLines file count (body.take count).length ++
      faultsOf ((body.take count).map (readProduction file))) := by
  unfold ofText
  rw [hlines]
  dsimp only
  rw [hcount]
  dsimp only
  rw [List.length_map]
  split
  · rename_i hnil _
    exact absurd hnil hfaults
  · rfl

theorem ofText_eq_of_values {number : Nat} {countLine : List Char}
    {announced rest : List (Nat × List Char)} {first : Production} {others : List Production}
    (hlines : contentLines text = (number, countLine) :: (announced ++ rest))
    (hcount : readCount countLine = some announced.length)
    (hvalues : announced.map (fun entry => Production.read entry.2) =
      (first :: others).map .ok) :
    ofText file text = .ok {
      grammar := .ofList first.lhs (first :: others)
      rest := "\n".intercalate (rest.map fun entry => String.ofList entry.2) } := by
  unfold ofText
  rw [hlines]
  dsimp only
  rw [hcount]
  dsimp only
  have hfaults :
      faultsOf ((first :: others).map (.ok : _ → Except (Located DocumentFault) _)) = [] :=
    faultsOf_eq_nil_iff.mpr (by rw [valuesOf_map_ok])
  rw [List.take_left, List.drop_left, List.length_map, map_readProduction hvalues,
    valuesOf_map_ok, hfaults, missingLines, if_neg (Nat.lt_irrefl _)]
  rfl

theorem announced_increasing {number : Nat} {countLine : List Char}
    {announced rest : List (Nat × List Char)}
    (hlines : contentLines text = (number, countLine) :: (announced ++ rest)) :
    announced.Pairwise fun a b => a.1 < b.1 := by
  have hincreasing := (numbers_contentLines text).increasing
  rw [hlines] at hincreasing
  exact (List.pairwise_append.mp hincreasing.tail).1

theorem ofText_of_reading {outcome : Except (List (Located DocumentFault)) Document}
    (h : Reading file (contentLines text) outcome) : ofText file text = outcome := by
  generalize hlines : contentLines text = numbered at h
  cases h with
  | missingCount =>
    unfold ofText
    rw [hlines]
  | invalidCount hcount =>
    rename_i number countLine body
    have hnone : readCount countLine = none :=
      Option.eq_none_iff_forall_ne_some.mpr fun count h => hcount count (readCount_eq_some_iff.mp h)
    unfold ofText
    rw [hlines]
    dsimp only
    rw [hnone]
  | @missingProductions number count countLine announced faults hcount hshort hfaults =>
    have hlines' : contentLines text = (number, countLine) :: (announced ++ []) := by
      rw [hlines, List.append_nil]
    have hincreasing := announced_increasing hlines'
    have htake : announced.take count = announced := List.take_of_length_le (Nat.le_of_lt hshort)
    have hmissing : missingLines file count (announced.take count).length =
        [⟨.whole file, .missingProductions count announced.length⟩] := by
      rw [htake, missingLines, if_pos hshort]
    rw [ofText_eq_of_faults hlines (readCount_eq_some_iff.mpr hcount), hmissing, htake,
      (reports_iff hincreasing).mp hfaults]
    · rfl
    · rw [hmissing]
      exact List.cons_ne_nil _ _
  | @malformed number countLine announced rest faults hcount hfault hfaults =>
    have hincreasing := announced_increasing hlines
    obtain ⟨⟨number', line⟩, hentry, fault, hread⟩ := hfault
    have hmissing : missingLines file announced.length
        ((announced ++ rest).take announced.length).length = [] := by
      rw [List.take_left, missingLines, if_neg (Nat.lt_irrefl _)]
    rw [ofText_eq_of_faults hlines (readCount_eq_some_iff.mpr hcount), hmissing, List.take_left,
      (reports_iff hincreasing).mp hfaults]
    · rfl
    · rw [hmissing, List.take_left, List.nil_append]
      exact List.ne_nil_of_mem
        (mem_faultsOf_announced.mpr ⟨number', line, fault, hentry, hread, rfl⟩)
  | @document number countLine announced rest d hcount hd =>
    have hne : announced ≠ [] := List.length_pos_iff.mp hcount.pos
    obtain ⟨first, others, hvalues, rfl⟩ := (collects_iff hne).mp hd
    exact ofText_eq_of_values hlines (readCount_eq_some_iff.mpr hcount) hvalues

theorem exists_reading (hincreasing : numbered.Pairwise fun a b => a.1 < b.1) :
    ∃ outcome, Reading file numbered outcome := by
  cases numbered with
  | nil => exact ⟨_, .missingCount⟩
  | cons first body =>
    obtain ⟨number, countLine⟩ := first
    by_cases hcount : ∃ count, Announces countLine count
    · obtain ⟨count, hcount⟩ := hcount
      by_cases hshort : body.length < count
      · exact ⟨_, .missingProductions hcount hshort (reports_faultsOf hincreasing.tail)⟩
      · have hlength : (body.take count).length = count := by
          rw [List.length_take]
          omega
        have hannounced : (body.take count).Pairwise fun a b => a.1 < b.1 :=
          hincreasing.tail.sublist (List.take_sublist _ _)
        have hne : body.take count ≠ [] := by
          rw [← List.length_pos_iff, hlength]
          exact hcount.pos
        rw [← hlength] at hcount
        rw [← List.take_append_drop count body]
        by_cases hfault : ∃ entry ∈ body.take count, ∃ fault,
            Production.Reads entry.2 (.error fault)
        · exact ⟨_, .malformed hcount hfault (reports_faultsOf hannounced)⟩
        · have hall : ∀ entry ∈ body.take count, ∃ p, Production.Reads entry.2 (.ok p) := by
            intro entry hentry
            cases hread : Production.read entry.2 with
            | error fault =>
              exact absurd ⟨entry, hentry, fault, Production.read_eq_iff.mp hread⟩ hfault
            | ok p => exact ⟨p, Production.read_eq_iff.mp hread⟩
          obtain ⟨ps, hps⟩ := exists_values hall
          cases ps with
          | nil => exact absurd (List.map_eq_nil_iff.mp hps) hne
          | cons first others =>
            exact ⟨_, .document hcount ((collects_iff hne).mpr ⟨first, others, hps, rfl⟩)⟩
    · exact ⟨_, .invalidCount fun count h => hcount ⟨count, h⟩⟩

/-- A text is read as the outcome its numbered lines have. -/
theorem ofText_eq_iff {outcome : Except (List (Located DocumentFault)) Document} :
    ofText file text = outcome ↔ Reading file (contentLines text) outcome := by
  constructor
  · intro h
    obtain ⟨other, hother⟩ : ∃ other, Reading file (contentLines text) other :=
      exists_reading (numbers_contentLines text).increasing
    rw [← h, ofText_of_reading hother]
    exact hother
  · exact ofText_of_reading

/--
**Reading reports every fault and nothing else.** A text has one list of numbered lines, and
what it is read as is the outcome of these: no count, a wrong count, missing lines, lines that
are no productions, or a document made of all that was announced.
-/
theorem every_fault_reported (file : Path) (text : List Char)
    (outcome : Except (List (Located DocumentFault)) Document) :
    ofText file text = outcome ↔
      ∃ numbered, Numbers text numbered ∧ Reading file numbered outcome := by
  rw [ofText_eq_iff]
  constructor
  · intro h
    exact ⟨contentLines text, numbers_contentLines text, h⟩
  · intro h
    obtain ⟨numbered, hnumbers, hreading⟩ := h
    exact hnumbers.eq_contentLines ▸ hreading

end Document

end ContextFree
