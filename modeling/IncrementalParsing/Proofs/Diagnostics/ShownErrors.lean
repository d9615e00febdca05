import IncrementalParsing.CommandLine.Execution
import IncrementalParsing.Proofs.Parse.ErrorReports
import IncrementalParsing.Proofs.Parse.Reuse
import IncrementalParsing.Proofs.Table.Automata

/-!
# What is shown of errors

The errors of a tree lie between characters of the text, and what is shown of an error is the error
itself, unless it is empty.  Of an empty one the byte behind it is shown, and if a character of several
bytes begins there, that ends inside the character.  A text cannot be cut there, so a command that is to
show such an error breaks off.  `WideBlank` has one in a text that is a single blank.

## Key results

- `shown_of_isBoundary`: what is shown of an error that lies between characters
- `Language.parse_shown`: what is shown of the errors of a parse
- `WideBlank.shown_inside`: an error of which one byte of a blank is shown
- `Command.status_runParse`: when a command that parses a file ends well, and when it breaks off
-/

namespace IncrementalParsing

/-- An error is empty and stands in front of a character of several bytes. -/
def Splits (text : ByteArray) (error : Nat × Nat) : Prop :=
  error.1 = error.2 ∧ 1 < Lexer.charWidth text error.1

/-- What is shown of an error is a part of the text that begins where the error does, between two
characters, and goes on at least as far.  There is something in it, unless the error is empty at the end
of the text.  It ends between characters, unless the error is empty in front of one of several bytes. -/
structure Shown (text : ByteArray) (error shown : Nat × Nat) : Prop where
  ordered : shown.1 ≤ shown.2
  inside : shown.2 ≤ text.size
  covers : shown.1 = error.1 ∧ error.2 ≤ shown.2
  empty : shown.1 = shown.2 ↔ error.1 = error.2 ∧ error.1 = text.size
  start : isBoundary text shown.1 = true
  finish : isBoundary text shown.2 = true ↔ ¬Splits text error

/-! ## The range that is shown -/

variable {s : String} {i : Nat}

/-- At the end of a text there is no character to split. -/
theorem not_splits_size (text : ByteArray) : ¬Splits text (text.size, text.size) := by
  have hnone : byteAt? text text.size = none := dif_neg (Nat.lt_irrefl _)
  have hwidth : Lexer.charWidth text text.size = 1 := by
    rw [Lexer.charWidth, hnone]
  rintro ⟨-, hlt⟩
  exact Nat.ne_of_gt hlt hwidth

/-- The byte behind a boundary is a whole character unless an error there would split one. -/
theorem isBoundary_succ_iff (h : isBoundary s.toUTF8 i = true) (hi : i < s.toUTF8.size) :
    isBoundary s.toUTF8 (i + 1) = true ↔ ¬Splits s.toUTF8 (i, i) := by
  constructor
  · rintro hnext ⟨-, hwidth⟩
    have hinside := not_isBoundary_inside h hi (Nat.lt_succ_self i) (Nat.add_lt_add_left hwidth i)
    exact Bool.false_ne_true (hinside.symm.trans hnext)
  -- a character that is not split there is one byte wide
  · intro hwhole
    have hpos := Lexer.charWidth_pos s.toUTF8 i
    have hwidth : Lexer.charWidth s.toUTF8 i = 1 :=
      Nat.le_antisymm (Nat.le_of_not_lt fun hlt => hwhole ⟨rfl, hlt⟩) hpos
    have hend := isBoundary_add_charWidth h hi
    rwa [hwidth] at hend

/-- Of an empty error the byte behind it is shown, or at the end of the text nothing. -/
theorem shown_empty (h : isBoundary s.toUTF8 i = true) :
    Shown s.toUTF8 (i, i) (i, min (i + 1) s.toUTF8.size) := by
  obtain hend | hlt := Nat.eq_or_lt_of_le (le_size_of_isBoundary h)
  · subst hend
    rw [Nat.min_eq_right (Nat.le_succ _)]
    exact ⟨Nat.le_refl _, Nat.le_refl _, ⟨rfl, Nat.le_refl _⟩, iff_of_true rfl ⟨rfl, rfl⟩, h,
      iff_of_true h (not_splits_size _)⟩
  · rw [Nat.min_eq_left hlt]
    exact ⟨Nat.le_succ i, hlt, ⟨rfl, Nat.le_succ i⟩,
      iff_of_false (Nat.ne_of_lt (Nat.lt_succ_self i)) fun hempty => Nat.ne_of_lt hlt hempty.2, h,
      isBoundary_succ_iff h hlt⟩

/-- What is shown of an error that lies between characters. -/
theorem shown_of_isBoundary {error : Nat × Nat} (hstart : isBoundary s.toUTF8 error.1 = true)
    (hfinish : isBoundary s.toUTF8 error.2 = true) (hle : error.1 ≤ error.2) :
    Shown s.toUTF8 error (shownRange error.1 error.2 s.toUTF8.size) := by
  obtain ⟨start, finish⟩ := error
  dsimp only at hstart hfinish hle ⊢
  unfold shownRange
  -- only an empty range is made wider
  split
  · rename_i hempty
    subst hempty
    exact shown_empty hstart
  · rename_i hne
    exact ⟨hle, le_size_of_isBoundary hfinish, ⟨rfl, Nat.le_refl _⟩,
      iff_of_false hne fun hempty => hne hempty.1, hstart,
      iff_of_true hfinish fun hsplits => hne hsplits.1⟩

/-- An error can be shown unless a part of a character would be. -/
theorem Shown.isShowable_iff {text : ByteArray} {error : Nat × Nat}
    (h : Shown text error (shownRange error.1 error.2 text.size)) :
    isShowable text error = true ↔ ¬Splits text error := by
  rw [isShowable, Bool.and_eq_true, ← h.finish]
  exact and_iff_right h.start

/-! ## The errors of a tree -/

/-- The errors of a tree that covers a text lie between characters. -/
theorem shown_of_spans {tree : Tree} {t : Table} (h : tree.Spans t s.toUTF8) {error : Nat × Nat}
    (herror : error ∈ tree.syntaxErrors) :
    Shown s.toUTF8 error (shownRange error.1 error.2 s.toUTF8.size) := by
  obtain ⟨m, habove, -, rfl⟩ := Node.exists_of_mem_errorsBelow herror
  obtain ⟨hstart, hfinish⟩ := h.boundaries m (Node.has_of_above .root habove)
  exact shown_of_isBoundary hstart hfinish m.startByte_le_endByte

namespace Language

variable {l : Language} {grammar : Grammar} {text : String}

/-- A parse with the table of a grammar covers its text, as the tokens of the grammar are made of whole
characters. -/
theorem spans_of_parse (h : grammar.table = .ok l.table) {old : Option Tree}
    (hold : ∀ tree, old = some tree → l.TreeFor text tree) {p : Parsed}
    (hp : l.parse text old = some p) : p.tree.Spans l.table text.toUTF8 := by
  obtain ⟨g, items, -, hserves⟩ := Grammar.serves_table h
  have hcharacters := Grammar.keepsCharacters_table h
  have hfinish := Table.keepsFinish_of_guided hserves.sound hserves.speaks hserves.guided
  apply spans_of_rootCovers
  apply rootCovers_of_parse hserves.checked hcharacters hfinish _ hp
  exact fun tree htree => rootFits_of_treeFor hserves.checked hcharacters hfinish (hold tree htree)

/-- Of every error of a text a part of the text is shown, and whole characters of it unless the error is
empty in front of one of several bytes. -/
theorem parse_shown (h : grammar.table = .ok l.table) (text : String) (old : Option Tree)
    (hold : ∀ tree, old = some tree → l.TreeFor text tree) :
    ∃ p, l.parse text old = some p ∧ ∀ error ∈ p.tree.syntaxErrors,
      Shown text.toUTF8 error (shownRange error.1 error.2 text.toUTF8.size) := by
  obtain ⟨g, items, -, hserves⟩ := Grammar.serves_table h
  obtain ⟨p, hp⟩ := hserves.exists_parse text old
  have hspans := spans_of_parse h hold hp
  exact ⟨p, hp, fun error herror => shown_of_spans hspans herror⟩

end Language

/-! ## A text of one blank -/

namespace WideBlank

/-- The text `a`, with blanks of three bytes around it. -/
def grammar : Grammar where
  name := "g"
  rules := [("s", .string "a")]
  extras := [.pattern "\u3000" none]
  precedences := []
  conflicts := []
  externals := []
  inlined := []
  supertypes := []
  word := none
  reserved := []

/-- The rule, the blank and the token. -/
def flat : FlatGrammar where
  name := "g"
  symbols := #[⟨"end", none, true, false, false, false⟩, ⟨"ERROR", none, true, true, true, false⟩,
    ⟨"s", none, false, true, true, false⟩,
    ⟨"\u3000", some ⟨"(?:\u3000)", false, false, 0⟩, true, false, false, true⟩, FlatSymbol.letter "a"]
  productions := #[⟨2, [(4, none)], none⟩]
  fields := #[]
  start := 2

def parser : ParserTable where
  states := #[⟨[(2, .goto 1), (4, .shift 2)], 0⟩, ⟨[(0, .accept)], 1⟩, ⟨[(0, .reduce 0)], 1⟩]
  lexModes := #[[3, 4], [3]]

/-- The automaton of the blank, which sees the byte after it before it matches. -/
def automaton : Automaton where
  starts := [0, 0, 0, 0, 0]
  states := #[⟨false, false, [⟨0xe3, 0xe3, 1⟩]⟩, ⟨false, false, [⟨0x80, 0x80, 2⟩]⟩,
    ⟨false, false, [⟨0x80, 0x80, 3⟩]⟩, ⟨false, true, [⟨0, 255, 4⟩]⟩, ⟨true, false, []⟩]

def names : Names := ⟨#["g", "end", "ERROR", "s", "\u3000", "(?:\u3000)", "a"],
  #[⟨5, automaton.encode⟩, ⟨6, (Automaton.ofByte 97).encode⟩]⟩

/-- The entries of the symbols. -/
def entries : List (List UInt8) :=
  [[1, 0, 1, 0, 0, 0, 0, 0], [2, 0, 7, 0, 0, 0, 0, 0], [3, 0, 6, 0, 0, 0, 0, 0],
    [4, 0, 9, 0, 1, 0, 0, 0], [6, 0, 21, 0, 2, 0, 0, 0]]

def table : Table where
  version := 1
  name := "g"
  start := 2
  symbols := #[SymbolInfo.plain "end" true false false false none,
    SymbolInfo.plain "ERROR" true true true false none, SymbolInfo.plain "s" false true true false none,
    ⟨"\u3000", true, false, false, true, false, false, some 1, 0⟩,
    SymbolInfo.plain "a" true false true true (some 2)]
  fields := #[]
  productions := #[⟨2, [none]⟩]
  states := parser.states
  lexModes := parser.lexModes
  lexemes := #[none, some ⟨"(?:\u3000)", automaton⟩, some ⟨"a", Automaton.ofByte 97⟩]

theorem flatten_grammar : grammar.flatten = .ok flat := by
  cbv

theorem ofGrammar_flat : ParserTable.ofGrammar flat = .ok parser := by
  cbv

theorem nameAll_flat :
    (TableImage.nameAll .plain flat).run ⟨#[], #[]⟩ = .ok ((0, entries, []), names) := by
  cbv

theorem ofParts_flat : Table.ofParts flat parser names = table := by
  cbv

theorem table_grammar : grammar.table = .ok table := by
  rw [← ofParts_flat]
  exact Grammar.table_of_names flatten_grammar ofGrammar_flat nameAll_flat (by decide +kernel)
    (by decide +kernel) (by decide) (by decide) (by decide) (by decide) (by decide +kernel)

/-- An unknown letter is put behind the blank of a text that had nothing else. -/
theorem shown_letter : ∃ p q, Language.parse ⟨0, table⟩ "\u3000" none = some p ∧
    Language.parse ⟨0, table⟩ "\u3000é"
      (some (p.tree.edit (.splice "\u3000".toUTF8 3 3 "é".toUTF8))) = some q ∧
    (3, 5) ∈ q.tree.syntaxErrors ∧
    Shown "\u3000é".toUTF8 (3, 5) (shownRange 3 5 "\u3000é".toUTF8.size) := by
  -- both parses, run by `cbv`: the letter behind the wide blank is an error
  have hruns : (((Config.start table none).doneAfter? table "\u3000".toUTF8 0).bind fun p =>
      ((Config.start table (some (p.1.edit (.splice "\u3000".toUTF8 3 3 "é".toUTF8) .zero))).doneAfter?
        table "\u3000é".toUTF8 1).map fun q => (⟨⟨0, table⟩, q.1⟩ : Tree).syntaxErrors) =
      some [(3, 5)] := by
    cbv
  obtain ⟨p, hp, h⟩ := Option.bind_eq_some_iff.mp hruns
  obtain ⟨q, hq, herrors⟩ := Option.map_eq_some_iff.mp h
  have hbefore := Language.parse_of_doneAfter? ⟨0, table⟩ "\u3000" none hp
  have hparse := Language.parse_of_doneAfter? ⟨0, table⟩ "\u3000é"
    (some ((⟨⟨0, table⟩, p.1⟩ : Tree).edit (.splice "\u3000".toUTF8 3 3 "é".toUTF8))) hq
  have herror : (3, 5) ∈ (⟨⟨0, table⟩, q.1⟩ : Tree).syntaxErrors := by
    rw [herrors]
    exact List.mem_singleton_self _
  obtain ⟨q', hq', hshown⟩ := Language.parse_shown (l := ⟨0, table⟩) table_grammar "\u3000é"
    (some ((⟨⟨0, table⟩, p.1⟩ : Tree).edit (.splice "\u3000".toUTF8 3 3 "é".toUTF8)))
    (fun tree htree => by
      cases htree
      exact .edited 3 3 "é" (.parsed (fun _ h => by cases h) hbefore) (by decide +kernel))
  cases hparse.symm.trans hq'
  exact ⟨_, _, hbefore, hparse, herror, hshown (3, 5) herror⟩

/-- A text of one blank has an empty error in front of it, and the first of its three bytes is shown. -/
theorem shown_inside : grammar.table = .ok table ∧ ∃ p,
    Language.parse ⟨0, table⟩ "\u3000" none = some p ∧ (0, 0) ∈ p.tree.syntaxErrors ∧
    shownRange 0 0 "\u3000".toUTF8.size = (0, 1) ∧ isBoundary "\u3000".toUTF8 1 = false := by
  -- the text is one character of three bytes, which no rule reads
  have hrun : ((Config.start table none).doneAfter? table "\u3000".toUTF8 0).map (fun r =>
      (⟨⟨0, table⟩, r.1⟩ : Tree).syntaxErrors) = some [(0, 0)] := by
    cbv
  obtain ⟨r, hr, herrors⟩ := Option.map_eq_some_iff.mp hrun
  refine ⟨table_grammar, _, Language.parse_of_doneAfter? ⟨0, table⟩ "\u3000" none hr, ?_, ?_, ?_⟩
  · rw [herrors]
    exact List.mem_singleton_self _
  · decide +kernel
  · decide +kernel

end WideBlank

/-! ## The command -/

namespace Command

variable {i : Inputs} {path source text : String} {t : Table}

/-- A command that parses a file refuses a text that is too large. -/
theorem runParse_of_large (htable : i.table path = .ok t) (htext : i.text source = .ok text)
    (hsize : maxTextSize < text.utf8ByteSize) (format : OutputFormat) :
    runParse i path source format = .error (.parse (.inputTooLarge text.utf8ByteSize)) := by
  have hparse : parseText t text = .error (.parse (.inputTooLarge text.utf8ByteSize)) := by
    rw [parseText, Language.tryParse, if_pos hsize]
  rw [runParse, htable]
  dsimp only [bind, Except.bind]
  rw [htext]
  dsimp only
  rw [hparse]

/-- The status of a command that parses a file says whether there are errors, and whether they are
shown. -/
theorem exists_runParse {p : Parsed} (htable : i.table path = .ok t) (htext : i.text source = .ok text)
    (hsize : text.utf8ByteSize ≤ maxTextSize) (hp : Language.parse ⟨0, t⟩ text none = some p)
    (format : OutputFormat) :
    ∃ outcome, runParse i path source format = .ok outcome ∧ outcome.status =
      if p.tree.hasError then
        if p.tree.syntaxErrors.all (isShowable text.toUTF8) then 1 else brokenOff
      else 0 := by
  have hparse : parseText t text = .ok p := by
    rw [parseText, Language.tryParse, if_neg (Nat.not_lt.mpr hsize), hp]
  rw [runParse, htable]
  dsimp only [bind, Except.bind]
  rw [htext]
  dsimp only
  rw [hparse]
  dsimp only
  -- only a tree with errors is listed, which may break off at one of them
  split
  · split
    · exact ⟨_, rfl, rfl⟩
    · exact ⟨_, rfl, rfl⟩
  · exact ⟨_, rfl, rfl⟩

/-- A command that parses a file that is not too large ends well just if there is no error in it, and
breaks off just if one of them is empty in front of a character of several bytes. -/
theorem status_runParse {g : Grammar} (hg : g.table = .ok t) (htable : i.table path = .ok t)
    (htext : i.text source = .ok text) (hsize : text.utf8ByteSize ≤ maxTextSize)
    (format : OutputFormat) :
    ∃ outcome p, runParse i path source format = .ok outcome ∧
      Language.parse ⟨0, t⟩ text none = some p ∧
      (outcome.status = 0 ↔ p.tree.syntaxErrors = []) ∧
      (outcome.status = brokenOff ↔ ∃ error ∈ p.tree.syntaxErrors, Splits text.toUTF8 error) := by
  obtain ⟨flat, items, -, hserves⟩ := Grammar.serves_table hg
  obtain ⟨p, hp⟩ := hserves.exists_parse (l := ⟨0, t⟩) text none
  obtain ⟨outcome, hrun, hstatus⟩ := exists_runParse htable htext hsize hp format
  refine ⟨outcome, p, hrun, hp, ?_⟩
  have hreports : p.tree.Reports := (Language.reports_of_parse hserves (fun _ h => by cases h) hp).1
  have hspans := Language.spans_of_parse (l := ⟨0, t⟩) hg (fun _ h => by cases h) hp
  -- the errors that are listed are those that the root is marked with
  have hlisted : p.tree.syntaxErrors ≠ [] ↔ p.tree.hasError = true :=
    Node.errorsBelow_ne_nil_iff hreports .root
  -- the listing breaks off at an error that splits a character
  have hshowable : p.tree.syntaxErrors.all (isShowable text.toUTF8) = true ↔
      ∀ error ∈ p.tree.syntaxErrors, ¬Splits text.toUTF8 error := by
    rw [List.all_eq_true]
    exact forall₂_congr fun error herror => (shown_of_spans hspans herror).isShowable_iff
  rw [hstatus]
  by_cases hmarked : p.tree.hasError = true
  · have hsome := hlisted.mpr hmarked
    rw [if_pos hmarked]
    by_cases hall : p.tree.syntaxErrors.all (isShowable text.toUTF8) = true
    · rw [if_pos hall]
      refine ⟨iff_of_false (by decide) hsome, iff_of_false (by decide) ?_⟩
      rintro ⟨error, herror, hsplits⟩
      exact hshowable.mp hall error herror hsplits
    · rw [if_neg hall]
      refine ⟨iff_of_false (by decide) hsome, iff_of_true rfl ?_⟩
      rw [hshowable] at hall
      push Not at hall
      exact hall
  · rw [if_neg hmarked]
    rw [← hlisted, not_not] at hmarked
    rw [hmarked]
    exact ⟨iff_of_true rfl rfl, iff_of_false (by decide) fun ⟨_, herror, _⟩ => by cases herror⟩

end Command

end IncrementalParsing
