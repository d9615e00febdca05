import IncrementalParsing.Proofs.Table.Compiled

/-!
# What a written table is read as

What is read where a table was written is a function of what was written: the symbols with the positions
of their patterns, and the automaton of each pattern.  So the table of a grammar is known without the
bytes between.

## Key results

- `TableImage.load_write`: the table that is read
- `Grammar.table_of_names`: the table of a grammar
-/

namespace IncrementalParsing

namespace Names

/-- Where a pattern is, counted from one. -/
def position? (names : Names) (pattern : String) : Option Nat :=
  (names.patterns.findIdx? fun e => names.strings[e.string]? == some pattern).map (· + 1)

/-- What a pattern is read as. -/
def lexeme? (names : Names) (e : PatternEntry) : Option Lexeme := do
  return ⟨← names.strings[e.string]?, ← Automaton.decode? e.automaton⟩

/-- Every pattern can be read. -/
def Readable (names : Names) : Prop := ∀ e ∈ names.patterns.toList, (names.lexeme? e).isSome = true

instance (names : Names) : Decidable names.Readable :=
  inferInstanceAs (Decidable (∀ e ∈ names.patterns.toList, (names.lexeme? e).isSome = true))

/-- No two patterns are the same. -/
def Distinct (names : Names) : Prop :=
  (names.patterns.toList.map fun e => names.strings[e.string]?).Nodup

instance (names : Names) : Decidable names.Distinct :=
  inferInstanceAs (Decidable (List.Nodup _))

/-- Patterns that differ are found where they are. -/
theorem position?_of_hasPattern {names : Names} (hd : names.Distinct) {i : Nat} {pattern : String}
    (h : names.HasPattern i pattern) : names.position? pattern = some i := by
  obtain ⟨hpos, e, he, hs⟩ := h
  obtain ⟨hi, rfl⟩ := Array.getElem?_eq_some_iff.mp he
  have hfound : (names.patterns.findIdx? fun e => names.strings[e.string]? == some pattern) =
      some (i - 1) := by
    refine Array.findIdx?_eq_some_iff_getElem.mpr ⟨hi, beq_iff_eq.mpr hs, fun j hj hsame => ?_⟩
    have hlt := Nat.lt_trans hj hi
    have hne := (List.nodup_iff_getElem?_ne_getElem?.mp hd) j (i - 1) hj (by simpa using hi)
    simp [hi, hlt, hs, beq_iff_eq.mp hsame] at hne
  rw [position?, hfound, Option.map_some, Nat.sub_add_cancel hpos]

end Names

/-- What a symbol is read as. -/
def SymbolInfo.ofFlat (names : Names) (s : FlatSymbol) : SymbolInfo where
  name := s.name
  terminal := s.terminal
  named := s.named
  visible := s.visible
  extra := s.extra
  literal := s.lexeme?.any (·.literal)
  immediate := s.lexeme?.any (·.immediate)
  lexeme := s.lexeme?.bind fun token => names.position? token.pattern
  precedence := (s.lexeme?.map (·.precedence)).getD 0

theorem SymbolInfo.eq_ofFlat {names : Names} (hd : names.Distinct) {info : SymbolInfo} {s : FlatSymbol}
    (h : info.Agrees names s) : info = ofFlat names s := by
  have hlexeme : info.lexeme = s.lexeme?.bind fun token => names.position? token.pattern := by
    cases hs : s.lexeme? with
    | none => exact h.noLexeme hs
    | some token =>
      obtain ⟨i, hi, hpattern⟩ := h.lexeme token hs
      exact hi.trans (Names.position?_of_hasPattern hd hpattern).symm
  obtain ⟨hname, hterminal, hnamed, hvisible, hextra, hliteral, himmediate, hprecedence, -, -⟩ := h
  cases info
  simp_all [ofFlat]

/-- What a table is read as. -/
def Table.ofParts (g : FlatGrammar) (p : ParserTable) (names : Names) : Table where
  version := Header.currentVersion
  name := g.name
  start := g.start
  symbols := g.symbols.map (SymbolInfo.ofFlat names)
  fields := g.fields
  productions := g.productions.map FlatProduction.outline
  states := p.states
  lexModes := p.lexModes
  lexemes := (none :: names.patterns.toList.map names.lexeme?).toArray

theorem Table.eq_ofParts {t : Table} {g : FlatGrammar} {p : ParserTable} {names : Names}
    (hd : names.Distinct) (h : t.Agrees g p names)
    (hlexemes : t.lexemes = (none :: names.patterns.toList.map names.lexeme?).toArray) :
    t = ofParts g p names := by
  have hsymbols : t.symbols = g.symbols.map (SymbolInfo.ofFlat names) := by
    rw [← Array.toList_inj, Array.toList_map, ← List.forall₂_eq_eq_eq, List.forall₂_map_right_iff]
    exact h.symbols.imp fun _ _ => SymbolInfo.eq_ofFlat hd
  obtain ⟨hversion, hname, hstart, -, hfields, hproductions, hstates, hmodes⟩ := h
  cases t
  simp_all [ofParts]

namespace TableImage

open Table

variable {g : FlatGrammar} {p : ParserTable} {names : Names} {symbols : List (List UInt8)}
  {fields : List Nat} {name : Nat} {bytes : ByteArray}

/-- The lexemes that are read. -/
theorem loadLexemes_of_readable (hw : Writes .plain g p names symbols fields name)
    (hl : Laid bytes (headerOf g p names symbols fields name) (holds g p names symbols fields))
    (hr : names.Readable) :
    loadLexemes .plain bytes (headerOf g p names symbols fields name) names.strings =
      .ok (none :: names.patterns.toList.map names.lexeme?).toArray := by
  refine readMany_of_get (by simp [headerOf, header]) fun i hi => ?_
  -- the first entry of the table is not used
  cases i with
  | zero => rfl
  | succ i =>
    have hi' : i < names.patterns.size := by simpa using hi
    obtain ⟨start, stop, gap, hid, hstart, hstop, hle, hend, hslice⟩ := pattern_laid hw hl hi'
    obtain ⟨lexeme, hlexeme⟩ := Option.isSome_iff_exists.mp
      (hr names.patterns[i] (Array.getElem_mem_toList hi'))
    have hget : (none :: names.patterns.toList.map names.lexeme?).toArray[i + 1] = some lexeme := by
      simpa using hlexeme
    -- a pattern that can be read has a text and an automaton
    obtain ⟨s, hs, hlexeme⟩ := Option.bind_eq_some_iff.mp hlexeme
    obtain ⟨a, ha, hlexeme⟩ := Option.bind_eq_some_iff.mp hlexeme
    cases hlexeme
    rw [hget, if_neg (Nat.succ_ne_zero i)]
    simp only [Except.bind_eq_ok, Except.guard_eq_ok]
    refine ⟨_, hid, _, hstart, _, hstop, ?_, s, stringAt_eq_ok hs, _, hslice, ?_⟩
    · simp only [Bool.or_eq_true, decide_eq_true_eq]
      omega
    -- zeros behind an automaton are not read
    · rw [toList_ofBytes, Automaton.Codec.decode?_plain, Automaton.decode?_append ha]
      rfl

/-- The table that is read where one was written. -/
theorem load_write (hg : g.Sound) (hp : p.Proper g) (hmodes : p.lexModes.size ≤ maxCount)
    (hnames : (nameAll .plain g).run ⟨#[], #[]⟩ = .ok ((name, symbols, fields), names))
    (hd : names.Distinct) (hr : names.Readable) (h : write g p = .ok bytes) :
    load bytes = .ok (ofParts g p names) := by
  obtain ⟨names', symbols', fields', name', hnames', hw, hbytes⟩ := exists_writes h
  cases hnames.symm.trans hnames'
  have hl := laid_of_writes hw
  rw [← hbytes] at hl
  obtain ⟨t, hload, hagrees, hlexemes⟩ :=
    load_eq_ok hg hp hmodes hw hbytes (loadLexemes_of_readable hw hl hr)
  rw [load, hload, Table.eq_ofParts hd hagrees hlexemes]

end TableImage

/-- The table of a grammar with so few things that they can be counted. -/
theorem Grammar.table_of_names {g : Grammar} {flat : FlatGrammar} {p : ParserTable}
    {names : Names} {symbols : List (List UInt8)} {fields : List Nat} {name : Nat}
    (hflat : g.flatten = .ok flat) (hp : ParserTable.ofGrammar flat = .ok p)
    (hnames : (TableImage.nameAll .plain flat).run ⟨#[], #[]⟩ = .ok ((name, symbols, fields), names))
    (hd : names.Distinct) (hr : names.Readable)
    (hparts : ∀ q ∈ flat.productions.toList, q.parts.length ≤ TableImage.maxCount)
    (hactions : ∀ s ∈ p.states.toList, s.actions.length ≤ TableImage.maxCount)
    (hproductions : flat.productions.toList.length ≤ TableImage.maxCount)
    (hmodes : p.lexModes.size ≤ TableImage.maxCount)
    (htotal : Header.size + (Header.filled (TableImage.holds flat p names symbols fields)
      Section.all).length < 0x100000000) :
    g.table = .ok (Table.ofParts flat p names) := by
  have hg := sound_flatten hflat
  have hwrite := TableImage.write_of_nameAll hnames rfl hparts hactions hproductions htotal
  exact table_of_parts hflat hp hwrite (TableImage.load_write hg
    (ParserTable.proper_of_ofGrammar hg hp) hmodes hnames hd hr hwrite)

end IncrementalParsing
