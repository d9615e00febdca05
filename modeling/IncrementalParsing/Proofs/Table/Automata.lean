import IncrementalParsing.Proofs.Automaton.Spelling
import IncrementalParsing.Proofs.Parse.Coverage
import IncrementalParsing.Proofs.Table.ReadBack

/-!
# Automata of a table

The automata in the bytes of a table fit into a file, so each of them is read back as it was built.
A table of a grammar has the automata of expressions, and these find whole characters.

## Key results

- `TableImage.Writes.readable`: every pattern that is written can be read
- `Grammar.keepsCharacters_table`: the tokens of a grammar are made of whole characters
-/

namespace IncrementalParsing

namespace TableImage

theorem length_le_patternSections {e : PatternEntry} (size : Nat) {ps : List PatternEntry}
    (h : e ∈ ps) : e.automaton.length ≤ (patternSections size ps).1.length := by
  induction ps generalizing size with
  | nil => cases h
  | cons p ps ih =>
    rw [patternSections]
    dsimp only
    rw [List.length_append, List.length_append]
    -- the padding in front of an automaton only adds to the length
    obtain rfl | h := List.mem_cons.mp h
    · omega
    · have hrest := ih (size + (4 - size % 4) % 4 + p.automaton.length) h
      omega

theorem exists_expression {pattern : String} {a : Automaton} (h : automaton? pattern = some a) :
    ∃ e, a = .ofExpression e := by
  obtain ⟨e, -, h⟩ := Option.bind_eq_some_iff.mp h
  split at h
  · cases h
  · exact ⟨e, (Option.some.inj h).symm⟩

variable {g : FlatGrammar} {p : ParserTable} {names : Names} {symbols : List (List UInt8)}
  {fields : List Nat} {name : Nat}

/-- What is read of a pattern that is written is the automaton of an expression. -/
theorem Writes.lexeme?_eq (hw : Writes .plain g p names symbols fields name) {e : PatternEntry}
    (h : e ∈ names.patterns.toList) :
    ∃ lexeme, names.lexeme? e = some lexeme ∧
      ∃ expression, lexeme.automaton = .ofExpression expression := by
  obtain ⟨pattern, a, hs, -, ha, hencode⟩ := hw.sound.patterns e (Array.mem_toList_iff.mp h)
  obtain ⟨expression, heq⟩ := exists_expression ha
  rw [Automaton.Codec.encode_plain] at hencode
  -- what was written is shorter than four bytes can count, so it reads back
  have hread : Automaton.decode? a.encode = some a := by
    have hlength : a.encode.length < 256 ^ 4 := by
      rw [← hencode]
      exact Nat.lt_of_le_of_lt (length_le_patternSections 0 h) (hw.length_holds_lt .patternBlob)
    rw [heq] at hlength ⊢
    exact Automaton.decode?_ofExpression hlength
  refine ⟨⟨pattern, a⟩, ?_, expression, heq⟩
  rw [Names.lexeme?, hs, hencode, hread]
  rfl

/-- Every pattern that is written can be read. -/
theorem Writes.readable (hw : Writes .plain g p names symbols fields name) : names.Readable := by
  intro e he
  obtain ⟨lexeme, hlexeme, -⟩ := hw.lexeme?_eq he
  rw [hlexeme]
  rfl

end TableImage

/-- The automata of a table are those of expressions. -/
theorem Grammar.automaton_table {g : Grammar} {t : Table} (h : g.table = .ok t) {s : Symbol}
    {lexeme : Lexeme} (hs : t.lexeme? s = some lexeme) :
    ∃ e, lexeme.automaton = .ofExpression e := by
  obtain ⟨flat, p, bytes, hflat, hp, hwrite, hload⟩ := written_table h
  have hg := sound_flatten hflat
  obtain ⟨names, -, symbols, fields, name, hw, hl, hlexemes⟩ :=
    TableImage.agrees_of_load hg (ParserTable.proper_of_ofGrammar hg hp) hwrite hload
  have hread := TableImage.loadLexemes_of_readable hw hl hw.readable
  have hall : t.lexemes = (none :: names.patterns.toList.map names.lexeme?).toArray :=
    Except.ok.inj (hlexemes.symm.trans hread)
  simp only [Table.lexeme?, Option.bind_eq_bind, Option.bind_eq_some_iff] at hs
  obtain ⟨info, -, i, -, found, hfound, rfl⟩ := hs
  have hmem : some lexeme ∈ none :: names.patterns.toList.map names.lexeme? := by
    rw [hall, List.getElem?_toArray] at hfound
    exact List.mem_of_getElem? hfound
  -- the lexemes stand behind an entry that is none
  obtain hnone | hmem := List.mem_cons.mp hmem
  · cases hnone
  · obtain ⟨e, he, hlexeme⟩ := List.mem_map.mp hmem
    obtain ⟨lexeme', hread', hexpression⟩ := hw.lexeme?_eq he
    cases hlexeme.symm.trans hread'
    exact hexpression

/-- The tokens of a grammar are made of whole characters. -/
theorem Grammar.keepsCharacters_table {g : Grammar} {t : Table} (h : g.table = .ok t) :
    t.KeepsCharacters := by
  intro s symbol lexeme start stop hlexeme hstart hscan
  obtain ⟨e, hautomaton⟩ := automaton_table h hlexeme
  obtain ⟨owes, hspells⟩ := Automaton.exists_spells e
  rw [hautomaton] at hscan
  exact hspells.isBoundary_of_scan hstart hscan

end IncrementalParsing
