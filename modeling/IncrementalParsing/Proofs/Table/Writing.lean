import IncrementalParsing.Proofs.Lalr.LexModes
import IncrementalParsing.Proofs.Table.Sections

/-!
# Tables that can be written

Writing a table fails for one of few reasons: a token has a pattern without an automaton, there are
more of some part than 16 bits count, or the file takes more bytes than 32 bits count.  Here each is
given a bound, so that where none of them holds there is a file.

The bytes of a file are those of its names, which are as long as a grammar makes them, and those of its
entries, which take a fixed number each.

## Key results

- `exists_nameAll`: names are given where automata are found and there are not too many
- `length_filled_le`: the bytes of all sections
- `exists_writeWith`: a table that is small enough is written
-/

namespace IncrementalParsing

open TableImage (automaton? maxCount)

/-- How many bytes the pattern of a token and its automaton take, with those that move the automaton to
a multiple of four. -/
def TokenRule.patternSize (codec : Automaton.Codec) (token : TokenRule) : Nat :=
  token.pattern.toUTF8.toList.length +
    (((automaton? token.pattern).map fun a => (codec.encode a).length).getD 0 + 3)

/-- How many bytes the name of a symbol takes, and the pattern if it is a token. -/
def FlatSymbol.nameSize (codec : Automaton.Codec) (s : FlatSymbol) : Nat :=
  s.name.toUTF8.toList.length + ((s.lexeme?).map (TokenRule.patternSize codec)).getD 0

/-- How many bytes everything takes that a grammar names. -/
def FlatGrammar.nameSize (codec : Automaton.Codec) (g : FlatGrammar) : Nat :=
  g.name.toUTF8.toList.length + (sumOf (FlatSymbol.nameSize codec) g.symbols.toList +
    sumOf (fun field => field.toUTF8.toList.length) g.fields.toList)

namespace Names

/-- How many bytes the strings take. -/
def stringSize (names : Names) : Nat := sumOf (fun s => s.toUTF8.toList.length) names.strings.toList

/-- How many bytes the automata take, each moved to a multiple of four. -/
def automatonSize (names : Names) : Nat :=
  sumOf (fun e => e.automaton.length + 3) names.patterns.toList

/-- No more strings, patterns and bytes are added than these. -/
structure Takes (names names' : Names) (strings patterns bytes : Nat) : Prop where
  strings : names'.strings.size ≤ names.strings.size + strings
  patterns : names'.patterns.size ≤ names.patterns.size + patterns
  bytes : names'.stringSize + names'.automatonSize ≤ names.stringSize + names.automatonSize + bytes

variable {a b c : Names} {strings patterns bytes strings' patterns' bytes' : Nat}

theorem Takes.refl (names : Names) (strings patterns bytes : Nat) :
    names.Takes names strings patterns bytes :=
  ⟨Nat.le_add_right .., Nat.le_add_right .., Nat.le_add_right ..⟩

theorem Takes.trans (h : a.Takes b strings patterns bytes)
    (h' : b.Takes c strings' patterns' bytes') :
    a.Takes c (strings + strings') (patterns + patterns') (bytes + bytes') := by
  obtain ⟨hstrings, hpatterns, hbytes⟩ := h
  obtain ⟨hstrings', hpatterns', hbytes'⟩ := h'
  constructor <;> omega

end Names

namespace TableImage

open StateT

variable {codec : Automaton.Codec} {g : FlatGrammar} {p : ParserTable} {names : Names}

/-! ## Names -/

/-- A string is named where there is room for one more. -/
theorem exists_string (s : String) (names : Names) (hroom : names.strings.size < maxCount) :
    ∃ i names', (string s).run names = .ok (i, names') ∧
      names.Takes names' 1 0 s.toUTF8.toList.length := by
  unfold string
  simp only [bind_run_ok, get_run_ok]
  -- a string that was numbered before takes no room
  cases hfound : names.strings.findIdx? (· == s) with
  | some i =>
    refine ⟨i, names, ⟨names, names, ⟨rfl, rfl⟩, ?_⟩, .refl ..⟩
    simp only [hfound]
    exact pure_run_ok.mpr ⟨rfl, rfl⟩
  | none =>
    refine ⟨names.strings.size, { names with strings := names.strings.push s },
      ⟨names, names, ⟨rfl, rfl⟩, ?_⟩, ⟨by simp, Nat.le_refl _, ?_⟩⟩
    · simp only [hfound, guard_run_ok, bind_run_ok, set_run_ok, pure_run_ok]
      exact ⟨Nat.not_le_of_lt hroom, PUnit.unit, _, rfl, trivial, rfl⟩
    · simp only [Names.stringSize, Names.automatonSize, Array.toList_push, sumOf_append, sumOf_cons,
        sumOf_nil]
      omega

/-- A pattern that has an automaton is named where there is room for one more. -/
theorem exists_pattern (codec : Automaton.Codec) (symbol : String) {regex : String} (id : Nat)
    {a : Automaton} (names : Names) (ha : automaton? regex = some a)
    (hroom : names.patterns.size + 1 < maxCount) :
    ∃ i names', (pattern codec symbol regex id).run names = .ok (i, names') ∧
      names.Takes names' 0 1 ((codec.encode a).length + 3) := by
  unfold pattern
  simp only [bind_run_ok, get_run_ok]
  -- a pattern that was numbered before takes no room
  cases hfound : names.patterns.findIdx? (·.string == id) with
  | some i =>
    refine ⟨i + 1, names, ⟨names, names, ⟨rfl, rfl⟩, ?_⟩, .refl ..⟩
    simp only [hfound]
    exact pure_run_ok.mpr ⟨rfl, rfl⟩
  | none =>
    refine ⟨names.patterns.size + 1,
      { names with patterns := names.patterns.push ⟨id, codec.encode a⟩ },
      ⟨names, names, ⟨rfl, rfl⟩, ?_⟩, ⟨Nat.le_refl _, by simp, ?_⟩⟩
    · simp only [hfound, ha, guard_run_ok, bind_run_ok, set_run_ok, pure_run_ok]
      exact ⟨Nat.not_le_of_lt hroom, PUnit.unit, _, rfl, trivial, rfl⟩
    · simp only [Names.stringSize, Names.automatonSize, Array.toList_push, sumOf_append, sumOf_cons,
        sumOf_nil]
      omega

/-- A symbol names two strings and a pattern at most. -/
theorem exists_symbolEntry (codec : Automaton.Codec) {s : FlatSymbol} (names : Names)
    (hs : ∀ token, s.lexeme? = some token → ∃ a, automaton? token.pattern = some a)
    (hstrings : names.strings.size + 2 ≤ maxCount) (hpatterns : names.patterns.size + 1 < maxCount) :
    ∃ entry names', (symbolEntry codec s).run names = .ok (entry, names') ∧
      names.Takes names' 2 1 (s.nameSize codec) := by
  obtain ⟨name, names₁, hname, htakes₁⟩ := exists_string s.name names (by omega)
  unfold symbolEntry FlatSymbol.nameSize
  rw [run_bind_of_run hname]
  -- a symbol without a token needs a number only for its name
  cases htoken : s.lexeme? with
  | none =>
    refine ⟨_, names₁, bind_run_ok.mpr ⟨0, names₁, pure_run_ok.mpr ⟨rfl, rfl⟩,
      pure_run_ok.mpr ⟨rfl, rfl⟩⟩, ?_⟩
    exact htakes₁.trans (.refl names₁ 1 1 0)
  | some token =>
    obtain ⟨a, ha⟩ := hs token htoken
    obtain ⟨id, names₂, hid, htakes₂⟩ := exists_string token.pattern names₁ (by
      have := htakes₁.strings
      omega)
    obtain ⟨lexeme, names₃, hlexeme, htakes₃⟩ := exists_pattern codec s.name id names₂ ha (by
        have := htakes₁.patterns
        have := htakes₂.patterns
        omega)
    refine ⟨_, names₃, bind_run_ok.mpr ⟨id, names₂, hid, bind_run_ok.mpr
      ⟨lexeme, names₃, hlexeme, pure_run_ok.mpr ⟨rfl, rfl⟩⟩⟩, ?_⟩
    have htakes := htakes₁.trans (htakes₂.trans htakes₃)
    rwa [Option.map_some, Option.getD_some, TokenRule.patternSize, ha]

/-- Things that are named one after the other, where there is room for all of them. -/
theorem exists_mapM {α β : Type} {f : α → Naming β} (size : α → Nat) (strings patterns : Nat)
    (xs : List α) (names : Names) (hstep : ∀ x ∈ xs, ∀ names : Names,
      names.strings.size + strings ≤ maxCount → names.patterns.size + patterns < maxCount → ∃ y names', (f x).run names = .ok (y, names') ∧
        names.Takes names' strings patterns (size x))
    (hstrings : names.strings.size + strings * xs.length ≤ maxCount)
    (hpatterns : names.patterns.size + patterns * xs.length < maxCount) :
    ∃ ys names', (xs.mapM f).run names = .ok (ys, names') ∧
      names.Takes names' (strings * xs.length) (patterns * xs.length) (sumOf size xs) := by
  -- the induction is on the list, each entry of which takes a share of the room
  induction xs generalizing names with
  | nil => exact ⟨[], names, pure_run_ok.mpr ⟨rfl, rfl⟩, .refl ..⟩
  | cons x rest ih =>
    rw [List.length_cons, Nat.mul_succ] at hstrings hpatterns
    obtain ⟨y, names₁, hx, htakes₁⟩ := hstep x (List.mem_cons_self ..) names (by omega) (by omega)
    obtain ⟨ys, names', hrest, htakes'⟩ := ih names₁
      (fun z hz => hstep z (List.mem_cons_of_mem _ hz)) (by
        have := htakes₁.strings
        omega) (by
        have := htakes₁.patterns
        omega)
    refine ⟨y :: ys, names', ?_, ?_⟩
    · simp only [List.mapM_cons, bind_run_ok, pure_run_ok]
      exact ⟨y, names₁, hx, ys, names', hrest, rfl, rfl⟩
    · rw [List.length_cons, Nat.mul_succ, Nat.mul_succ, Nat.add_comm (strings * _),
        Nat.add_comm (patterns * _), sumOf_cons]
      exact htakes₁.trans htakes'

/-- Everything is named, where the patterns of all tokens have automata and there are not too many
strings: one for the grammar, two for each symbol and one for each field. -/
theorem exists_nameAll (codec : Automaton.Codec)
    (hautomata : ∀ s ∈ g.symbols, ∀ token, s.lexeme? = some token →
      ∃ a, automaton? token.pattern = some a)
    (hroom : 2 * g.symbols.size + g.fields.size + 1 ≤ maxCount) :
    ∃ name symbols fields names,
      (nameAll codec g).run ⟨#[], #[]⟩ = .ok ((name, symbols, fields), names) ∧
      names.strings.size ≤ 2 * g.symbols.size + g.fields.size + 1 ∧
      names.patterns.size ≤ g.symbols.size ∧
      names.stringSize + names.automatonSize ≤ g.nameSize codec := by
  -- the name of the grammar, two for each symbol and one for each field
  obtain ⟨name, names₁, hname, htakes₁⟩ := exists_string g.name ⟨#[], #[]⟩ (by decide)
  have hstrings₁ : names₁.strings.size ≤ 1 := htakes₁.strings
  have hpatterns₁ : names₁.patterns.size ≤ 0 := htakes₁.patterns
  obtain ⟨symbols, names₂, hsymbols, htakes₂⟩ := exists_mapM (FlatSymbol.nameSize codec) 2 1
    g.symbols.toList names₁
    (fun s hs names => exists_symbolEntry codec names (hautomata s (Array.mem_toList_iff.mp hs)))
    (by rw [Array.length_toList]; omega) (by rw [Array.length_toList]; omega)
  have hstrings₂ := htakes₂.strings
  have hpatterns₂ := htakes₂.patterns
  rw [Array.length_toList] at hstrings₂ hpatterns₂
  obtain ⟨fields, names₃, hfields, htakes₃⟩ := exists_mapM
    (fun field => field.toUTF8.toList.length) 1 0 g.fields.toList names₂
    (fun field _ names hroom _ => exists_string field names hroom)
    (by rw [Array.length_toList]; omega) (by omega)
  have hstrings₃ := htakes₃.strings
  have hpatterns₃ := htakes₃.patterns
  rw [Array.length_toList] at hstrings₃ hpatterns₃
  refine ⟨name, symbols, fields, names₃, ?_, by omega, by omega, ?_⟩
  · unfold nameAll
    simp only [bind_run_ok, pure_run_ok]
    exact ⟨name, names₁, hname, symbols, names₂, hsymbols, fields, names₃, hfields, rfl, rfl⟩
  · have hbytes := (htakes₁.trans (htakes₂.trans htakes₃)).bytes
    simpa [Names.stringSize, Names.automatonSize, FlatGrammar.nameSize] using hbytes

/-! ## Bytes -/

/-- All sections, each filled up. -/
theorem length_filled_le (body : Section → List UInt8) (sections : List Section) :
    (Header.filled body sections).length ≤ sumOf (fun s => (body s).length + 63) sections := by
  induction sections with
  | nil => exact Nat.le_refl 0
  | cons s rest ih =>
    have hpad : (padTo Header.size (body s)).length ≤ (body s).length + 63 := by
      rw [Header.length_padTo]
      exact Nat.div_mul_le_self ..
    rw [Header.filled, List.flatMap_cons, List.length_append, sumOf_cons]
    exact Nat.add_le_add hpad ih

/-- The automata with the bytes between them. -/
theorem length_patternSections_le (size : Nat) (ps : List PatternEntry) :
    (patternSections size ps).1.length ≤ sumOf (fun e => e.automaton.length + 3) ps := by
  induction ps generalizing size with
  | nil => exact Nat.le_refl 0
  | cons e rest ih =>
    have hrest := ih (size + (4 - size % 4) % 4 + e.automaton.length)
    simp only [patternSections, List.length_append, List.length_replicate, sumOf_cons]
    omega

/-- How many bytes a table takes at most beside what it names: its header and what fills up its
sections, and then the entries of strings, patterns, symbols, fields, productions, states and lex
modes. -/
def entriesSize (g : FlatGrammar) (p : ParserTable) : Nat :=
  Header.size + sumOf (fun _ => 63) Section.all
    + 4 * (2 * g.symbols.size + g.fields.size + 2) + 8 * (g.symbols.size + 2)
    + 8 * g.symbols.size + 2 * g.fields.size
    + 8 * g.productions.size + 2 * sumOf (fun q => q.parts.length) g.productions.toList
    + 8 * p.states.size + 8 * sumOf (fun s => s.actions.length) p.states.toList
    + 8 * p.lexModes.size + 2 * sumOf List.length p.lexModes.toList

/-- A state has an action for a symbol at most, since they ascend. -/
theorem length_actions_le (hp : p.Proper g) {state : ParserState} (hstate : state ∈ p.states.toList) :
    state.actions.length ≤ g.symbols.size := by
  have hstate := Array.mem_toList_iff.mp hstate
  have hnodup : (state.actions.map (·.1)).Nodup :=
    List.Pairwise.map _ (fun _ _ => Nat.ne_of_lt) (hp.ascending state hstate)
  have hsubset : state.actions.map (·.1) ⊆ List.range g.symbols.size := by
    intro symbol hsymbol
    obtain ⟨x, hx, rfl⟩ := List.mem_map.mp hsymbol
    exact List.mem_range.mpr (hp.bound state hstate x hx)
  simpa using (List.subperm_of_subset hnodup hsubset).length_le

/-- The entries of a table that names nothing that is not there are bounded by how many symbols,
fields, productions and states there are. -/
theorem entriesSize_le (hp : p.Proper g) {parts : Nat}
    (hparts : ∀ q ∈ g.productions.toList, q.parts.length ≤ parts) :
    entriesSize g p ≤ 872 + 24 * g.symbols.size + 6 * g.fields.size
      + g.productions.size * (8 + 2 * parts)
      + p.states.size * (8 + 8 * g.symbols.size)
      + (p.states.size + 1) * (8 + 2 * g.symbols.size) := by
  -- a state has at most one action for each symbol, and so has a mode
  have hactions : sumOf (fun s => s.actions.length) p.states.toList ≤
      p.states.size * g.symbols.size := sumOf_le fun s hs => length_actions_le hp hs
  have hmodes : sumOf List.length p.lexModes.toList ≤ p.lexModes.size * g.symbols.size :=
    sumOf_le fun mode hmode => (hp.modes mode (Array.mem_toList_iff.mp hmode)).1
  have hfields : sumOf (fun q => q.parts.length) g.productions.toList ≤
      g.productions.size * parts := sumOf_le hparts
  have hcount : p.lexModes.size * g.symbols.size ≤ (p.states.size + 1) * g.symbols.size :=
    Nat.mul_le_mul_right _ hp.modes_le
  have hle := hp.modes_le
  have hfilled : sumOf (fun _ => 63) Section.all = 756 := rfl
  have hheader : Header.size = 64 := rfl
  unfold entriesSize
  simp only [Nat.mul_add, Nat.mul_left_comm _ 2, Nat.mul_left_comm _ 8]
  omega

/-- A table is written where the patterns of all tokens have automata, there are not too many of any
part, and what is named and the entries do not take too many bytes. -/
theorem exists_writeWith
    (hautomata : ∀ s ∈ g.symbols, ∀ token, s.lexeme? = some token →
      ∃ a, automaton? token.pattern = some a)
    (hroom : 2 * g.symbols.size + g.fields.size + 1 ≤ maxCount)
    (hparts : ∀ q ∈ g.productions.toList, q.parts.length ≤ maxCount)
    (hactions : ∀ s ∈ p.states.toList, s.actions.length ≤ maxCount)
    (hproductions : g.productions.size ≤ maxCount)
    (hsize : g.nameSize codec + entriesSize g p < 0x100000000) :
    ∃ bytes, writeWith codec g p = .ok bytes := by
  obtain ⟨name, symbols, fields, names, hnames, hstrings, hpatterns, hbytes⟩ :=
    exists_nameAll codec hautomata hroom
  refine ⟨_, writeWith_of_nameAll hnames rfl hparts hactions (by rwa [Array.length_toList]) ?_⟩
  have hnamed := named_of_nameAll hnames
  have hlength := fun s => (sectionSize_headerOf (p := p) hnamed s).symm
  -- the two blobs take what the names were counted for
  have hstringBlob : (holds g p names symbols fields .stringBlob).length = names.stringSize := by
    simp only [holds, stringSections, ← List.flatMap_def, length_flatMap_sumOf, Names.stringSize]
  have hpatternBlob : (holds g p names symbols fields .patternBlob).length ≤ names.automatonSize :=
    length_patternSections_le 0 _
  have hfilled : sumOf (fun _ => 63) Section.all = 756 := rfl
  -- the other sections have as many entries as the header says
  have hsections := length_filled_le (holds g p names symbols fields) Section.all
  conv at hsections => rhs; simp only [Section.all, sumOf_cons, sumOf_nil]
  rw [hstringBlob, hlength .stringTable, hlength .patternTable, hlength .symbols, hlength .fields,
    hlength .productions, hlength .productionFields, hlength .states, hlength .actions,
    hlength .lexModes, hlength .lexModeSymbols] at hsections
  simp only [Header.sectionSize, Header.entryCount, Header.entrySize, headerOf, header,
    Array.length_toList] at hsections
  unfold entriesSize at hsize
  omega

end TableImage

end IncrementalParsing
