import IncrementalParsing.Compile
import IncrementalParsing.Proofs.Binary.Checksum
import IncrementalParsing.Proofs.Table.RoundTrip
import Mathlib

/-!
# Tables of grammars

A table that was made from a grammar says the same about its symbols as the flat grammar does, and its
states stand for places in productions: `Table.Guided` says what every action and every goto means for
them.  All that is proved about parses with such a table starts from here.

Mathlib is imported whole.  To compute what small grammars are compiled to, here and in the modules
below, `cbv` uses the equations of library functions like `List.lookup`, `StateT.set` and
`ByteArray.push`, and those are stated all over it.

## Key results

- `Grammar.guided_table`: the table of a grammar is guided by the items of its states
-/

namespace IncrementalParsing

namespace FlatGrammar

/-- Whether the symbol of this number is visible. -/
def isVisible (g : FlatGrammar) (s : Nat) : Bool := (g.symbols[s]?).any (·.visible)

/-- Whether the symbol of this number is an extra. -/
def isExtra (g : FlatGrammar) (s : Nat) : Bool := (g.symbols[s]?).any (·.extra)

end FlatGrammar

/-- A table speaks of the symbols and productions of a flat grammar. -/
structure Table.Speaks (t : Table) (g : FlatGrammar) : Prop where
  start : t.start = g.start
  terminal : ∀ s, t.isTerminal s = g.isTerminal s
  visible : ∀ s, t.isVisible s = g.isVisible s
  extra : ∀ s, t.isExtra s = g.isExtra s
  production : ∀ p r, t.production? p = some r →
    ∃ q, g.productions[p]? = some q ∧ r.lhs = q.lhs ∧ r.size = q.rhs.length
  lexeme : t.lexeme? Symbol.finish = none

/-- The states of a table stand for places in the productions of a flat grammar.  In the first state
nothing has been read; a symbol leads to places after it, and every rule that is begun leads
somewhere. -/
structure Table.Guided (t : Table) (g : FlatGrammar) (items : StateId → Item → Prop) : Prop where
  first : ∀ i, items 0 i → i.dot = 0
  reduce : ∀ s a p, t.action? s a = some (.reduce p) → p < g.productions.size ∧
    items s ⟨p, (g.row p).length⟩
  accept : ∀ s a, t.action? s a = some .accept → items s ⟨g.productions.size, 1⟩
  leads : ∀ s a target, t.action? s a = some (.shift target) ∨ t.goto? s a = some target →
    target ≠ 0 ∧ (∃ p, a ∈ g.row p) ∧ ∀ p d, items target ⟨p, d + 1⟩ →
      items s ⟨p, d⟩ ∧ (g.row p)[d]? = some a
  begins : ∀ s p, items s ⟨p, 0⟩ → (p = g.productions.size ∧ s = 0) ∨
    ∃ q target, g.productions[p]? = some q ∧ t.goto? s q.lhs = some target

namespace TableImage

open RuleBook (ofGrammar)

variable {g : FlatGrammar} {p : ParserTable} {t : Table}

/-- What agrees with a flat grammar speaks of it. -/
theorem speaks_of_agrees (hg : g.Sound) {names : Names} (h : t.Agrees g p names) : t.Speaks g := by
  refine ⟨h.start, any_of_agrees h.symbols fun _ _ h => h.terminal,
    any_of_agrees h.symbols fun _ _ h => h.visible, any_of_agrees h.symbols fun _ _ h => h.extra,
    fun q r hr => ?_, ?_⟩
  · rw [Table.production?, h.productions, Array.getElem?_map] at hr
    obtain ⟨y, hy, rfl⟩ := Option.map_eq_some_iff.mp hr
    exact ⟨y, hy, rfl, by simp [FlatProduction.outline, Production.size, FlatProduction.rhs]⟩
  -- the end of the text is a token without a pattern
  · obtain ⟨info, hinfo, -, htoken, -⟩ := hg.builtIn 0 (by omega)
    obtain ⟨-, hnone⟩ | ⟨x, y, hx, hy, hagrees⟩ := getElem?_of_forall₂ h.symbols 0
    · rw [hinfo] at hnone
      cases hnone
    · cases hy.symm.trans hinfo
      have hlexeme := hagrees.noLexeme (by rw [FlatSymbol.lexeme?, htoken]; rfl)
      have hsymbol : t.symbol? Symbol.finish = some x := hx
      rw [Table.lexeme?, hsymbol]
      simp [hlexeme]

/-- What is done in a state is looked up in its row. -/
theorem lookup_of_action? {s : StateId} {a : Symbol} {action : Action}
    (h : t.action? s a = some action) : (t.actions s).lookup a = some action := by
  unfold Table.action? at h
  split at h
  · cases h
  · exact h

/-- So is where it goes by a rule. -/
theorem goto?_eq_some_iff {s : StateId} {a : Symbol} {target : StateId} :
    t.goto? s a = some target ↔ (t.actions s).lookup a = some (.goto target) := by
  unfold Table.goto?
  split
  · rename_i h
    simp [h]
  · rename_i h
    simp only [reduceCtorEq, false_iff]
    exact h target

/-- The actions that are read are guided by the items that they were chosen for, where the productions
can be told apart. -/
theorem guided_of_agrees (hg : g.Sound) (hp : ParserTable.ofGrammar g = .ok p)
    (hcount : g.productions.size ≤ RuleBook.productionIds)
    {names : Names} (h : t.Agrees g p names) : ∃ items, t.Guided g items := by
  obtain ⟨graph, hgraph, hsize, hstates⟩ := ParserTable.states_of_ofGrammar hg hp
  -- what a state does was chosen for its kernel
  have hlookup : ∀ (s : StateId) (a : Symbol) (action : Action),
      (t.actions s).lookup a = some action → ∃ kernel actions, graph.kernels[s]? = some kernel ∧
        Chosen g kernel (graph.transitions.getD s []) actions ∧ (a, action) ∈ actions := by
    intro s a action hl
    unfold Table.actions at hl
    split at hl
    · rename_i state hstate
      rw [h.states] at hstate
      obtain ⟨kernel, hk, hchosen⟩ := hstates s state hstate
      exact ⟨kernel, state.actions, hk, hchosen, StateGraph.mem_of_lookup hl⟩
    · cases hl
  -- the items of a state are those that its kernel leads to
  refine ⟨fun s i => ∃ kernel, graph.kernels[s]? = some kernel ∧ (ofGrammar g).Closed kernel i,
    ?_, fun s a q ha => ?_, fun s a ha => ?_, fun s a target ha => ?_, ?_⟩
  · rintro i ⟨kernel, hk, hi | ⟨-, -, hdot, -⟩⟩
    · rw [hgraph.zero] at hk
      cases hk
      rw [List.mem_singleton.mp hi]
      rfl
    · exact hdot
  · obtain ⟨kernel, actions, hk, hchosen, hmem⟩ := hlookup s a _ (lookup_of_action? ha)
    obtain ⟨i, hi, hne, rfl, hnext⟩ := hchosen.reduce a q hmem
    have hlt := Nat.lt_of_le_of_ne (hgraph.production_le hk hi) hne
    rw [Nat.mod_eq_of_lt (Nat.lt_of_lt_of_le hlt hcount)]
    exact ⟨hlt, kernel, hk, hgraph.dot_eq hk hi hnext ▸ hi⟩
  · obtain ⟨kernel, actions, hk, hchosen, hmem⟩ := hlookup s a _ (lookup_of_action? ha)
    obtain ⟨-, i, hi, hproduction, hnext⟩ := hchosen.accept a hmem
    have hdot := hgraph.dot_eq hk hi hnext
    rw [hproduction, g.row_accepting] at hdot
    refine ⟨kernel, hk, ?_⟩
    rw [← hproduction, ← show i.dot = 1 from hdot]
    exact hi
  · obtain ⟨kernel, hk, hmem⟩ : ∃ kernel, graph.kernels[s]? = some kernel ∧
        (a, target) ∈ graph.transitions.getD s [] := by
      obtain ha | ha := ha
      · obtain ⟨kernel, actions, hk, hchosen, hmem⟩ := hlookup s a _ (lookup_of_action? ha)
        exact ⟨kernel, hk, hchosen.shift a target hmem⟩
      · obtain ⟨kernel, actions, hk, hchosen, hmem⟩ := hlookup s a _ (goto?_eq_some_iff.mp ha)
        exact ⟨kernel, hk, hchosen.goto a target hmem⟩
    obtain ⟨hne, ⟨i, hi⟩, next, hnext, hall⟩ := (hgraph.leads s kernel hk).target a target hmem
    rw [RuleBook.next?_ofGrammar] at hi
    refine ⟨hne, ⟨_, List.mem_of_getElem? hi⟩, fun q d ⟨kernel', hk', hi⟩ => ?_⟩
    cases hnext.symm.trans hk'
    -- only an item of the kernel has a symbol behind it
    obtain hi | ⟨-, -, hdot, -⟩ := hi
    · obtain ⟨i, hclosed, hi', hadvance⟩ := hall _ hi
      cases hadvance
      rw [RuleBook.next?_ofGrammar] at hi'
      exact ⟨⟨kernel, hk, hclosed⟩, hi'⟩
    · cases hdot
  · rintro s q ⟨kernel, hk, hi⟩
    refine (hgraph.begins hk hi).imp_right fun ⟨r, hr, hreach⟩ => ?_
    obtain ⟨i, hclosed, hnext⟩ := hreach.next
    obtain ⟨target, htarget⟩ := (hgraph.leads s kernel hk).all i _ hclosed hnext
    have hrule := hg.lhs r (Array.mem_of_getElem? hr)
    have hlt : s < p.states.size := hsize ▸ (Array.getElem?_eq_some_iff.mp hk).1
    have hstate := Array.getElem?_eq_getElem hlt
    obtain ⟨kernel', hk', hchosen⟩ := hstates s _ hstate
    obtain ⟨target', hmem⟩ := hchosen.gotos _ target htarget hrule.2.1 hrule.2.2
    refine ⟨r, target', hr, goto?_eq_some_iff.mpr ?_⟩
    rw [Table.actions, h.states, hstate]
    exact StateGraph.lookup_of_mem hchosen.distinct hmem

end TableImage

/-- The table of a grammar was read from bytes that were written. -/
theorem Grammar.written_table {g : Grammar} {t : Table} (h : g.table = .ok t) :
    ∃ flat p bytes, g.flatten = .ok flat ∧ ParserTable.ofGrammar flat = .ok p ∧
      TableImage.write flat p = .ok bytes ∧ Table.load bytes = .ok t := by
  unfold table at h
  split at h
  · cases h
  · rename_i bytes hbytes
    split at h
    · cases h
    · rename_i loaded hload
      cases h
      -- the bytes were written from the grammar's own tables
      unfold compile at hbytes
      simp only [Except.bind_eq_ok] at hbytes
      obtain ⟨flat, hflat, p, hp, hwrite⟩ := hbytes
      exact ⟨flat, p, bytes, hflat, hp, hwrite, hload⟩

/-- A grammar that has a table has no more productions than a table can count, so its actions tell them
apart. -/
theorem Grammar.size_productions_le {g : Grammar} {flat : FlatGrammar} {t : Table}
    (hflat : g.flatten = .ok flat) (h : g.table = .ok t) :
    flat.productions.size ≤ RuleBook.productionIds := by
  obtain ⟨flat', p, bytes, hflat', -, hwrite, -⟩ := written_table h
  cases hflat.symm.trans hflat'
  obtain ⟨names, symbols, fields, name, hw, -⟩ := TableImage.write_eq_ok hwrite
  have hle : flat.productions.size ≤ TableImage.maxCount := hw.productions
  exact Nat.le_trans hle (by decide)

/-- The table of a grammar agrees with its flat grammar and its parser table. -/
theorem Grammar.agrees_table {g : Grammar} {t : Table} (h : g.table = .ok t) :
    ∃ flat p names, g.flatten = .ok flat ∧ flat.Sound ∧ ParserTable.ofGrammar flat = .ok p ∧
      t.Checked ∧ t.Agrees flat p names := by
  obtain ⟨flat, p, bytes, hflat, hp, hwrite, hload⟩ := written_table h
  have hg := sound_flatten hflat
  obtain ⟨names, hagrees, -⟩ :=
    TableImage.agrees_of_load hg (ParserTable.proper_of_ofGrammar hg hp) hwrite hload
  exact ⟨flat, p, names, hflat, hg, hp, Table.checked_of_load hload, hagrees⟩

/-- The table of a grammar speaks of the flat grammar and is guided by the items of its states. -/
theorem Grammar.guided_table {g : Grammar} {flat : FlatGrammar} {t : Table}
    (hflat : g.flatten = .ok flat) (h : g.table = .ok t) :
    t.Checked ∧ flat.Sound ∧ t.Speaks flat ∧ ∃ items, t.Guided flat items := by
  obtain ⟨flat', p, names, hflat', hg, hp, hchecked, hagrees⟩ := agrees_table h
  cases hflat.symm.trans hflat'
  exact ⟨hchecked, hg, TableImage.speaks_of_agrees hg hagrees,
    TableImage.guided_of_agrees hg hp (size_productions_le hflat h) hagrees⟩

/-- The lex modes of a grammar's table list their tokens in ascending order. -/
theorem Grammar.modes_ascending {g : Grammar} {t : Table} (h : g.table = .ok t) (mode : LexMode) :
    (t.modeSymbols mode).Pairwise (· < ·) := by
  obtain ⟨flat, p, names, -, -, hp, -, hagrees⟩ := agrees_table h
  unfold Table.modeSymbols
  rw [hagrees.lexModes]
  cases hmode : p.lexModes[mode]? with
  | none => exact .nil
  | some symbols => exact ParserTable.ascending_of_ofGrammar hp symbols (Array.mem_of_getElem? hmode)

/-- A grammar that has a table has a flat grammar. -/
theorem Grammar.exists_flatten {g : Grammar} {t : Table} (h : g.table = .ok t) :
    ∃ flat, g.flatten = .ok flat := by
  obtain ⟨flat, _, _, hflat, -⟩ := agrees_table h
  exact ⟨flat, hflat⟩

/-- The table of a grammar is found part by part. -/
theorem Grammar.table_of_parts {g : Grammar} {flat : FlatGrammar} {p : ParserTable}
    {bytes : ByteArray} {t : Table} (hflat : g.flatten = .ok flat)
    (hp : ParserTable.ofGrammar flat = .ok p) (hw : TableImage.write flat p = .ok bytes)
    (hload : Table.load bytes = .ok t) : g.table = .ok t := by
  have hcompile : g.compile = .ok bytes :=
    Except.bind_eq_ok.mpr ⟨flat, hflat, Except.bind_eq_ok.mpr ⟨p, hp, hw⟩⟩
  rw [table, hcompile]
  dsimp only
  rw [hload]

/-! ## Symbols of small grammars -/

/-- The symbol of a letter that is written in a grammar. -/
def FlatSymbol.letter (name : String) : FlatSymbol :=
  ⟨name, some ⟨name, true, false, 0⟩, true, false, true, false⟩

/-- The automaton of a letter, which sees the byte after it before it matches. -/
def Automaton.ofByte (byte : Nat) : Automaton where
  starts := [0, 0, 0, 0, 0]
  states := #[⟨false, false, [⟨byte, byte, 1⟩]⟩, ⟨false, true, [⟨0, 255, 2⟩]⟩, ⟨true, false, []⟩]

/-- A symbol that is no extra, and no token of a precedence or without a gap in front of it. -/
def SymbolInfo.plain (name : String) (terminal named visible literal : Bool) (lexeme : Option Nat) :
    SymbolInfo :=
  ⟨name, terminal, named, visible, false, literal, false, lexeme, 0⟩

/-! ## A grammar of one token -/

namespace OneToken

/-- The grammar of the text `a`. -/
def grammar : Grammar where
  name := "g"
  rules := [("s", .string "a")]
  extras := []
  precedences := []
  conflicts := []
  externals := []
  inlined := []
  supertypes := []
  word := none
  reserved := []

/-- The rule and its token, after the two symbols that every grammar has. -/
def flat : FlatGrammar where
  name := "g"
  symbols := #[⟨"end", none, true, false, false, false⟩, ⟨"ERROR", none, true, true, true, false⟩,
    ⟨"s", none, false, true, true, false⟩,
    ⟨"a", some ⟨"a", true, false, 0⟩, true, false, true, false⟩]
  productions := #[⟨2, [(3, none)], none⟩]
  fields := #[]
  start := 2

def parser : ParserTable where
  states := #[⟨[(2, .goto 1), (3, .shift 2)], 0⟩, ⟨[(0, .accept)], 1⟩, ⟨[(0, .reduce 0)], 1⟩]
  lexModes := #[[3], []]

/-- The automaton of the token sees the byte after it before it matches. -/
def automaton : Automaton where
  starts := [0, 0, 0, 0, 0]
  states := #[⟨false, false, [⟨97, 97, 1⟩]⟩, ⟨false, true, [⟨0, 255, 2⟩]⟩, ⟨true, false, []⟩]

def names : Names := ⟨#["g", "end", "ERROR", "s", "a"], #[⟨4, automaton.encode⟩]⟩

/-- The entries of the symbols. -/
def entries : List (List UInt8) :=
  [[1, 0, 1, 0, 0, 0, 0, 0], [2, 0, 7, 0, 0, 0, 0, 0], [3, 0, 6, 0, 0, 0, 0, 0],
    [4, 0, 21, 0, 1, 0, 0, 0]]

/-- Everything after the header. -/
def body : List UInt8 := Header.filled (TableImage.holds flat parser names entries []) Section.all

def bytes : ByteArray :=
  ofBytes ((TableImage.header flat parser names 0 940454061 (Header.size + body.length)
    (TableImage.holds flat parser names entries [])).encode ++ body)

def table : Table where
  version := 1
  name := "g"
  start := 2
  symbols := #[⟨"end", true, false, false, false, false, false, none, 0⟩,
    ⟨"ERROR", true, true, true, false, false, false, none, 0⟩,
    ⟨"s", false, true, true, false, false, false, none, 0⟩,
    ⟨"a", true, false, true, false, true, false, some 1, 0⟩]
  fields := #[]
  productions := #[⟨2, [none]⟩]
  states := parser.states
  lexModes := parser.lexModes
  lexemes := #[none, some ⟨"a", automaton⟩]

theorem flatten_grammar : grammar.flatten = .ok flat := by
  cbv

theorem ofGrammar_flat : ParserTable.ofGrammar flat = .ok parser := by
  cbv

theorem nameAll_flat :
    (TableImage.nameAll .plain flat).run ⟨#[], #[]⟩ = .ok ((0, entries, []), names) := by
  cbv

theorem checksum_body : checksum (ofBytes body) = 940454061 := by
  rw [checksum_eq]
  decide +kernel

theorem write_flat : TableImage.write flat parser = .ok bytes := by
  rw [TableImage.write_of_nameAll nameAll_flat rfl (by decide) (by decide) (by decide)
    (by decide +kernel), ← body, checksum_body, bytes]

theorem load_bytes : Table.load bytes = .ok table := by
  apply Except.eq_ok_of_toOption
  unfold Table.load Table.loadWith Table.loadHeader
  rw [checksum_extract]
  decide +kernel

/-- The grammar has a table. -/
theorem table_grammar : grammar.table = .ok table :=
  Grammar.table_of_parts flatten_grammar ofGrammar_flat write_flat load_bytes

end OneToken

end IncrementalParsing
