import IncrementalParsing.Proofs.Table.Compiled

/-!
# What a compiled table answers

A grammar that can be compiled has a table: its bytes load, and whatever the table is asked, it answers
what the flat grammar and the parser table say.

## Key results

- `Grammar.load_compile`: the bytes of a grammar load to a table that answers for it
-/

namespace IncrementalParsing

/-- Whatever a table is asked, it answers what a flat grammar and its parser table say. -/
structure Table.Answers (t : Table) (g : FlatGrammar) (p : ParserTable) : Prop where
  version : t.version = Header.currentVersion
  name : t.name = g.name
  start : t.start = g.start
  symbolCount : t.symbols.size = g.symbols.size
  symbolName : ∀ s, t.symbolName s = g.symbolName s
  symbolForName : ∀ name named, t.symbolForName? name named =
    g.symbols.findIdx? fun info => info.name == name && info.named == named
  terminal : ∀ s, t.isTerminal s = g.isTerminal s
  named : ∀ s, t.isNamed s = (g.symbols[s]?).any (·.named)
  visible : ∀ s, t.isVisible s = g.isVisible s
  extra : ∀ s, t.isExtra s = g.isExtra s
  trivia : ∀ s, t.isTrivia s =
    (g.symbols[s]?).any fun info => info.terminal && info.extra && !info.visible
  literal : ∀ s, (t.symbol? s).map (·.literal) =
    (g.symbols[s]?).map fun info => info.token.any (·.literal)
  immediate : ∀ s, (t.symbol? s).map (·.immediate) =
    (g.symbols[s]?).map fun info => info.token.any (·.immediate)
  precedence : ∀ s, (t.symbol? s).map (·.precedence) =
    (g.symbols[s]?).map fun info => (info.token.map (·.precedence)).getD 0
  lexeme : ∀ s info token, g.symbols[s]? = some info → info.token = some token →
    ∃ a, TableImage.automaton? token.pattern = some a ∧ t.lexeme? s = some ⟨token.pattern, a⟩
  noLexeme : ∀ s, (∀ info, g.symbols[s]? = some info → info.token = none) → t.lexeme? s = none
  fieldCount : t.fields.size = g.fields.size
  fieldName : ∀ i, t.fieldName? (i + 1) = g.fields[i]?
  fieldId : ∀ name i, t.fieldId? name = some i ↔ t.fieldName? i = some name
  productionCount : t.productions.size = g.productions.size
  production : ∀ q, t.production? q = (g.productions[q]?).map FlatProduction.outline
  stateCount : t.states.size = p.states.size
  actions : ∀ s, t.actions s = p.actions s
  action : ∀ s a, t.action? s a = p.action? s a
  goto : ∀ s a, t.goto? s a = p.goto? s a
  lexMode : ∀ s, t.lexMode s = p.lexMode s
  modeCount : t.lexModes.size = p.lexModes.size
  modeSymbols : ∀ m, t.modeSymbols m = p.modeSymbols m

namespace TableImage

variable {g : FlatGrammar} {p : ParserTable} {t : Table} {names : Names}

/-- Tokens have patterns, so each can be looked for. -/
theorem lexeme?_eq_token (hg : g.Sound) {s : FlatSymbol} (hs : s ∈ g.symbols) : s.lexeme? = s.token := by
  unfold FlatSymbol.lexeme?
  cases htoken : s.token with
  | none => rfl
  | some token =>
    have hpattern := (hg.proper s hs token htoken).2.1
    simp [Option.filter, hpattern]

/-- What is known of symbols by their position. -/
theorem map_symbol? (h : t.Agrees g p names) {α : Type} {f : SymbolInfo → α} {f' : FlatSymbol → α}
    (hf : ∀ info s, s ∈ g.symbols → SymbolInfo.Agrees names info s → f info = f' s) (s : Symbol) :
    (t.symbol? s).map f = (g.symbols[s]?).map f' := by
  obtain ⟨hx, hy⟩ | ⟨info, flat, hx, hy, hagrees⟩ := getElem?_of_forall₂ h.symbols s
  · rw [Table.symbol?, hx, hy]
    rfl
  · rw [Table.symbol?, hx, hy, Option.map_some, Option.map_some,
      hf info flat (Array.mem_of_getElem? hy) hagrees]

theorem symbolForName?_of_agrees (h : t.Agrees g p names) (name : String) (named : Bool) :
    t.symbolForName? name named =
      g.symbols.findIdx? fun info => info.name == name && info.named == named := by
  have hmap : t.symbols.map (fun info => info.name == name && info.named == named) =
      g.symbols.map fun info => info.name == name && info.named == named :=
    map_of_forall₂ h.symbols fun info s hagrees => by rw [hagrees.name, hagrees.named]
  have hfind := congrArg (Array.findIdx? id) hmap
  rwa [Array.findIdx?_map, Array.findIdx?_map] at hfind

/-- Fields are found by their names, of which none occurs twice. -/
theorem fieldId?_eq_some_iff (hnodup : t.fields.toList.Nodup) (name : String) (i : FieldId) :
    t.fieldId? name = some i ↔ t.fieldName? i = some name := by
  unfold Table.fieldId?
  cases i with
  | zero => simp [Table.fieldName?]
  | succ i =>
    rw [Table.fieldName?, Option.map_eq_some_iff]
    constructor
    · rintro ⟨j, hfound, hj⟩
      obtain ⟨hlt, heq, -⟩ := Array.findIdx?_eq_some_iff_getElem.mp hfound
      obtain rfl : j = i := Nat.succ.inj hj
      rw [Array.getElem?_eq_getElem hlt, eq_of_beq heq]
    -- the names differ, so no field before this one has the name
    · intro hname
      obtain ⟨hlt, heq⟩ := Array.getElem?_eq_some_iff.mp hname
      refine ⟨i, Array.findIdx?_eq_some_iff_getElem.mpr ⟨hlt, beq_iff_eq.mpr heq, fun j hj hsame => ?_⟩,
        rfl⟩
      have hlt' : j < t.fields.size := Nat.lt_trans hj hlt
      rw [beq_iff_eq, ← heq] at hsame
      refine Nat.ne_of_lt hj ((List.getElem?_inj (by rwa [Array.length_toList]) hnodup).mp ?_)
      rw [Array.getElem?_toList, Array.getElem?_toList, Array.getElem?_eq_getElem hlt',
        Array.getElem?_eq_getElem hlt, hsame]

/-- What agrees with a flat grammar and its parser table answers for them. -/
theorem answers_of_agrees (hg : g.Sound) (h : t.Agrees g p names) (hlexes : names.Lexes t.lexemes) :
    t.Answers g p := by
  have htoken := fun s hs => lexeme?_eq_token (s := s) hg hs
  have hactions : ∀ s, t.actions s = p.actions s := fun s => by
    cases hs : p.states[s]? <;> simp [Table.actions, ParserTable.actions, h.states, hs]
  refine ⟨h.version, h.name, h.start, ?_, fun s => ?_, symbolForName?_of_agrees h,
    any_of_agrees h.symbols fun _ _ h => h.terminal, any_of_agrees h.symbols fun _ _ h => h.named,
    any_of_agrees h.symbols fun _ _ h => h.visible, any_of_agrees h.symbols fun _ _ h => h.extra,
    any_of_agrees h.symbols fun info s h => ?_, map_symbol? h fun info s hs h => ?_,
    map_symbol? h fun info s hs h => ?_, map_symbol? h fun info s hs h => ?_,
    fun s info token hs ht => ?_, fun s hs => ?_, by rw [h.fields], fun i => ?_,
    fieldId?_eq_some_iff (by rw [h.fields]; exact hg.nodup), by rw [h.productions, Array.size_map],
    fun q => ?_, by rw [h.states], hactions, fun s a => ?_, fun s a => ?_, fun s => ?_,
    by rw [h.lexModes], fun m => ?_⟩
  · simpa using h.symbols.length_eq
  · rw [Table.symbolName, map_symbol? h fun _ _ _ h => h.name]
    rfl
  · rw [SymbolInfo.isTrivia, h.terminal, h.extra, h.visible]
  · rw [h.literal, htoken s hs]
  · rw [h.immediate, htoken s hs]
  · rw [h.precedence, htoken s hs]
  -- the symbols of the table and those of the grammar stand in the same places
  · obtain ⟨-, hnone⟩ | ⟨found, flat, hfound, hflat, hagrees⟩ := getElem?_of_forall₂ h.symbols s
    · rw [hs] at hnone
      cases hnone
    · cases hs.symm.trans hflat
      obtain ⟨i, hi, hpattern⟩ :=
        hagrees.lexeme token (by rw [htoken _ (Array.mem_of_getElem? hflat), ht])
      obtain ⟨a, ha, hlexeme⟩ := hlexes i token.pattern hpattern
      refine ⟨a, ha, ?_⟩
      have hsymbol : t.symbol? s = some found := hfound
      simp [Table.lexeme?, hsymbol, hi, hlexeme]
  · obtain ⟨hnone, -⟩ | ⟨found, flat, hfound, hflat, hagrees⟩ := getElem?_of_forall₂ h.symbols s
    · have hsymbol : t.symbol? s = none := hnone
      simp [Table.lexeme?, hsymbol]
    · have hsymbol : t.symbol? s = some found := hfound
      have hnone := hagrees.noLexeme
        (by rw [htoken _ (Array.mem_of_getElem? hflat), hs flat hflat])
      simp [Table.lexeme?, hsymbol, hnone]
  · rw [Table.fieldName?, h.fields]
  · rw [Table.production?, h.productions, Array.getElem?_map]
  -- a cell is found or not, and only a goto is kept from the look-ups of actions
  · cases hfound : (p.actions s).lookup a with
    | none => simp [Table.action?, ParserTable.action?, hactions, hfound]
    | some action => cases action <;> simp [Table.action?, ParserTable.action?, hactions, hfound]
  · cases hfound : (p.actions s).lookup a with
    | none => simp [Table.goto?, ParserTable.goto?, hactions, hfound]
    | some action => cases action <;> simp [Table.goto?, ParserTable.goto?, hactions, hfound]
  · cases hs : p.states[s]? <;> simp [Table.lexMode, ParserTable.lexMode, h.states, hs]
  · rw [Table.modeSymbols, ParserTable.modeSymbols, h.lexModes]

end TableImage

/-- What a codec writes for a grammar is read with it as a table that answers for the grammar, if the
codec reads back the automaton of each token. -/
theorem TableImage.exists_loadWith {codec : Automaton.Codec} {g : FlatGrammar} {p : ParserTable}
    {bytes : ByteArray} (hg : g.Sound) (hp : p.Proper g) (hmodes : p.lexModes.size ≤ maxCount)
    (hwrite : writeWith codec g p = .ok bytes)
    (hautomata : ∀ s ∈ g.symbols, ∀ token, s.token = some token → ∀ a,
      automaton? token.pattern = some a → codec.ReadsBack a) :
    ∃ t, Table.loadWith codec bytes = .ok t ∧ t.Answers g p := by
  obtain ⟨names, symbols, fields, name, hw, hlaid⟩ := write_eq_ok hwrite
  have hl := laid_of_writes hw
  rw [← hlaid] at hl
  obtain ⟨lexemes, hlexemes, hlexes⟩ := loadLexemes_eq_ok hw hl
    fun pattern a ⟨s, hs, token, ht, heq⟩ ha => hautomata s hs token
      (by rw [← lexeme?_eq_token hg hs, ht]) a (heq ▸ ha)
  obtain ⟨t, hload, hagrees, rfl⟩ := load_eq_ok hg hp hmodes hw hlaid hlexemes
  exact ⟨t, hload, answers_of_agrees hg hagrees hlexes⟩

/-- The bytes of a grammar load to a table that answers for its flat grammar and its parser table, if its
lex modes can be counted and the automaton of each of its tokens is read back from its bytes. -/
theorem Grammar.load_compile {g : Grammar} {flat : FlatGrammar} {p : ParserTable} {bytes : ByteArray}
    (hflat : g.flatten = .ok flat) (hp : ParserTable.ofGrammar flat = .ok p)
    (hbytes : g.compile = .ok bytes) (hmodes : p.lexModes.size ≤ TableImage.maxCount)
    (hautomata : ∀ s ∈ flat.symbols, ∀ token, s.token = some token → ∀ a,
      TableImage.automaton? token.pattern = some a → Automaton.decode? a.encode = some a) :
    ∃ t, Table.load bytes = .ok t ∧ g.table = .ok t ∧ t.Answers flat p := by
  have hg := sound_flatten hflat
  have hwrite : TableImage.write flat p = .ok bytes := by
    obtain ⟨flat', hflat', p', hp', hwrite⟩ : ∃ flat', g.flatten = .ok flat' ∧ ∃ p',
        ParserTable.ofGrammar flat' = .ok p' ∧ TableImage.write flat' p' = .ok bytes := by
      simpa only [compile, Except.bind_eq_ok] using hbytes
    cases hflat.symm.trans hflat'
    cases hp.symm.trans hp'
    exact hwrite
  -- what is asked of the automata is asked of those that are written
  obtain ⟨t, hload, hanswers⟩ := TableImage.exists_loadWith hg
    (ParserTable.proper_of_ofGrammar hg hp) hmodes hwrite
    fun s hs token ht a ha => Automaton.Codec.readsBack_plain (hautomata s hs token ht a ha)
  exact ⟨t, hload, table_of_parts hflat hp hwrite hload, hanswers⟩

namespace OneToken

theorem compile_grammar : grammar.compile = .ok bytes :=
  Except.bind_eq_ok.mpr ⟨flat, flatten_grammar, Except.bind_eq_ok.mpr ⟨parser, ofGrammar_flat, write_flat⟩⟩

theorem automaton?_a : TableImage.automaton? "a" = some automaton := by
  cbv

/-- The table of the grammar of one token is the one that its bytes load to. -/
theorem load_compile_grammar : Table.load bytes = .ok table ∧ table.Answers flat parser := by
  -- the only pattern of the grammar is one letter
  have hautomata : ∀ s ∈ flat.symbols, ∀ token, s.token = some token → ∀ a,
      TableImage.automaton? token.pattern = some a → Automaton.decode? a.encode = some a := by
    intro s hs token ht a ha
    have hpattern : ∀ s ∈ flat.symbols, ∀ token, s.token = some token → token.pattern = "a" := by
      decide
    rw [hpattern s hs token ht, automaton?_a] at ha
    cases ha
    decide +kernel
  obtain ⟨t, hload, -, hanswers⟩ := Grammar.load_compile flatten_grammar ofGrammar_flat compile_grammar
    (by decide) hautomata
  cases load_bytes.symm.trans hload
  exact ⟨hload, hanswers⟩

end OneToken

end IncrementalParsing
