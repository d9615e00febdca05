import IncrementalParsing.Proofs.Lalr.LexModes
import IncrementalParsing.Proofs.Table.Reading

/-!
# Written tables are read back

`Table.load` reads from the bytes that `TableImage.write` wrote what was written, and nothing that the
loader checks is wrong in the table of a grammar.

## Key results

- `load_eq_ok`: the table that is read, given the lexemes that are read
- `agrees_of_load`: a table that is read agrees with what was written
-/

namespace IncrementalParsing

/-- The part of a production that a table keeps: what it builds, and the field of each part. -/
def FlatProduction.outline (q : FlatProduction) : Production := ⟨q.lhs, q.parts.map (·.2)⟩

/-- A table says the same as a flat grammar and its parser table. -/
structure Table.Agrees (t : Table) (g : FlatGrammar) (p : ParserTable) (names : Names) : Prop where
  version : t.version = Header.currentVersion
  name : t.name = g.name
  start : t.start = g.start
  symbols : List.Forall₂ (SymbolInfo.Agrees names) t.symbols.toList g.symbols.toList
  fields : t.fields = g.fields
  productions : t.productions = g.productions.map FlatProduction.outline
  states : t.states = p.states
  lexModes : t.lexModes = p.lexModes

namespace TableImage

open Table

variable {codec : Automaton.Codec} {g : FlatGrammar} {p : ParserTable} {names : Names}
  {symbols : List (List UInt8)} {fields : List Nat} {name : Nat} {bytes : ByteArray}
  {infos : Array SymbolInfo}

/-! ## Productions -/

theorem isRule_of_agrees (h : List.Forall₂ (SymbolInfo.Agrees names) infos.toList g.symbols.toList)
    {s : Symbol} (hs : s < g.symbols.size) (hrule : g.isTerminal s = false) :
    isRule infos s = true := by
  obtain ⟨-, hnone⟩ | ⟨info, flat, hinfo, hflat, hagrees⟩ := getElem?_of_forall₂ h s
  · exact absurd hs (Nat.not_lt.mpr (Array.getElem?_eq_none_iff.mp hnone))
  · rw [FlatGrammar.isTerminal, hflat] at hrule
    rw [isRule, hinfo, Option.any_some, hagrees.terminal]
    exact congrArg not hrule

/-- The fields of a production stand after those of the productions before it. -/
theorem productionField_laid (hg : g.Sound)
    (hl : Laid bytes (headerOf g p names symbols fields name) (holds g p names symbols fields))
    {i c : Nat} (hi : i < g.productions.size) (hc : c < g.productions[i].parts.length) :
    numberAt bytes 2 ((headerOf g p names symbols fields name).offset .productionFields + 2 *
      (sumOf (fun q => q.parts.length) (g.productions.toList.take i) + c)) =
        .ok (g.productions[i].parts[c].2.getD 0) := by
  have hi' : i < g.productions.toList.length := by rwa [Array.length_toList]
  -- the fields of all productions stand in one list
  have hget := getElem?_flatMap FlatProduction.parts g.productions.toList hi' (c := c)
    (by rwa [Array.getElem_toList])
  rw [Array.getElem_toList, List.getElem?_eq_getElem hc] at hget
  obtain ⟨hlt, hget⟩ := List.getElem?_eq_some_iff.mp hget
  have hbody : holds g p names symbols fields .productionFields =
      (g.productions.toList.flatMap FlatProduction.parts).flatMap
        fun part => littleEndian 2 (part.2.getD 0) := by
    rw [List.flatMap_assoc]
    rfl
  -- no field is written as 0, which is no field's number
  have hbound : g.productions[i].parts[c].2.getD 0 < 256 ^ 2 := by
    have hfields := hg.fields_le
    unfold Flatten.maxCount at hfields
    cases hfield : g.productions[i].parts[c].2 with
    | none => decide
    | some field =>
      have := hg.field _ (Array.getElem_mem hi) _ (List.getElem_mem hc) field hfield
      simp only [Option.getD_some]
      omega
  refine hl.entry (a := []) (b := []) hbody (fun part _ => length_littleEndian 2 _) hlt ?_ hbound rfl
  rw [hget, List.append_nil]
  rfl

/-- What stands in the entry of a production. -/
theorem production_laid (hg : g.Sound) (hw : Writes codec g p names symbols fields name)
    (hl : Laid bytes (headerOf g p names symbols fields name) (holds g p names symbols fields))
    {i : Nat} (hi : i < g.productions.size) :
    ∃ first, first = sumOf (fun q => q.parts.length) (g.productions.toList.take i) ∧
      numberAt bytes 2 ((headerOf g p names symbols fields name).offset .productions + 8 * i) =
        .ok g.productions[i].lhs ∧
      numberAt bytes 2 ((headerOf g p names symbols fields name).offset .productions + 8 * i + 2) =
        .ok g.productions[i].parts.length ∧
      numberAt bytes 4 ((headerOf g p names symbols fields name).offset .productions + 8 * i + 4) =
        .ok first ∧
      first + g.productions[i].parts.length ≤
        (headerOf g p names symbols fields name).productionFieldCount := by
  have hq : g.productions[i] ∈ g.productions := Array.getElem_mem hi
  have hi' : i < g.productions.toList.length := by rwa [Array.length_toList]
  have hlhs := hg.lhs _ hq
  have hsymbols := hg.symbols_le
  have hparts := hw.parts _ (Array.mem_toList_iff.mpr hq)
  unfold Flatten.maxCount at hsymbols
  unfold maxCount at hparts
  have hcount : (headerOf g p names symbols fields name).productionFieldCount =
      sumOf (fun q => q.parts.length) g.productions.toList := rfl
  have htotal : (holds g p names symbols fields .productionFields).length =
      2 * sumOf (fun q => q.parts.length) g.productions.toList :=
    length_flatMap_sum fun q => length_flatMap_of fun n _ => length_littleEndian 2 _
  have hlt := hw.length_holds_lt .productionFields
  -- the fields of this production and of those before it are among all fields
  have hle := sumOf_take_le (fun q : FlatProduction => q.parts.length) g.productions.toList (i + 1)
  rw [sumOf_take_succ _ _ hi', Array.getElem_toList] at hle
  -- the entry is the left side, the number of parts and the place of the first field
  refine ⟨_, rfl, ?_, ?_, ?_, by rw [hcount]; exact hle⟩
  · refine hl.offsetEntry (s := .productions) (f := productionEntry) (a := []) rfl
      length_productionEntry hi' (List.append_assoc ..) ?_ rfl
    omega
  · exact hl.offsetEntry (s := .productions) (f := productionEntry)
      (a := littleEndian 2 g.productions[i].lhs) rfl length_productionEntry hi'
      (List.append_assoc ..) (Nat.lt_of_le_of_lt hparts (by decide)) (by simp [Nat.add_assoc])
  · refine hl.offsetEntry (s := .productions) (f := productionEntry)
      (a := littleEndian 2 g.productions[i].lhs ++ littleEndian 2 g.productions[i].parts.length)
      (b := []) rfl length_productionEntry hi' ?_ ?_ (by simp [Nat.add_assoc])
    · rw [List.append_nil]
      rfl
    · omega

theorem loadProductions_eq_ok (hg : g.Sound) (hw : Writes codec g p names symbols fields name)
    (hl : Laid bytes (headerOf g p names symbols fields name) (holds g p names symbols fields))
    (hinfos : List.Forall₂ (SymbolInfo.Agrees names) infos.toList g.symbols.toList) :
    loadProductions bytes (headerOf g p names symbols fields name) infos =
      .ok (g.productions.map FlatProduction.outline) := by
  refine readMany_of_get (by rw [Array.size_map]; exact Array.length_toList.symm) fun i hi => ?_
  rw [Array.size_map] at hi
  have hq : g.productions[i] ∈ g.productions := Array.getElem_mem hi
  obtain ⟨_, rfl, hlhs, hsize, hfirst, hle⟩ := production_laid hg hw hl hi
  rw [Array.getElem_map]
  simp only [Except.bind_eq_ok, Except.guard_eq_ok, Except.pure_eq_ok]
  refine ⟨_, hlhs, _, hsize, _, hfirst, ?_, Nat.not_lt.mpr hle,
    (g.productions[i].parts.map (·.2)).toArray, ?_, rfl⟩
  · rw [isRule_of_agrees hinfos (hg.lhs _ hq).2.1 (hg.lhs _ hq).2.2]
    decide
  · refine readMany_of_get (by simp) fun c hc => ?_
    have hc' : c < g.productions[i].parts.length := by simpa using hc
    have hfield := hg.field _ hq _ (List.getElem_mem hc')
    have hcount : (headerOf g p names symbols fields name).fieldCount = g.fields.size := rfl
    simp only [Except.bind_eq_ok, Except.guard_eq_ok, Except.pure_eq_ok]
    refine ⟨_, productionField_laid hg hl hi hc', ?_, ?_⟩
    -- a field is checked against the count only if there is one
    · cases h : g.productions[i].parts[c].2 with
      | none => exact Nat.not_lt.mpr (Nat.zero_le _)
      | some field => exact Nat.not_lt.mpr (hfield field h).2
    · have hget : (g.productions[i].parts.map (·.2)).toArray[c] = g.productions[i].parts[c].2 := by
        simp
      rw [hget]
      cases h : g.productions[i].parts[c].2 with
      | none => rfl
      | some field => exact if_neg (Nat.ne_of_gt (hfield field h).1)

/-! ## States -/

/-- The actions of all states, one state after the other. -/
def listed (p : ParserTable) : List (Symbol × Action) := p.states.toList.flatMap (·.actions)

/-- Where each state finds its actions, and its lex mode. -/
def stateEntries (p : ParserTable) : Array StateEntry :=
  .ofFn fun i : Fin p.states.size => ⟨sumOf (fun s => s.actions.length) (p.states.toList.take i),
    p.states[i].actions.length, p.states[i].lexMode⟩

theorem loadStates_eq_ok (hp : p.Proper g) (hmodes : p.lexModes.size ≤ maxCount)
    (hw : Writes codec g p names symbols fields name)
    (hl : Laid bytes (headerOf g p names symbols fields name) (holds g p names symbols fields)) :
    loadStates bytes (headerOf g p names symbols fields name) = .ok (stateEntries p) := by
  have hcount : (headerOf g p names symbols fields name).stateCount = p.states.size := rfl
  have hnonempty := hp.nonempty
  unfold loadStates
  rw [if_neg (by omega)]
  refine readMany_of_get (Array.size_ofFn ..) fun i hi => ?_
  have hi : i < p.states.size := by simpa [stateEntries] using hi
  have hi' : i < p.states.toList.length := by rwa [Array.length_toList]
  have hs : p.states[i] ∈ p.states := Array.getElem_mem hi
  have hactions := hw.actions _ (Array.mem_toList_iff.mpr hs)
  have hlexMode := hp.lexMode _ hs
  unfold maxCount at hactions hmodes
  have htotal : (holds g p names symbols fields .actions).length =
      8 * sumOf (fun s => s.actions.length) p.states.toList :=
    length_flatMap_sum fun s => length_flatMap_of fun a _ => length_actionEntry a
  have hlt := hw.length_holds_lt .actions
  -- the actions of this state and of those before it are among all actions
  have hle := sumOf_take_le (fun s : ParserState => s.actions.length) p.states.toList (i + 1)
  rw [sumOf_take_succ _ _ hi', Array.getElem_toList] at hle
  -- the three numbers of the entry
  have hfirst : numberAt bytes 4 ((headerOf g p names symbols fields name).offset .states + 8 * i) =
      .ok (sumOf (fun s => s.actions.length) (p.states.toList.take i)) :=
    hl.offsetEntry (s := .states) (f := stateEntry) (a := []) rfl length_stateEntry hi'
      (List.append_assoc ..) (by omega) rfl
  have hsize : numberAt bytes 2 ((headerOf g p names symbols fields name).offset .states + 8 * i + 4) =
      .ok p.states[i].actions.length :=
    hl.offsetEntry (s := .states) (f := stateEntry) (a := littleEndian 4 _) rfl length_stateEntry hi'
      (List.append_assoc ..) (Nat.lt_of_le_of_lt hactions (by decide)) (by simp [Nat.add_assoc])
  have hmode : numberAt bytes 2 ((headerOf g p names symbols fields name).offset .states + 8 * i + 6) =
      .ok p.states[i].lexMode :=
    hl.offsetEntry (s := .states) (f := stateEntry)
      (a := littleEndian 4 _ ++ littleEndian 2 p.states[i].actions.length) (b := []) rfl
      length_stateEntry hi' (List.append_nil _).symm
      (Nat.lt_of_lt_of_le hlexMode (Nat.le_trans hmodes (by decide))) (by simp [Nat.add_assoc])
  simp only [Except.bind_eq_ok, Except.guard_eq_ok, Except.pure_eq_ok]
  refine ⟨_, hfirst, _, hsize, _, hmode, Nat.not_lt.mpr hle, Nat.not_le.mpr hlexMode, ?_⟩
  simp [stateEntries]

/-- An action is read back from its kind and its number. -/
theorem actionOf?_actionCode {s : Symbol} {a : Action} (h : p.Allows g s a) :
    actionOf? (headerOf g p names symbols fields name) s (g.isTerminal s) (actionCode a).1
      (actionCode a).2 = some a := by
  have hstates : (headerOf g p names symbols fields name).stateCount = p.states.size := rfl
  have hproductions : (headerOf g p names symbols fields name).productionCount =
      g.productions.size := rfl
  cases a with
  | shift target => simp [actionCode, actionOf?, h.1, hstates, h.2]
  | reduce q => simp [actionCode, actionOf?, h.1, hproductions, h.2]
  | accept => exact if_pos h
  | goto target => simp [actionCode, actionOf?, h.1, hstates, h.2]

theorem actionCode_lt (hp : p.Proper g) (hproductions : g.productions.size ≤ maxCount) {s : Symbol}
    {a : Action} (h : p.Allows g s a) : (actionCode a).1 < 256 ^ 1 ∧ (actionCode a).2 < 256 ^ 2 := by
  have hstates := hp.states_le
  unfold StateGraph.maxStates at hstates
  unfold maxCount at hproductions
  cases a with
  | shift target => exact ⟨show 1 < 256 ^ 1 by decide, Nat.lt_of_lt_of_le h.2 (by omega)⟩
  | reduce q => exact ⟨show 2 < 256 ^ 1 by decide, Nat.lt_of_lt_of_le h.2 (by omega)⟩
  | accept => exact ⟨by decide, by decide⟩
  | goto target => exact ⟨show 4 < 256 ^ 1 by decide, Nat.lt_of_lt_of_le h.2 (by omega)⟩

theorem loadActions_eq_ok (hg : g.Sound) (hp : p.Proper g)
    (hw : Writes codec g p names symbols fields name)
    (hl : Laid bytes (headerOf g p names symbols fields name) (holds g p names symbols fields))
    (hinfos : List.Forall₂ (SymbolInfo.Agrees names) infos.toList g.symbols.toList) :
    loadActions bytes (headerOf g p names symbols fields name) infos = .ok (listed p).toArray := by
  have hcount : (listed p).toArray.size = (headerOf g p names symbols fields name).actionCount := by
    rw [List.size_toArray, listed, length_flatMap_sumOf]
    rfl
  have hbody : holds g p names symbols fields .actions = (listed p).flatMap actionEntry := by
    rw [listed, List.flatMap_assoc]
    rfl
  -- the actions of all states stand in one list, and the states say where theirs begin
  refine readMany_of_get hcount fun i hi => ?_
  have hi' : i < (listed p).length := by simpa using hi
  rw [List.getElem_toArray]
  obtain ⟨state, hstate, hx⟩ := List.mem_flatMap.mp (List.getElem_mem hi')
  have hallows := hp.allows state (Array.mem_toList_iff.mp hstate) _ hx
  have hbound := hp.bound state (Array.mem_toList_iff.mp hstate) _ hx
  generalize hentry : (listed p)[i] = entry at hallows hbound
  obtain ⟨s, a⟩ := entry
  dsimp only at hallows hbound
  have hsymbols := hg.symbols_le
  have hproductions := hw.productions
  rw [Array.length_toList] at hproductions
  obtain ⟨hkind, hvalue⟩ := actionCode_lt hp hproductions hallows
  unfold Flatten.maxCount at hsymbols
  -- each number of the entry is found behind what comes before it
  have hrow : actionEntry (listed p)[i] = littleEndian 2 s ++ (littleEndian 1 (actionCode a).1 ++
      (0 :: (littleEndian 2 (actionCode a).2 ++ [0, 0]))) := by
    rw [hentry, littleEndian_one]
    simp [actionEntry]
  have hsymbol : numberAt bytes 2 ((headerOf g p names symbols fields name).offset .actions + 8 * i) =
      .ok s :=
    hl.entry (a := []) hbody (fun x _ => length_actionEntry x) hi' hrow
      (Nat.lt_of_lt_of_le hbound (Nat.le_trans hsymbols (by decide))) rfl
  have hkind' : numberAt bytes 1 ((headerOf g p names symbols fields name).offset .actions +
      8 * i + 2) = .ok (actionCode a).1 :=
    hl.entry (a := littleEndian 2 s) hbody (fun x _ => length_actionEntry x) hi' hrow hkind
      (by simp [Nat.add_assoc])
  have hvalue' : numberAt bytes 2 ((headerOf g p names symbols fields name).offset .actions +
      8 * i + 4) = .ok (actionCode a).2 := by
    refine hl.entry (a := littleEndian 2 s ++ (littleEndian 1 (actionCode a).1 ++ [0]))
      (b := [0, 0]) hbody (fun x _ => length_actionEntry x) hi' ?_ hvalue (by simp [Nat.add_assoc])
    rw [hrow]
    simp
  have hterminal := any_terminal_of_agrees hinfos s
  simp only [Except.bind_eq_ok]
  refine ⟨_, hsymbol, _, hkind', _, hvalue', ?_⟩
  -- the symbol is one of the grammar, and of the kind that its action asks for
  obtain ⟨-, hnone⟩ | ⟨info, flat, hinfo, hflat, hagrees⟩ := getElem?_of_forall₂ hinfos s
  · exact absurd hbound (Nat.not_lt.mpr (Array.getElem?_eq_none_iff.mp hnone))
  · rw [hinfo, Option.any_some] at hterminal
    rw [hinfo]
    dsimp only
    rw [hterminal, actionOf?_actionCode hallows]
    rfl

theorem isAscending_of_pairwise {symbols : List Symbol} (h : symbols.Pairwise (· < ·)) :
    isAscending symbols = true := by
  induction symbols with
  | nil => rfl
  | cons a rest ih =>
    obtain ⟨hlt, hrest⟩ := List.pairwise_cons.mp h
    cases rest with
    | nil => rfl
    | cons b rest =>
      rw [isAscending, ih hrest, Bool.and_true, decide_eq_true_eq]
      exact hlt b (List.mem_cons_self ..)

theorem attachActions_eq_ok (hp : p.Proper g) :
    attachActions (stateEntries p) (listed p).toArray = .ok p.states := by
  refine readMany_of_get (Array.size_ofFn ..).symm fun i hi => ?_
  have hi' : i < p.states.toList.length := by rwa [Array.length_toList]
  have hentry : (stateEntries p).getD i default = ⟨sumOf (fun s => s.actions.length)
      (p.states.toList.take i), p.states[i].actions.length, p.states[i].lexMode⟩ := by
    simp [stateEntries, Array.getD, hi]
  -- the actions of a state are the stretch of the list that its entry names
  have hown := take_drop_flatMap (fun s : ParserState => s.actions) p.states.toList hi'
  rw [Array.getElem_toList] at hown
  have hascending := hp.ascending _ (Array.getElem_mem hi)
  rw [hentry]
  simp only [Array.toList_extract, List.extract_eq_take_drop, Nat.add_sub_cancel_left]
  rw [show List.take p.states[i].actions.length (List.drop (sumOf (fun s => s.actions.length)
    (p.states.toList.take i)) (listed p)) = p.states[i].actions from hown]
  rw [if_pos (isAscending_of_pairwise (List.pairwise_map.mpr hascending))]
  rfl

/-! ## Lex modes -/

theorem loadLexModes_eq_ok (hg : g.Sound) (hp : p.Proper g)
    (hw : Writes codec g p names symbols fields name)
    (hl : Laid bytes (headerOf g p names symbols fields name) (holds g p names symbols fields))
    (hinfos : List.Forall₂ (SymbolInfo.Agrees names) infos.toList g.symbols.toList) :
    loadLexModes bytes (headerOf g p names symbols fields name) infos = .ok p.lexModes := by
  have hsymbols := hg.symbols_le
  unfold Flatten.maxCount at hsymbols
  have htotal : (holds g p names symbols fields .lexModeSymbols).length =
      2 * sumOf List.length p.lexModes.toList :=
    length_flatMap_sum fun s => length_flatMap_of fun n _ => length_littleEndian 2 n
  have hlt := hw.length_holds_lt .lexModeSymbols
  -- first the symbols of all modes are read, then each mode takes its own out of them
  refine Except.bind_eq_ok.mpr ⟨(p.lexModes.toList.flatMap fun mode => mode).toArray, ?_, ?_⟩
  · have hbody : holds g p names symbols fields .lexModeSymbols =
        (p.lexModes.toList.flatMap fun mode => mode).flatMap (littleEndian 2) := by
      rw [List.flatMap_assoc]
      rfl
    refine readMany_of_get ?_ fun i hi => ?_
    · rw [List.size_toArray, length_flatMap_sumOf]
      rfl
    · have hi' : i < (p.lexModes.toList.flatMap fun mode => mode).length := by simpa using hi
      rw [List.getElem_toArray]
      obtain ⟨mode, hmode, hs⟩ := List.mem_flatMap.mp (List.getElem_mem hi')
      have hterminal := (hp.modes mode (Array.mem_toList_iff.mp hmode)).2 _ hs
      have hbound := g.lt_of_isTerminal hterminal
      have hnumber : numberAt bytes 2 ((headerOf g p names symbols fields name).offset
          .lexModeSymbols + 2 * i) = .ok (p.lexModes.toList.flatMap fun mode => mode)[i] :=
        hl.entry (a := []) (b := []) hbody (fun n _ => length_littleEndian 2 n) hi'
          (List.append_nil _).symm (Nat.lt_of_lt_of_le hbound (Nat.le_trans hsymbols (by decide))) rfl
      refine Except.bind_eq_ok.mpr ⟨_, hnumber, ?_⟩
      rw [if_pos (by rw [any_terminal_of_agrees hinfos]; exact hterminal)]
      rfl
  · refine readMany_of_get rfl fun i hi => ?_
    have hi' : i < p.lexModes.toList.length := by rwa [Array.length_toList]
    have hlength := (hp.modes _ (Array.getElem_mem hi)).1
    have hle := sumOf_take_le List.length p.lexModes.toList (i + 1)
    rw [sumOf_take_succ _ _ hi', Array.getElem_toList] at hle
    have hfirst : numberAt bytes 4 ((headerOf g p names symbols fields name).offset .lexModes +
        8 * i) = .ok (sumOf List.length (p.lexModes.toList.take i)) :=
      hl.offsetEntry (s := .lexModes) (f := lexModeEntry) (a := []) rfl length_lexModeEntry hi'
        (List.append_assoc ..) (by omega) rfl
    have hsize : numberAt bytes 2 ((headerOf g p names symbols fields name).offset .lexModes +
        8 * i + 4) = .ok p.lexModes[i].length :=
      hl.offsetEntry (s := .lexModes) (f := lexModeEntry) (a := littleEndian 4 _) rfl
        length_lexModeEntry hi' (List.append_assoc ..)
        (Nat.lt_of_le_of_lt (Nat.le_trans hlength hsymbols) (by decide)) (by simp [Nat.add_assoc])
    simp only [Except.bind_eq_ok, Except.guard_eq_ok, Except.pure_eq_ok]
    refine ⟨_, hfirst, _, hsize, Nat.not_lt.mpr hle, ?_⟩
    -- the modes before it take up as many symbols as the entry says
    have hown := take_drop_flatMap (fun mode : List Symbol => mode) p.lexModes.toList hi'
    rw [Array.getElem_toList] at hown
    simp only [Array.toList_extract, List.extract_eq_take_drop, Nat.add_sub_cancel_left]
    exact hown

/-! ## The table as a whole -/

theorem checksum_lt (bytes : ByteArray) : checksum bytes < 256 ^ 4 := UInt32.toNat_lt _

/-- The numbers of 32 bits fit, since they count what is in the file. -/
theorem longs_lt (hw : Writes codec g p names symbols fields name) :
    ∀ n ∈ (headerOf g p names symbols fields name).longs, n < 256 ^ 4 := by
  -- every section lies within the total size, which fits
  have hsize := fun s => (sectionSize_headerOf hw.toNamed s).trans_lt (hw.length_holds_lt s)
  have hstrings : (headerOf g p names symbols fields name).stringBlobSize * 1 < _ :=
    hsize .stringBlob
  have hpatterns : (headerOf g p names symbols fields name).patternBlobSize * 1 < _ :=
    hsize .patternBlob
  have hactions : (headerOf g p names symbols fields name).actionCount * 8 < _ := hsize .actions
  have hproductionFields : (headerOf g p names symbols fields name).productionFieldCount * 2 < _ :=
    hsize .productionFields
  have hlexModeSymbols : (headerOf g p names symbols fields name).lexModeSymbolCount * 2 < _ :=
    hsize .lexModeSymbols
  have htotal : (headerOf g p names symbols fields name).totalSize < 256 ^ 4 := hw.total
  have hchecksum : (headerOf g p names symbols fields name).checksum < 256 ^ 4 := checksum_lt _
  have hversion : (headerOf g p names symbols fields name).version = 1 := rfl
  simp only [Header.longs, List.forall_mem_cons, List.not_mem_nil, false_imp_iff, implies_true,
    and_true]
  omega

/-- The numbers of 16 bits fit, if the number of lex modes does. -/
theorem shorts_lt (hg : g.Sound) (hp : p.Proper g) (hmodes : p.lexModes.size ≤ maxCount)
    (hw : Writes codec g p names symbols fields name) :
    ∀ n ∈ (headerOf g p names symbols fields name).shorts, n < 256 ^ 2 := by
  have hstrings := hw.sound.strings_le
  have hpatterns := hw.sound.patterns_lt
  have hproductions := hw.productions
  have hsymbols := hg.symbols_le
  have hfields := hg.fields_le
  have hstates := hp.states_le
  have hstart := hg.start.2.1
  have hname := (Array.getElem?_eq_some_iff.mp hw.named).1
  unfold maxCount at hstrings hpatterns hproductions hmodes
  unfold Flatten.maxCount at hsymbols hfields
  unfold StateGraph.maxStates at hstates
  simp only [Header.shorts, headerOf, header, List.forall_mem_cons, List.not_mem_nil, false_imp_iff,
    implies_true, and_true, Array.length_toList] at hproductions ⊢
  omega

theorem loadHeader_eq_ok (hw : Writes codec g p names symbols fields name) {body : List UInt8}
    (hbody : Header.filled (holds g p names symbols fields) Section.all = body)
    (hread : Header.decode? (ofBytes ((headerOf g p names symbols fields name).encode ++ body)) =
      some (headerOf g p names symbols fields name)) :
    loadHeader (ofBytes ((headerOf g p names symbols fields name).encode ++ body)) =
      .ok (headerOf g p names symbols fields name) := by
  obtain ⟨hmagic, hversion⟩ := Header.front_encode (h := headerOf g p names symbols fields name) body rfl
  have hsize : (ofBytes ((headerOf g p names symbols fields name).encode ++ body)).size =
      Header.size + body.length := by
    rw [size_ofBytes, List.length_append, length_headerOf]
  have htotal : (headerOf g p names symbols fields name).totalSize = Header.size + body.length := by
    rw [← hbody]
    rfl
  have hfinish : (headerOf g p names symbols fields name).finish = Header.size + body.length := by
    rw [← hbody]
    exact Header.endOf_eq (fun s _ => sectionSize_headerOf hw.toNamed s) rfl
  -- everything after the header is what was checked
  have hextract : (ofBytes ((headerOf g p names symbols fields name).encode ++ body)).extract
      Header.size (Header.size + body.length) = ofBytes body := by
    have := extract_slice (headerOf g p names symbols fields name).encode body [] (i := 0)
      (Nat.le_refl _)
    rwa [List.append_nil, length_headerOf, Nat.add_zero, List.drop_zero, Nat.sub_zero,
      List.take_length] at this
  have hchecksum : (headerOf g p names symbols fields name).checksum = checksum (ofBytes body) := by
    rw [← hbody]
    rfl
  unfold loadHeader
  simp only [Except.guard_eq_ok, Except.bind_eq_ok]
  refine ⟨?_, ?_, _, show numberAt _ 4 4 = .ok _ by rw [numberAt, hversion], ?_, ?_⟩
  · rw [hsize, Header.size]
    omega
  · rw [hmagic]
    exact (by decide : ¬(Header.tableMagic != Header.tableMagic) = true)
  · exact (by decide : ¬(Header.currentVersion % 256 ^ 4 != Header.currentVersion) = true)
  · rw [hread]
    simp only [Except.guard_eq_ok, Except.pure_eq_ok, and_true]
    rw [hsize, hfinish, htotal, hextract, hchecksum]
    simp

/-- The table that is read is the one that was written, given the lexemes that are read. -/
theorem load_eq_ok (hg : g.Sound) (hp : p.Proper g) (hmodes : p.lexModes.size ≤ maxCount)
    (hw : Writes codec g p names symbols fields name)
    (hbytes : bytes = ofBytes ((headerOf g p names symbols fields name).encode ++
      Header.filled (holds g p names symbols fields) Section.all)) {lexemes : Array (Option Lexeme)}
    (hlexemes : loadLexemes codec bytes (headerOf g p names symbols fields name) names.strings =
      .ok lexemes) :
    ∃ t, loadWith codec bytes = .ok t ∧ t.Agrees g p names ∧ t.lexemes = lexemes := by
  have hl := laid_of_writes hw
  rw [← hbytes] at hl
  -- the sections are read in the order of the file, each given what was read before it
  have hheader : loadHeader bytes = .ok (headerOf g p names symbols fields name) := by
    rw [hbytes]
    exact loadHeader_eq_ok hw rfl (Header.decode?_encode_of_lt _ rfl rfl (longs_lt hw)
      (shorts_lt hg hp hmodes hw))
  obtain ⟨infos, hinfos, hagrees⟩ := loadSymbols_eq_ok hg hw hl fun i hpos hi =>
    isSome_of_loadLexemes hlexemes hpos hi
  simp only [loadWith, Except.bind_eq_ok, Except.guard_eq_ok, Except.pure_eq_ok]
  refine ⟨_, ⟨_, hheader, _, loadStrings_eq_ok hw hl, _, hlexemes, _, hinfos, _,
    loadFields_eq_ok hw hl, _, loadProductions_eq_ok hg hw hl hagrees, _,
    loadStates_eq_ok hp hmodes hw hl, _, loadActions_eq_ok hg hp hw hl hagrees, _,
    attachActions_eq_ok hp, _, loadLexModes_eq_ok hg hp hw hl hagrees, _, stringAt_eq_ok hw.named,
    ?_, rfl⟩, ⟨rfl, rfl, rfl, hagrees, rfl, rfl, rfl, rfl⟩, rfl⟩
  have hstart := isRule_of_agrees hagrees hg.start.2.1 hg.start.2.2
  rw [show (headerOf g p names symbols fields name).start = g.start from rfl, hstart]
  decide

/-- No table is read whose lex modes are too many to be counted: none is left for the states. -/
theorem ne_zero_of_loadStates {h : Header} {entries : Array StateEntry}
    (hs : loadStates bytes h = .ok entries) : h.lexModeCount ≠ 0 := by
  simp only [loadStates, Except.guard_eq_ok] at hs
  obtain ⟨hcount, hread⟩ := hs
  obtain ⟨hsize, hget⟩ := readMany_get hread
  have hentry := hget 0 (by omega)
  simp only [Except.bind_eq_ok, Except.guard_eq_ok] at hentry
  obtain ⟨_, -, _, -, lexMode, -, -, hlt, -⟩ := hentry
  exact Nat.ne_of_gt (Nat.lt_of_le_of_lt (Nat.zero_le _) (Nat.lt_of_not_le hlt))

theorem decode_of_loadHeader {h : Header} (hread : loadHeader bytes = .ok h) :
    Header.decode? bytes = some h := by
  simp only [loadHeader, Except.guard_eq_ok, Except.bind_eq_ok] at hread
  obtain ⟨-, -, version, -, -, hread⟩ := hread
  split at hread
  · cases hread
  · rename_i found hfound
    simp only [Except.guard_eq_ok, Except.pure_eq_ok] at hread
    rw [hfound, hread.2.2.2]

/-- A table that is read agrees with what was written, and has the lexemes that are read of it. -/
theorem agrees_of_load (hg : g.Sound) (hp : p.Proper g) (hwrite : writeWith codec g p = .ok bytes)
    {t : Table} (h : loadWith codec bytes = .ok t) :
    ∃ names, t.Agrees g p names ∧ ∃ symbols fields name,
      Writes codec g p names symbols fields name ∧
      Laid bytes (headerOf g p names symbols fields name) (holds g p names symbols fields) ∧
      loadLexemes codec bytes (headerOf g p names symbols fields name) names.strings =
        .ok t.lexemes := by
  obtain ⟨names, symbols, fields, name, hw, hbytes⟩ := write_eq_ok hwrite
  have hload := h
  simp only [loadWith, Except.bind_eq_ok] at h
  obtain ⟨read, hheader, strings, hstrings, lexemes, hlexemes, _, -, _, -, _, -, entries, hentries, -⟩ := h
  have hdecode := decode_of_loadHeader hheader
  have hmodes : p.lexModes.size ≤ maxCount := by
    refine Nat.le_of_not_lt fun hmany => ?_
    -- there is one mode too many, and the number that is read is zero
    have hle := hp.modes_le
    have hle' := hp.states_le
    obtain ⟨read', hread', -, -, hshorts, -⟩ := Header.decode?_encode
      (h := headerOf g p names symbols fields name)
      (Header.filled (holds g p names symbols fields) Section.all) rfl rfl
    rw [← hbytes, hdecode, Option.some.injEq] at hread'
    subst hread'
    simp only [Header.shorts, headerOf, header, List.map_cons, List.map_nil, List.cons.injEq,
      Array.length_toList] at hshorts
    refine ne_zero_of_loadStates hentries ?_
    rw [hshorts.2.2.2.2.2.2.1]
    unfold maxCount at hmany
    unfold StateGraph.maxStates at hle'
    omega
  -- so the counts all fit, and the header that is read is the one that was written
  have hread : read = headerOf g p names symbols fields name := by
    rw [hbytes, Header.decode?_encode_of_lt _ rfl rfl (longs_lt hw) (shorts_lt hg hp hmodes hw),
      Option.some.injEq] at hdecode
    exact hdecode.symm
  subst hread
  have hl := laid_of_writes hw
  rw [← hbytes] at hl
  cases (loadStrings_eq_ok hw hl).symm.trans hstrings
  obtain ⟨t', ht', hagrees, rfl⟩ := load_eq_ok hg hp hmodes hw hbytes hlexemes
  cases hload.symm.trans ht'
  exact ⟨names, hagrees, symbols, fields, name, hw, hl, hlexemes⟩

end TableImage

end IncrementalParsing
