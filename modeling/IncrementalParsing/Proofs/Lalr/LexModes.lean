import IncrementalParsing.Proofs.Lalr.Actions

/-!
# Lex modes

`ParserTable.assignLexModes` gives each state the place of a list of tokens.  The lists hold tokens
that the lexer can find, so that a table made from a grammar names nothing that is not there:
`ParserTable.Proper` says what a table may name.

## Key results

- `ParserTable.proper_of_ofGrammar`: the table of a grammar names nothing that is not there
- `ParserTable.ascending_of_ofGrammar`: its lex modes list their tokens in ascending order
-/

namespace IncrementalParsing

namespace SymbolSet

theorem mem_ofList {symbols : List Nat} {s : Nat} : (ofList symbols).mem s = true ↔ s ∈ symbols := by
  -- the fold is stated for every set that it starts from
  have hfold : ∀ (symbols : List Nat) (set : SymbolSet),
      (symbols.foldl (fun set s => set.union (singleton s)) set).mem s = true ↔
        set.mem s = true ∨ s ∈ symbols := by
    intro symbols
    induction symbols with
    | nil => simp
    | cons a rest ih =>
      intro set
      rw [List.foldl_cons, ih, mem_union, mem_singleton, Bool.or_eq_true, decide_eq_true_eq,
        List.mem_cons, or_assoc, eq_comm (a := a)]
  rw [ofList, hfold, mem_empty]
  simp

theorem mem_toList {set : SymbolSet} {bound s : Nat} :
    s ∈ set.toList bound ↔ s < bound ∧ set.mem s = true := by
  rw [toList, List.mem_filter, List.mem_range]

end SymbolSet

namespace FlatGrammar

variable {g : FlatGrammar}

theorem isTerminal_of_mem_lexicalTerminals {s : Nat} (h : s ∈ g.lexicalTerminals) :
    s < g.symbols.size ∧ g.isTerminal s = true := by
  obtain ⟨hlt, hany⟩ := List.mem_filter.mp h
  obtain ⟨info, hinfo, hterminal⟩ := (Option.any_eq_true ..).mp hany
  rw [Bool.and_eq_true] at hterminal
  rw [List.mem_range] at hlt
  refine ⟨hlt, ?_⟩
  rw [isTerminal, hinfo]
  exact hterminal.1

/-- A list of tokens to look for: terminals, and not more than there are. -/
def IsMode (g : FlatGrammar) (mode : List Symbol) : Prop :=
  mode.length ≤ g.symbols.size ∧ ∀ s ∈ mode, g.isTerminal s = true

theorem isMode_lexicalTerminals (g : FlatGrammar) : g.IsMode g.lexicalTerminals := by
  refine ⟨?_, fun s hs => (isTerminal_of_mem_lexicalTerminals hs).2⟩
  have := List.length_filter_le (fun s => (g.symbols[s]?).any fun info =>
    info.terminal && info.lexeme?.isSome) (List.range g.symbols.size)
  rwa [List.length_range] at this

end FlatGrammar

namespace ParserTable

variable {g : FlatGrammar}

/-- The lex mode of a state; where there is no state, every token is looked for. -/
def lexMode (p : ParserTable) (s : StateId) : LexMode :=
  match p.states[s]? with
  | some state => state.lexMode
  | none => allTokens

/-- The tokens looked for in a lex mode. -/
def modeSymbols (p : ParserTable) (m : LexMode) : List Symbol := (p.lexModes[m]?).getD []

theorem isMode_stateTokens (g : FlatGrammar) (actions : List (Symbol × Action)) :
    g.IsMode (stateTokens (.ofList g.lexicalTerminals) (.ofList g.extras) g.symbols.size actions) := by
  constructor
  · have := List.length_filter_le (((SymbolSet.ofList ((actions.map (·.1)).filter
      (SymbolSet.ofList g.lexicalTerminals).mem)).union (.ofList g.extras)).mem)
      (List.range g.symbols.size)
    rwa [List.length_range] at this
  · intro s hs
    obtain ⟨-, hmem⟩ := SymbolSet.mem_toList.mp hs
    rw [SymbolSet.mem_union, Bool.or_eq_true, SymbolSet.mem_ofList, SymbolSet.mem_ofList] at hmem
    obtain hmem | hmem := hmem
    · have hlexical := SymbolSet.mem_ofList.mp (List.mem_filter.mp hmem).2
      exact (FlatGrammar.isTerminal_of_mem_lexicalTerminals hlexical).2
    · exact (FlatGrammar.isTerminal_of_mem_lexicalTerminals (List.mem_filter.mp hmem).1).2

/-- Every state is given the place of a mode; a mode is added for a state at most. -/
theorem assignLexModes_spec {lexical extras : SymbolSet} {bound : Nat}
    {actions : List (List (Symbol × Action))} {modes modes' : Array (List Symbol)}
    {states : List ParserState} {P : List Symbol → Prop}
    (hP : ∀ a, P (stateTokens lexical extras bound a)) (hmodes : ∀ m ∈ modes, P m)
    (h : assignLexModes lexical extras bound actions modes = .ok (states, modes')) :
    modes.size ≤ modes'.size ∧ modes'.size ≤ modes.size + actions.length ∧
      (∀ m ∈ modes', P m) ∧ ∀ state ∈ states, state.lexMode < modes'.size := by
  -- on the states, with the modes that there are so far
  induction actions generalizing modes states with
  | nil =>
    cases h
    exact ⟨Nat.le_refl _, Nat.le_add_right _ _, hmodes, fun _ h => by cases h⟩
  | cons a rest ih =>
    rw [assignLexModes] at h
    dsimp only at h
    split at h
    · cases h
    · split at h
      · rename_i states' _ hrest
        cases h
        -- the mode of the state is one that is there, or the one that is added
        have hmode : (modes.findIdx? (· == stateTokens lexical extras bound a)).getD modes.size ≤
            modes.size := by
          cases hfound : modes.findIdx? (· == stateTokens lexical extras bound a) with
          | none => exact Nat.le_refl _
          | some i =>
            obtain ⟨hlt, -⟩ := Array.findIdx?_eq_some_iff_getElem.mp hfound
            exact Nat.le_of_lt hlt
        split at hrest
        · obtain ⟨hle, hle', hall, hstates⟩ := ih (fun m hm => by
            obtain hm | rfl := Array.mem_push.mp hm
            · exact hmodes m hm
            · exact hP a) hrest
          rw [Array.size_push] at hle hle'
          refine ⟨by omega, by rw [List.length_cons]; omega, hall, fun state hs => ?_⟩
          obtain rfl | hs := List.mem_cons.mp hs
          · exact Nat.lt_of_le_of_lt hmode hle
          · exact hstates state hs
        · rename_i hne
          obtain ⟨hle, hle', hall, hstates⟩ := ih hmodes hrest
          refine ⟨hle, by rw [List.length_cons]; omega, hall, fun state hs => ?_⟩
          obtain rfl | hs := List.mem_cons.mp hs
          · exact Nat.lt_of_lt_of_le (Nat.lt_of_le_of_ne hmode hne) hle
          · exact hstates state hs
      · cases h

/-- Every state is given the place of the list of its tokens, and no list has two places. -/
theorem lists_of_assignLexModes {lexical extras : SymbolSet} {bound : Nat}
    {actions : List (List (Symbol × Action))} {modes modes' : Array (List Symbol)}
    {states : List ParserState} (hdup : modes.toList.Nodup)
    (h : assignLexModes lexical extras bound actions modes = .ok (states, modes')) :
    (∀ (m : Nat) (tokens : List Symbol), modes[m]? = some tokens → modes'[m]? = some tokens) ∧
      modes'.toList.Nodup ∧ ∀ state ∈ states,
        modes'[state.lexMode]? = some (stateTokens lexical extras bound state.actions) := by
  induction actions generalizing modes states with
  | nil =>
    cases h
    exact ⟨fun _ _ h => h, hdup, fun _ h => by cases h⟩
  | cons a rest ih =>
    rw [assignLexModes] at h
    dsimp only at h
    split at h
    · cases h
    · split at h
      · rename_i states' _ hrest
        cases h
        cases hfound : modes.findIdx? (· == stateTokens lexical extras bound a) with
        | none =>
          rw [hfound, Option.getD_none, if_pos rfl] at hrest
          -- no earlier state has these tokens, so they are put behind the modes there are
          have hnew : stateTokens lexical extras bound a ∉ modes.toList := fun hmem => by
            have := Array.findIdx?_eq_none_iff.mp hfound _ (Array.mem_toList_iff.mp hmem)
            simp at this
          obtain ⟨hkept, hdup', hstates⟩ := ih (by
            rw [Array.toList_push]
            exact (List.perm_append_singleton _ _).nodup_iff.mpr
              (List.nodup_cons.mpr ⟨hnew, hdup⟩)) hrest
          have hpush := hkept modes.size _ Array.getElem?_push_size
          refine ⟨fun m tokens hm => hkept m tokens ?_, hdup', fun state hs => ?_⟩
          · have hlt := (Array.getElem?_eq_some_iff.mp hm).1
            rw [Array.getElem?_push_lt hlt, ← Array.getElem?_eq_getElem, hm]
          · obtain rfl | hs := List.mem_cons.mp hs
            · exact hpush
            · exact hstates state hs
        | some m =>
          -- an earlier state has the same tokens, and its mode is taken
          obtain ⟨hlt, heq, -⟩ := Array.findIdx?_eq_some_iff_getElem.mp hfound
          rw [hfound, Option.getD_some, if_neg (Nat.ne_of_lt hlt)] at hrest
          obtain ⟨hkept, hdup', hstates⟩ := ih hdup hrest
          refine ⟨hkept, hdup', fun state hs => ?_⟩
          obtain rfl | hs := List.mem_cons.mp hs
          · exact hkept m _ (by rw [Array.getElem?_eq_getElem hlt, eq_of_beq heq])
          · exact hstates state hs
      · cases h

/-- The tokens of a state: those that have an action in it, and the extras. -/
theorem mem_stateTokens {actions : List (Symbol × Action)} {a : Symbol} :
    a ∈ stateTokens (.ofList g.lexicalTerminals) (.ofList g.extras) g.symbols.size actions ↔
      (a ∈ g.lexicalTerminals ∧ a ∈ actions.map (·.1)) ∨ a ∈ g.extras := by
  rw [stateTokens, SymbolSet.mem_toList, SymbolSet.mem_union, Bool.or_eq_true, SymbolSet.mem_ofList,
    SymbolSet.mem_ofList, List.mem_filter, SymbolSet.mem_ofList, and_comm (a := a ∈ List.map _ _)]
  refine and_iff_right_of_imp fun h => ?_
  obtain ⟨h, -⟩ | h := h
  · exact (FlatGrammar.isTerminal_of_mem_lexicalTerminals h).1
  · exact (FlatGrammar.isTerminal_of_mem_lexicalTerminals (List.mem_filter.mp h).1).1

/-- The lex modes of a table: one for each list of tokens, the first for all of them. -/
theorem lists_of_ofGrammar {p : ParserTable} (h : ofGrammar g = .ok p) :
    p.lexModes.toList.Nodup ∧ p.lexModes[allTokens]? = some g.lexicalTerminals ∧
      ∀ (s : Nat) (state : ParserState), p.states[s]? = some state →
        p.lexModes[state.lexMode]? = some (stateTokens (.ofList g.lexicalTerminals)
          (.ofList g.extras) g.symbols.size state.actions) := by
  unfold ofGrammar at h
  simp only [Except.bind_eq_ok, Except.pure_eq_ok, Except.mapM_eq_ok] at h
  obtain ⟨_, -, actions, -, ⟨states, modes⟩, hassign, rfl⟩ := h
  obtain ⟨hkept, hdup, hstates⟩ := lists_of_assignLexModes (List.nodup_singleton _) hassign
  refine ⟨hdup, hkept allTokens _ rfl, fun s state hs => hstates state ?_⟩
  rw [List.getElem?_toArray] at hs
  exact List.mem_of_getElem? hs

/-- The tokens of every lex mode are listed in ascending order. -/
theorem ascending_of_ofGrammar {p : ParserTable} (h : ofGrammar g = .ok p) :
    ∀ mode ∈ p.lexModes, mode.Pairwise (· < ·) := by
  unfold ofGrammar at h
  simp only [Except.bind_eq_ok, Except.pure_eq_ok, Except.mapM_eq_ok] at h
  obtain ⟨_, -, actions, -, ⟨states, modes⟩, hassign, rfl⟩ := h
  refine (assignLexModes_spec (fun a => ?_) (fun m hm => ?_) hassign).2.2.1
  · exact List.pairwise_lt_range.filter _
  · obtain rfl := Array.mem_singleton.mp hm
    exact List.pairwise_lt_range.filter _

/-- Whether an action may be taken on a symbol: tokens are shifted and reduced on, rules are built,
and what is named is there. -/
def Allows (p : ParserTable) (g : FlatGrammar) (s : Symbol) : Action → Prop
  | .shift target => g.isTerminal s = true ∧ target < p.states.size
  | .reduce q => g.isTerminal s = true ∧ q < g.productions.size
  | .accept => s = Symbol.finish
  | .goto target => g.isTerminal s = false ∧ target < p.states.size

/-- A table that names nothing that is not there. -/
structure Proper (p : ParserTable) (g : FlatGrammar) : Prop where
  nonempty : 0 < p.states.size
  states_le : p.states.size ≤ StateGraph.maxStates
  modes_le : p.lexModes.size ≤ p.states.size + 1
  ascending : ∀ state ∈ p.states, state.actions.Pairwise fun x y => x.1 < y.1
  bound : ∀ state ∈ p.states, ∀ x ∈ state.actions, x.1 < g.symbols.size
  allows : ∀ state ∈ p.states, ∀ x ∈ state.actions, p.Allows g x.1 x.2
  lexMode : ∀ state ∈ p.states, state.lexMode < p.lexModes.size
  modes : ∀ mode ∈ p.lexModes, g.IsMode mode

/-- The table of a grammar names nothing that is not there. -/
theorem proper_of_ofGrammar (hg : g.Sound) {p : ParserTable} (h : ofGrammar g = .ok p) :
    p.Proper g := by
  obtain ⟨graph, hgraph, hsize, hstates⟩ := states_of_ofGrammar hg h
  unfold ofGrammar at h
  simp only [Except.bind_eq_ok, Except.pure_eq_ok, Except.mapM_eq_ok] at h
  obtain ⟨_, -, actions, -, ⟨states, modes⟩, hassign, rfl⟩ := h
  have hlength : actions.length = states.length := by
    rw [← actions_of_assignLexModes hassign, List.length_map]
  obtain ⟨-, hmodes, hmode, hlexMode⟩ := assignLexModes_spec (isMode_stateTokens g) (fun m hm => by
    obtain rfl := Array.mem_singleton.mp hm
    exact g.isMode_lexicalTerminals) hassign
  have hfound : ∀ state ∈ states.toArray, ∃ (s : Nat) (kernel : List Item),
      graph.kernels[s]? = some kernel ∧
        Chosen g kernel (graph.transitions.getD s []) state.actions := by
    intro state hstate
    obtain ⟨s, hs⟩ := Array.getElem?_of_mem hstate
    exact ⟨s, hstates s state hs⟩
  have htarget : ∀ (s : Nat) (kernel : List Item), graph.kernels[s]? = some kernel →
      ∀ symbol target, (symbol, target) ∈ graph.transitions.getD s [] →
        target < states.toArray.size := by
    intro s kernel hk symbol target hm
    obtain ⟨-, -, next, hnext, -⟩ := (hgraph.leads s kernel hk).target symbol target hm
    rw [hsize]
    exact (Array.getElem?_eq_some_iff.mp hnext).1
  constructor
  case nonempty =>
    rw [hsize]
    exact (Array.getElem?_eq_some_iff.mp hgraph.zero).1
  case states_le =>
    rw [hsize]
    exact hgraph.size_le
  case modes_le =>
    show modes.size ≤ states.length + 1
    rw [← hlength, Nat.add_comm]
    exact hmodes
  case ascending =>
    intro state hstate
    obtain ⟨s, kernel, -, hchosen⟩ := hfound state hstate
    exact hchosen.distinct
  case bound =>
    intro state hstate x hx
    obtain ⟨s, kernel, -, hchosen⟩ := hfound state hstate
    exact hchosen.bound x.1 x.2 hx
  case lexMode => exact fun state hstate => hlexMode state (by simpa using hstate)
  case modes => exact hmode
  case allows =>
    -- a symbol has a goto just if it is no terminal, so each action is allowed for its symbol
    intro state hstate x hx
    obtain ⟨s, kernel, hk, hchosen⟩ := hfound state hstate
    obtain ⟨symbol, action⟩ := x
    have hterminal := hchosen.terminal symbol action hx
    cases action with
    | shift target =>
      exact ⟨hterminal.mpr fun _ h => (by cases h),
        htarget s kernel hk symbol target (hchosen.shift symbol target hx)⟩
    | reduce q =>
      -- the number of a production that there is stays one when it is cut
      obtain ⟨i, hi, hne, rfl, -⟩ := hchosen.reduce symbol q hx
      exact ⟨hterminal.mpr fun _ h => (by cases h), Nat.lt_of_le_of_lt (Nat.mod_le ..)
        (Nat.lt_of_le_of_ne (hgraph.production_le hk hi) hne)⟩
    | accept => exact (hchosen.accept symbol hx).1
    | goto target =>
      exact ⟨Bool.eq_false_iff.mpr fun h => hterminal.mp h target rfl,
        htarget s kernel hk symbol target (hchosen.goto symbol target hx)⟩

end ParserTable

end IncrementalParsing
