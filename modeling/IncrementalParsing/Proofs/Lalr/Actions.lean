import IncrementalParsing.Lalr.Resolution
import IncrementalParsing.Proofs.Lalr.Lookaheads

/-!
# The actions of states

Whatever decides between items that ask for different things, the action that is chosen was asked for
by one of them: a production is finished where all of it has been read, and a symbol is read where it
leads somewhere.

## Key results

- `chosen_of_chooseActions`: what the actions of a state are
- `ParserTable.states_of_ofGrammar`: every state of a parser table has such actions
-/

namespace IncrementalParsing

open RuleBook (ofGrammar)

variable {g : FlatGrammar}

/-- What the actions of a state are, given the items of its kernel and where symbols lead. -/
structure Chosen (g : FlatGrammar) (kernel : List Item) (moves : List (Nat × Nat))
    (actions : List (Symbol × Action)) : Prop where
  bound : ∀ s a, (s, a) ∈ actions → s < g.symbols.size
  distinct : actions.Pairwise fun x y => x.1 < y.1
  reduce : ∀ s p, (s, .reduce p) ∈ actions → ∃ i, (ofGrammar g).Closed kernel i ∧
    i.production ≠ g.productions.size ∧ i.production % RuleBook.productionIds = p ∧
    (ofGrammar g).next? i = none
  accept : ∀ s, (s, .accept) ∈ actions → s = Symbol.finish ∧
    ∃ i, (ofGrammar g).Closed kernel i ∧ i.production = g.productions.size ∧
      (ofGrammar g).next? i = none
  shift : ∀ s target, (s, .shift target) ∈ actions → (s, target) ∈ moves
  goto : ∀ s target, (s, .goto target) ∈ actions → (s, target) ∈ moves
  gotos : ∀ s target, (s, target) ∈ moves → s < g.symbols.size → g.isTerminal s = false →
    ∃ target', (s, .goto target') ∈ actions
  terminal : ∀ s a, (s, a) ∈ actions → (g.isTerminal s = true ↔ ∀ target, a ≠ .goto target)

/-- More items allow what fewer allow. -/
theorem Chosen.mono {kernel kernel' : List Item} {moves : List (Nat × Nat)}
    {actions : List (Symbol × Action)} (hk : kernel ⊆ kernel') (h : Chosen g kernel moves actions) :
    Chosen g kernel' moves actions where
  bound := h.bound
  distinct := h.distinct
  reduce := fun s p ha =>
    have ⟨i, hi, hcomplete⟩ := h.reduce s p ha
    ⟨i, hi.mono hk, hcomplete⟩
  accept := fun s ha =>
    have ⟨hfinish, i, hi, hcomplete⟩ := h.accept s ha
    ⟨hfinish, i, hi.mono hk, hcomplete⟩
  shift := h.shift
  goto := h.goto
  gotos := h.gotos
  terminal := h.terminal

namespace RuleBook

/-! ## Choices -/

theorem mem_of_pickReduction {b : RuleBook} {token p : Nat} {productions : List Nat}
    (h : b.pickReduction token productions = .ok (some p)) : p ∈ productions := by
  unfold pickReduction at h
  split at h
  · cases h
  · rename_i q rest
    dsimp only at h
    split at h
    · cases h
      -- the choice starts with the first production and is only ever replaced by another of the list
      refine List.foldlRecOn (motive := fun r => r ∈ q :: rest) _ _ (List.mem_cons_self ..)
        fun r hr x hx => ?_
      split
      · exact List.mem_cons_of_mem _ hx
      · exact hr
    · cases h

theorem shiftOrReduce_eq {b : RuleBook} {token target p : Nat} {shifting : List Nat} {a : Action}
    (h : b.shiftOrReduce token target p shifting = .ok a) : a = b.reduction p ∨ a = .shift target := by
  unfold shiftOrReduce at h
  dsimp only at h
  -- every way of deciding gives one of the two, or a fault
  repeat' split at h
  all_goals first
    | exact .inl (Except.ok.inj h).symm
    | exact .inr (Except.ok.inj h).symm
    | cases h

/-- The productions that have been read and that a token can follow. -/
def finished (b : RuleBook) (closure : List (Item × SymbolSet)) (token : Nat) : List Nat :=
  closure.filterMap fun x =>
    if b.isComplete x.1 && x.2.mem token then some x.1.production else none

theorem mem_finished {b : RuleBook} {closure : List (Item × SymbolSet)} {token p : Nat} :
    p ∈ b.finished closure token ↔ ∃ i set, (i, set) ∈ closure ∧ i.production = p ∧
      b.next? i = none ∧ set.mem token = true := by
  unfold finished
  rw [List.mem_filterMap]
  constructor
  · rintro ⟨⟨i, set⟩, hi, hsome⟩
    simp only [Option.ite_none_right_eq_some, Bool.and_eq_true, isComplete,
      Option.isNone_iff_eq_none] at hsome
    exact ⟨i, set, hi, Option.some.inj hsome.2, hsome.1⟩
  · rintro ⟨i, set, hi, rfl, hnext, hset⟩
    refine ⟨(i, set), hi, ?_⟩
    simp [isComplete, hnext, hset]

/-- The action of a state on a token finishes a production or reads the token. -/
theorem chooseAction_eq {b : RuleBook} {closure : List (Item × SymbolSet)} {token : Nat}
    {target : Option Nat} {a : Action} (h : b.chooseAction closure token target = .ok (some a)) :
    (∃ p, a = b.reduction p ∧ p ∈ b.finished closure token) ∨
      ∃ s, a = .shift s ∧ target = some s := by
  unfold chooseAction at h
  simp only [Except.bind_eq_ok] at h
  obtain ⟨picked, hpicked, h⟩ := h
  -- nothing, a shift, a reduction, or both
  split at h
  · cases h
  · cases Except.pure_eq_ok.mp h
    exact .inr ⟨_, rfl, rfl⟩
  · cases Except.pure_eq_ok.mp h
    exact .inl ⟨_, rfl, mem_of_pickReduction hpicked⟩
  · simp only [Except.bind_eq_ok, Except.pure_eq_ok, Option.some.injEq] at h
    obtain ⟨a', ha, rfl⟩ := h
    obtain rfl | rfl := shiftOrReduce_eq ha
    · exact .inl ⟨_, rfl, mem_of_pickReduction hpicked⟩
    · exact .inr ⟨_, rfl, rfl⟩

/-- What each symbol is given as its entry. -/
def entry (b : RuleBook) (closure : List (Item × SymbolSet)) (transitions : List (Nat × Nat))
    (lookaheads : SymbolSet) (s : Nat) : Except CompileFault (Option (Symbol × Action)) := do
  let target := transitions.lookup s
  if b.grammar.isTerminal s then
    if lookaheads.mem s || target.isSome then
      return (← b.chooseAction closure s target).map fun action => (s, action)
    else return none
  else return target.map fun target => (s, Action.goto target)

theorem fst_of_entry {b : RuleBook} {closure : List (Item × SymbolSet)}
    {transitions : List (Nat × Nat)} {lookaheads : SymbolSet} {s : Nat} {e : Symbol × Action}
    (h : b.entry closure transitions lookaheads s = .ok (some e)) : e.1 = s := by
  unfold entry at h
  dsimp only at h
  split at h
  · split at h
    · simp only [Except.bind_eq_ok, Except.pure_eq_ok] at h
      obtain ⟨a, -, h⟩ := h
      obtain ⟨_, -, rfl⟩ := Option.map_eq_some_iff.mp h
      rfl
    · cases h
  · obtain ⟨_, -, rfl⟩ := Option.map_eq_some_iff.mp (Except.pure_eq_ok.mp h)
    rfl

/-- What the entry of a symbol says. -/
theorem entry_cases {b : RuleBook} {closure : List (Item × SymbolSet)}
    {transitions : List (Nat × Nat)} {lookaheads : SymbolSet} {s : Nat} {a : Action}
    (h : b.entry closure transitions lookaheads s = .ok (some (s, a))) :
    (b.grammar.isTerminal s = true ∧ ∃ p, a = b.reduction p ∧ p ∈ b.finished closure s) ∨
    (b.grammar.isTerminal s = true ∧ ∃ target, a = .shift target ∧ (s, target) ∈ transitions) ∨
    b.grammar.isTerminal s = false ∧ ∃ target, a = .goto target ∧ (s, target) ∈ transitions := by
  unfold entry at h
  dsimp only at h
  -- a terminal has an action chosen for it, a rule has a state to go to
  split at h
  · rename_i hs
    split at h
    · simp only [Except.bind_eq_ok, Except.pure_eq_ok] at h
      obtain ⟨found, hchosen, h⟩ := h
      obtain ⟨_, rfl, heq⟩ := Option.map_eq_some_iff.mp h
      cases heq
      obtain h | ⟨target, rfl, htarget⟩ := chooseAction_eq hchosen
      · exact .inl ⟨hs, h⟩
      · exact .inr (.inl ⟨hs, target, rfl, StateGraph.mem_of_lookup htarget⟩)
    · cases h
  · rename_i hs
    obtain ⟨target, htarget, heq⟩ := Option.map_eq_some_iff.mp (Except.pure_eq_ok.mp h)
    cases heq
    exact .inr (.inr ⟨Bool.eq_false_iff.mpr hs, target, rfl, StateGraph.mem_of_lookup htarget⟩)

theorem entry_goto {b : RuleBook} {closure : List (Item × SymbolSet)}
    {transitions : List (Nat × Nat)} {lookaheads : SymbolSet} {s target : Nat}
    {e : Option (Symbol × Action)} (hs : b.grammar.isTerminal s = false)
    (ht : (s, target) ∈ transitions) (h : b.entry closure transitions lookaheads s = .ok e) :
    ∃ target', e = some (s, .goto target') := by
  unfold entry at h
  dsimp only at h
  rw [hs] at h
  -- a rule that has a transition has one that is looked up first
  have hsome : (transitions.lookup s).isSome = true := by
    rw [List.lookup_isSome_iff]
    exact ⟨(s, target), ht, by simp⟩
  obtain ⟨target', htarget⟩ := Option.isSome_iff_exists.mp hsome
  rw [htarget] at h
  exact ⟨target', (Except.pure_eq_ok.mp h).symm⟩

/-- Entries of ascending symbols ascend. -/
theorem pairwise_filterMap {ss : List Nat} {entries : List (Option (Symbol × Action))}
    (hss : ss.Pairwise (· < ·))
    (h : List.Forall₂ (fun s e => ∀ x, e = some x → x.1 = s) ss entries) :
    (entries.filterMap id).Pairwise fun x y => x.1 < y.1 := by
  -- dropping the symbols without an entry keeps their order
  induction h with
  | nil => exact List.Pairwise.nil
  | @cons s e ss entries he hall ih =>
    obtain ⟨hlt, hss⟩ := List.pairwise_cons.mp hss
    cases e with
    | none => exact ih hss
    | some x =>
      refine List.pairwise_cons.mpr ⟨fun y hy => ?_, ih hss⟩
      obtain ⟨e', he', hy⟩ := List.mem_filterMap.mp hy
      obtain ⟨i, hi, rfl⟩ := List.getElem_of_mem he'
      have hi' : i < ss.length := by rwa [hall.length_eq]
      have := hall.get hi' hi y hy
      simp only [List.get_eq_getElem] at this
      rw [he x rfl, this]
      exact hlt _ (List.getElem_mem _)

/-- The action that finishing a production is. -/
theorem reduction_cases (g : FlatGrammar) (p : Nat) :
    (p = g.productions.size ∧ (ofGrammar g).reduction p = .accept) ∨
      (p ≠ g.productions.size ∧ (ofGrammar g).reduction p = .reduce (p % productionIds)) := by
  unfold reduction
  split
  · rename_i haccepting
    exact .inl ⟨haccepting, rfl⟩
  · rename_i hne
    exact .inr ⟨hne, rfl⟩

/-- Where productions can be told apart, finishing one names it. -/
theorem reduction_of_lt (hcount : g.productions.size ≤ productionIds) {p : Nat}
    (hp : p < g.productions.size) : (ofGrammar g).reduction p = .reduce p := by
  obtain ⟨rfl, -⟩ | ⟨-, hreduction⟩ := reduction_cases g p
  · exact absurd hp (Nat.lt_irrefl _)
  · rw [hreduction, Nat.mod_eq_of_lt (Nat.lt_of_lt_of_le hp hcount)]

/-- What the entry of a symbol says about its action. -/
theorem entry_spec {closure : List (Item × SymbolSet)} {transitions : List (Nat × Nat)}
    {lookaheads : SymbolSet} {s : Nat} {a : Action} :
    (ofGrammar g).entry closure transitions lookaheads s = .ok (some (s, a)) →
    match a with
    | .reduce n => g.isTerminal s = true ∧ ∃ p, p ≠ g.productions.size ∧
        p ∈ (ofGrammar g).finished closure s ∧ p % productionIds = n
    | .accept => g.isTerminal s = true ∧ g.productions.size ∈ (ofGrammar g).finished closure s
    | .shift target => g.isTerminal s = true ∧ (s, target) ∈ transitions
    | .goto target => g.isTerminal s = false ∧ (s, target) ∈ transitions := by
  intro h
  obtain ⟨hs, p, rfl, hp⟩ | ⟨hs, target, rfl, ht⟩ | ⟨hs, target, rfl, ht⟩ := entry_cases h
  -- the production that was added accepts instead of being reduced
  · obtain ⟨rfl, hreduction⟩ | ⟨hne, hreduction⟩ := reduction_cases g p
    · rw [hreduction]
      exact ⟨hs, hp⟩
    · rw [hreduction]
      exact ⟨hs, p, hne, hp, rfl⟩
  · exact ⟨hs, ht⟩
  · exact ⟨hs, ht⟩

/-! ## The entries of all symbols -/

/-- The symbols that can follow what has been read. -/
def lookaheadsOf (b : RuleBook) (closure : List (Item × SymbolSet)) : SymbolSet :=
  closure.foldl (fun set x => if b.isComplete x.1 then set.union x.2 else set) SymbolSet.empty

/-- The entries of all symbols, in the order of the symbols. -/
def IsEntries (b : RuleBook) (closure : List (Item × SymbolSet)) (transitions : List (Nat × Nat))
    (entries : List (Option (Symbol × Action))) : Prop :=
  List.Forall₂ (fun s e => b.entry closure transitions (b.lookaheadsOf closure) s = .ok e)
    (List.range b.grammar.symbols.size) entries

section Entries

variable {b : RuleBook} {closure : List (Item × SymbolSet)} {transitions : List (Nat × Nat)}
  {entries : List (Option (Symbol × Action))} {s : Nat}

/-- The actions of a state are the entries that say something. -/
theorem chooseActions_eq_ok {actions : List (Symbol × Action)} :
    b.chooseActions closure transitions = .ok actions ↔
      ∃ entries, b.IsEntries closure transitions entries ∧ entries.filterMap id = actions := by
  unfold chooseActions
  simp only [Except.bind_eq_ok, Except.pure_eq_ok, Except.mapM_eq_ok]
  exact Iff.rfl

theorem IsEntries.exists_entry (h : b.IsEntries closure transitions entries)
    (hs : s < b.grammar.symbols.size) :
    ∃ e, b.entry closure transitions (b.lookaheadsOf closure) s = .ok e ∧ e ∈ entries := by
  have hi : s < (List.range b.grammar.symbols.size).length := by rwa [List.length_range]
  have hi' : s < entries.length := by rwa [← List.Forall₂.length_eq h]
  have hentry := List.Forall₂.get h hi hi'
  simp only [List.get_eq_getElem, List.getElem_range] at hentry
  exact ⟨entries[s], hentry, List.getElem_mem hi'⟩

/-- An action is listed for a symbol exactly if the entry of the symbol says so. -/
theorem IsEntries.mem_iff (h : b.IsEntries closure transitions entries) {a : Action} :
    (s, a) ∈ entries.filterMap id ↔ s < b.grammar.symbols.size ∧
      b.entry closure transitions (b.lookaheadsOf closure) s = .ok (some (s, a)) := by
  constructor
  · intro ha
    obtain ⟨e, he, rfl⟩ := List.mem_filterMap.mp ha
    obtain ⟨i, hi, heq⟩ := List.getElem_of_mem he
    have hi' : i < (List.range b.grammar.symbols.size).length := by rwa [List.Forall₂.length_eq h]
    have hentry := List.Forall₂.get h hi' hi
    simp only [List.get_eq_getElem, List.getElem_range, heq] at hentry
    -- what stands at a place is the entry of the symbol with that number
    obtain rfl : s = i := fst_of_entry hentry
    exact ⟨by simpa using hi', hentry⟩
  · rintro ⟨hs, hentry⟩
    obtain ⟨e, he, hmem⟩ := h.exists_entry hs
    obtain rfl := Except.ok.inj (he.symm.trans hentry)
    exact List.mem_filterMap.mpr ⟨_, hmem, rfl⟩

theorem IsEntries.pairwise (h : b.IsEntries closure transitions entries) :
    (entries.filterMap id).Pairwise fun x y => x.1 < y.1 :=
  pairwise_filterMap List.pairwise_lt_range (h.imp fun s e he x hx => by
    rw [hx] at he
    exact fst_of_entry he)

end Entries

/-- What the actions of a state are, where the start is followed by the end of the text only. -/
theorem chosen_of_chooseActions {kernel : List (Item × SymbolSet)} {moves : List (Nat × Nat)}
    {actions : List (Symbol × Action)}
    (haccepting : ∀ i set, (i, set) ∈ kernel → i.production = g.productions.size →
      set.Within (.singleton Symbol.finish))
    (h : (ofGrammar g).chooseActions ((ofGrammar g).closure kernel) moves = .ok actions) :
    Chosen g (kernel.map (·.1)) moves actions := by
  obtain ⟨entries, hentries, rfl⟩ := chooseActions_eq_ok.mp h
  have hclosed : ∀ s p, p ∈ (ofGrammar g).finished ((ofGrammar g).closure kernel) s →
      ∃ i, (ofGrammar g).Closed (kernel.map (·.1)) i ∧ i.production = p ∧
        (ofGrammar g).next? i = none := by
    intro s p hp
    obtain ⟨i, set, hi, hproduction, hnext, -⟩ := mem_finished.mp hp
    exact ⟨i, closed_of_mem_closure hi, hproduction, hnext⟩
  -- what accepts is followed by nothing but the end of the text
  have hfinish : ∀ s, g.productions.size ∈ (ofGrammar g).finished ((ofGrammar g).closure kernel) s →
      s = Symbol.finish := by
    intro s hp
    obtain ⟨i, set, hi, hproduction, -, hset⟩ := mem_finished.mp hp
    have := within_of_mem_closure haccepting hi hproduction s hset
    rw [SymbolSet.mem_singleton, decide_eq_true_eq] at this
    exact this.symm
  constructor
  case bound => exact fun s a ha => (hentries.mem_iff.mp ha).1
  case distinct => exact hentries.pairwise
  case reduce =>
    intro s p ha
    obtain ⟨-, n, hne, hfinished, hid⟩ := entry_spec (hentries.mem_iff.mp ha).2
    obtain ⟨i, hi, rfl, hnext⟩ := hclosed s n hfinished
    exact ⟨i, hi, hne, hid, hnext⟩
  case accept =>
    intro s ha
    obtain ⟨-, hfinished⟩ := entry_spec (hentries.mem_iff.mp ha).2
    exact ⟨hfinish s hfinished, hclosed s _ hfinished⟩
  case shift | goto => exact fun s target ha => (entry_spec (hentries.mem_iff.mp ha).2).2
  -- a symbol that leads on has an entry, and being a rule that is where it goes
  case gotos =>
    intro s target ht hs hrule
    obtain ⟨e, he, -⟩ := hentries.exists_entry hs
    obtain ⟨target', rfl⟩ := entry_goto hrule ht he
    exact ⟨target', hentries.mem_iff.mpr ⟨hs, he⟩⟩
  case terminal =>
    intro s a ha
    have hspec := entry_spec (hentries.mem_iff.mp ha).2
    cases a with
    | reduce | accept | shift => exact ⟨(fun _ _ h => by cases h), fun _ => hspec.1⟩
    | goto target =>
      exact ⟨fun h => absurd (hspec.1.symm.trans h) Bool.false_ne_true, fun h => absurd rfl (h target)⟩

end RuleBook

namespace ParserTable

/-! ## Tables -/

/-- The actions of a state in ascending order of symbols. -/
def actions (p : ParserTable) (s : StateId) : List (Symbol × Action) :=
  match p.states[s]? with
  | some state => state.actions
  | none => []

/-- What to do in a state when a token comes next; nothing where it is an error. -/
def action? (p : ParserTable) (s : StateId) (token : Symbol) : Option Action :=
  match (p.actions s).lookup token with
  | some (.goto _) => none
  | found => found

/-- The state after a part of the given symbol was built. -/
def goto? (p : ParserTable) (s : StateId) (built : Symbol) : Option StateId :=
  match (p.actions s).lookup built with
  | some (.goto target) => some target
  | _ => none

theorem actions_of_assignLexModes {lexical extras : SymbolSet} {bound : Nat}
    {actions : List (List (Symbol × Action))} {modes modes' : Array (List Symbol)}
    {states : List ParserState}
    (h : assignLexModes lexical extras bound actions modes = .ok (states, modes')) :
    states.map (·.actions) = actions := by
  -- on the states, since giving out lex modes leaves the actions alone
  induction actions generalizing modes states with
  | nil =>
    cases h
    rfl
  | cons a rest ih =>
    rw [assignLexModes] at h
    dsimp only at h
    split at h
    · cases h
    · split at h
      · rename_i hrest
        cases h
        rw [List.map_cons, ih hrest]
      · cases h

/-- The actions of every state are chosen for its items and where they lead. -/
theorem actions_of_ofGrammar {p : ParserTable} (h : ofGrammar g = .ok p) :
    ∃ graph : StateGraph, StateGraph.ofRules (.ofGrammar g) = .ok graph ∧
      p.states.size = graph.kernels.size ∧
      ∀ (s : Nat) (state : ParserState), p.states[s]? = some state →
        (RuleBook.ofGrammar g).chooseActions ((RuleBook.ofGrammar g).closure
          (graph.kernel (graph.lookaheads (.ofGrammar g)) s)) (graph.transitions.getD s []) =
            .ok state.actions := by
  unfold ofGrammar at h
  simp only [Except.bind_eq_ok, Except.pure_eq_ok, Except.mapM_eq_ok] at h
  obtain ⟨graph, hgraph, actions, hactions, ⟨states, modes⟩, hassign, rfl⟩ := h
  have hstates := actions_of_assignLexModes hassign
  have hsize : states.length = graph.kernels.size := by
    have := hactions.length_eq
    rw [← hstates, List.length_range, List.length_map] at this
    exact this.symm
  refine ⟨graph, hgraph, by rw [← hsize]; rfl, fun s state hs => ?_⟩
  rw [List.getElem?_toArray] at hs
  obtain ⟨hlt, hs⟩ := List.getElem?_eq_some_iff.mp hs
  have hi : s < (List.range graph.kernels.size).length := by rwa [List.length_range, ← hsize]
  have hi' : s < actions.length := by rwa [← hactions.length_eq]
  have hchosen := hactions.get hi hi'
  simp only [List.get_eq_getElem, List.getElem_range] at hchosen
  -- the state at `s` has the actions that were chosen for `s`
  have hactions' : actions[s] = state.actions := by
    simp only [← hstates, List.getElem_map, hs]
  rwa [hactions'] at hchosen

/-- What is chosen for a state of a grammar is asked for by its items. -/
theorem chosen_of_state (hg : g.Sound) {graph : StateGraph} (hs : graph.Sound g) {s : StateId}
    {kernel : List Item} (hk : graph.kernels[s]? = some kernel) {actions : List (Symbol × Action)}
    (h : (RuleBook.ofGrammar g).chooseActions ((RuleBook.ofGrammar g).closure
      (graph.kernel (graph.lookaheads (.ofGrammar g)) s)) (graph.transitions.getD s []) =
        .ok actions) : Chosen g kernel (graph.transitions.getD s []) actions := by
  refine (RuleBook.chosen_of_chooseActions ((StateGraph.fits_lookaheads hg hs).accepting s)
    h).mono fun i hi => ?_
  obtain ⟨x, hx, rfl⟩ := List.mem_map.mp hi
  have hmem := (List.of_mem_zip hx).1
  rwa [Array.getD_eq_getD_getElem?, hk] at hmem

/-- Every state of a parser table has the actions that its items ask for. -/
theorem states_of_ofGrammar (hg : g.Sound) {p : ParserTable} (h : ofGrammar g = .ok p) :
    ∃ graph : StateGraph, graph.Sound g ∧ p.states.size = graph.kernels.size ∧
      ∀ (s : Nat) (state : ParserState), p.states[s]? = some state → ∃ kernel,
        graph.kernels[s]? = some kernel ∧
        Chosen g kernel (graph.transitions.getD s []) state.actions := by
  obtain ⟨graph, hgraph, hsize, hstates⟩ := actions_of_ofGrammar h
  have hsound := StateGraph.sound_ofRules hg hgraph
  refine ⟨graph, hsound, hsize, fun s state hs => ?_⟩
  have hk := Array.getElem?_eq_getElem (hsize ▸ (Array.getElem?_eq_some_iff.mp hs).1)
  exact ⟨_, hk, chosen_of_state hg hsound hk (hstates s state hs)⟩

end ParserTable

end IncrementalParsing
