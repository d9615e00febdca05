import IncrementalParsing.Proofs.Lalr.Actions
import IncrementalParsing.Proofs.Lalr.Lookaheads
import IncrementalParsing.Proofs.Table.Compiled

/-!
# Parsers read every sentence

Where no state asks for two actions on one token, a parser table has all actions that its states ask
for.  The lookaheads of its items hold whatever can follow them, so a sentence of the grammar is read
from its first token to its last, one production finished after the other, and accepted at its end.

## Key results

- `ParserTable.holds_of_ofGrammar`: the table has what is asked for
- `ParserTable.reads_row`: reading what a row of symbols derives
- `ParserTable.accepts_sentence`: every sentence is accepted
-/

namespace IncrementalParsing

open RuleBook (ofGrammar)

variable {g : FlatGrammar} {graph : StateGraph}

/-- No two members of a list differ that has no more than one. -/
theorem eq_of_length_le_one {α : Type} {xs : List α} {x y : α} (h : xs.length ≤ 1) (hx : x ∈ xs)
    (hy : y ∈ xs) : x = y := by
  obtain ⟨n, hn, rfl⟩ := List.getElem_of_mem hx
  obtain ⟨m, hm, rfl⟩ := List.getElem_of_mem hy
  obtain rfl : n = m := by omega
  rfl

/-! ## What is asked for -/

namespace RuleBook

/-- The actions that items ask for on a token: finishing each production that has been read and that
the token can follow, and reading the token. -/
def candidates (b : RuleBook) (closure : List (Item × SymbolSet)) (token : Nat)
    (target : Option Nat) : List Action :=
  (b.finished closure token).map b.reduction ++ (target.map Action.shift).toList

/-- Where productions can be told apart, so can their reductions. -/
theorem reduction_inj {b : RuleBook} {p q : Nat} (hcount : b.accepting ≤ productionIds)
    (hp : p ≤ b.accepting) (hq : q ≤ b.accepting) (h : b.reduction p = b.reduction q) : p = q := by
  have hmod : ∀ {n}, n ≤ b.accepting → n ≠ b.accepting → n % productionIds = n := fun hle hne =>
    Nat.mod_eq_of_lt (Nat.lt_of_lt_of_le (Nat.lt_of_le_of_ne hle hne) hcount)
  unfold reduction at h
  split at h <;> rename_i hp' <;> split at h <;> rename_i hq'
  · rw [hp', hq']
  · cases h
  · cases h
  · rwa [hmod hp hp', hmod hq hq', Action.reduce.injEq] at h

/-- A reduction is not a shift. -/
theorem reduction_ne_shift {b : RuleBook} {p target : Nat} : b.reduction p ≠ .shift target := by
  unfold reduction
  split <;> simp

/-- One reduction alone is picked. -/
theorem pickReduction_singleton (b : RuleBook) (token p : Nat) :
    b.pickReduction token [p] = .ok (some p) := by
  simp [pickReduction]

/-- The productions that a token is read for. -/
def shifting (b : RuleBook) (closure : List (Item × SymbolSet)) (token : Nat) : List Nat :=
  closure.filterMap fun x => if b.next? x.1 == some token then some x.1.production else none

/-- The productions that are shifting a token are those of items before it. -/
theorem mem_shifting {b : RuleBook} {closure : List (Item × SymbolSet)} {token p : Nat} :
    p ∈ b.shifting closure token ↔ ∃ i set, (i, set) ∈ closure ∧ i.production = p ∧
      b.next? i = some token := by
  unfold shifting
  rw [List.mem_filterMap]
  constructor
  · rintro ⟨⟨i, set⟩, hi, hsome⟩
    simp only [Option.ite_none_right_eq_some, beq_iff_eq] at hsome
    exact ⟨i, set, hi, Option.some.inj hsome.2, hsome.1⟩
  · rintro ⟨i, set, hi, rfl, hnext⟩
    exact ⟨(i, set), hi, by simp [hnext]⟩

/-! What is chosen depends on what can be finished. -/

/-- Where nothing is finished a token is shifted or refused. -/
theorem chooseAction_of_finished_nil {b : RuleBook} {closure : List (Item × SymbolSet)} {token : Nat}
    (h : b.finished closure token = []) (target : Option Nat) :
    b.chooseAction closure token target = .ok (target.map .shift) := by
  change (b.pickReduction token (b.finished closure token) >>= _) = _
  rw [h]
  cases target <;> rfl

/-- Where one production is finished and nothing shifts, it is reduced. -/
theorem chooseAction_of_finished {b : RuleBook} {closure : List (Item × SymbolSet)} {token p : Nat}
    (h : b.finished closure token = [p]) :
    b.chooseAction closure token none = .ok (some (b.reduction p)) := by
  change (b.pickReduction token (b.finished closure token) >>= _) = _
  rw [h, pickReduction_singleton]
  rfl

/-- Where a token could be shifted as well, `shiftOrReduce` decides. -/
theorem chooseAction_of_both {b : RuleBook} {closure : List (Item × SymbolSet)} {token p target : Nat}
    {a : Action} (h : b.finished closure token = [p])
    (ha : b.shiftOrReduce token target p (b.shifting closure token) = .ok a) :
    b.chooseAction closure token (some target) = .ok (some a) := by
  change (b.pickReduction token (b.finished closure token) >>= _) = _
  rw [h, pickReduction_singleton]
  change (b.shiftOrReduce token target p (b.shifting closure token) >>= fun a => pure (some a)) = _
  rw [ha]
  rfl

/-- A single candidate is chosen. -/
theorem chooseAction_of_candidates {b : RuleBook} {closure : List (Item × SymbolSet)} {token : Nat}
    {target : Option Nat} (hone : (b.candidates closure token target).length ≤ 1) :
    ∃ found, b.chooseAction closure token target = .ok found ∧
      ∀ a ∈ b.candidates closure token target, found = some a := by
  unfold candidates at hone ⊢
  -- more than one production that ends here would make more than one candidate
  match hfinished : b.finished closure token with
  | [] => exact ⟨_, chooseAction_of_finished_nil hfinished target, fun a ha => Option.mem_toList.mp ha⟩
  | [p] =>
    cases target with
    | none =>
      exact ⟨_, chooseAction_of_finished hfinished, fun a ha => by rw [← List.mem_singleton.mp ha]⟩
    | some t =>
      rw [hfinished] at hone
      simp at hone
  | p :: q :: rest =>
    rw [hfinished] at hone
    simp at hone

/-- Candidates that are all the same are one, where productions can be told apart. -/
theorem length_candidates_le {b : RuleBook} {closure : List (Item × SymbolSet)} {token : Nat}
    {target : Option Nat} (hcount : b.accepting ≤ productionIds)
    (hnodup : (b.finished closure token).Nodup)
    (hle : ∀ p ∈ b.finished closure token, p ≤ b.accepting)
    (hsame : ∀ a ∈ b.candidates closure token target, ∀ a' ∈ b.candidates closure token target,
      a = a') : (b.candidates closure token target).length ≤ 1 := by
  -- reductions of different productions differ, and none is a shift
  have hdistinct : (b.candidates closure token target).Nodup := by
    refine List.nodup_append'.mpr ⟨hnodup.map_on fun p hp q hq heq =>
      reduction_inj hcount (hle p hp) (hle q hq) heq, ?_, fun a ha ha' => ?_⟩
    · cases target <;> simp
    · obtain ⟨p, -, rfl⟩ := List.mem_map.mp ha
      obtain ⟨s, -, heq⟩ := Option.map_eq_some_iff.mp (Option.mem_toList.mp ha')
      exact reduction_ne_shift heq.symm
  match hall : b.candidates closure token target with
  | [] | [_] => simp
  | a :: a' :: rest =>
    rw [hall] at hsame hdistinct
    exact absurd (hsame a (by simp) a' (by simp)) (by simp_all)

/-- A production is finished once. -/
theorem nodup_finished {b : RuleBook} {closure : List (Item × SymbolSet)}
    (hclosure : (closure.map (·.1)).Nodup)
    (hcomplete : ∀ x ∈ closure, ∀ y ∈ closure, b.next? x.1 = none → b.next? y.1 = none →
      x.1.production = y.1.production → x.1 = y.1) (token : Nat) :
    (b.finished closure token).Nodup := by
  unfold finished
  rw [List.Nodup, List.pairwise_filterMap]
  refine (List.pairwise_map.mp hclosure).imp_of_mem fun {x y} hx hy hne p hp q hq heq => ?_
  simp only [Option.ite_none_right_eq_some, Bool.and_eq_true, isComplete,
    Option.isNone_iff_eq_none, Option.some.injEq] at hp hq
  exact hne (hcomplete x hx y hy hp.1.1 hq.1.1 (by rw [hp.2, hq.2, heq]))

/-- What a symbol is given as its entry, where the action of a token is known. -/
theorem entry_of_chooseAction {b : RuleBook} {closure : List (Item × SymbolSet)}
    {transitions : List (Nat × Nat)} {lookaheads : SymbolSet} {s : Nat} {found : Option Action}
    (hlookaheads : ∀ x ∈ closure, b.next? x.1 = none → x.2.Within lookaheads)
    (hfound : b.grammar.isTerminal s = true →
      b.chooseAction closure s (transitions.lookup s) = .ok found) :
    ∃ e, b.entry closure transitions lookaheads s = .ok e ∧
      (b.grammar.isTerminal s = true → ∀ a, found = some a → e = some (s, a)) ∧
      (b.grammar.isTerminal s = false →
        ∀ target, transitions.lookup s = some target → e = some (s, .goto target)) := by
  unfold entry
  dsimp only
  split
  · rename_i hs
    split
    · refine ⟨found.map fun action => (s, action), by rw [hfound hs]; rfl, fun _ a ha => ?_,
        fun h => absurd (hs.symm.trans h) (by decide)⟩
      rw [ha]
      rfl
    · rename_i hnothing
      refine ⟨none, rfl, fun _ a ha => absurd ?_ hnothing, fun h =>
        absurd (hs.symm.trans h) (by decide)⟩
      -- an action is for a lookahead of something complete, or leads somewhere
      rw [Bool.or_eq_true]
      obtain ⟨p, -, hp⟩ | ⟨target, -, htarget⟩ := chooseAction_eq (ha ▸ hfound hs)
      · obtain ⟨i, set, hi, -, hnext, hset⟩ := mem_finished.mp hp
        exact .inl (hlookaheads _ hi hnext s hset)
      · exact .inr (by rw [htarget]; rfl)
  · rename_i hs
    refine ⟨_, rfl, fun h => absurd h hs, fun _ target htarget => ?_⟩
    rw [htarget]
    rfl

/-- The lookaheads of each finished item are among those of the closure. -/
theorem within_lookaheadsOf (b : RuleBook) (closure : List (Item × SymbolSet)) :
    ∀ x ∈ closure, b.next? x.1 = none → x.2.Within (b.lookaheadsOf closure) := by
  have hgrows : ∀ (closure : List (Item × SymbolSet)) (set : SymbolSet),
      set.Within (closure.foldl (fun set y =>
        if b.isComplete y.1 then set.union y.2 else set) set) ∧
      ∀ x ∈ closure, b.next? x.1 = none → x.2.Within (closure.foldl (fun set y =>
        if b.isComplete y.1 then set.union y.2 else set) set) := by
    intro closure
    -- the union only grows, and each complete item is added in its turn
    induction closure with
    | nil => exact fun set => ⟨.refl set, fun x hx => by cases hx⟩
    | cons y rest ih =>
      intro set
      obtain ⟨hset, hrest⟩ := ih (if b.isComplete y.1 then set.union y.2 else set)
      refine ⟨SymbolSet.Within.trans ?_ hset, fun x hx hnext => ?_⟩
      · split
        · exact SymbolSet.within_union_left set y.2
        · exact .refl set
      · obtain rfl | hx := List.mem_cons.mp hx
        · have hcomplete : b.isComplete x.1 = true := by rw [isComplete, hnext]; rfl
          rw [if_pos hcomplete] at hset
          rw [List.foldl_cons, if_pos hcomplete]
          exact (SymbolSet.within_union_right set x.2).trans hset
        · exact hrest x hx hnext
  -- the union starts out empty
  exact (hgrows closure .empty).2

/-- The actions of a state, where the action of each token is known. -/
theorem chooseActions_of_chooseAction {closure : List (Item × SymbolSet)}
    {transitions : List (Nat × Nat)} {found : Nat → Option Action}
    (hfound : ∀ token, g.isTerminal token = true →
      (ofGrammar g).chooseAction closure token (transitions.lookup token) = .ok (found token)) :
    ∃ actions, (ofGrammar g).chooseActions closure transitions = .ok actions ∧
      (∀ token, g.isTerminal token = true → ∀ a, found token = some a → (token, a) ∈ actions) ∧
      ∀ rule < g.symbols.size, g.isTerminal rule = false →
        ∀ target, transitions.lookup rule = some target → (rule, .goto target) ∈ actions := by
  -- each symbol of the grammar has its entry, and the actions are the entries that are there
  have hentry := fun s =>
    entry_of_chooseAction (s := s) (within_lookaheadsOf (ofGrammar g) closure) (hfound s)
  choose e he hterminal hrule using hentry
  have hentries : (ofGrammar g).IsEntries closure transitions ((List.range g.symbols.size).map e) :=
    List.forall₂_map_right_iff.mpr (List.forall₂_same.mpr fun s _ => he s)
  refine ⟨_, chooseActions_eq_ok.mpr ⟨_, hentries, rfl⟩, fun token ht a ha => ?_,
    fun rule hr hrule' target htarget => ?_⟩
  · exact hentries.mem_iff.mpr ⟨g.lt_of_isTerminal ht, (he token).trans (by rw [hterminal token ht a ha])⟩
  · exact hentries.mem_iff.mpr ⟨hr, (he rule).trans (by rw [hrule rule hrule' target htarget])⟩

/-- The symbol in front of which an item stands comes next, and the others of its row come behind. -/
theorem next?_of_drop {i : Item} {s : Nat} {row : List Nat}
    (hrow : (g.row i.production).drop i.dot = s :: row) :
    (ofGrammar g).next? i = some s ∧ (g.row i.production).drop (i.dot + 1) = row := by
  constructor
  · rw [next?_ofGrammar, ← List.head?_drop, hrow]
    rfl
  · rw [List.drop_add_one_eq_tail_drop, hrow]
    rfl

end RuleBook

namespace StateGraph

/-- The candidates of a state on a token. -/
def candidates (b : RuleBook) (graph : StateGraph) (state token : Nat) : List Action :=
  b.candidates (b.closure (graph.kernel (graph.lookaheads b) state)) token
    (graph.target? state token)

/-- No state finishes a production twice. -/
theorem nodup_finished (hg : g.Sound) (hs : graph.Sound g) {state : Nat}
    (hstate : state < graph.kernels.size) (token : Nat) :
    ((ofGrammar g).finished ((ofGrammar g).closure
      (graph.kernel (graph.lookaheads (ofGrammar g)) state)) token).Nodup := by
  have hk := Array.getElem?_eq_getElem hstate
  -- the kernel of a state has its items, each once
  have hmap : (graph.kernel (graph.lookaheads (ofGrammar g)) state).map (·.1) =
      graph.kernels[state] := by
    rw [(fits_lookaheads hg hs).map_kernel, Array.getD_eq_getD_getElem?, hk]
    rfl
  refine RuleBook.nodup_finished (RuleBook.nodup_closure ?_ ?_)
    (fun x hx y hy hnext hnext' hp => ?_) token
  · rw [hmap]
    exact hs.nodup state _ hk
  · rw [hmap]
    exact hs.first state _ hk
  · -- of one production, only the item after its last part is complete
    have hdot := hs.dot_eq hk
      (hmap ▸ RuleBook.closed_of_mem_closure (show (x.1, x.2) ∈ _ from hx)) hnext
    have hdot' := hs.dot_eq hk
      (hmap ▸ RuleBook.closed_of_mem_closure (show (y.1, y.2) ∈ _ from hy)) hnext'
    rw [← hp, ← hdot] at hdot'
    obtain ⟨⟨production, dot⟩, set⟩ := x
    obtain ⟨⟨production', dot'⟩, set'⟩ := y
    exact Item.mk.injEq .. ▸ ⟨hp, hdot'.symm⟩

/-- Where the productions of a grammar can be told apart, candidates that are all the same are one. -/
theorem length_candidates_le (hg : g.Sound) (hs : graph.Sound g)
    (hcount : g.productions.size ≤ RuleBook.productionIds) {state : Nat}
    (hstate : state < graph.kernels.size) (token : Nat)
    (hsame : ∀ a ∈ graph.candidates (ofGrammar g) state token,
      ∀ a' ∈ graph.candidates (ofGrammar g) state token, a = a') :
    (graph.candidates (ofGrammar g) state token).length ≤ 1 := by
  refine RuleBook.length_candidates_le hcount (nodup_finished hg hs hstate token)
    (fun p hp => ?_) hsame
  obtain ⟨i, set, hi, rfl, -⟩ := RuleBook.mem_finished.mp hp
  have hk := Array.getElem?_eq_getElem hstate
  have hmap : (graph.kernel (graph.lookaheads (ofGrammar g)) state).map (·.1) =
      graph.kernels[state] := by
    rw [(fits_lookaheads hg hs).map_kernel, Array.getD_eq_getD_getElem?, hk]
    rfl
  exact hs.production_le hk (hmap ▸ RuleBook.closed_of_mem_closure hi)

end StateGraph

/-- A table has the actions that are known for the states of a graph, and their gotos. -/
structure ParserTable.Gives (p : ParserTable) (g : FlatGrammar) (graph : StateGraph)
    (found : StateId → Symbol → Option Action) : Prop where
  action : ∀ state < graph.kernels.size, ∀ token, g.isTerminal token = true →
    ∀ a, found state token = some a → p.action? state token = some a
  goto : ∀ state < graph.kernels.size, ∀ rule < g.symbols.size, g.isTerminal rule = false →
    ∀ target, graph.target? state rule = some target → p.goto? state rule = some target

/-- A table has the actions that the states of a graph ask for. -/
structure ParserTable.Holds (p : ParserTable) (g : FlatGrammar) (graph : StateGraph) : Prop where
  action : ∀ state < graph.kernels.size, ∀ token, g.isTerminal token = true →
    ∀ a ∈ graph.candidates (.ofGrammar g) state token, p.action? state token = some a
  goto : ∀ state < graph.kernels.size, ∀ rule < g.symbols.size, g.isTerminal rule = false →
    ∀ target, graph.target? state rule = some target → p.goto? state rule = some target

/-- There are lex modes for as many states as there can be. -/
theorem ParserTable.assignLexModes_ok (lexical extras : SymbolSet) (bound : Nat)
    (actions : List (List (Symbol × Action))) (modes : Array (List Symbol))
    (h : modes.size + actions.length ≤ 65536) :
    ∃ states modes', assignLexModes lexical extras bound actions modes = .ok (states, modes') := by
  -- on the states, each of which adds one lex mode at most
  induction actions generalizing modes with
  | nil => exact ⟨_, _, rfl⟩
  | cons a rest ih =>
    rw [List.length_cons] at h
    rw [assignLexModes]
    dsimp only
    rw [if_neg (by omega)]
    obtain ⟨states, modes', hrest⟩ := ih (if (modes.findIdx? (· == stateTokens lexical extras
        bound a)).getD modes.size = modes.size then modes.push (stateTokens lexical extras bound a)
        else modes) (by
      split
      · rw [Array.size_push]
        omega
      · omega)
    rw [hrest]
    exact ⟨_, _, rfl⟩

/-- Where every state can choose an action for every token, there is a table that has them. -/
theorem ParserTable.gives_of_ofGrammar (hg : g.Sound)
    (hgraph : StateGraph.ofRules (.ofGrammar g) = .ok graph) {found : StateId → Symbol → Option Action}
    (hfound : ∀ state < graph.kernels.size, ∀ token, g.isTerminal token = true →
      (RuleBook.ofGrammar g).chooseAction ((RuleBook.ofGrammar g).closure
        (graph.kernel (graph.lookaheads (.ofGrammar g)) state)) token (graph.target? state token) =
          .ok (found state token)) :
    ∃ p, ParserTable.ofGrammar g = .ok p ∧ p.Gives g graph found := by
  have hs := StateGraph.sound_ofRules hg hgraph
  have hchosen := fun (state : Fin graph.kernels.size) =>
    RuleBook.chooseActions_of_chooseAction (hfound state state.isLt)
  choose chosen hchosen haction hgoto using hchosen
  -- the actions of all states, in order
  have hall : (List.range graph.kernels.size).mapM (fun state => (RuleBook.ofGrammar g).chooseActions
      ((RuleBook.ofGrammar g).closure (graph.kernel (graph.lookaheads (.ofGrammar g)) state))
      (graph.transitions.getD state [])) = .ok (List.ofFn chosen) := by
    rw [Except.mapM_eq_ok, List.forall₂_iff_get]
    refine ⟨by rw [List.length_range, List.length_ofFn], fun i hi hi' => ?_⟩
    have hlt : i < graph.kernels.size := by simpa using hi
    simpa using hchosen ⟨i, hlt⟩
  obtain ⟨states, modes, hassign⟩ := assignLexModes_ok (.ofList g.lexicalTerminals)
    (.ofList g.extras) g.symbols.size (List.ofFn chosen) #[g.lexicalTerminals] (by
      have := hs.size_le
      rw [List.length_ofFn]
      simp only [StateGraph.maxStates, List.size_toArray, List.length_singleton] at this ⊢
      omega)
  -- the row of a state holds what was chosen for it
  have hactions : ∀ (state : Nat) (hlt : state < graph.kernels.size),
      actions ⟨states.toArray, modes⟩ state = chosen ⟨state, hlt⟩ := by
    intro state hlt
    have hmap := congrArg (·[state]?) (actions_of_assignLexModes hassign)
    simp only [List.getElem?_map, List.getElem?_ofFn, hlt, dif_pos] at hmap
    obtain ⟨own, hown, heq⟩ := Option.map_eq_some_iff.mp hmap
    rw [actions, List.getElem?_toArray, hown]
    exact heq
  have hchosen' := fun state : Fin graph.kernels.size => RuleBook.chosen_of_chooseActions
    ((StateGraph.fits_lookaheads hg hs).accepting state) (hchosen state)
  refine ⟨⟨states.toArray, modes⟩, ?_, fun state hlt token ht a ha => ?_,
    fun state hlt rule hr hrule target htarget => ?_⟩
  · unfold ParserTable.ofGrammar
    refine Except.bind_eq_ok.mpr ⟨graph, hgraph, Except.bind_eq_ok.mpr ⟨_, hall, ?_⟩⟩
    exact Except.bind_eq_ok.mpr ⟨_, hassign, rfl⟩
  -- a terminal is looked up, and its action is no goto
  · have hmem := haction ⟨state, hlt⟩ token ht a ha
    have hkind := ((hchosen' ⟨state, hlt⟩).terminal token a hmem).mp ht
    rw [action?, hactions state hlt, StateGraph.lookup_of_mem (hchosen' _).distinct hmem]
    split
    · rename_i target heq
      exact absurd (Option.some.inj heq) (hkind target)
    · rfl
  · rw [goto?, hactions state hlt,
      StateGraph.lookup_of_mem (hchosen' _).distinct
        (hgoto ⟨state, hlt⟩ rule hr hrule target htarget)]

/-- The table has what is asked for, where each state has a single candidate for each token. -/
theorem ParserTable.holds_of_ofGrammar (hg : g.Sound)
    (hgraph : StateGraph.ofRules (.ofGrammar g) = .ok graph)
    (hone : ∀ state < graph.kernels.size, ∀ token, g.isTerminal token = true →
      (graph.candidates (.ofGrammar g) state token).length ≤ 1) :
    ∃ p, ParserTable.ofGrammar g = .ok p ∧ p.Holds g graph := by
  have hs := StateGraph.sound_ofRules hg hgraph
  -- with one candidate at most the choice is that candidate
  have hchoose : ∀ state token, ∃ found, state < graph.kernels.size → g.isTerminal token = true →
      (RuleBook.ofGrammar g).chooseAction ((RuleBook.ofGrammar g).closure
        (graph.kernel (graph.lookaheads (.ofGrammar g)) state)) token (graph.target? state token) =
          .ok found ∧ ∀ a ∈ graph.candidates (.ofGrammar g) state token, found = some a := by
    intro state token
    by_cases h : state < graph.kernels.size ∧ g.isTerminal token = true
    · obtain ⟨found, hfound⟩ := RuleBook.chooseAction_of_candidates (hone state h.1 token h.2)
      exact ⟨found, fun _ _ => hfound⟩
    · exact ⟨none, fun hstate ht => absurd ⟨hstate, ht⟩ h⟩
  choose found hfound using hchoose
  obtain ⟨p, hp, hgives⟩ := gives_of_ofGrammar hg hgraph fun state hstate token ht =>
    (hfound state token hstate ht).1
  exact ⟨p, hp, fun state hstate token ht a ha =>
    hgives.action state hstate token ht a ((hfound state token hstate ht).2 a ha), hgives.goto⟩

/-! ## Reading -/

/-- A parse as the states and the actions see it: the states entered and not left, the last one first,
and the tokens that are still to be read. -/
structure Reading where
  states : List StateId
  tokens : List Symbol
deriving DecidableEq, Inhabited

/-- How a parse goes on. -/
inductive Reading.Move where
  | next (r : Reading)
  | accepted
  /-- The table has no action, or nowhere to go. -/
  | stuck
deriving DecidableEq, Inhabited

namespace ParserTable

/-- Finishes a production: leaves the states of its parts and enters the one that its symbol leads
to. -/
def finish (p : ParserTable) (g : FlatGrammar) (production : ProductionId)
    (states : List StateId) : Option (List StateId) := do
  let production ← g.productions[production]?
  let below := states.drop production.parts.length
  let target ← p.goto? (← below.head?) production.lhs
  return target :: below

/-- What the action of the last state on the next token does. -/
def move (p : ParserTable) (g : FlatGrammar) (r : Reading) : Reading.Move :=
  match r with
  | ⟨state :: below, token :: rest⟩ =>
    match p.action? state token with
    | some (.shift target) => .next ⟨target :: state :: below, rest⟩
    | some (.reduce production) =>
      match p.finish g production (state :: below) with
      | some states => .next ⟨states, token :: rest⟩
      | none => .stuck
    | some .accept => .accepted
    | _ => .stuck
  | _ => .stuck

/-- One parse comes after another by moves. -/
def Reaches (p : ParserTable) (g : FlatGrammar) : Reading → Reading → Prop :=
  Relation.ReflTransGen fun r r' => p.move g r = .next r'

/-- A row of tokens is read from the first state, all of it, and accepted at its end. -/
def Accepts (p : ParserTable) (g : FlatGrammar) (tokens : List Symbol) : Prop :=
  ∃ states, p.Reaches g ⟨[0], tokens ++ [.finish]⟩ ⟨states, [.finish]⟩ ∧
    p.move g ⟨states, [.finish]⟩ = .accepted

end ParserTable

/-- The end of the text is a terminal. -/
theorem FlatGrammar.Sound.isTerminal_finish (hg : g.Sound) : g.isTerminal Symbol.finish = true := by
  obtain ⟨info, hinfo, hterminal, -⟩ := hg.builtIn 0 (by decide)
  rw [FlatGrammar.isTerminal, show g.symbols[Symbol.finish]? = some info from hinfo]
  exact hterminal

namespace FirstSets

/-- What can follow a place that has a row of symbols after it, and lookaheads after those. -/
def after (g : FlatGrammar) (row : List Nat) (lookaheads : SymbolSet) : SymbolSet :=
  let (set, nullable) := (ofGrammar g).ofRow g row
  if nullable then set.union lookaheads else set

/-- What may come after a row: what it begins with, and what comes next where it may be empty. -/
theorem mem_after {row : List Nat} {lookaheads : SymbolSet} {a : Nat} :
    (after g row lookaheads).mem a = (((ofGrammar g).ofRow g row).1.mem a ||
      (((ofGrammar g).ofRow g row).2 && lookaheads.mem a)) := by
  unfold after
  dsimp only
  split
  · rename_i h
    rw [SymbolSet.mem_union, h, Bool.true_and]
  · rename_i h
    rw [Bool.eq_false_iff.mpr h, Bool.false_and, Bool.or_false]

/-- With more lookaheads more may come after it. -/
theorem after_mono {row : List Nat} {lookaheads lookaheads' : SymbolSet}
    (h : lookaheads.Within lookaheads') : (after g row lookaheads).Within (after g row lookaheads') := by
  intro a ha
  rw [mem_after, Bool.or_eq_true, Bool.and_eq_true] at ha ⊢
  exact ha.imp_right fun ha => ⟨ha.1, h a ha.2⟩

/-- The token after a sentence's first can follow what comes before it. -/
theorem mem_after_append (hg : g.Sound) {row row' tokens rest : List Nat} {lookaheads : SymbolSet}
    {a next : Nat} (h : g.Generates row tokens) (ha : (after g row' lookaheads).mem a = true)
    (hnext : (tokens ++ a :: rest).head? = some next) :
    (after g (row ++ row') lookaheads).mem next = true := by
  obtain ⟨hempty, hbegins⟩ := (complete_ofGrammar hg).begins hg h
  obtain ⟨hmem, hnullable⟩ := ofRow_append g (ofGrammar g) row row'
  rw [mem_after] at ha ⊢
  rw [hmem, hnullable]
  -- what comes first stands in the row where it derives a token, and behind it where it derives none
  cases tokens with
  | nil =>
    cases hnext
    rw [hempty rfl, Bool.true_and, Bool.true_and, Bool.or_assoc, ha, Bool.or_true]
  | cons first tokens =>
    cases hnext
    rw [hbegins next tokens rfl, Bool.true_or, Bool.true_or]

end FirstSets

/-- A state stands at an item that has the given lookaheads. -/
structure StateGraph.Stands (graph : StateGraph) (g : FlatGrammar) (state : Nat) (i : Item)
    (set : SymbolSet) : Prop where
  lt : state < graph.kernels.size
  item : (i, set) ∈ (ofGrammar g).closure (graph.kernel (graph.lookaheads (ofGrammar g)) state)

namespace StateGraph

variable {state : Nat} {i : Item} {set : SymbolSet}

/-- The symbol after an item leads to a state that stands after it. -/
theorem Stands.next (hg : g.Sound) (hs : graph.Sound g) (h : graph.Stands g state i set) {symbol : Nat}
    (hnext : (ofGrammar g).next? i = some symbol) :
    ∃ target set', graph.target? state symbol = some target ∧
      graph.Stands g target i.advance set' ∧ set.Within set' := by
  have hk := Array.getElem?_eq_getElem h.lt
  have hclosed := RuleBook.closed_of_mem_closure h.item
  rw [(fits_lookaheads hg hs).map_kernel, Array.getD_eq_getD_getElem?, hk, Option.getD_some] at hclosed
  -- the kernel has a transition for every symbol behind a dot of its closure
  obtain ⟨target', hmoves⟩ := (hs.leads state _ hk).all i symbol hclosed hnext
  have hsome : (graph.target? state symbol).isSome = true :=
    List.lookup_isSome_iff.mpr ⟨_, hmoves, by simp⟩
  obtain ⟨target, htarget⟩ := Option.isSome_iff_exists.mp hsome
  obtain ⟨set', hset', hwithin⟩ := handed_on hg hs hk h.item hnext htarget
  obtain ⟨-, -, next, hkernel, -⟩ := (hs.leads state _ hk).target symbol target
    (mem_of_lookup htarget)
  exact ⟨target, set', htarget, ⟨(Array.getElem?_eq_some_iff.mp hkernel).1,
    RuleBook.mem_closure.mpr (.inl hset')⟩, hwithin⟩

/-- Before a rule, a state stands at the beginning of all its productions. -/
theorem Stands.begin (hg : g.Sound) (hs : graph.Sound g) (h : graph.Stands g state i set)
    {q : FlatProduction} {p : Nat} (hq : g.productions[p]? = some q) {row : List Nat}
    (hrow : (g.row i.production).drop i.dot = q.lhs :: row) :
    ∃ set', graph.Stands g state ⟨p, 0⟩ set' ∧ (FirstSets.after g row set).Within set' := by
  obtain ⟨-, hlt, hrule⟩ := hg.lhs q (Array.mem_of_getElem? hq)
  -- the symbol that comes next is a rule, so the closure opens its productions
  obtain ⟨hnext, hdrop⟩ := RuleBook.next?_of_drop hrow
  have hnext : (ofGrammar g).nextRule? i = some q.lhs :=
    Option.filter_eq_some_iff.mpr ⟨hnext, Bool.not_eq_true' _ ▸ hrule⟩
  obtain ⟨set', hset', hwithin⟩ := RuleBook.following_within_closure hg
    ((fits_lookaheads hg hs).below_kernel state) h.item hnext (RuleBook.mem_productionsOf hq hlt)
  have hrest : (ofGrammar g).rest i = row := by rw [RuleBook.rest_ofGrammar, hdrop]
  refine ⟨set', ⟨h.lt, hset'⟩, ?_⟩
  rw [← hrest]
  exact hwithin

/-- The first state stands before the whole text, which its end follows. -/
theorem Sound.stands_start (hs : graph.Sound g) (hg : g.Sound) :
    graph.Stands g 0 ⟨g.productions.size, 0⟩ (.singleton 0) := by
  refine ⟨(Array.getElem?_eq_some_iff.mp hs.zero).1, RuleBook.mem_closure.mpr (.inl ?_)⟩
  unfold StateGraph.kernel
  rw [Array.getD_eq_getD_getElem?, Array.getD_eq_getD_getElem?, hs.zero,
    (fits_lookaheads hg hs).start]
  exact List.mem_singleton_self _

/-- The end of the text is not read. -/
theorem Sound.target?_finish (h : graph.Sound g) (hg : g.Sound) {kernel : List Item}
    (hk : graph.kernels[state]? = some kernel) : graph.target? state Symbol.finish = none := by
  rw [Option.eq_none_iff_forall_ne_some]
  intro target htarget
  obtain ⟨-, ⟨i, hi⟩, -⟩ := (h.leads state kernel hk).target _ target (mem_of_lookup htarget)
  rw [RuleBook.next?_ofGrammar] at hi
  exact absurd (hg.row (List.mem_of_getElem? hi)).1 (by decide)

/-- A state asks for finishing what has been read, on all that can follow it. -/
theorem Stands.reduction_mem_candidates (h : graph.Stands g state i set)
    (hnext : (ofGrammar g).next? i = none) {token : Nat} (ha : set.mem token = true) :
    (ofGrammar g).reduction i.production ∈ graph.candidates (ofGrammar g) state token :=
  List.mem_append_left _ (List.mem_map_of_mem
    (RuleBook.mem_finished.mpr ⟨i, set, h.item, rfl, hnext, ha⟩))

/-- A state asks for reading what leads somewhere. -/
theorem shift_mem_candidates {b : RuleBook} {token target : Nat}
    (h : graph.target? state token = some target) :
    .shift target ∈ graph.candidates b state token := by
  refine List.mem_append_right _ ?_
  rw [h]
  exact List.mem_singleton_self _

end StateGraph

namespace ParserTable

variable {p : ParserTable}

open StateGraph (Stands)

/-- Reading a token that comes next. -/
theorem move_shift {state target : StateId} {below : List StateId} {token : Symbol}
    {rest : List Symbol} (h : p.action? state token = some (.shift target)) :
    p.move g ⟨state :: below, token :: rest⟩ = .next ⟨target :: state :: below, rest⟩ := by
  simp [move, h]

/-- Finishing a production whose parts have been read. -/
theorem move_reduce {state last target : StateId} {below above : List StateId} {token : Symbol}
    {rest : List Symbol} {n : ProductionId} {q : FlatProduction}
    (h : p.action? last token = some (.reduce n)) (hq : g.productions[n]? = some q)
    (hdrop : (last :: above).drop q.rhs.length = state :: below)
    (hgoto : p.goto? state q.lhs = some target) :
    p.move g ⟨last :: above, token :: rest⟩ = .next ⟨target :: state :: below, token :: rest⟩ := by
  rw [FlatProduction.rhs, List.length_map] at hdrop
  have hfinish : p.finish g n (last :: above) = some (target :: state :: below) := by
    simp only [finish, hq, hdrop, hgoto, Option.bind_eq_bind, Option.bind_some, List.head?_cons]
    rfl
  simp [move, h, hfinish]

/-- Reading what a row of symbols derives, one of them after the other: the parts of an item are read,
and what can follow them is kept. -/
theorem reads_row (hg : g.Sound) (hcount : g.productions.size ≤ RuleBook.productionIds)
    (hs : graph.Sound g) (hp : p.Holds g graph) {row tokens : List Nat}
    (h : g.Generates row tokens) {state : StateId} {i : Item} {set : SymbolSet} (row' : List Nat)
    {a : Symbol} (rest : List Symbol) (below : List StateId) (hat : graph.Stands g state i set)
    (hrow : (g.row i.production).drop i.dot = row ++ row') (ht : g.isTerminal a = true)
    (ha : (FirstSets.after g row' set).mem a = true) :
    ∃ last above set', p.Reaches g ⟨state :: below, tokens ++ a :: rest⟩ ⟨last :: above, a :: rest⟩ ∧
      (last :: above).drop row.length = state :: below ∧
      graph.Stands g last ⟨i.production, i.dot + row.length⟩ set' ∧ set.Within set' := by
  induction h generalizing state i set row' a rest below with
  | nil => exact ⟨state, below, set, .refl, rfl, hat, .refl set⟩
  -- the token is shifted, and the row goes on from the state it leads to
  | @terminal s row tokens hterminal _ ih =>
    obtain ⟨hnext, hrow⟩ := RuleBook.next?_of_drop hrow
    obtain ⟨target, set₁, htarget, hat₁, hwithin⟩ := hat.next hg hs hnext
    have hmove : p.move g ⟨state :: below, s :: (tokens ++ a :: rest)⟩ =
        .next ⟨target :: state :: below, tokens ++ a :: rest⟩ := move_shift
      (hp.action state hat.lt s hterminal _ (StateGraph.shift_mem_candidates htarget))
    obtain ⟨last, above, set', hreach, hdrop, hlast, hwithin'⟩ :=
      ih row' rest (state :: below) hat₁ hrow ht (FirstSets.after_mono hwithin a ha)
    refine ⟨last, above, set', .head hmove hreach, ?_, ?_, hwithin.trans hwithin'⟩
    · rw [List.length_cons, ← List.drop_drop, hdrop]
      rfl
    · rw [List.length_cons, Nat.add_comm row.length, ← Nat.add_assoc]
      exact hlast
  | @rule q row inner tokens hmem hinner hgenerates ihinner ih =>
    obtain ⟨n, hn, hq⟩ := Array.getElem_of_mem hmem
    have hq : g.productions[n]? = some q := by rw [Array.getElem?_eq_getElem hn, hq]
    -- the production is read first, up to where the token after it finishes it
    obtain ⟨set₀, hat₀, hwithin₀⟩ := hat.begin hg hs hq hrow
    obtain ⟨hnext, hrow⟩ := RuleBook.next?_of_drop hrow
    obtain ⟨token, rest', htokens, hterminal⟩ := hgenerates.exists_first ht rest
    have hfollows : set₀.mem token = true := hwithin₀ token
      (FirstSets.mem_after_append hg hgenerates ha (by rw [htokens]; rfl))
    obtain ⟨last, above, set₁, hreach, hdrop, hlast, hwithin₁⟩ := ihinner [] rest' below hat₀
      (by rw [List.drop_zero, FlatGrammar.row_of_production hq, List.append_nil]) hterminal
      (by rw [FirstSets.mem_after, hfollows]; simp [FirstSets.ofRow])
    have hcomplete : (RuleBook.ofGrammar g).next? ⟨n, 0 + q.rhs.length⟩ = none := by
      rw [RuleBook.next?_ofGrammar, FlatGrammar.row_of_production hq, Nat.zero_add]
      exact List.getElem?_eq_none (Nat.le_refl _)
    have hreduce : p.action? last token = some (.reduce n) :=
      (hp.action last hlast.lt token hterminal _
        (hlast.reduction_mem_candidates hcomplete (hwithin₁ token hfollows))).trans
        (congrArg some (RuleBook.reduction_of_lt hcount hn))
    -- then the symbol that it stands for, and the rest of the row
    obtain ⟨target, set₂, htarget, hat₂, hwithin₂⟩ := hat.next hg hs hnext
    obtain ⟨-, hlt, hrule⟩ := hg.lhs q hmem
    have hmove : p.move g ⟨last :: above, token :: rest'⟩ =
        .next ⟨target :: state :: below, token :: rest'⟩ := move_reduce hreduce hq hdrop
      (hp.goto state hat.lt q.lhs hlt hrule target htarget)
    obtain ⟨last', above', set', hreach', hdrop', hlast', hwithin'⟩ :=
      ih row' rest (state :: below) hat₂ hrow ht (FirstSets.after_mono hwithin₂ a ha)
    refine ⟨last', above', set', ?_, ?_, ?_, hwithin₂.trans hwithin'⟩
    · rw [List.append_assoc, htokens]
      rw [htokens] at hreach'
      exact (hreach.tail hmove).trans hreach'
    · rw [List.length_cons, ← List.drop_drop, hdrop']
      rfl
    · rw [List.length_cons, Nat.add_comm row.length, ← Nat.add_assoc]
      exact hlast'

/-- Every sentence is accepted: where no state has two candidates for one token, and there are no more
productions than actions can tell apart, the grammar has a table, and this reads each sentence of the
start symbol to its end. -/
theorem accepts_sentence {grammar : Grammar} (hflat : grammar.flatten = .ok g)
    (hcount : g.productions.size ≤ RuleBook.productionIds)
    (hgraph : StateGraph.ofRules (.ofGrammar g) = .ok graph)
    (hone : ∀ state < graph.kernels.size, ∀ token, g.isTerminal token = true →
      ∀ a ∈ graph.candidates (.ofGrammar g) state token,
        ∀ a' ∈ graph.candidates (.ofGrammar g) state token, a = a') :
    ∃ p, ParserTable.ofGrammar g = .ok p ∧
      ∀ tokens, g.Generates [g.start] tokens → p.Accepts g tokens := by
  have hg := Grammar.sound_flatten hflat
  have hs := StateGraph.sound_ofRules hg hgraph
  obtain ⟨p, hp, hholds⟩ := holds_of_ofGrammar hg hgraph fun state hstate token ht =>
    StateGraph.length_candidates_le hg hs hcount hstate token (hone state hstate token ht)
  refine ⟨p, hp, fun tokens h => ?_⟩
  have hfirst := hs.stands_start hg
  have hfinish := hg.isTerminal_finish
  -- the start symbol is read as a row of one symbol, followed by the end of the text
  obtain ⟨last, above, set, hreach, -, hlast, hwithin⟩ := reads_row hg hcount hs hholds h []
    (a := Symbol.finish) [] [] hfirst
    (by rw [List.drop_zero, g.row_accepting, List.append_nil]) hfinish
    (by simp [FirstSets.mem_after, FirstSets.ofRow, Symbol.finish])
  have hcomplete : (RuleBook.ofGrammar g).next? ⟨g.productions.size, 0 + 1⟩ = none := by
    rw [RuleBook.next?_ofGrammar, g.row_accepting]
    rfl
  have haccept : (RuleBook.ofGrammar g).reduction g.productions.size = .accept := if_pos rfl
  -- then only the production that was added is finished
  have haction : p.action? last Symbol.finish = some .accept :=
    (hholds.action last hlast.lt Symbol.finish hfinish _ (hlast.reduction_mem_candidates hcomplete
      (hwithin _ (by simp [Symbol.finish])))).trans (congrArg some haccept)
  exact ⟨last :: above, hreach, by simp [move, haction]⟩

end ParserTable

/-! ## A rule that can be empty -/

namespace Repeated

/-- The grammar of the texts of any number of letters `a`, the empty one too. -/
def grammar : Grammar where
  name := "g"
  rules := [("s", .choice [.blank, .seq [.symbol "s", .string "a"]])]
  extras := []
  precedences := []
  conflicts := []
  externals := []
  inlined := []
  supertypes := []
  word := none
  reserved := []

/-- The rule, which can be empty, and its token. -/
def flat : FlatGrammar where
  name := "g"
  symbols := #[⟨"end", none, true, false, false, false⟩, ⟨"ERROR", none, true, true, true, false⟩,
    ⟨"s", none, false, true, true, false⟩, .letter "a"]
  productions := #[⟨2, [], none⟩, ⟨2, [(2, none), (3, none)], none⟩]
  fields := #[]
  start := 2

/-- The start, what comes after the rule, and what comes after its token. -/
def states : StateGraph where
  kernels := #[[⟨2, 0⟩], [⟨1, 1⟩, ⟨2, 1⟩], [⟨1, 2⟩]]
  transitions := #[[(2, 1)], [(3, 2)], []]

/-- The grammar is flattened as written above. -/
theorem flatten_grammar : grammar.flatten = .ok flat := by
  decide +kernel

/-- Its states are the ones written above. -/
theorem ofRules_flat : StateGraph.ofRules (.ofGrammar flat) = .ok states := by
  cbv

/-- No state has two candidates for a token. -/
theorem length_candidates : ((List.range 3).all fun state => (List.range 4).all fun token =>
    (states.candidates (.ofGrammar flat) state token).length ≤ 1) = true := by
  cbv

/-- It generates every row of the token. -/
theorem generates_replicate (n : Nat) : flat.Generates [2] (List.replicate n 3) := by
  have hempty : (⟨2, [], none⟩ : FlatProduction) ∈ flat.productions :=
    Array.mem_of_getElem? (i := 0) rfl
  have hmore : (⟨2, [(2, none), (3, none)], none⟩ : FlatProduction) ∈ flat.productions :=
    Array.mem_of_getElem? (i := 1) rfl
  induction n with
  | zero => exact .of_production hempty .nil
  | succ n ih =>
    rw [List.replicate_succ']
    exact .of_production hmore (ih.append (.terminal rfl .nil))

/-- All texts of the rule are accepted, though it can be empty and begins with itself. -/
theorem accepts_replicate : grammar.flatten = .ok flat ∧
    StateGraph.ofRules (.ofGrammar flat) = .ok states ∧
    ∃ p, ParserTable.ofGrammar flat = .ok p ∧ ∀ n, p.Accepts flat (List.replicate n 3) := by
  -- no state has two candidates for a token
  have hone : ∀ state < states.kernels.size, ∀ token, flat.isTerminal token = true →
      ∀ a ∈ states.candidates (.ofGrammar flat) state token,
        ∀ a' ∈ states.candidates (.ofGrammar flat) state token, a = a' := by
    intro state hstate token ht a ha a' ha'
    have hlt : token < 4 := flat.lt_of_isTerminal ht
    have hle := List.all_eq_true.mp (List.all_eq_true.mp length_candidates state
      (List.mem_range.mpr hstate)) token (List.mem_range.mpr hlt)
    exact eq_of_length_le_one (of_decide_eq_true hle) ha ha'
  obtain ⟨p, hp, haccepts⟩ := ParserTable.accepts_sentence flatten_grammar (by decide) ofRules_flat hone
  exact ⟨flatten_grammar, ofRules_flat, p, hp, fun n => haccepts _ (generates_replicate n)⟩

end Repeated

end IncrementalParsing
