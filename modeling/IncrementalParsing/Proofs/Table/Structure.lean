import IncrementalParsing.Proofs.Grammar.Increments
import IncrementalParsing.Proofs.Lalr.Choices
import IncrementalParsing.Proofs.Table.ReadBack

/-!
# The structure of tables

What every table of a grammar looks like: which symbols have an action in which states, what that
action is, where the end of the text is accepted, and which tokens are looked for.

## Key results

- `Table.Enacts`, `Table.Seeks`: how the states of a table act, and which tokens are looked for in them
- `Grammar.table_structure`: every table of a grammar is structured so
-/

namespace IncrementalParsing

open RuleBook (ofGrammar)

/-- How the states of a table act.  A state has actions on just those terminals that its items read next
or are followed by, each action is one that its items ask for, the end of the text is never read, the
symbol of errors has no entry, the text is accepted at its end and only where the start symbol leads
from the first state, and nothing leads back to that one. -/
structure Table.Enacts (t : Table) (g : FlatGrammar) (graph : StateGraph) : Prop where
  size : t.states.size = graph.kernels.size
  isSome_iff : ∀ s < t.states.size, ∀ a, (t.action? s a).isSome = true ↔
    t.isTerminal a = true ∧ graph.Expects (ofGrammar g) s a
  candidate : ∀ s a action, t.action? s a = some action →
    action ∈ graph.candidates (ofGrammar g) s a
  finish : ∀ s target, t.action? s Symbol.finish ≠ some (.shift target)
  error : ∀ s, (t.actions s).lookup Symbol.error = none
  accept : ∀ s a, t.action? s a = some .accept →
    a = Symbol.finish ∧ t.goto? 0 t.start = some s
  target : ∀ s a target, t.action? s a = some (.shift target) ∨ t.goto? s a = some target →
    target ≠ 0

/-- Which tokens are looked for in a state: those with an action, and the extras. -/
def Table.Wants (t : Table) (g : FlatGrammar) (s : StateId) (a : Symbol) : Prop :=
  (a ∈ g.lexicalTerminals ∧ (t.action? s a).isSome = true) ∨ t.isExtra a = true

/-- The lex modes of a table.  Each lists what is looked for in ascending order, the first one all tokens
that there are, and states in which the same is looked for share one. -/
structure Table.Seeks (t : Table) (g : FlatGrammar) : Prop where
  lexical : ∀ a, a ∈ g.lexicalTerminals ↔
    t.isTerminal a = true ∧ a ≠ Symbol.finish ∧ a ≠ Symbol.error
  all : t.modeSymbols allTokens = g.lexicalTerminals
  ascending : ∀ mode, (t.modeSymbols mode).Pairwise (· < ·)
  mem_iff : ∀ s < t.states.size, ∀ a, a ∈ t.modeSymbols (t.lexMode s) ↔ t.Wants g s a
  shared : ∀ s < t.states.size, ∀ s' < t.states.size,
    t.lexMode s = t.lexMode s' ↔ ∀ a, t.Wants g s a ↔ t.Wants g s' a

namespace StateGraph

variable {g : FlatGrammar} {graph : StateGraph} {state : StateId} {token : Symbol}

theorem target?_of_shift_mem_candidates {b : RuleBook} {target : StateId}
    (h : .shift target ∈ graph.candidates b state token) :
    graph.target? state token = some target := by
  obtain h | h := List.mem_append.mp h
  · obtain ⟨p, -, heq⟩ := List.mem_map.mp h
    exact absurd heq RuleBook.reduction_ne_shift
  · obtain ⟨s, hs, heq⟩ := Option.map_eq_some_iff.mp (Option.mem_toList.mp h)
    cases heq
    exact hs

theorem goto_not_mem_candidates {b : RuleBook} {target : StateId} :
    .goto target ∉ graph.candidates b state token := by
  intro h
  obtain h | h := List.mem_append.mp h
  · obtain ⟨p, -, heq⟩ := List.mem_map.mp h
    unfold RuleBook.reduction at heq
    split at heq <;> cases heq
  · obtain ⟨s, -, heq⟩ := Option.map_eq_some_iff.mp (Option.mem_toList.mp h)
    cases heq

end StateGraph

namespace TableImage

variable {g : FlatGrammar} {p : ParserTable} {t : Table} {names : Names}

/-- The actions that are read are chosen for the states of the grammar. -/
theorem enacts_of_agrees (hg : g.Sound) (hp : ParserTable.ofGrammar g = .ok p)
    (h : t.Agrees g p names) :
    ∃ graph, StateGraph.ofRules (.ofGrammar g) = .ok graph ∧ t.Enacts g graph := by
  obtain ⟨graph, hgraph, hsize, hstates⟩ := ParserTable.actions_of_ofGrammar hp
  have hs := StateGraph.sound_ofRules hg hgraph
  have hspeaks := speaks_of_agrees hg h
  rw [← h.states] at hsize hstates
  -- a state that has an action is one of the graph's
  have hstate : ∀ s a action, (t.actions s).lookup a = some action → ∃ kernel,
      graph.kernels[s]? = some kernel ∧
        Chosen g kernel (graph.transitions.getD s []) (t.actions s) ∧
        (ofGrammar g).chooseActions ((ofGrammar g).closure
          (graph.kernel (graph.lookaheads (ofGrammar g)) s)) (graph.transitions.getD s []) =
            .ok (t.actions s) := by
    intro s a action hl
    unfold Table.actions at hl ⊢
    split at hl
    · rename_i state hfound
      have hk := Array.getElem?_eq_getElem (hsize ▸ (Array.getElem?_eq_some_iff.mp hfound).1)
      exact ⟨_, hk, ParserTable.chosen_of_state hg hs hk (hstates s state hfound),
        hstates s state hfound⟩
    · cases hl
  -- what a terminal has is asked for
  have hasked : ∀ s a action, (t.actions s).lookup a = some action → g.isTerminal a = true →
      action ∈ graph.candidates (ofGrammar g) s a := by
    intro s a action hl ht
    obtain ⟨kernel, -, hchosen, hactions⟩ := hstate s a action hl
    have hbound := hchosen.bound a action (StateGraph.mem_of_lookup hl)
    exact (RuleBook.asked_of_chooseActions hactions hbound ht).2 action hl
  have hterminal : ∀ s a action, t.action? s a = some action → g.isTerminal a = true := by
    intro s a action ha
    have hl := lookup_of_action? ha
    obtain ⟨kernel, -, hchosen, -⟩ := hstate s a action hl
    refine (hchosen.terminal a action (StateGraph.mem_of_lookup hl)).mpr fun target heq => ?_
    rw [Table.action?, hl, heq] at ha
    cases ha
  have hcandidate : ∀ s a action, t.action? s a = some action →
      action ∈ graph.candidates (ofGrammar g) s a := fun s a action ha =>
    hasked s a action (lookup_of_action? ha) (hterminal s a action ha)
  refine ⟨graph, hgraph, hsize, fun s hlt a => ⟨fun hsome => ?_, fun ⟨ht, hexpects⟩ => ?_⟩,
    hcandidate, fun s target ha => ?_, fun s => ?_, fun s a ha => ?_, fun s a target ha => ?_⟩
  · obtain ⟨action, ha⟩ := Option.isSome_iff_exists.mp hsome
    refine ⟨(hspeaks.terminal a).trans (hterminal s a action ha), ?_⟩
    exact (StateGraph.candidates_ne_nil_iff hg hgraph (hsize ▸ hlt)).mp
      (List.ne_nil_of_mem (hcandidate s a action ha))
  · rw [hspeaks.terminal] at ht
    have hbound : a < g.symbols.size := by
      obtain ⟨info, hinfo, -⟩ := (Option.any_eq_true ..).mp ht
      exact (Array.getElem?_eq_some_iff.mp hinfo).1
    have hfound := Array.getElem?_eq_getElem hlt
    have hactions := hstates s _ hfound
    have hne := (StateGraph.candidates_ne_nil_iff hg hgraph (hsize ▸ hlt)).mpr hexpects
    have hlookup := mt (RuleBook.asked_of_chooseActions hactions hbound ht).1.mp hne
    obtain ⟨action, hl⟩ := Option.ne_none_iff_exists'.mp hlookup
    replace hl : (t.actions s).lookup a = some action := by rwa [Table.actions, hfound]
    have hmem := hasked s a action hl ht
    unfold Table.action?
    rw [hl]
    split
    · rename_i heq
      cases heq
      exact absurd hmem StateGraph.goto_not_mem_candidates
    · rfl
  · obtain ⟨kernel, hk, -⟩ := hstate s _ _ (lookup_of_action? ha)
    have := StateGraph.target?_of_shift_mem_candidates (hcandidate s _ _ ha)
    rw [hs.target?_finish hg hk] at this
    cases this
  · refine Option.eq_none_iff_forall_ne_some.mpr fun action hl => ?_
    obtain ⟨info, hinfo, ht, -⟩ := hg.builtIn Symbol.error (by decide)
    obtain ⟨kernel, hk, -⟩ := hstate s _ _ hl
    have hmem := hasked s _ action hl (by rw [FlatGrammar.isTerminal, hinfo]; exact ht)
    exact ((StateGraph.candidates_ne_nil_iff hg hgraph (Array.getElem?_eq_some_iff.mp hk).1).mp
      (List.ne_nil_of_mem hmem)).ne_error hg rfl
  · have hl := lookup_of_action? ha
    obtain ⟨kernel, hk, hchosen, -⟩ := hstate s a _ hl
    obtain ⟨rfl, i, hi, hproduction, hnext⟩ := hchosen.accept a (StateGraph.mem_of_lookup hl)
    have htarget := StateGraph.eq_target_of_accepting hg hgraph hk hi hproduction hnext
    refine ⟨rfl, ?_⟩
    -- the first state goes somewhere with the start symbol, and that is here
    have hzero : 0 < t.states.size := hsize ▸ (Array.getElem?_eq_some_iff.mp hs.zero).1
    have hfound := Array.getElem?_eq_getElem hzero
    have hfirst := ParserTable.chosen_of_state hg hs hs.zero (hstates 0 _ hfound)
    obtain ⟨found, hgoto⟩ := hfirst.gotos g.start s ((htarget s).mpr rfl) hg.start.2.1 hg.start.2.2
    obtain rfl := (htarget found).mp (hfirst.goto _ _ hgoto)
    rw [goto?_eq_some_iff, h.start, Table.actions, hfound]
    exact StateGraph.lookup_of_mem hfirst.distinct hgoto
  · obtain ⟨kernel, hk, hmem⟩ : ∃ kernel, graph.kernels[s]? = some kernel ∧
        (a, target) ∈ graph.transitions.getD s [] := by
      obtain ha | ha := ha
      · obtain ⟨kernel, hk, hchosen, -⟩ := hstate s a _ (lookup_of_action? ha)
        exact ⟨kernel, hk, hchosen.shift a target
          (StateGraph.mem_of_lookup (lookup_of_action? ha))⟩
      · obtain ⟨kernel, hk, hchosen, -⟩ := hstate s a _ (goto?_eq_some_iff.mp ha)
        exact ⟨kernel, hk, hchosen.goto a target
          (StateGraph.mem_of_lookup (goto?_eq_some_iff.mp ha))⟩
    exact ((hs.leads s kernel hk).target a target hmem).1

/-- A token has no goto, so it has an action where it has an entry. -/
theorem isSome_action?_iff {s : StateId} {a : Symbol} {kernel : List Item} {moves : List (Nat × Nat)}
    (h : Chosen g kernel moves (t.actions s)) (ht : g.isTerminal a = true) :
    (t.action? s a).isSome = true ↔ a ∈ (t.actions s).map (·.1) := by
  unfold Table.action?
  constructor
  · intro hsome
    cases hl : (t.actions s).lookup a with
    | none =>
      rw [hl] at hsome
      cases hsome
    | some action => exact List.mem_map.mpr ⟨_, StateGraph.mem_of_lookup hl, rfl⟩
  -- the only actions that are not found are gotos, and a terminal has none
  · intro hmem
    obtain ⟨⟨a, action⟩, hentry, rfl⟩ := List.mem_map.mp hmem
    rw [StateGraph.lookup_of_mem h.distinct hentry]
    split
    · rename_i heq
      cases heq
      exact absurd rfl ((h.terminal _ _ hentry).mp ht _)
    · rfl

/-- The lex modes that are read are those of the states. -/
theorem seeks_of_agrees (hg : g.Sound) (hr : g.Regular) (hp : ParserTable.ofGrammar g = .ok p)
    (h : t.Agrees g p names) (hascending : ∀ mode, (t.modeSymbols mode).Pairwise (· < ·)) :
    t.Seeks g := by
  obtain ⟨hdup, hall, hmodes⟩ := ParserTable.lists_of_ofGrammar hp
  obtain ⟨graph, -, -, hstates⟩ := ParserTable.states_of_ofGrammar hg hp
  have hspeaks := speaks_of_agrees hg h
  rw [← h.lexModes] at hdup hall hmodes
  rw [← h.states] at hmodes hstates
  -- a state's mode was made of the tokens that the state wants
  have hmode : ∀ s < t.states.size, ∃ tokens, t.lexModes[t.lexMode s]? = some tokens ∧
      t.modeSymbols (t.lexMode s) = tokens ∧ ∀ a, a ∈ tokens ↔ t.Wants g s a := by
    intro s hlt
    have hfound := Array.getElem?_eq_getElem hlt
    have hmodeOf : t.lexMode s = t.states[s].lexMode := by rw [Table.lexMode, hfound]
    have hlist := hmodeOf ▸ hmodes s _ hfound
    refine ⟨_, hlist, by rw [Table.modeSymbols, hlist, Option.getD_some], fun a => ?_⟩
    rw [ParserTable.mem_stateTokens, Table.Wants, hspeaks.extra, hr.mem_extras, FlatGrammar.isExtra]
    refine or_congr_left (and_congr_right fun ha => ?_)
    obtain ⟨kernel, -, hchosen⟩ := hstates s _ hfound
    have hactions : t.states[s].actions = t.actions s := by rw [Table.actions, hfound]
    rw [hactions] at hchosen ⊢
    exact (isSome_action?_iff hchosen (FlatGrammar.isTerminal_of_mem_lexicalTerminals ha).2).symm
  refine ⟨fun a => ?_, by rw [Table.modeSymbols, hall, Option.getD_some], hascending,
    fun s hlt a => ?_, fun s hlt s' hlt' => ⟨fun heq a => ?_, fun hsame => ?_⟩⟩
  · rw [hr.mem_lexicalTerminals, hspeaks.terminal, and_comm]
    refine and_congr_right fun _ => ?_
    show 2 ≤ a ↔ a ≠ 0 ∧ a ≠ 1
    omega
  · obtain ⟨tokens, -, hlist, hmem⟩ := hmode s hlt
    rw [hlist]
    exact hmem a
  · obtain ⟨tokens, hlist, -, hmem⟩ := hmode s hlt
    obtain ⟨tokens', hlist', -, hmem'⟩ := hmode s' hlt'
    rw [heq] at hlist
    cases hlist.symm.trans hlist'
    exact (hmem a).symm.trans (hmem' a)
  · obtain ⟨tokens, hlist, htokens, hmem⟩ := hmode s hlt
    obtain ⟨tokens', hlist', htokens', hmem'⟩ := hmode s' hlt'
    -- ascending lists with the same members are equal, and no list has two places
    have heq : tokens = tokens' := List.Perm.eq_of_pairwise
      (fun a b _ _ hab hba => absurd hab (Nat.lt_asymm hba))
      (htokens ▸ hascending _) (htokens' ▸ hascending _)
      ((List.perm_ext_iff_of_nodup
        ((htokens ▸ hascending _).imp Nat.ne_of_lt) ((htokens' ▸ hascending _).imp Nat.ne_of_lt)).mpr
        fun a => (hmem a).trans ((hsame a).trans (hmem' a).symm))
    subst heq
    exact eq_of_getElem?_of_nodup hdup hlist hlist'

end TableImage

/-- The structure of every table: its states act as the items of their kernels ask, its lex modes list
what is looked for in them, and only the start rule has an empty production. -/
theorem Grammar.table_structure {g : Grammar} {t : Table} (h : g.table = .ok t) :
    ∃ flat graph, g.flatten = .ok flat ∧ StateGraph.ofRules (.ofGrammar flat) = .ok graph ∧
      t.Enacts flat graph ∧ t.Seeks flat ∧
      ∀ p r, t.production? p = some r → r.size = 0 → r.lhs = t.start := by
  obtain ⟨flat, p, names, hflat, hg, hp, -, hagrees⟩ := agrees_table h
  have hr := regular_flatten hflat
  obtain ⟨graph, hgraph, henacts⟩ := TableImage.enacts_of_agrees hg hp hagrees
  refine ⟨flat, graph, hflat, hgraph, henacts, TableImage.seeks_of_agrees hg hr hp hagrees
    (modes_ascending h), fun n r hproduction hsize => ?_⟩
  have hspeaks := TableImage.speaks_of_agrees hg hagrees
  -- a production of the table is one of the grammar, with as many symbols
  obtain ⟨q, hq, hlhs, hlength⟩ := hspeaks.production n r hproduction
  rw [hlhs, hspeaks.start]
  have hempty : q.rhs = [] := List.eq_nil_of_length_eq_zero (hlength.symm.trans hsize)
  exact hr.filled q (Array.mem_of_getElem? hq) (List.map_eq_nil_iff.mp hempty)

/-! ## A rule of two fields -/

namespace Sums

/-- Nothing, or an `a` and a `b` in one field and a row of `b` in another, with notes anywhere.  Rows
group to the left. -/
def grammar : Grammar where
  name := "sums"
  rules := [("s", .choice [.blank, .seq [.field "f" (.symbol "_h"), .field "g" (.symbol "t")]]),
    ("_h", .seq [.string "a", .string "b"]),
    ("t", .choice [.string "b", .prec .left (.integer 1) (.seq [.symbol "t", .symbol "t"])]),
    ("note", .string "c")]
  extras := [.symbol "note"]
  precedences := []
  conflicts := []
  externals := []
  inlined := []
  supertypes := []
  word := none
  reserved := []

/-- The start rule, the note, the two other rules and the letters. -/
def flat : FlatGrammar where
  name := "sums"
  symbols := #[⟨"end", none, true, false, false, false⟩, ⟨"ERROR", none, true, true, true, false⟩,
    ⟨"s", none, false, true, true, false⟩, ⟨"note", some ⟨"c", true, false, 0⟩, true, true, true, true⟩,
    ⟨"_h", none, false, true, false, false⟩, ⟨"t", none, false, true, true, false⟩,
    .letter "a", .letter "b"]
  productions := #[⟨2, [], none⟩, ⟨2, [(4, some 1), (5, some 2)], none⟩,
    ⟨4, [(6, none), (7, none)], none⟩, ⟨5, [(7, none)], none⟩,
    ⟨5, [(5, none), (5, none)], some ⟨1, .left⟩⟩]
  fields := #["f", "g"]
  start := 2

def parser : ParserTable where
  states := #[⟨[(0, .reduce 0), (2, .goto 1), (4, .goto 2), (6, .shift 3)], 1⟩, ⟨[(0, .accept)], 2⟩,
    ⟨[(5, .goto 4), (7, .shift 5)], 3⟩, ⟨[(7, .shift 6)], 3⟩,
    ⟨[(0, .reduce 1), (5, .goto 7), (7, .shift 5)], 3⟩, ⟨[(0, .reduce 3), (7, .reduce 3)], 3⟩,
    ⟨[(7, .reduce 2)], 3⟩, ⟨[(0, .reduce 4), (5, .goto 7), (7, .reduce 4)], 3⟩]
  lexModes := #[[3, 6, 7], [3, 6], [3], [3, 7]]

def names : Names :=
  ⟨#["sums", "end", "ERROR", "s", "note", "c", "_h", "t", "a", "b", "f", "g"],
    #[⟨5, (Automaton.ofByte 99).encode⟩, ⟨8, (Automaton.ofByte 97).encode⟩,
      ⟨9, (Automaton.ofByte 98).encode⟩]⟩

/-- The entries of the symbols. -/
def entries : List (List UInt8) :=
  [[1, 0, 1, 0, 0, 0, 0, 0], [2, 0, 7, 0, 0, 0, 0, 0], [3, 0, 6, 0, 0, 0, 0, 0],
    [4, 0, 31, 0, 1, 0, 0, 0], [6, 0, 2, 0, 0, 0, 0, 0], [7, 0, 6, 0, 0, 0, 0, 0],
    [8, 0, 21, 0, 2, 0, 0, 0], [9, 0, 21, 0, 3, 0, 0, 0]]

def table : Table where
  version := 1
  name := "sums"
  start := 2
  symbols := #[.plain "end" true false false false none, .plain "ERROR" true true true false none,
    .plain "s" false true true false none, ⟨"note", true, true, true, true, true, false, some 1, 0⟩,
    .plain "_h" false true false false none, .plain "t" false true true false none,
    .plain "a" true false true true (some 2), .plain "b" true false true true (some 3)]
  fields := #["f", "g"]
  productions := #[⟨2, []⟩, ⟨2, [some 1, some 2]⟩, ⟨4, [none, none]⟩, ⟨5, [none]⟩, ⟨5, [none, none]⟩]
  states := parser.states
  lexModes := parser.lexModes
  lexemes := #[none, some ⟨"c", .ofByte 99⟩, some ⟨"a", .ofByte 97⟩, some ⟨"b", .ofByte 98⟩]

theorem flatten_grammar : grammar.flatten = .ok flat := by
  cbv

theorem ofGrammar_flat : ParserTable.ofGrammar flat = .ok parser := by
  cbv

theorem nameAll_flat :
    (TableImage.nameAll .plain flat).run ⟨#[], #[]⟩ = .ok ((0, entries, [10, 11]), names) := by
  cbv

theorem ofParts_flat : Table.ofParts flat parser names = table := by
  cbv

theorem table_grammar : grammar.table = .ok table := by
  rw [← ofParts_flat]
  exact Grammar.table_of_names flatten_grammar ofGrammar_flat nameAll_flat (by decide +kernel)
    (by decide +kernel) (by decide) (by decide) (by decide) (by decide) (by decide +kernel)

/-- Behind two parts of a row a `b` may finish the row or begin a third.  Rows group to the left, so the
table finishes it. -/
theorem candidates_flat : (StateGraph.ofRules (.ofGrammar flat)).toOption.map
    (fun graph => graph.candidates (.ofGrammar flat) 7 7) = some [.reduce 4, .shift 5] := by
  cbv

/-- The table of a grammar with an empty start rule, notes, and a choice between two actions. -/
theorem structure_table : table.action? 7 7 = some (.reduce 4) ∧
    table.production? 0 = some ⟨table.start, []⟩ ∧
    ∃ flat graph, grammar.flatten = .ok flat ∧ StateGraph.ofRules (.ofGrammar flat) = .ok graph ∧
      graph.candidates (.ofGrammar flat) 7 7 = [.reduce 4, .shift 5] ∧
      table.Enacts flat graph ∧ table.Seeks flat ∧
      ∀ p r, table.production? p = some r → r.size = 0 → r.lhs = table.start := by
  obtain ⟨found, graph, hflat, hgraph, henacts, hseeks, hempty⟩ := Grammar.table_structure table_grammar
  cases flatten_grammar.symm.trans hflat
  have hcandidates := candidates_flat
  rw [hgraph] at hcandidates
  exact ⟨by decide, by decide, flat, graph, hflat, hgraph, Option.some.inj hcandidates, henacts, hseeks,
    hempty⟩

end Sums

end IncrementalParsing
