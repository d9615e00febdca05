import IncrementalParsing.Proofs.Lalr.Growth

/-!
# The states of a grammar are those of an LALR(1) parser

Whatever the order in which states are made and kernels are closed, the end is the same: one state for the
items of all canonical states that have the same items, where symbols lead without regard to lookaheads,
and the lookaheads that any of the canonical states gives.

The canonical states are those in which the productions of a rule that comes next stand even where no
terminal can follow them.  Canonical parsers leave such productions out; that makes a difference only for
rules all of whose productions lead back to such rules, as those of `Unending`.

## Key results

- `buildsLalr_of_flatten`: states made in any order are those of an LALR(1) parser
- `Unending.not_isLalr_exactly`: a state that canonical parsers do not have
-/

namespace IncrementalParsing

open RuleBook (ofGrammar unclosed)
open StateGraph (ofRules)

/-! ## All orders -/

/-- A kernel is closed in the same way in any order: every order ends, and the items in order are the
closure. -/
structure ClosesInAnyOrder (b : RuleBook) (kernel : List (Item × SymbolSet)) : Prop where
  bounded : ∃ most, ∀ n w, Worklist.Reaches b.closing (unclosed kernel) n w → n ≤ most
  ended : ∀ n w, Worklist.Reaches b.closing (unclosed kernel) n w → w.pending = [] →
    (w.found.mergeSort fun x y => x.1.le y.1) = b.closure kernel

/-- The states of a grammar are those of an LALR(1) parser, and so are the states at the end of any order
of making them.  No order fails, and every one ends. -/
structure BuildsLalr {L : Type} (F : Following L) (g : FlatGrammar) (graph : StateGraph) : Prop where
  states : IsLalr F g (graph.states (ofGrammar g)) graph.Leading
  proceeds : ∀ n a, Growth.Reaches (ofGrammar g) n a → ∀ kernel ∈ a.worklist.pending,
    ∃ a', a.visit (ofGrammar g) kernel = .ok a'
  bounded : ∃ most, ∀ n a, Growth.Reaches (ofGrammar g) n a → n ≤ most
  ended : ∀ n a, Growth.Reaches (ofGrammar g) n a → a.worklist.pending = [] →
    IsLalr F g a.states a.Leading
  closes : ∀ n a, Growth.Reaches (ofGrammar g) n a → ∀ kernel ∈ a.states,
    ClosesInAnyOrder (ofGrammar g) kernel

section

variable {g : FlatGrammar} {graph : StateGraph}

/-- Where every symbol can be empty or begins with some terminal, the states are those of canonical
parsers, merged. -/
theorem BuildsLalr.exactly (h : BuildsLalr g.possibly g graph) (hopening : Following.Opening g) :
    BuildsLalr g.exactly g graph where
  states := h.states.exactly hopening
  proceeds := h.proceeds
  bounded := h.bounded
  ended := fun n a ha hend => (h.ended n a ha hend).exactly hopening
  closes := h.closes

/-- The states of a grammar are those of an LALR(1) parser, whatever the order in which they are made and
closed; with lookaheads told as canonical parsers do if every symbol can be empty or begins with some
terminal. -/
theorem buildsLalr_of_flatten {grammar : Grammar} (hflat : grammar.flatten = .ok g)
    (hgraph : ofRules (ofGrammar g) = .ok graph) :
    BuildsLalr g.possibly g graph ∧ (Following.Opening g → BuildsLalr g.exactly g graph) := by
  have hg := Grammar.sound_flatten hflat
  have hs := StateGraph.sound_ofRules hg hgraph
  suffices h : BuildsLalr g.possibly g graph from ⟨h, h.exactly⟩
  constructor
  case states => exact (StateGraph.merged_states hg hgraph).isLalr
  case proceeds =>
    intro n a ha kernel _
    exact (ha.follows hg hs).exists_visit hg hs kernel
  case bounded => exact ⟨_, fun n a ha => Growth.growth_ends hg hgraph ha⟩
  case ended =>
    intro n a ha hend
    exact (Growth.merged_growth hg hgraph ha hend).isLalr
  -- closing a kernel ends, and what it finds, sorted, is the closure
  case closes =>
    intro n a ha kernel hk
    obtain ⟨items, sets, hgrown, rfl, state, hstate⟩ := ha.grown_of_mem_states hg hgraph hk
    have hnodup := hs.nodup state _ hstate
    exact ⟨⟨_, fun n w hw => RuleBook.closing_ends hnodup hgrown.below_zip hg hw⟩,
      fun n w hw hend => RuleBook.sorted_found hnodup hgrown.below_zip hg hw (hs.first state _ hstate) hend⟩

/-- Every symbol can be empty or begins with some terminal, if that has been found of each. -/
theorem opening_of_firsts (hg : g.Sound) (h : ∀ s < g.symbols.size,
    (FirstSets.ofRow g (.ofGrammar g) [s]).2 = true ∨
      ∃ a, (FirstSets.ofRow g (.ofGrammar g) [s]).1.mem a = true) : Following.Opening g := by
  intro p s hs
  obtain hempty | ⟨a, ha⟩ := h s (hg.row hs).2
  · exact .inl ((FirstSets.ofRow_nullable_iff hg [s]).mp hempty)
  · exact .inr ⟨a, (FirstSets.mem_ofRow_iff hg [s] a).mp ha⟩

end

/-! ## Canonical states that are merged -/

namespace Twice

/-- A rule twice, so that what follows it is not the same in both places. -/
def grammar : Grammar where
  name := "twice"
  rules := [("s", .seq [.symbol "c", .symbol "c"]),
    ("c", .choice [.seq [.string "x", .symbol "c"], .string "y"])]
  extras := []
  precedences := []
  conflicts := []
  externals := []
  inlined := []
  supertypes := []
  word := none
  reserved := []

def flat : FlatGrammar where
  name := "twice"
  symbols := #[⟨"end", none, true, false, false, false⟩, ⟨"ERROR", none, true, true, true, false⟩,
    ⟨"s", none, false, true, true, false⟩, ⟨"c", none, false, true, true, false⟩,
    ⟨"x", some ⟨"x", true, false, 0⟩, true, false, true, false⟩,
    ⟨"y", some ⟨"y", true, false, 0⟩, true, false, true, false⟩]
  productions := #[⟨2, [(3, none), (3, none)], none⟩, ⟨3, [(4, none), (3, none)], none⟩,
    ⟨3, [(5, none)], none⟩]
  fields := #[]
  start := 2

/-- Seven states, of which canonical parsers have ten. -/
def graph : StateGraph where
  kernels := #[[⟨3, 0⟩], [⟨3, 1⟩], [⟨0, 1⟩], [⟨1, 1⟩], [⟨2, 1⟩], [⟨0, 2⟩], [⟨1, 2⟩]]
  transitions := #[[(2, 1), (3, 2), (4, 3), (5, 4)], [], [(3, 5), (4, 3), (5, 4)],
    [(3, 6), (4, 3), (5, 4)], [], [], []]

theorem flatten_grammar : grammar.flatten = .ok flat := by
  decide +kernel

theorem ofRules_flat : ofRules (ofGrammar flat) = .ok graph := by
  cbv

theorem opening_flat : Following.Opening flat := by
  apply opening_of_firsts (Grammar.sound_flatten flatten_grammar)
  have hall : ((List.range flat.symbols.size).all fun s =>
      ((FirstSets.ofRow flat (.ofGrammar flat) [s]).1.toList flat.symbols.size).length ≠ 0) = true := by
    cbv
  intro s hs
  have hs := List.all_eq_true.mp hall s (List.mem_range.mpr hs)
  obtain ⟨a, ha⟩ := List.exists_mem_of_length_pos (Nat.pos_of_ne_zero (of_decide_eq_true hs))
  exact .inr ⟨a, (List.mem_filter.mp ha).2⟩

/-- The second rule is followed by its own beginning or by the end. -/
theorem buildsLalr_flat : grammar.flatten = .ok flat ∧ ofRules (ofGrammar flat) = .ok graph ∧
    BuildsLalr flat.exactly flat graph ∧
    (graph.lookaheads (ofGrammar flat))[4]? = some [SymbolSet.ofList [0, 4, 5]] := by
  refine ⟨flatten_grammar, ofRules_flat, ?_, ?_⟩
  · exact (buildsLalr_of_flatten flatten_grammar ofRules_flat).2 opening_flat
  · cbv

end Twice

/-! ## Rules without an end -/

namespace Unending

/-- The last rule begins with itself in all of its productions, so nothing begins with a terminal behind
the rule before it. -/
def grammar : Grammar where
  name := "g"
  rules := [("s", .choice [.string "x", .seq [.symbol "b", .symbol "c"]]),
    ("b", .seq [.string "z", .string "x"]), ("c", .seq [.symbol "c", .string "y"])]
  extras := []
  precedences := []
  conflicts := []
  externals := []
  inlined := []
  supertypes := []
  word := none
  reserved := []

def flat : FlatGrammar where
  name := "g"
  symbols := #[⟨"end", none, true, false, false, false⟩, ⟨"ERROR", none, true, true, true, false⟩,
    ⟨"s", none, false, true, true, false⟩,
    ⟨"x", some ⟨"x", true, false, 0⟩, true, false, true, false⟩,
    ⟨"b", none, false, true, true, false⟩, ⟨"c", none, false, true, true, false⟩,
    ⟨"z", some ⟨"z", true, false, 0⟩, true, false, true, false⟩,
    ⟨"y", some ⟨"y", true, false, 0⟩, true, false, true, false⟩]
  productions := #[⟨2, [(3, none)], none⟩, ⟨2, [(4, none), (5, none)], none⟩,
    ⟨4, [(6, none), (3, none)], none⟩, ⟨5, [(5, none), (7, none)], none⟩]
  fields := #[]
  start := 2

def graph : StateGraph where
  kernels := #[[⟨4, 0⟩], [⟨4, 1⟩], [⟨0, 1⟩], [⟨1, 1⟩], [⟨2, 1⟩], [⟨1, 2⟩, ⟨3, 1⟩], [⟨2, 2⟩], [⟨3, 2⟩]]
  transitions := #[[(2, 1), (3, 2), (4, 3), (6, 4)], [], [], [(5, 5)], [(3, 6)], [(7, 7)], [], []]

theorem flatten_grammar : grammar.flatten = .ok flat := by
  decide +kernel

theorem ofRules_flat : ofRules (ofGrammar flat) = .ok graph := by
  cbv

/-- Nothing follows the second rule: the third one neither begins with a terminal nor can be empty. -/
theorem not_passes (a c : Nat) : ¬ flat.exactly.passes [5] a c := by
  have hg := Grammar.sound_flatten flatten_grammar
  have hrow : FirstSets.ofRow flat (.ofGrammar flat) [5] = (.empty, false) := by
    cbv
  rintro (hbegins | ⟨hempty, -⟩)
  · have hmem := (FirstSets.mem_ofRow_iff hg [5] c).mpr hbegins
    rw [hrow, SymbolSet.mem_empty] at hmem
    cases hmem
  · have hnullable := (FirstSets.ofRow_nullable_iff hg [5]).mpr hempty
    rw [hrow] at hnullable
    cases hnullable

/-- The second rule stands only in front of the third. -/
theorem drop_of_next {p dot : Nat} (h : (flat.row p)[dot]? = some 4) :
    (flat.row p).drop (dot + 1) = [5] := by
  -- five rows are left, the added one included, and each is shorter than three
  have hrows : ∀ p < 5, ∀ dot < 3, (flat.row p)[dot]? = some 4 → (flat.row p).drop (dot + 1) = [5] := by
    decide
  obtain ⟨hdot, -⟩ := List.getElem?_eq_some_iff.mp h
  have hlength : ∀ p < 5, (flat.row p).length < 3 := by
    decide
  by_cases hp : p < 5
  · exact hrows p hp dot (Nat.lt_trans hdot (hlength p hp)) h
  · have hsize : flat.productions.size = 4 := rfl
    have hnil : flat.row p = [] := by
      have hnone : flat.productions[p]? = none := Array.getElem?_eq_none (by omega)
      unfold FlatGrammar.row
      rw [hnone]
      exact if_neg (by omega)
    rw [hnil] at h
    cases h

/-- The production of the second rule stands in no canonical state. -/
theorem production_ne (row : List Nat) : ∀ x ∈ flat.exactly.kernelAt flat row, x.1.production ≠ 2 := by
  -- a closure opens no item of the production unless one of its kernel has, as nothing passes
  have hclosure : ∀ s : Set (Item × Nat), (∀ x ∈ s, x.1.production ≠ 2) →
      ∀ i a, flat.exactly.Closure flat s i a → i.production ≠ 2 := by
    intro s hs i a h
    induction h with
    | kernel h => exact hs _ h
    | @production i a c p q _ hnext hq hpasses _ =>
      rintro rfl
      cases hq
      rw [drop_of_next hnext] at hpasses
      exact not_passes a c hpasses
  -- on the prefix that is read
  induction row using List.reverseRecOn with
  | nil =>
    rintro x ⟨hx, -⟩
    rw [hx]
    decide
  | append_singleton row symbol ih =>
    rw [Following.kernelAt_concat]
    rintro ⟨j, a⟩ ⟨i, hi, -, rfl⟩
    exact hclosure _ ih i a hi

/-- Canonical parsers have no state inside the second rule, but the states of the grammar have one. -/
theorem not_isLalr_exactly : grammar.flatten = .ok flat ∧ ofRules (ofGrammar flat) = .ok graph ∧
    ¬ IsLalr flat.exactly flat (graph.states (ofGrammar flat)) graph.Leading := by
  refine ⟨flatten_grammar, ofRules_flat, fun h => ?_⟩
  have hg := Grammar.sound_flatten flatten_grammar
  have hs := StateGraph.sound_ofRules hg ofRules_flat
  -- the state that is reached through the symbol without a sentence
  have hmap : (graph.kernel (graph.lookaheads (ofGrammar flat)) 4).map (·.1) = [⟨2, 1⟩] :=
    (StateGraph.fits_lookaheads hg hs).map_kernel 4
  obtain ⟨row, -, hcore⟩ := h.reached _ (Array.mem_of_getElem?
    (StateGraph.getElem?_states.mpr ⟨(by decide : 4 < graph.kernels.size), rfl⟩))
  have hmem : (⟨2, 1⟩ : Item) ∈ core (flat.exactly.kernelAt flat row) := by
    rw [hcore, hmap]
    exact List.mem_singleton_self _
  obtain ⟨a, ha⟩ := hmem
  exact production_ne row _ ha rfl

end Unending

end IncrementalParsing
