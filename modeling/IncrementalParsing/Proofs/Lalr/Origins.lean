import IncrementalParsing.Proofs.Lalr.Choices
import IncrementalParsing.Proofs.Lalr.Merged

/-!
# Where the lookaheads of a grammar come from

`StateGraph.lookaheads` hands lookaheads on from state to state.  What a state has at any time, it has
from canonical states: the start has what it begins with, and what is handed on comes from where the
lookaheads of the state before do.  As everything is handed on in the end, the states of a grammar are
merged.

## Key results

- `traced_spread`: going over a state hands on what comes from canonical states
- `traced_lookaheads`: all lookaheads come from canonical states
- `merged_states`: the states of a grammar are merged
-/

namespace IncrementalParsing

namespace StateGraph

open RuleBook (ofGrammar)

variable {g : FlatGrammar} {graph : StateGraph} {l : Lookaheads}

/-- All states with their lookaheads. -/
def states (b : RuleBook) (graph : StateGraph) : Array (List (Item × SymbolSet)) :=
  (Array.range graph.kernels.size).map (graph.kernel (graph.lookaheads b))

/-- A symbol leads from a state to another. -/
def Leading (graph : StateGraph) (state symbol target : Nat) : Prop :=
  (symbol, target) ∈ graph.transitions.getD state []

theorem getElem?_states {b : RuleBook} {state : Nat} {kernel : List (Item × SymbolSet)} :
    (graph.states b)[state]? = some kernel ↔
      state < graph.kernels.size ∧ kernel = graph.kernel (graph.lookaheads b) state := by
  rw [states, Array.getElem?_map, Option.map_eq_some_iff]
  constructor
  · rintro ⟨other, hother, rfl⟩
    obtain ⟨hlt, rfl⟩ := Array.getElem?_eq_some_iff.mp hother
    rw [Array.size_range] at hlt
    rw [Array.getElem_range]
    exact ⟨hlt, rfl⟩
  · rintro ⟨hlt, rfl⟩
    exact ⟨state, by simp [hlt], rfl⟩

/-! ## Lookaheads in the making -/

/-- All states say what is said in canonical states with the same items. -/
def AllTraced (g : FlatGrammar) (graph : StateGraph) (l : Lookaheads) : Prop :=
  ∀ state, Traced g (said (graph.kernel l state))

theorem merge_zip (items : List Item) (sets : List SymbolSet) (added : List (Item × SymbolSet)) :
    merge (items.zip sets) added = items.zip (List.zipWith SymbolSet.union sets (added.map (·.2))) := by
  induction items generalizing sets added with
  | nil => rfl
  | cons i items ih =>
    cases sets with
    | nil => rfl
    | cons set sets =>
      cases added with
      | nil => rfl
      | cons x added => exact congrArg ((i, set.union x.2) :: ·) (ih sets added)

/-- The kernel that lookaheads are handed on to is merged with them, and the others stay. -/
theorem kernel_handOn (graph : StateGraph) (l : Lookaheads) (state symbol other : Nat)
    (items : List (Item × SymbolSet)) :
    graph.kernel (handOn graph state l (symbol, items)) other = graph.kernel l other ∨
      graph.target? state symbol = some other ∧
        graph.kernel (handOn graph state l (symbol, items)) other =
          merge (graph.kernel l other) items := by
  unfold handOn
  split
  · rename_i target htarget
    simp only [kernel, Array.getD_eq_getD_getElem?, Array.getElem?_modify]
    split
    -- only the kernel of the target changes
    · rename_i heq
      refine .inr ⟨heq ▸ htarget, ?_⟩
      rw [merge_zip]
      cases l[other]? <;> rfl
    · exact .inl rfl
  · exact .inl rfl

theorem traced_handOn {state symbol : Nat} {items : List (Item × SymbolSet)} (hl : Fits g graph l)
    (hmoved : Moved g graph state symbol items) (hitems : Traced g (said items))
    (h : AllTraced g graph l) : AllTraced g graph (handOn graph state l (symbol, items)) := by
  intro other
  obtain hsame | ⟨htarget, hmerged⟩ := kernel_handOn graph l state symbol other items
  · rw [hsame]
    exact h other
  · rw [hmerged]
    apply (h other).merge hitems
    rw [hl.map_kernel, Array.getD_eq_getD_getElem?, (hmoved.leads other htarget).2]
    rfl

/-- Going over a state hands on what comes from canonical states. -/
theorem traced_spread (hg : g.Sound) (hs : graph.Sound g) {state : Nat}
    (hstate : state < graph.kernels.size) (hl : Fits g graph l) (h : AllTraced g graph l) :
    AllTraced g graph (spread (ofGrammar g) graph l state) := by
  rw [spread_eq]
  -- what is handed on is found before any of it is
  suffices hall : ∀ moved ⊆ successors (ofGrammar g) (graph.kernel l state), ∀ l', Fits g graph l' →
      AllTraced g graph l' → AllTraced g graph (moved.foldl (handOn graph state) l') from
    hall _ (List.Subset.refl _) l hl h
  intro moved hmoved
  induction moved with
  | nil => exact fun l' _ h' => h'
  | cons x moved ih =>
    intro l' hl' h'
    obtain ⟨hx, hrest⟩ := List.cons_subset.mp hmoved
    obtain ⟨symbol, items⟩ := x
    have hfits := moved_of_mem_successors hg hs hl (Array.getElem?_eq_getElem hstate) hx
    -- what a kernel leads to is traced if the kernel is
    have hitems : Traced g (said items) := by
      rw [said_of_mem_successors hg (hl.below_kernel state) hx]
      exact (h state).goto (open_said _) symbol
    exact ih hrest _ (improves_handOn hfits l' hl').1 (traced_handOn hl' hfits hitems h')

theorem traced_spreadAll (hg : g.Sound) (hs : graph.Sound g) (fuel : Nat) (hl : Fits g graph l)
    (h : AllTraced g graph l) : AllTraced g graph (spreadAll (ofGrammar g) graph fuel l) := by
  induction fuel generalizing l with
  | zero => exact h
  | succ fuel ih =>
    -- a round goes through the states one by one, all of which keep both properties
    have hround : ∀ states ⊆ List.range graph.kernels.size, ∀ l', Fits g graph l' →
        AllTraced g graph l' → Fits g graph (states.foldl (spread (ofGrammar g) graph) l') ∧
          AllTraced g graph (states.foldl (spread (ofGrammar g) graph) l') := by
      intro states hstates
      induction states with
      | nil => exact fun l' hl' h' => ⟨hl', h'⟩
      | cons state states ihs =>
        intro l' hl' h'
        obtain ⟨hstate, hrest⟩ := List.cons_subset.mp hstates
        have hlt := List.mem_range.mp hstate
        exact ihs hrest _ (improves_spread hg hs hlt l' hl').1 (traced_spread hg hs hlt hl' h')
    obtain ⟨hnext, htraced⟩ := hround _ (List.Subset.refl _) l hl h
    rw [spreadAll]
    split
    · exact h
    · exact ih hnext htraced

/-- Some canonical state has the items of a state. -/
theorem exists_canonical (hg : g.Sound) (h : ofRules (ofGrammar g) = .ok graph) {state : Nat}
    {kernel : List Item} (hk : graph.kernels[state]? = some kernel) :
    ∃ row, core (g.possibly.kernelAt g row) = {i | i ∈ kernel} := by
  refine forall_kernels (P := fun kernel => ∃ row, core (g.possibly.kernelAt g row) = {i | i ∈ kernel})
    hg h ⟨[], ?_⟩ ?_ hk
  · rw [Merged.kernelAt_nil, core_said]
    rfl
  · rintro kernel ⟨row, hrow⟩ ⟨symbol, items⟩ hx
    -- a successor is the collection's goto, and its items do not depend on the sets
    refine ⟨row ++ [symbol], ?_⟩
    have hbare : core (g.possibly.kernelAt g row) = core (said (bare kernel)) := by
      rw [hrow, core_said, map_bare]
    rw [Following.kernelAt_concat,
      core_goto_congr (Following.open_kernelAt g row) (open_said _) hbare symbol,
      ← said_of_mem_successors hg (below_bare kernel) hx, core_said]

/-- What lookaheads start with comes from canonical states: nothing is said of any item but the first. -/
theorem traced_start (hg : g.Sound) (h : ofRules (ofGrammar g) = .ok graph) :
    AllTraced g graph ((graph.kernels.map fun items => items.map fun _ =>
      SymbolSet.empty).setIfInBounds 0 [.singleton 0]) := by
  have hs := sound_ofRules hg h
  obtain ⟨hlt, -⟩ := Array.getElem?_eq_some_iff.mp hs.zero
  intro state
  -- at the start only the first state has a lookahead
  have hkernel : graph.kernel ((graph.kernels.map fun items => items.map fun _ =>
      SymbolSet.empty).setIfInBounds 0 [.singleton 0]) state =
        if 0 = state then [((ofGrammar g).startItem, .singleton 0)]
        else bare (graph.kernels.getD state []) := by
    simp only [kernel, Array.getD_eq_getD_getElem?, Array.getElem?_setIfInBounds, Array.getElem?_map,
      Array.size_map, if_pos hlt]
    split
    · rename_i heq
      rw [← heq, hs.zero]
      rfl
    · cases graph.kernels[state]? with
      -- without a lookahead the items alone have to come from a prefix
      | none => rfl
      | some items => exact List.map_prod_left_eq_zip.symm
  rw [hkernel]
  split
  · intro x hx
    refine ⟨[], ?_⟩
    rw [Merged.kernelAt_nil]
    exact ⟨rfl, hx⟩
  · rintro ⟨i, x⟩ ⟨set, hset, hmem⟩
    obtain ⟨j, hj, heq⟩ := List.mem_map.mp hset
    cases heq
    rw [Array.getD_eq_getD_getElem?] at hj ⊢
    cases hk : graph.kernels[state]? with
    | none => rw [hk] at hj; cases hj
    | some items =>
      rw [hk, Option.getD_some] at hj
      obtain ⟨row, hrow⟩ := exists_canonical hg h hk
      refine ⟨row, ?_, ?_⟩
      · rw [Option.getD_some, core_said, map_bare, hrow]
      · cases x with
        | none =>
          obtain ⟨y, hy⟩ : i ∈ core (g.possibly.kernelAt g row) := hrow ▸ hj
          exact Following.open_kernelAt g row i y hy
        | some a => simpa using hmem a rfl

/-- All lookaheads come from canonical states. -/
theorem traced_lookaheads (hg : g.Sound) (h : ofRules (ofGrammar g) = .ok graph) :
    AllTraced g graph (graph.lookaheads (ofGrammar g)) :=
  traced_spreadAll hg (sound_ofRules hg h) _ (fits_start hg (sound_ofRules hg h)) (traced_start hg h)

/-! ## All states -/

variable (hg : g.Sound) (h : ofRules (ofGrammar g) = .ok graph)
include hg h

/-- A symbol leads to the items after it. -/
theorem core_of_target {state symbol target : Nat} (hstate : state < graph.kernels.size)
    (ht : (symbol, target) ∈ graph.transitions.getD state []) :
    target < graph.kernels.size ∧
      core (said (graph.kernel (graph.lookaheads (ofGrammar g)) target)) =
        core (g.possibly.goto g (said (graph.kernel (graph.lookaheads (ofGrammar g)) state)) symbol) := by
  have hs := sound_ofRules hg h
  have hl := fits_lookaheads hg hs
  have hk := Array.getElem?_eq_getElem hstate
  obtain ⟨i, hi, hnext⟩ := exists_closed_of_target hg h hk ht
  obtain ⟨items, hitems⟩ := exists_mem_successors hg hi hnext
  have htarget := (hs.leads state _ hk).exact symbol target ht items hitems
  -- the transitions were made from kernels without lookaheads, which lead to the same items
  have hbare : core (said (graph.kernel (graph.lookaheads (ofGrammar g)) state)) =
      core (said (bare graph.kernels[state])) := by
    rw [core_said, core_said, map_bare, hl.map_kernel, Array.getD_eq_getD_getElem?, hk]
    rfl
  refine ⟨(Array.getElem?_eq_some_iff.mp htarget).1, ?_⟩
  rw [core_goto_congr (open_said _) (open_said _) hbare symbol,
    ← said_of_mem_successors hg (below_bare _) hitems, core_said, core_said, hl.map_kernel,
    Array.getD_eq_getD_getElem?, htarget]
  rfl

/-- What comes after a symbol is in the state that it leads to. -/
theorem goto_subset_target {state symbol : Nat} (hstate : state < graph.kernels.size)
    (hgoto : (g.possibly.goto g
      (said (graph.kernel (graph.lookaheads (ofGrammar g)) state)) symbol).Nonempty) :
    ∃ target, (symbol, target) ∈ graph.transitions.getD state [] ∧
      g.possibly.goto g (said (graph.kernel (graph.lookaheads (ofGrammar g)) state)) symbol ⊆
        said (graph.kernel (graph.lookaheads (ofGrammar g)) target) := by
  have hs := sound_ofRules hg h
  have hl := fits_lookaheads hg hs
  have hk := Array.getElem?_eq_getElem hstate
  -- the closure that is computed holds all of the closure
  have hclosure : ∀ i x, g.possibly.Closure g
      (said (graph.kernel (graph.lookaheads (ofGrammar g)) state)) i x →
      ∃ set, (i, set) ∈ (ofGrammar g).closure (graph.kernel (graph.lookaheads (ofGrammar g)) state) ∧
        ∀ a, x = some a → set.mem a = true :=
    fun i x hi => (said_closure hg (hl.below_kernel state)).mpr hi
  obtain ⟨⟨j, x⟩, i, hi, hnext, -⟩ := hgoto
  obtain ⟨set, hset, -⟩ := hclosure i x hi
  rw [← RuleBook.next?_ofGrammar] at hnext
  obtain ⟨target, htarget⟩ := Option.isSome_iff_exists.mp
    ((target?_isSome_iff hg h hstate).mpr ⟨i, set, hset, hnext⟩)
  refine ⟨target, mem_of_lookup htarget, ?_⟩
  -- every item that the symbol leads to has handed its lookaheads on
  rintro ⟨j, y⟩ ⟨i', hi', hnext', hj⟩
  obtain ⟨set, hset, hmem⟩ := hclosure i' y hi'
  rw [← RuleBook.next?_ofGrammar] at hnext'
  obtain ⟨set', hset', hwithin⟩ := handed_on hg hs hk hset hnext' htarget
  obtain rfl : j = i'.advance := hj
  exact ⟨set', hset', fun a ha => hwithin a (hmem a ha)⟩

/-- The states of a grammar are merged. -/
theorem merged_states : Merged g (graph.states (ofGrammar g)) graph.Leading := by
  have hs := sound_ofRules hg h
  have hl := fits_lookaheads hg hs
  -- a state is the kernel of the graph with its lookaheads
  have hkernel : ∀ {state : Nat} {kernel : List (Item × SymbolSet)},
      (graph.states (ofGrammar g))[state]? = some kernel →
      ∃ items, graph.kernels[state]? = some items ∧ kernel.map (·.1) = items ∧
        kernel = graph.kernel (graph.lookaheads (ofGrammar g)) state := by
    intro state kernel hk
    obtain ⟨hlt, rfl⟩ := getElem?_states.mp hk
    refine ⟨_, Array.getElem?_eq_getElem hlt, ?_, rfl⟩
    rw [hl.map_kernel, Array.getD_eq_getD_getElem?, Array.getElem?_eq_getElem hlt]
    rfl
  have hmem : ∀ kernel ∈ graph.states (ofGrammar g), ∃ state items,
      graph.kernels[state]? = some items ∧ kernel.map (·.1) = items ∧
        kernel = graph.kernel (graph.lookaheads (ofGrammar g)) state := by
    intro kernel hk
    obtain ⟨state, hstate⟩ := Array.getElem?_of_mem hk
    exact ⟨state, hkernel hstate⟩
  constructor
  case start =>
    refine getElem?_states.mpr ⟨(Array.getElem?_eq_some_iff.mp hs.zero).1, ?_⟩
    simp only [kernel, Array.getD_eq_getD_getElem?, hs.zero, hl.start]
    rfl
  case ne_nil =>
    intro kernel hk hnil
    obtain ⟨state, items, hitems, heq, -⟩ := hmem kernel hk
    rw [hnil] at heq
    exact kernel_ne_nil hg h hitems heq.symm
  case nodup =>
    intro kernel hk
    obtain ⟨state, items, hitems, heq, -⟩ := hmem kernel hk
    exact heq ▸ hs.nodup state items hitems
  case sorted =>
    intro kernel hk
    obtain ⟨state, items, hitems, heq, -⟩ := hmem kernel hk
    rw [heq]
    exact forall_kernels hg h (List.pairwise_singleton _ _)
      (fun _ _ _ hx => sorted_of_mem_successors hx) hitems
  case inj =>
    intro state state' kernel kernel' hk hk' hsame
    obtain ⟨items, hitems, heq, -⟩ := hkernel hk
    obtain ⟨items', hitems', heq', -⟩ := hkernel hk'
    rw [← heq', ← hsame, heq] at hitems'
    exact state_inj hg h hitems hitems'
  case traced =>
    intro kernel hk
    obtain ⟨state, -, -, -, rfl⟩ := hmem kernel hk
    exact traced_lookaheads hg h state
  case cores =>
    intro state kernel hk symbol target ht
    obtain ⟨hlt, rfl⟩ := getElem?_states.mp hk
    obtain ⟨htarget, hcore⟩ := core_of_target hg h hlt ht
    exact ⟨_, getElem?_states.mpr ⟨htarget, rfl⟩, hcore⟩
  -- the lookaheads are a fixed point, so what leads on has been handed on
  case handed =>
    intro state kernel hk symbol hgoto
    obtain ⟨hlt, rfl⟩ := getElem?_states.mp hk
    obtain ⟨target, ht, hsubset⟩ := goto_subset_target hg h hlt hgoto
    obtain ⟨htarget, -⟩ := core_of_target hg h hlt ht
    exact ⟨target, _, ht, getElem?_states.mpr ⟨htarget, rfl⟩, hsubset⟩

end StateGraph

end IncrementalParsing
