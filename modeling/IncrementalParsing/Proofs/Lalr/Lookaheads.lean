import IncrementalParsing.Proofs.Lalr.StateGraph

/-!
# The lookaheads of kernels

`StateGraph.lookaheads` hands lookaheads on from state to state until nothing changes, which every
grammar allows it enough rounds for.  So each item has all the lookaheads of the item before it, in
every state from which it is reached.

## Key results

- `fits_lookaheads`: the lookaheads are those of the items of the kernels
- `handed_on`: what an item has, the item after it has
-/

namespace IncrementalParsing

namespace StateGraph

open RuleBook (ofGrammar)
open SymbolSet (Below)

variable {g : FlatGrammar} {graph : StateGraph} {l : Lookaheads}

/-! ## Lookaheads that belong to a graph -/

/-- What holds of lookaheads in the making.  The start is followed by the end of the text only. -/
structure Fits (g : FlatGrammar) (graph : StateGraph) (l : Lookaheads) : Prop where
  lengths : ∀ state : Nat,
    (l[state]?).map List.length = (graph.kernels[state]?).map List.length
  below : ∀ (state : Nat) (sets : List SymbolSet), l[state]? = some sets →
    ∀ set ∈ sets, Below g.symbols.size set
  start : l[0]? = some [.singleton 0]
  accepting : ∀ (state : Nat) (i : Item) (set : SymbolSet), (i, set) ∈ graph.kernel l state →
    i.production = g.productions.size → set.Within (.singleton 0)

theorem Fits.length_getD (hl : Fits g graph l) (state : Nat) :
    (l.getD state []).length = (graph.kernels.getD state []).length := by
  have := hl.lengths state
  rw [Array.getD_eq_getD_getElem?, Array.getD_eq_getD_getElem?]
  cases hfound : l[state]? <;> cases hkernel : graph.kernels[state]? <;> simp_all

theorem Fits.map_kernel (hl : Fits g graph l) (state : Nat) :
    (graph.kernel l state).map (·.1) = graph.kernels.getD state [] :=
  List.map_fst_zip (Nat.le_of_eq (hl.length_getD state).symm)

theorem Fits.below_kernel (hl : Fits g graph l) (state : Nat) :
    ∀ x ∈ graph.kernel l state, Below g.symbols.size x.2 := by
  rintro ⟨i, set⟩ hx
  have hset := (List.of_mem_zip hx).2
  rw [Array.getD_eq_getD_getElem?] at hset
  cases hfound : l[state]? with
  | none => simp [hfound] at hset
  | some sets =>
    rw [hfound] at hset
    exact hl.below state sets hfound set hset

/-! ## Handing on -/

/-- What is handed on from a state by a symbol: the items that it leads to, each with lookaheads. -/
structure Moved (g : FlatGrammar) (graph : StateGraph) (state symbol : Nat)
    (items : List (Item × SymbolSet)) : Prop where
  leads : ∀ target, graph.target? state symbol = some target →
    target ≠ 0 ∧ graph.kernels[target]? = some (items.map (·.1))
  below : ∀ x ∈ items, Below g.symbols.size x.2
  accepting : ∀ x ∈ items, x.1.production = g.productions.size → x.2.Within (.singleton 0)

/-- Where symbols lead does not depend on the lookaheads. -/
theorem map_successors (b : RuleBook) (kernel : List (Item × SymbolSet)) :
    (successors b kernel).map (fun s => (s.1, s.2.map (·.1))) =
      groupByKey (((b.closure kernel).map (·.1)).filterMap fun i =>
        (b.next? i).map fun s => (s, i.advance)) := by
  unfold successors
  rw [map_groupByKey, List.map_filterMap, List.filterMap_map]
  congr 2
  funext x
  simp only [Option.map_map, Function.comp_apply]
  rfl

/-- From kernels with the same items, symbols lead to the same items. -/
theorem map_successors_congr (hg : g.Sound) {kernel kernel' : List (Item × SymbolSet)}
    (hkernel : ∀ x ∈ kernel, Below g.symbols.size x.2)
    (hkernel' : ∀ x ∈ kernel', Below g.symbols.size x.2)
    (h : kernel.map (·.1) = kernel'.map (·.1)) :
    (successors (ofGrammar g) kernel).map (fun s => (s.1, s.2.map (·.1))) =
      (successors (ofGrammar g) kernel').map (fun s => (s.1, s.2.map (·.1))) := by
  rw [map_successors, map_successors, RuleBook.map_closure_congr hg hkernel hkernel' h]

theorem moved_of_mem_successors (hg : g.Sound) (hs : graph.Sound g) (hl : Fits g graph l)
    {state symbol : Nat} {kernel : List Item} (hk : graph.kernels[state]? = some kernel)
    {items : List (Item × SymbolSet)}
    (h : (symbol, items) ∈ successors (ofGrammar g) (graph.kernel l state)) :
    Moved g graph state symbol items := by
  -- each item of a successor comes from one of the closure, with its lookaheads
  have hmem : ∀ x ∈ items, ∃ i, (i, x.2) ∈ (ofGrammar g).closure (graph.kernel l state) ∧
      i.production = x.1.production := by
    intro x hx
    have := mem_of_mem_group h hx
    rw [List.mem_mergeSort, List.mem_filterMap] at this
    obtain ⟨⟨i, set⟩, hi, hnext⟩ := this
    obtain ⟨s, -, heq⟩ := Option.map_eq_some_iff.mp hnext
    cases heq
    exact ⟨i, hi, rfl⟩
  refine ⟨fun target ht => ?_, fun x hx => ?_, fun x hx hp => ?_⟩
  · have hmoves := mem_of_lookup ht
    have hleads := hs.leads state kernel hk
    refine ⟨(hleads.target symbol target hmoves).1, ?_⟩
    -- the graph was made with empty lookaheads, which lead to the same items
    have hsame : (successors (ofGrammar g) (graph.kernel l state)).map
        (fun s => (s.1, s.2.map (·.1))) =
        (successors (ofGrammar g) (bare kernel)).map (fun s => (s.1, s.2.map (·.1))) := by
      refine map_successors_congr hg (hl.below_kernel state) (below_bare kernel) ?_
      rw [hl.map_kernel, map_bare, Array.getD_eq_getD_getElem?, hk]
      rfl
    have hfound : (symbol, items.map (·.1)) ∈
        (successors (ofGrammar g) (bare kernel)).map (fun s => (s.1, s.2.map (·.1))) := by
      rw [← hsame]
      exact List.mem_map.mpr ⟨_, h, rfl⟩
    obtain ⟨⟨symbol', items'⟩, hitems', heq⟩ := List.mem_map.mp hfound
    rw [Prod.mk.injEq] at heq
    obtain ⟨rfl, heq⟩ := heq
    rw [← heq]
    exact hleads.exact _ target hmoves items' hitems'
  · obtain ⟨i, hi, -⟩ := hmem x hx
    exact RuleBook.below_closure hg (hl.below_kernel state) (i, x.2) hi
  · obtain ⟨i, hi, hsame⟩ := hmem x hx
    exact RuleBook.within_of_mem_closure (hl.accepting state) hi (hsame.trans hp)

/-- Adds the lookaheads of items to those of the state that a symbol leads to. -/
def handOn (graph : StateGraph) (state : Nat) (l : Lookaheads)
    (moved : Nat × List (Item × SymbolSet)) : Lookaheads :=
  match graph.target? state moved.1 with
  | some target => l.modify target fun sets => List.zipWith SymbolSet.union sets (moved.2.map (·.2))
  | none => l

theorem spread_eq (b : RuleBook) (graph : StateGraph) (l : Lookaheads) (state : Nat) :
    spread b graph l state =
      (successors b (graph.kernel l state)).foldl (handOn graph state) l := rfl

/-- How many lookaheads may still be found. -/
def cost (n : Nat) (l : Lookaheads) : Nat := sumOf (sumOf (SymbolSet.missing n)) l.toList

theorem zipWith_union_eq_or_lt {n : Nat} {sets added : List SymbolSet}
    (hlen : sets.length = added.length) (hadded : ∀ set ∈ added, Below n set) :
    List.zipWith SymbolSet.union sets added = sets ∨
      sumOf (SymbolSet.missing n) (List.zipWith SymbolSet.union sets added) <
        sumOf (SymbolSet.missing n) sets := by
  induction sets generalizing added with
  | nil => exact .inl List.zipWith_nil_left
  | cons set rest ih =>
    obtain _ | ⟨new, added⟩ := added
    · cases hlen
    have hrest := ih (Nat.succ.inj hlen) fun s hs => hadded s (List.mem_cons_of_mem _ hs)
    -- the first set stays or has fewer symbols missing
    have hfirst : set.union new = set ∨ (set.union new).missing n < set.missing n :=
      or_iff_not_imp_left.mpr (SymbolSet.missing_union_lt (hadded new (List.mem_cons_self ..)))
    rw [List.zipWith_cons_cons, sumOf_cons, sumOf_cons]
    -- the sum is less as soon as one of the sets has gained
    obtain hfirst | hfirst := hfirst
    · rw [hfirst]
      obtain hrest | hrest := hrest
      · exact .inl (congrArg _ hrest)
      · exact .inr (Nat.add_lt_add_left hrest _)
    · refine .inr (Nat.add_lt_add_of_lt_of_le hfirst ?_)
      obtain hrest | hrest := hrest
      · exact Nat.le_of_eq (congrArg _ hrest)
      · exact Nat.le_of_lt hrest

theorem accepting_zip_union {items : List (Item × SymbolSet)} {sets : List SymbolSet} {p : Nat}
    {bound : SymbolSet}
    (hsets : ∀ x ∈ (items.map (·.1)).zip sets, x.1.production = p → x.2.Within bound)
    (hitems : ∀ x ∈ items, x.1.production = p → x.2.Within bound) :
    ∀ x ∈ (items.map (·.1)).zip (List.zipWith SymbolSet.union sets (items.map (·.2))),
      x.1.production = p → x.2.Within bound := by
  -- on the items, together with both lists of sets
  induction items generalizing sets with
  | nil => exact fun x hx => by cases hx
  | cons y rest ih =>
    obtain _ | ⟨set, sets⟩ := sets
    · exact fun x hx => by cases hx
    intro x hx hp
    obtain rfl | hx := List.mem_cons.mp hx
    · intro s hs
      rw [SymbolSet.mem_union, Bool.or_eq_true] at hs
      exact hs.elim (hsets (y.1, set) (List.mem_cons_self ..) hp s)
        (hitems y (List.mem_cons_self ..) hp s)
    · exact ih (fun z hz => hsets z (List.mem_cons_of_mem _ hz))
        (fun z hz => hitems z (List.mem_cons_of_mem _ hz)) x hx hp

section

variable {state symbol target : Nat} {items : List (Item × SymbolSet)}

/-- What is handed on finds one set for each of its items. -/
theorem Moved.exists_sets (h : Moved g graph state symbol items) (hl : Fits g graph l)
    (ht : graph.target? state symbol = some target) :
    ∃ sets, l[target]? = some sets ∧ sets.length = items.length := by
  have hlength := hl.lengths target
  rw [(h.leads target ht).2, Option.map_some, List.length_map] at hlength
  exact Option.map_eq_some_iff.mp hlength

/-- Handing on changes only what the symbol leads to. -/
theorem getElem?_handOn (items : List (Item × SymbolSet)) {sets : List SymbolSet}
    (ht : graph.target? state symbol = some target) (hsets : l[target]? = some sets) (state' : Nat) :
    (handOn graph state l (symbol, items))[state']? =
      if target = state' then some (List.zipWith SymbolSet.union sets (items.map (·.2)))
      else l[state']? := by
  unfold handOn
  rw [ht]
  dsimp only
  rw [Array.getElem?_modify]
  split
  · rename_i heq
    rw [← heq, hsets]
    rfl
  · rfl

/-- What is handed on fits where it comes to. -/
theorem fits_handOn (h : Moved g graph state symbol items) (hl : Fits g graph l)
    (ht : graph.target? state symbol = some target) :
    Fits g graph (handOn graph state l (symbol, items)) := by
  obtain ⟨hne, hkernel⟩ := h.leads target ht
  obtain ⟨sets, hsets, hlen⟩ := h.exists_sets hl ht
  have hget := getElem?_handOn items ht hsets
  constructor
  -- the target gets as many sets as it has items
  case lengths =>
    intro state'
    rw [hget]
    split
    · rename_i heq
      rw [← heq, hkernel, Option.map_some, Option.map_some, List.length_zipWith, List.length_map,
        List.length_map, hlen, Nat.min_self]
    · exact hl.lengths state'
  case below =>
    intro state' sets' hsets'
    rw [hget] at hsets'
    split at hsets'
    · cases hsets'
      intro set hset
      obtain ⟨k, hk, rfl⟩ := List.getElem_of_mem hset
      rw [List.getElem_zipWith]
      refine (hl.below target sets hsets _ (List.getElem_mem _)).union ?_
      rw [List.getElem_map]
      exact h.below _ (List.getElem_mem _)
    · exact hl.below state' sets' hsets'
  case start =>
    -- no symbol leads back to the first state
    rw [hget, if_neg hne]
    exact hl.start
  -- the items of the target that accept are joined with ones that accept
  case accepting =>
    intro state' i set hi hp
    unfold kernel at hi
    rw [@Array.getD_eq_getD_getElem? _ (handOn ..), hget] at hi
    split at hi
    · rename_i heq
      subst heq
      rw [Array.getD_eq_getD_getElem?, hkernel] at hi
      refine accepting_zip_union (fun x hx => hl.accepting target x.1 x.2 ?_) h.accepting
        (i, set) hi hp
      unfold kernel
      rw [Array.getD_eq_getD_getElem?, Array.getD_eq_getD_getElem?, hkernel, hsets]
      exact hx
    · rw [← Array.getD_eq_getD_getElem?] at hi
      exact hl.accepting state' i set hi hp

/-- Handing on finds new lookaheads, or it changes nothing. -/
theorem improves_handOn (h : Moved g graph state symbol items) :
    Improves (Fits g graph) (cost g.symbols.size) fun l => handOn graph state l (symbol, items) := by
  intro l hl
  cases ht : graph.target? state symbol with
  -- without a target nothing is handed on
  | none =>
    have hsame : handOn graph state l (symbol, items) = l := by
      unfold handOn
      rw [ht]
    dsimp only
    rw [hsame]
    exact ⟨hl, .inl rfl⟩
  | some target =>
    refine ⟨fits_handOn h hl ht, ?_⟩
    obtain ⟨sets, hsets, hlen⟩ := h.exists_sets hl ht
    obtain ⟨hlt, hget⟩ := Array.getElem?_eq_some_iff.mp hsets
    -- only the sets of the target are changed
    unfold handOn
    rw [ht]
    refine modify_eq_or_lt _ hlt _ ?_
    rw [hget]
    refine zipWith_union_eq_or_lt (by rw [List.length_map, hlen]) fun set hset => ?_
    obtain ⟨x, hx, rfl⟩ := List.mem_map.mp hset
    exact h.below x hx

/-- Where handing on changes nothing, what is handed on is there. -/
theorem within_of_handOn_eq (h : Moved g graph state symbol items) (hl : Fits g graph l)
    (ht : graph.target? state symbol = some target)
    (hsame : handOn graph state l (symbol, items) = l) :
    ∀ x ∈ items, ∃ set, (x.1, set) ∈ graph.kernel l target ∧ x.2.Within set := by
  intro x hx
  obtain ⟨k, hk, rfl⟩ := List.getElem_of_mem hx
  have hkernel := (h.leads target ht).2
  obtain ⟨sets, hsets, hlen⟩ := h.exists_sets hl ht
  -- handing on changes nothing, so the union with what is handed on is what was there
  have hunion : List.zipWith SymbolSet.union sets (items.map (·.2)) = sets := by
    have hget := getElem?_handOn items ht hsets target
    rw [hsame, hsets, if_pos rfl] at hget
    exact (Option.some.inj hget).symm
  have hk' : k < sets.length := hlen ▸ hk
  refine ⟨sets[k], ?_, ?_⟩
  · have hzip : k < ((items.map (·.1)).zip sets).length := by
      rw [List.length_zip, List.length_map, hlen, Nat.min_self]
      exact hk
    have hmem := List.getElem_mem hzip
    rw [List.getElem_zip, List.getElem_map] at hmem
    unfold kernel
    rw [Array.getD_eq_getD_getElem?, Array.getD_eq_getD_getElem?, hkernel, hsets]
    exact hmem
  · have hget : sets[k].union items[k].2 = sets[k] := by
      have := congrArg (·[k]?) hunion
      simpa [List.getElem?_zipWith, hk, hk'] using this
    have := SymbolSet.within_union_right sets[k] items[k].2
    rwa [hget] at this

end

/-! ## Going round -/

theorem improves_spread (hg : g.Sound) (hs : graph.Sound g) {state : Nat}
    (hstate : state < graph.kernels.size) :
    Improves (Fits g graph) (cost g.symbols.size) fun l => spread (ofGrammar g) graph l state := by
  intro l hl
  have hmoved := fun (x : Nat × List (Item × SymbolSet))
      (hx : x ∈ successors (ofGrammar g) (graph.kernel l state)) =>
    improves_handOn (moved_of_mem_successors hg hs hl (Array.getElem?_eq_getElem hstate) hx)
  exact improves_foldl hmoved l hl

/-- Enough rounds find lookaheads that no state changes. -/
theorem fixed_spreadAll (hg : g.Sound) (hs : graph.Sound g) (fuel : Nat) (hl : Fits g graph l)
    (hfuel : cost g.symbols.size l < fuel) :
    Fits g graph (spreadAll (ofGrammar g) graph fuel l) ∧ ∀ state < graph.kernels.size,
      spread (ofGrammar g) graph (spreadAll (ofGrammar g) graph fuel l) state =
        spreadAll (ofGrammar g) graph fuel l := by
  have himproves : ∀ state ∈ List.range graph.kernels.size,
      Improves (Fits g graph) (cost g.symbols.size)
        fun l => spread (ofGrammar g) graph l state := fun state hstate =>
    improves_spread hg hs (List.mem_range.mp hstate)
  induction fuel generalizing l with
  | zero => omega
  | succ fuel ih =>
    rw [spreadAll]
    split
    -- a round that changes nothing has no state that changes anything
    · rename_i hsame
      exact ⟨hl, fun state hstate => step_eq_of_foldl_eq himproves hl (eq_of_beq hsame) state
        (List.mem_range.mpr hstate)⟩
    -- any other round costs less afterwards
    · rename_i hchanged
      obtain ⟨hnext, hcost⟩ := improves_foldl himproves l hl
      have hless := hcost.resolve_left fun heq => hchanged (beq_iff_eq.mpr heq)
      exact ih hnext (by dsimp only at hless; omega)

theorem Fits.cost_le (hl : Fits g graph l) :
    cost g.symbols.size l ≤
      (graph.kernels.map List.length).foldl (· + ·) 0 * g.symbols.size := by
  have hlengths : l.toList.map List.length = graph.kernels.toList.map List.length := by
    refine List.ext_getElem? fun state => ?_
    simpa using hl.lengths state
  -- each set misses at most all symbols
  have hsum : ∀ (xs : List (List SymbolSet)) (from' : Nat),
      sumOf (sumOf (SymbolSet.missing g.symbols.size)) xs + from' * g.symbols.size ≤
        (xs.map List.length).foldl (· + ·) from' * g.symbols.size := by
    intro xs
    induction xs with
    | nil => exact fun from' => by simp
    | cons sets rest ih =>
      intro from'
      have hsets : sumOf (SymbolSet.missing g.symbols.size) sets ≤ sets.length * g.symbols.size :=
        sumOf_le fun set _ => set.missing_le _
      have := ih (from' + sets.length)
      rw [Nat.add_mul] at this
      rw [List.map_cons, List.foldl_cons, sumOf_cons]
      omega
  have := hsum l.toList 0
  rw [hlengths, ← Array.toList_map] at this
  rw [← Array.foldl_toList]
  unfold cost
  omega

theorem fits_start (hg : g.Sound) (hs : graph.Sound g) :
    Fits g graph ((graph.kernels.map fun items => items.map fun _ => SymbolSet.empty).setIfInBounds 0
      [.singleton 0]) := by
  obtain ⟨hlt, -⟩ := Array.getElem?_eq_some_iff.mp hs.zero
  -- all sets are empty but that of the first state
  have hget : ∀ state : Nat, ((graph.kernels.map fun items => items.map fun _ =>
      SymbolSet.empty).setIfInBounds 0 [.singleton 0])[state]? = if 0 = state then
        some [.singleton 0] else (graph.kernels[state]?).map fun items => items.map fun _ => .empty := by
    intro state
    rw [Array.getElem?_setIfInBounds, Array.getElem?_map, Array.size_map, if_pos hlt]
  have hzero : 0 < g.symbols.size := Nat.lt_of_le_of_lt (Nat.zero_le _) hg.start.2.1
  constructor
  case lengths =>
    intro state
    rw [hget]
    split
    · rename_i heq
      rw [← heq, hs.zero]
      rfl
    · cases graph.kernels[state]? <;> simp
  case below =>
    intro state sets hsets set hset
    rw [hget] at hsets
    split at hsets
    · cases hsets
      rw [List.mem_singleton.mp hset]
      exact SymbolSet.below_singleton hzero
    · obtain ⟨items, -, rfl⟩ := Option.map_eq_some_iff.mp hsets
      obtain ⟨_, -, rfl⟩ := List.mem_map.mp hset
      exact SymbolSet.below_empty _
  case start => exact hget 0
  case accepting =>
    intro state i set hi _
    have hset := (List.of_mem_zip hi).2
    rw [Array.getD_eq_getD_getElem?, hget] at hset
    split at hset
    · rw [List.mem_singleton.mp hset]
      exact .refl _
    · intro s hs
      cases hfound : graph.kernels[state]? with
      | none => simp [hfound] at hset
      | some items =>
        rw [hfound] at hset
        obtain ⟨_, -, rfl⟩ := List.mem_map.mp hset
        simp at hs

/-- The rounds are enough. -/
theorem fixed_lookaheads (hg : g.Sound) (hs : graph.Sound g) :
    Fits g graph (graph.lookaheads (ofGrammar g)) ∧ ∀ state < graph.kernels.size,
      spread (ofGrammar g) graph (graph.lookaheads (ofGrammar g)) state =
        graph.lookaheads (ofGrammar g) := by
  have hstart := fits_start hg hs
  refine fixed_spreadAll hg hs _ hstart ?_
  have := hstart.cost_le
  show _ < _ * (g.symbols.size + 1) + 1
  rw [Nat.mul_succ]
  omega

/-- The lookaheads are those of the items of the kernels. -/
theorem fits_lookaheads (hg : g.Sound) (hs : graph.Sound g) :
    Fits g graph (graph.lookaheads (ofGrammar g)) :=
  (fixed_lookaheads hg hs).1

/-- What an item has, the item after it has. -/
theorem handed_on (hg : g.Sound) (hs : graph.Sound g) {state symbol target : Nat} {i : Item}
    {set : SymbolSet} {kernel : List Item} (hk : graph.kernels[state]? = some kernel)
    (h : (i, set) ∈ (ofGrammar g).closure (graph.kernel (graph.lookaheads (ofGrammar g)) state))
    (hnext : (ofGrammar g).next? i = some symbol)
    (ht : graph.target? state symbol = some target) :
    ∃ set', (i.advance, set') ∈ graph.kernel (graph.lookaheads (ofGrammar g)) target ∧
      set.Within set' := by
  obtain ⟨hl, hfixed⟩ := fixed_lookaheads hg hs
  obtain ⟨items, hitems, hmem⟩ := mem_successors h hnext
  have hstate := (Array.getElem?_eq_some_iff.mp hk).1
  have hmoved := fun (x : Nat × List (Item × SymbolSet))
      (hx : x ∈ successors (ofGrammar g)
        (graph.kernel (graph.lookaheads (ofGrammar g)) state)) =>
    improves_handOn (moved_of_mem_successors hg hs hl hk hx)
  -- the round changes nothing, so handing these items on does not
  have hsame := step_eq_of_foldl_eq hmoved hl (hfixed state hstate) _ hitems
  exact within_of_handOn_eq (moved_of_mem_successors hg hs hl hk hitems) hl ht hsame _ hmem

end StateGraph

end IncrementalParsing
