import IncrementalParsing.Proofs.Lalr.Families

/-!
# All kernels of a grammar

The kernels that are found are those that can be reached from the start, each once.  So what the start
has and symbols keep holds of every kernel; in particular the start symbol is at the end of the text
in one state only.

## Key results

- `forall_kernels`: what holds of all kernels
- `eq_target_of_accepting`: only what the start symbol leads to can accept
-/

namespace IncrementalParsing

open RuleBook (ofGrammar)

/-- An array without repetitions has nothing in two places. -/
theorem eq_of_getElem?_of_nodup {α : Type} {xs : Array α} (h : xs.toList.Nodup) {i j : Nat} {x : α}
    (hi : xs[i]? = some x) (hj : xs[j]? = some x) : i = j := by
  rw [← Array.getElem?_toList] at hi hj
  exact (List.getElem?_inj (List.getElem?_eq_some_iff.mp hi).1 h).mp (hi.trans hj.symm)

namespace StateGraph

variable {g : FlatGrammar} {graph : StateGraph}

/-- What a symbol leads to has a state, which the graph names. -/
theorem Sound.exists_target (hs : graph.Sound g) {state : Nat} {kernel : List Item}
    (hk : graph.kernels[state]? = some kernel) {symbol : Nat} {items : List (Item × SymbolSet)}
    (h : (symbol, items) ∈ successors (ofGrammar g) (bare kernel)) :
    ∃ target, (symbol, target) ∈ graph.transitions.getD state [] ∧
      graph.kernels[target]? = some (items.map (·.1)) := by
  obtain ⟨x, hx⟩ := exists_of_mem_group h
  obtain ⟨i, hi, hnext, -⟩ := advance_of_mem_successors h (List.mem_map_of_mem hx)
  obtain ⟨target, ht⟩ := (hs.leads state kernel hk).all i symbol hi hnext
  exact ⟨target, ht, (hs.leads state kernel hk).exact symbol target ht items h⟩

/-- Symbols do not lead out of the kernels of a graph. -/
theorem Sound.closed (hs : graph.Sound g) : ∀ kernel ∈ graph.kernels.toList,
    ∀ x ∈ successors (ofGrammar g) (bare kernel), x.2.map (·.1) ∈ graph.kernels.toList := by
  intro kernel hk x hx
  obtain ⟨state, hstate⟩ := Array.getElem?_of_mem (Array.mem_toList_iff.mp hk)
  obtain ⟨target, -, htarget⟩ := hs.exists_target hstate hx
  exact Array.mem_toList_iff.mpr (Array.mem_of_getElem? htarget)

/-- What holds of the start and is kept by going on with a symbol holds of all kernels. -/
theorem forall_kernels (hg : g.Sound) (h : ofRules (ofGrammar g) = .ok graph)
    {P : List Item → Prop} (hstart : P [(ofGrammar g).startItem])
    (hnext : ∀ kernel, P kernel → ∀ x ∈ successors (ofGrammar g) (bare kernel), P (x.2.map (·.1)))
    {state : Nat} {kernel : List Item} (hk : graph.kernels[state]? = some kernel) : P kernel := by
  classical
  have hs := sound_ofRules hg h
  -- those that have the property are closed under successors, so the search never leaves them
  have hsize : (graph.kernels.toList.filter fun kernel => P kernel).length ≤ maxStates :=
    (List.length_filter_le _ _).trans hs.size_le
  obtain ⟨found, hfound, -, hall⟩ := ofRules_of_closed (b := ofGrammar g)
    (graph.kernels.toList.filter fun kernel => P kernel)
    (List.mem_filter.mpr ⟨Array.mem_toList_iff.mpr (Array.mem_of_getElem? hs.zero),
      decide_eq_true hstart⟩) hsize (fun kernel hkernel x hx => by
        obtain ⟨hmem, hP⟩ := List.mem_filter.mp hkernel
        exact List.mem_filter.mpr ⟨hs.closed kernel hmem x hx,
          decide_eq_true (hnext kernel (of_decide_eq_true hP) x hx)⟩)
  cases h.symm.trans hfound
  exact of_decide_eq_true (List.mem_filter.mp (hall state kernel hk)).2

/-- No kernel is found twice. -/
theorem state_inj (hg : g.Sound) (h : ofRules (ofGrammar g) = .ok graph) {state state' : Nat}
    {kernel : List Item} (hk : graph.kernels[state]? = some kernel)
    (hk' : graph.kernels[state']? = some kernel) : state = state' := by
  have hs := sound_ofRules hg h
  obtain ⟨s, hfound, hamong⟩ := among_ofRules_of_closed (b := ofGrammar g) graph.kernels.toList
    (Array.mem_toList_iff.mpr (Array.mem_of_getElem? hs.zero)) hs.size_le hs.closed
  cases h.symm.trans hfound
  exact eq_of_getElem?_of_nodup hamong.nodup hk hk'

/-- Every state has an item in its kernel. -/
theorem kernel_ne_nil (hg : g.Sound) (h : ofRules (ofGrammar g) = .ok graph) {state : Nat}
    {kernel : List Item} (hk : graph.kernels[state]? = some kernel) : kernel ≠ [] := by
  refine forall_kernels (P := (· ≠ [])) hg h (List.cons_ne_nil _ _) (fun _ _ x hx => ?_) hk
  obtain ⟨y, hy⟩ := exists_of_mem_group hx
  exact List.ne_nil_of_mem (List.mem_map_of_mem hy)

/-- A symbol that leads somewhere comes next in an item. -/
theorem exists_closed_of_target (hg : g.Sound) (h : ofRules (ofGrammar g) = .ok graph)
    {state symbol target : Nat} {kernel : List Item} (hk : graph.kernels[state]? = some kernel)
    (ht : (symbol, target) ∈ graph.transitions.getD state []) :
    ∃ i, (ofGrammar g).Closed kernel i ∧ (ofGrammar g).next? i = some symbol := by
  obtain ⟨-, -, next, hnext, hall⟩ :=
    ((sound_ofRules hg h).leads state kernel hk).target symbol target ht
  obtain ⟨j, hj⟩ := List.exists_mem_of_ne_nil next (kernel_ne_nil hg h hnext)
  obtain ⟨i, hi, hsymbol, -⟩ := hall j hj
  exact ⟨i, hi, hsymbol⟩

/-- The start is begun nowhere but in the first kernel. -/
theorem mem_of_closed_accepting {kernel : List Item} {i : Item} (hi : (ofGrammar g).Closed kernel i)
    (hp : i.production = g.productions.size) : i ∈ kernel := by
  refine hi.resolve_right fun ⟨rule, _, _, hmem⟩ => ?_
  obtain ⟨q, hq, -⟩ := RuleBook.lhs_of_mem_productionsOf hmem
  rw [hp, Array.getElem?_size] at hq
  cases hq

/-- The kernels that the item of the start stands in: the first, and what the start symbol leads to. -/
theorem accepting_kernel (hg : g.Sound) (h : ofRules (ofGrammar g) = .ok graph) {state : Nat}
    {kernel : List Item} (hk : graph.kernels[state]? = some kernel) :
    kernel = [(ofGrammar g).startItem] ∨ (∀ j ∈ kernel, j.dot ≠ 0) ∧
      ∀ j ∈ kernel, j.production = g.productions.size →
        ∃ items, (g.start, items) ∈ successors (ofGrammar g) (bare [(ofGrammar g).startItem]) ∧
          kernel = items.map (·.1) := by
  refine forall_kernels (P := fun kernel => kernel = [(ofGrammar g).startItem] ∨
    (∀ j ∈ kernel, j.dot ≠ 0) ∧ ∀ j ∈ kernel, j.production = g.productions.size →
      ∃ items, (g.start, items) ∈ successors (ofGrammar g) (bare [(ofGrammar g).startItem]) ∧
        kernel = items.map (·.1)) hg h (.inl rfl) (fun kernel hkernel x hx => .inr ⟨?_, ?_⟩) hk
  -- in a successor something has been read of every item
  · intro j hj
    obtain ⟨i, -, -, rfl⟩ := advance_of_mem_successors hx hj
    exact Nat.succ_ne_zero _
  · intro j hj hp
    obtain ⟨symbol, items⟩ := x
    obtain ⟨i, hclosed, hnext, rfl⟩ := advance_of_mem_successors hx hj
    -- the production that was added is opened by no rule, so its item is in the kernel
    have hi := mem_of_closed_accepting hclosed hp
    rw [RuleBook.next?_ofGrammar, show i.production = _ from hp, g.row_accepting] at hnext
    obtain ⟨hlt, hsymbol⟩ := List.getElem?_eq_some_iff.mp hnext
    have hzero : i.dot = 0 := Nat.lt_one_iff.mp hlt
    obtain rfl : kernel = [(ofGrammar g).startItem] :=
      hkernel.resolve_right fun hall => hall.1 i hi hzero
    simp only [hzero, List.getElem_cons_zero] at hsymbol
    exact ⟨items, hsymbol ▸ hx, rfl⟩

/-- The item of the start is at its end only in what the start symbol leads to. -/
theorem eq_target_of_accepting (hg : g.Sound) (h : ofRules (ofGrammar g) = .ok graph) {state : Nat}
    {kernel : List Item} (hk : graph.kernels[state]? = some kernel) {i : Item}
    (hi : (ofGrammar g).Closed kernel i) (hproduction : i.production = g.productions.size)
    (hcomplete : (ofGrammar g).next? i = none) (target : Nat) :
    (g.start, target) ∈ graph.transitions.getD 0 [] ↔ target = state := by
  have hs := sound_ofRules hg h
  have hdot := hs.dot_eq hk hi hcomplete
  rw [hproduction, g.row_accepting] at hdot
  have hmem := mem_of_closed_accepting hi hproduction
  obtain rfl | ⟨-, hall⟩ := accepting_kernel hg h hk
  · rw [List.mem_singleton.mp hmem] at hdot
    cases hdot
  · obtain ⟨items, hitems, rfl⟩ := hall i hmem hproduction
    obtain ⟨found, hfound, hkernel⟩ := hs.exists_target hs.zero hitems
    refine ⟨fun ht => state_inj hg h ((hs.leads 0 _ hs.zero).exact _ target ht items hitems) hk, ?_⟩
    rintro rfl
    exact state_inj hg h hkernel hk ▸ hfound

end StateGraph

end IncrementalParsing
