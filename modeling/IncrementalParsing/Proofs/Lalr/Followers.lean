import IncrementalParsing.Proofs.Lalr.Lookaheads
import IncrementalParsing.Table.Basic

/-!
# What can follow

Lookaheads come from two places: the start is followed by the end of the text, and what follows a rule
begins with a terminal that some production mentions.  So nothing else is ever a lookahead, and the
symbol of errors is none.

## Key results

- `StateGraph.follower_of_mem_closure`: lookaheads are the end of the text or terminals that
  productions mention
-/

namespace IncrementalParsing

open RuleBook (ofGrammar)

/-- The end of the text and the terminals that productions mention: nothing else follows anything. -/
def FlatGrammar.Follower (g : FlatGrammar) (a : Symbol) : Prop :=
  a = Symbol.finish ∨ (g.isTerminal a = true ∧ ∃ p, a ∈ g.row p)

/-- The symbol of errors follows nothing. -/
theorem FlatGrammar.Follower.ne_error {g : FlatGrammar} (hg : g.Sound) {a : Symbol}
    (h : g.Follower a) : a ≠ Symbol.error := by
  rintro rfl
  obtain h | ⟨-, p, hp⟩ := h
  · exact absurd h (by decide)
  · exact absurd (hg.row hp).1 (by decide)

variable {g : FlatGrammar} {P : Nat → Prop}

/-- What follows the next symbol of an item is in its row or among its lookaheads. -/
theorem RuleBook.only_following {i : Item} {lookaheads : SymbolSet}
    (hrow : ∀ p, ∀ s ∈ g.row p, g.isTerminal s = true → P s) (h : lookaheads.Only P) :
    ((ofGrammar g).following i lookaheads).Only P := by
  have hfirsts : (FirstSets.ofGrammar g).Only P := FirstSets.only_ofGrammar fun p hp s hs ht => by
    obtain ⟨n, hn⟩ := Array.getElem?_of_mem hp
    exact hrow n s (by rwa [FlatGrammar.row_of_production hn]) ht
  -- the symbols behind the one that is next are symbols of a row
  have hrest : ∀ s ∈ (ofGrammar g).rest i, g.isTerminal s = true → P s := fun s hs ht => by
    rw [rest_ofGrammar] at hs
    exact hrow _ s (List.mem_of_mem_drop hs) ht
  have hset := FirstSets.only_ofRow hfirsts hrest
  unfold following
  dsimp only
  split
  · exact hset.union h
  · exact hset

namespace RuleLookaheads

/-- All lookaheads that rules have so far have a property. -/
def Only (P : Nat → Prop) (a : RuleLookaheads) : Prop :=
  ∀ rule set, a.getD rule none = some set → set.Only P

/-- Setting the lookaheads of a rule to admitted ones keeps all admitted; -/
theorem only_set {a : RuleLookaheads} (ha : a.Only P) (rule : Nat) {set : SymbolSet}
    (hset : set.Only P) : Only P (a.setIfInBounds rule (some set)) := by
  intro other found h
  rw [getD_set] at h
  split at h
  · cases h
    exact hset
  · exact ha other found h

/-- so does adding to them, -/
theorem only_add {a : RuleLookaheads} (ha : a.Only P) (work : List Nat) (rule : Nat)
    {set : SymbolSet} (hset : set.Only P) : Only P (add a work rule set).1 := by
  unfold add
  split
  · exact only_set ha rule hset
  · rename_i old hold
    split
    · exact ha
    · exact only_set ha rule ((ha rule old hold).union hset)

/-- adding what an item calls for, -/
theorem only_addNext (hrow : ∀ p, ∀ s ∈ g.row p, g.isTerminal s = true → P s) {a : RuleLookaheads}
    (ha : a.Only P) (work : List Nat) (i : Item) {lookaheads : SymbolSet}
    (hl : lookaheads.Only P) : Only P (addNext (ofGrammar g) a work i lookaheads).1 := by
  unfold addNext
  split
  · exact only_add ha work _ (RuleBook.only_following hrow hl)
  · exact ha

/-- and working off all that is listed. -/
theorem only_close (hrow : ∀ p, ∀ s ∈ g.row p, g.isTerminal s = true → P s) {fuel : Nat}
    {a : RuleLookaheads} {work : List Nat} (ha : a.Only P) :
    Only P (close (ofGrammar g) fuel a work) := by
  induction fuel generalizing a work with
  | zero => exact ha
  | succ fuel ih =>
    cases work with
    | nil => exact ha
    | cons rule work =>
      have hrule : ((a.getD rule none).getD .empty).Only P := by
        cases hfound : a.getD rule none with
        | none => exact SymbolSet.only_empty P
        | some set => exact ha rule set hfound
      rw [close]
      refine ih ?_
      exact List.foldlRecOn (motive := fun x : RuleLookaheads × List Nat => x.1.Only P) _ _ ha
        fun x hx p _ => only_addNext hrow hx x.2 ⟨p, 0⟩ hrule

/-- The closure of a kernel has admitted lookaheads. -/
theorem only_ofKernel (hrow : ∀ p, ∀ s ∈ g.row p, g.isTerminal s = true → P s)
    {kernel : List (Item × SymbolSet)} (hkernel : ∀ x ∈ kernel, x.2.Only P) :
    Only P (ofKernel (ofGrammar g) kernel) := by
  refine only_close hrow ?_
  refine List.foldlRecOn (motive := fun x : RuleLookaheads × List Nat => x.1.Only P) _ _ ?_
    fun x hx y hy => only_addNext hrow hx x.2 y.1 (hkernel y hy)
  intro rule set h
  rw [Array.getD_eq_getD_getElem?, Array.getElem?_replicate] at h
  split at h <;> cases h

end RuleLookaheads

/-- The lookaheads of a closure come from its kernel and from what productions mention. -/
theorem RuleBook.only_closure (hrow : ∀ p, ∀ s ∈ g.row p, g.isTerminal s = true → P s)
    {kernel : List (Item × SymbolSet)} (hkernel : ∀ x ∈ kernel, x.2.Only P) :
    ∀ x ∈ (ofGrammar g).closure kernel, x.2.Only P := by
  rintro ⟨i, set⟩ hi
  obtain hi | ⟨rule, hrule, -⟩ := mem_closure.mp hi
  · exact hkernel _ hi
  · exact RuleLookaheads.only_ofKernel hrow hkernel rule set hrule

namespace StateGraph

variable {graph : StateGraph} {l : Lookaheads}

/-- All lookaheads of kernels have a property. -/
def Lookaheads.Only (P : Nat → Prop) (l : Lookaheads) : Prop :=
  ∀ (state : Nat) (sets : List SymbolSet), l[state]? = some sets → ∀ set ∈ sets, set.Only P

/-- Each kernel is read with its own. -/
theorem Lookaheads.Only.kernel (hl : l.Only P) (graph : StateGraph) (state : Nat) :
    ∀ x ∈ graph.kernel l state, x.2.Only P := by
  intro x hx
  have hset := (List.of_mem_zip hx).2
  rw [Array.getD_eq_getD_getElem?] at hset
  cases hfound : l[state]? with
  | none => simp [hfound] at hset
  | some sets =>
    rw [hfound] at hset
    exact hl state sets hfound x.2 hset

/-- Handing lookaheads on to a state keeps all admitted; -/
theorem only_handOn (hl : l.Only P) {state symbol : Nat} {items : List (Item × SymbolSet)}
    (hitems : ∀ x ∈ items, x.2.Only P) : (handOn graph state l (symbol, items)).Only P := by
  unfold handOn
  split
  · rename_i target htarget
    intro other sets hsets set hset
    rw [Array.getElem?_modify] at hsets
    split at hsets
    -- the sets of the target are joined with those that are handed on
    · obtain ⟨old, hold, rfl⟩ := Option.map_eq_some_iff.mp hsets
      obtain ⟨k, hk, rfl⟩ := List.getElem_of_mem hset
      rw [List.getElem_zipWith]
      refine SymbolSet.Only.union (hl other old hold _ (List.getElem_mem _)) ?_
      rw [List.getElem_map]
      exact hitems _ (List.getElem_mem _)
    · exact hl other sets hsets set hset
  · exact hl

/-- so does spreading those of one state, -/
theorem only_spread (hrow : ∀ p, ∀ s ∈ g.row p, g.isTerminal s = true → P s) (hl : l.Only P)
    (state : Nat) : (spread (ofGrammar g) graph l state).Only P := by
  rw [spread_eq]
  refine List.foldlRecOn (motive := fun l : Lookaheads => l.Only P) _ _ hl fun l' hl' x hx => ?_
  obtain ⟨symbol, items⟩ := x
  refine only_handOn hl' fun y hy => ?_
  -- what is handed on is in the closure of the state that it comes from
  have hmem := mem_of_mem_group hx hy
  rw [List.mem_mergeSort, List.mem_filterMap] at hmem
  obtain ⟨⟨i, set⟩, hi, hnext⟩ := hmem
  obtain ⟨s, -, heq⟩ := Option.map_eq_some_iff.mp hnext
  cases heq
  exact RuleBook.only_closure hrow (hl.kernel graph state) (i, set) hi

/-- and spreading until nothing changes. -/
theorem only_spreadAll (hrow : ∀ p, ∀ s ∈ g.row p, g.isTerminal s = true → P s) {fuel : Nat}
    (hl : l.Only P) : (spreadAll (ofGrammar g) graph fuel l).Only P := by
  induction fuel generalizing l with
  | zero => exact hl
  | succ fuel ih =>
    rw [spreadAll]
    split
    · exact hl
    · exact ih (List.foldlRecOn (motive := fun l : Lookaheads => l.Only P) _ _ hl
        fun l' hl' state _ => only_spread hrow hl' state)

/-- So all lookaheads of the states are admitted. -/
theorem only_lookaheads (hrow : ∀ p, ∀ s ∈ g.row p, g.isTerminal s = true → P s)
    (hfinish : P Symbol.finish) : (graph.lookaheads (ofGrammar g)).Only P := by
  refine only_spreadAll hrow fun state sets hsets set hset => ?_
  rw [Array.getElem?_setIfInBounds] at hsets
  split at hsets
  -- the start item begins with the end of the text, all others with nothing
  · split at hsets
    · cases hsets
      rw [List.mem_singleton.mp hset]
      exact SymbolSet.only_singleton hfinish
    · cases hsets
  · rw [Array.getElem?_map] at hsets
    obtain ⟨items, -, rfl⟩ := Option.map_eq_some_iff.mp hsets
    obtain ⟨_, -, rfl⟩ := List.mem_map.mp hset
    exact SymbolSet.only_empty P

/-- Nothing else is a lookahead in any state. -/
theorem follower_of_mem_closure {state : Nat} {i : Item} {set : SymbolSet}
    (h : (i, set) ∈ (ofGrammar g).closure (graph.kernel (graph.lookaheads (ofGrammar g)) state))
    {a : Symbol} (ha : set.mem a = true) : g.Follower a :=
  RuleBook.only_closure (fun p _ hs ht => .inr ⟨ht, p, hs⟩)
    ((only_lookaheads (fun p _ hs ht => .inr ⟨ht, p, hs⟩) (.inl rfl)).kernel graph state)
    (i, set) h a ha

end StateGraph

end IncrementalParsing
