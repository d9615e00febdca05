import IncrementalParsing.Proofs.Lalr.Completeness
import IncrementalParsing.Proofs.Lalr.Followers
import IncrementalParsing.Proofs.Lalr.Kernels

/-!
# Actions are candidates

Precedence decides between the actions that the items of a state ask for on a token; it never leaves a
token without an action that some item asks for, and never gives an action that no item asks for.

## Key results

- `RuleBook.asked_of_entry`: an action is chosen where there are candidates, and it is one of them
- `StateGraph.candidates_ne_nil_iff`: what a state asks for is what its items read or are followed by
-/

namespace IncrementalParsing

open RuleBook (ofGrammar)

variable {g : FlatGrammar} {graph : StateGraph}

namespace RuleBook

variable {b : RuleBook} {closure : List (Item × SymbolSet)} {token : Nat}

theorem eq_nil_of_pickReduction {productions : List Nat}
    (h : b.pickReduction token productions = .ok none) : productions = [] := by
  unfold pickReduction at h
  split at h
  · rfl
  · dsimp only at h
    split at h <;> cases h

theorem candidates_eq_nil {target : Option Nat} :
    b.candidates closure token target = [] ↔ b.finished closure token = [] ∧ target = none := by
  rw [candidates, List.append_eq_nil_iff, List.map_eq_nil_iff, Option.toList_eq_nil_iff,
    Option.map_eq_none_iff]

/-- Something is chosen where something is asked for, and what is chosen was asked for. -/
theorem asked_of_chooseAction {target : Option Nat} {found : Option Action}
    (h : b.chooseAction closure token target = .ok found) :
    (found = none ↔ b.candidates closure token target = []) ∧
      ∀ a, found = some a → a ∈ b.candidates closure token target := by
  have hsome : ∀ a, found = some a → a ∈ b.candidates closure token target := by
    rintro a rfl
    obtain ⟨p, rfl, hp⟩ | ⟨s, rfl, rfl⟩ := chooseAction_eq h
    · exact List.mem_append_left _ (List.mem_map_of_mem hp)
    · exact List.mem_append_right _ (List.mem_singleton_self _)
  refine ⟨⟨fun hnone => ?_, fun hnil => ?_⟩, hsome⟩
  -- only where nothing is finished and nothing leads on is no action chosen
  · subst hnone
    unfold chooseAction at h
    simp only [Except.bind_eq_ok] at h
    obtain ⟨picked, hpicked, h⟩ := h
    split at h
    · exact candidates_eq_nil.mpr ⟨eq_nil_of_pickReduction hpicked, rfl⟩
    · cases h
    · cases h
    · simp only [Except.bind_eq_ok, Except.pure_eq_ok, reduceCtorEq, and_false, exists_false] at h
  · refine Option.eq_none_iff_forall_ne_some.mpr fun a ha => ?_
    have := hsome a ha
    rw [hnil] at this
    cases this

/-- The entry of a token holds an action where something is asked for, and one that was. -/
theorem asked_of_entry {transitions : List (Nat × Nat)} {lookaheads : SymbolSet}
    {e : Option (Symbol × Action)}
    (hlookaheads : ∀ x ∈ closure, b.next? x.1 = none → x.2.Within lookaheads)
    (ht : b.grammar.isTerminal token = true) (h : b.entry closure transitions lookaheads token = .ok e) :
    (e = none ↔ b.candidates closure token (transitions.lookup token) = []) ∧
      ∀ a, e = some (token, a) → a ∈ b.candidates closure token (transitions.lookup token) := by
  unfold entry at h
  simp only [ht, if_true] at h
  split at h
  · simp only [Except.bind_eq_ok, Except.pure_eq_ok] at h
    obtain ⟨found, hfound, rfl⟩ := h
    -- the token is among the lookaheads, and so something is chosen for it
    obtain ⟨hnone, hsome⟩ := asked_of_chooseAction hfound
    refine ⟨Option.map_eq_none_iff.trans hnone, fun a ha => hsome a ?_⟩
    obtain ⟨a', ha', heq⟩ := Option.map_eq_some_iff.mp ha
    cases heq
    exact ha'
  · -- no item is read and followed by the token, or it would be among the lookaheads
    rename_i hunseen
    rw [Bool.or_eq_true, not_or, Bool.not_eq_true, Bool.not_eq_true, Option.isSome_eq_false_iff,
      Option.isNone_iff_eq_none] at hunseen
    cases h
    refine ⟨iff_of_true rfl (candidates_eq_nil.mpr ⟨?_, hunseen.2⟩), fun a ha => by cases ha⟩
    refine List.eq_nil_iff_forall_not_mem.mpr fun p hp => ?_
    obtain ⟨i, set, hi, -, hnext, hset⟩ := mem_finished.mp hp
    exact Bool.false_ne_true (hunseen.1.symm.trans (hlookaheads _ hi hnext token hset))

/-- The actions of a state on a token: there is one where something is asked for, and it was. -/
theorem asked_of_chooseActions {transitions : List (Nat × Nat)} {actions : List (Symbol × Action)}
    (h : b.chooseActions closure transitions = .ok actions) (hbound : token < b.grammar.symbols.size)
    (ht : b.grammar.isTerminal token = true) :
    (actions.lookup token = none ↔ b.candidates closure token (transitions.lookup token) = []) ∧
      ∀ a, actions.lookup token = some a →
        a ∈ b.candidates closure token (transitions.lookup token) := by
  obtain ⟨entries, hentries, rfl⟩ := chooseActions_eq_ok.mp h
  obtain ⟨e, he, -⟩ := hentries.exists_entry hbound
  obtain ⟨hnone, hsome⟩ := asked_of_entry (within_lookaheadsOf b closure) ht he
  -- what is found for the token is its own entry
  have hlookup : ∀ a, (entries.filterMap id).lookup token = some a ↔ e = some (token, a) := by
    refine fun a => ⟨fun ha => ?_, fun ha => ?_⟩
    · have hentry := (hentries.mem_iff.mp (StateGraph.mem_of_lookup ha)).2
      exact Except.ok.inj (he.symm.trans hentry)
    · exact StateGraph.lookup_of_mem hentries.pairwise (hentries.mem_iff.mpr ⟨hbound, ha ▸ he⟩)
  refine ⟨?_, fun a ha => hsome a ((hlookup a).mp ha)⟩
  rw [← hnone]
  refine ⟨fun hl => Option.eq_none_iff_forall_ne_some.mpr fun x hx => ?_, fun hx =>
    Option.eq_none_iff_forall_ne_some.mpr fun a ha => ?_⟩
  · obtain ⟨s, a⟩ := x
    obtain rfl : s = token := fst_of_entry (hx ▸ he)
    rw [(hlookup a).mpr hx] at hl
    cases hl
  · rw [(hlookup a).mp ha] at hx
    cases hx

end RuleBook

namespace StateGraph

/-- A state expects a symbol: one of its items reads it next, or has been read and can be followed by
it. -/
def Expects (b : RuleBook) (graph : StateGraph) (state : StateId) (a : Symbol) : Prop :=
  ∃ i set, (i, set) ∈ b.closure (graph.kernel (graph.lookaheads b) state) ∧
    (b.next? i = some a ∨ b.next? i = none ∧ set.mem a = true)

/-- A symbol leads somewhere from a state where one of its items reads it next. -/
theorem target?_isSome_iff (hg : g.Sound) (h : ofRules (ofGrammar g) = .ok graph) {state : Nat}
    (hstate : state < graph.kernels.size) {a : Symbol} :
    (graph.target? state a).isSome = true ↔ ∃ i set,
      (i, set) ∈ (ofGrammar g).closure (graph.kernel (graph.lookaheads (ofGrammar g)) state) ∧
        (ofGrammar g).next? i = some a := by
  have hs := sound_ofRules hg h
  have hl := fits_lookaheads hg hs
  have hk := Array.getElem?_eq_getElem hstate
  -- the kernel with its lookaheads has the items of the state
  have hkernel : (graph.kernel (graph.lookaheads (ofGrammar g)) state).map (·.1) =
      graph.kernels[state] := by
    rw [hl.map_kernel, Array.getD_eq_getD_getElem?, hk, Option.getD_some]
  constructor
  · intro hsome
    obtain ⟨target, ht⟩ := Option.isSome_iff_exists.mp hsome
    obtain ⟨i, hi, hnext⟩ := exists_closed_of_target hg h hk (mem_of_lookup ht)
    obtain ⟨set, hset⟩ := RuleBook.mem_closure_of_closed hg (hl.below_kernel state) (hkernel ▸ hi)
    exact ⟨i, set, hset, hnext⟩
  · rintro ⟨i, set, hi, hnext⟩
    obtain ⟨target, ht⟩ := (hs.leads state _ hk).all i a
      (hkernel ▸ RuleBook.closed_of_mem_closure hi) hnext
    exact List.lookup_isSome_iff.mpr ⟨(a, target), ht, by simp⟩

/-- There are candidates for what a state expects. -/
theorem candidates_ne_nil_iff (hg : g.Sound) (h : ofRules (ofGrammar g) = .ok graph) {state : Nat}
    (hstate : state < graph.kernels.size) {a : Symbol} :
    graph.candidates (ofGrammar g) state a ≠ [] ↔ graph.Expects (ofGrammar g) state a := by
  rw [candidates, Ne, RuleBook.candidates_eq_nil, not_and_or, ← Ne, ← Ne,
    Option.ne_none_iff_isSome, target?_isSome_iff hg h hstate]
  constructor
  -- a state expects a token that it shifts, or one behind which an item ends
  · rintro (hfinished | ⟨i, set, hi, hnext⟩)
    · obtain ⟨p, hp⟩ := List.exists_mem_of_ne_nil _ hfinished
      obtain ⟨i, set, hi, -, hnext, hset⟩ := RuleBook.mem_finished.mp hp
      exact ⟨i, set, hi, .inr ⟨hnext, hset⟩⟩
    · exact ⟨i, set, hi, .inl hnext⟩
  · rintro ⟨i, set, hi, hnext | ⟨hnext, hset⟩⟩
    · exact .inr ⟨i, set, hi, hnext⟩
    · exact .inl (List.ne_nil_of_mem (RuleBook.mem_finished.mpr ⟨i, set, hi, rfl, hnext, hset⟩))

/-- Only what can follow or be read is expected. -/
theorem Expects.ne_error (hg : g.Sound) {state : Nat} {a : Symbol}
    (h : graph.Expects (ofGrammar g) state a) : a ≠ Symbol.error := by
  obtain ⟨i, set, hi, hnext | ⟨-, hset⟩⟩ := h
  · rw [RuleBook.next?_ofGrammar] at hnext
    rintro rfl
    exact absurd (hg.row (List.mem_of_getElem? hnext)).1 (by decide)
  · exact (follower_of_mem_closure hi hset).ne_error hg

end StateGraph

end IncrementalParsing
