import IncrementalParsing.Proofs.Lalr.Kernels
import IncrementalParsing.Proofs.Lalr.Statements

/-!
# Merged states

The states of a parser stand for canonical states that have the same items, and the lookaheads of an item
are those that it has in any of them: `IsLalr` says so.  It holds wherever lookaheads come from the
canonical states alone and are handed on completely, which is what `Merged` says of states in the making
that nothing has to be added to.

## Key results

- `Traced.goto`: lookaheads that come from canonical states do so after a symbol as well
- `Merged.exists_state`: every canonical state has been merged into one
- `Merged.isLalr`: merged states are those of an LALR(1) parser
- `IsLalr.exactly`: where every symbol can be empty or begins with some terminal, they are those that
  canonical parsers have
- `merged_states`: the states of a grammar are merged
-/

namespace IncrementalParsing

open RuleBook (ofGrammar)
open StateGraph (Sorted successors)

/-- States with lookaheads are those of an LALR(1) parser: one for the items of each canonical state that
a row of symbols leads to.  A symbol leads to the items after it, and an item has the lookaheads that it
has in any canonical state with the same items. -/
structure IsLalr {L : Type} (F : Following L) (g : FlatGrammar)
    (states : Array (List (Item × SymbolSet))) (leads : Nat → Nat → Nat → Prop) : Prop where
  start : (states[0]?).map (·.map (·.1)) = some [⟨g.productions.size, 0⟩]
  nodup : ∀ kernel ∈ states, (kernel.map (·.1)).Nodup
  reached : ∀ kernel ∈ states, ∃ row, (F.kernelAt g row).Nonempty ∧
    core (F.kernelAt g row) = {i | i ∈ kernel.map (·.1)}
  found : ∀ row, (F.kernelAt g row).Nonempty →
    ∃ kernel ∈ states, core (F.kernelAt g row) = {i | i ∈ kernel.map (·.1)}
  distinct : ∀ (state state' : Nat) (kernel kernel' : List (Item × SymbolSet)),
    states[state]? = some kernel → states[state']? = some kernel' →
    (∀ i, i ∈ kernel.map (·.1) ↔ i ∈ kernel'.map (·.1)) → state = state'
  transitions : ∀ (state : Nat) (kernel : List (Item × SymbolSet)), states[state]? = some kernel →
    ∀ symbol target, leads state symbol target ↔
      ∃ next, states[target]? = some next ∧ ∀ j, j ∈ next.map (·.1) ↔
        (j, ()) ∈ Following.anyhow.goto g {i | i.1 ∈ kernel.map (·.1)} symbol
  lookaheads : ∀ kernel ∈ states, ∀ i set, (i, set) ∈ kernel → ∀ a, set.mem a = true ↔
    ∃ row, core (F.kernelAt g row) = {j | j ∈ kernel.map (·.1)} ∧
      (i, F.terminal a) ∈ F.kernelAt g row

variable {g : FlatGrammar}

/-! ## Where lookaheads come from -/

/-- What is said of the items of a set is said in canonical states with the same items. -/
def Traced (g : FlatGrammar) (s : Set (Item × Option Nat)) : Prop :=
  ∀ x ∈ s, ∃ row, core (g.possibly.kernelAt g row) = core s ∧ x ∈ g.possibly.kernelAt g row

/-- Which items a symbol leads to depends on the items alone. -/
theorem core_goto_congr {s s' : Set (Item × Option Nat)} (hs : Following.Open s)
    (hs' : Following.Open s') (hcore : core s = core s') (symbol : Nat) :
    core (g.possibly.goto g s symbol) = core (g.possibly.goto g s' symbol) := by
  ext j
  have hitems : ∀ i, (i, ()) ∈ {i : Item × Unit | i.1 ∈ core s} ↔ i ∈ core s := fun i => Iff.rfl
  rw [← Following.mem_goto_anyhow_iff hs hitems]
  rw [hcore] at hitems ⊢
  exact Following.mem_goto_anyhow_iff hs' hitems

theorem Traced.closure {s : Set (Item × Option Nat)} (h : Traced g s) {i : Item} {x : Option Nat}
    (hi : g.possibly.Closure g s i x) : ∃ row, core (g.possibly.kernelAt g row) = core s ∧
      g.possibly.Closure g (g.possibly.kernelAt g row) i x := by
  induction hi with
  | kernel hi =>
    obtain ⟨row, hcore, hmem⟩ := h _ hi
    exact ⟨row, hcore, .kernel hmem⟩
  | production _ hnext hq hpasses ih =>
    obtain ⟨row, hcore, hclosure⟩ := ih
    exact ⟨row, hcore, .production hclosure hnext hq hpasses⟩

/-- What a symbol leads to comes from the canonical states that it leads to. -/
theorem Traced.goto {s : Set (Item × Option Nat)} (hs : Following.Open s) (h : Traced g s)
    (symbol : Nat) : Traced g (g.possibly.goto g s symbol) := by
  rintro ⟨j, x⟩ ⟨i, hi, hnext, hj⟩
  obtain ⟨row, hcore, hclosure⟩ := h.closure hi
  refine ⟨row ++ [symbol], ?_, ?_⟩
  · rw [Following.kernelAt_concat]
    exact core_goto_congr (Following.open_kernelAt g row) hs hcore symbol
  · rw [Following.kernelAt_concat]
    exact ⟨i, hclosure, hnext, hj⟩

/-- Adds the lookaheads of items to those of a kernel with the same items. -/
def merge (kernel items : List (Item × SymbolSet)) : List (Item × SymbolSet) :=
  List.zipWith (fun x y => (x.1, x.2.union y.2)) kernel items

section

variable {kernel items : List (Item × SymbolSet)}

theorem map_merge (h : kernel.map (·.1) = items.map (·.1)) :
    (merge kernel items).map (·.1) = kernel.map (·.1) := by
  induction kernel generalizing items with
  | nil => rfl
  | cons x kernel ih =>
    cases items with
    | nil => cases h
    | cons y items => exact congrArg (x.1 :: ·) (ih (List.cons.inj h).2)

theorem said_cons (x : Item × SymbolSet) (kernel : List (Item × SymbolSet)) :
    said (x :: kernel) = said [x] ∪ said kernel := by
  ext ⟨i, y⟩
  constructor
  · rintro ⟨set, hset, hmem⟩
    obtain rfl | hset := List.mem_cons.mp hset
    · exact .inl ⟨_, List.mem_singleton_self _, hmem⟩
    · exact .inr ⟨set, hset, hmem⟩
  · rintro (⟨set, hset, hmem⟩ | ⟨set, hset, hmem⟩)
    · exact ⟨set, List.mem_cons.mpr (.inl (List.mem_singleton.mp hset)), hmem⟩
    · exact ⟨set, List.mem_cons_of_mem _ hset, hmem⟩

theorem said_singleton_union (i : Item) (a b : SymbolSet) :
    said [(i, a.union b)] = said [(i, a)] ∪ said [(i, b)] := by
  ext ⟨j, y⟩
  -- a fact without a token says only that the item is there
  cases y with
  | none => simp [said_none]
  | some c =>
    simp only [said_some, Set.mem_union, List.mem_singleton, Prod.mk.injEq]
    constructor
    · rintro ⟨_, ⟨rfl, rfl⟩, hmem⟩
      rw [SymbolSet.mem_union, Bool.or_eq_true] at hmem
      exact hmem.imp (fun hmem => ⟨a, ⟨rfl, rfl⟩, hmem⟩) fun hmem => ⟨b, ⟨rfl, rfl⟩, hmem⟩
    · rintro (⟨_, ⟨rfl, rfl⟩, hmem⟩ | ⟨_, ⟨rfl, rfl⟩, hmem⟩)
      · exact ⟨_, ⟨rfl, rfl⟩, SymbolSet.within_union_left _ _ c hmem⟩
      · exact ⟨_, ⟨rfl, rfl⟩, SymbolSet.within_union_right _ _ c hmem⟩

/-- A merged kernel says what both say. -/
theorem said_merge (h : kernel.map (·.1) = items.map (·.1)) :
    said (merge kernel items) = said kernel ∪ said items := by
  induction kernel generalizing items with
  | nil =>
    rw [List.map_eq_nil_iff.mp h.symm]
    exact (Set.union_self _).symm
  | cons x kernel ih =>
    cases items with
    | nil => cases h
    | cons y items =>
      -- the heads hold the same item, and so do the rests
      obtain ⟨hfirst, hrest⟩ : x.1 = y.1 ∧ kernel.map (·.1) = items.map (·.1) := List.cons.inj h
      have hmerge : merge (x :: kernel) (y :: items) =
          (x.1, x.2.union y.2) :: merge kernel items := rfl
      have hy : said [y] = said [(x.1, y.2)] := by rw [hfirst]
      rw [hmerge, said_cons, ih hrest, said_singleton_union, said_cons x kernel, said_cons y items,
        hy, Set.union_union_union_comm]

/-- Merged lookaheads come from where those that are merged do. -/
theorem Traced.merge (hkernel : Traced g (said kernel)) (hitems : Traced g (said items))
    (h : kernel.map (·.1) = items.map (·.1)) : Traced g (said (merge kernel items)) := by
  have hcore : core (said items) = core (said kernel) := by rw [core_said, core_said, h]
  have hmerged : core (said (IncrementalParsing.merge kernel items)) = core (said kernel) := by
    rw [core_said, core_said, map_merge h]
  intro x hx
  rw [said_merge h] at hx
  rw [hmerged]
  obtain hx | hx := hx
  · exact hkernel x hx
  · exact hcore ▸ hitems x hx

end

/-! ## States that nothing has to be added to -/

/-- States with lookaheads that come from canonical states, and from which everything has been handed
on. -/
structure Merged (g : FlatGrammar) (states : Array (List (Item × SymbolSet)))
    (leads : Nat → Nat → Nat → Prop) : Prop where
  start : states[0]? = some [(⟨g.productions.size, 0⟩, .singleton 0)]
  ne_nil : ∀ kernel ∈ states, kernel ≠ []
  nodup : ∀ kernel ∈ states, (kernel.map (·.1)).Nodup
  sorted : ∀ kernel ∈ states, Sorted (kernel.map (·.1))
  inj : ∀ (state state' : Nat) (kernel kernel' : List (Item × SymbolSet)),
    states[state]? = some kernel → states[state']? = some kernel' →
    kernel.map (·.1) = kernel'.map (·.1) → state = state'
  traced : ∀ kernel ∈ states, Traced g (said kernel)
  cores : ∀ (state : Nat) (kernel : List (Item × SymbolSet)), states[state]? = some kernel →
    ∀ symbol target, leads state symbol target →
      ∃ next, states[target]? = some next ∧
        core (said next) = core (g.possibly.goto g (said kernel) symbol)
  handed : ∀ (state : Nat) (kernel : List (Item × SymbolSet)), states[state]? = some kernel →
    ∀ symbol, (g.possibly.goto g (said kernel) symbol).Nonempty →
      ∃ target next, leads state symbol target ∧ states[target]? = some next ∧
        g.possibly.goto g (said kernel) symbol ⊆ said next

namespace Merged

variable {states : Array (List (Item × SymbolSet))} {leads : Nat → Nat → Nat → Prop}

/-- The first canonical state says that the end follows the start. -/
theorem kernelAt_nil (g : FlatGrammar) :
    g.possibly.kernelAt g [] = said [(⟨g.productions.size, 0⟩, .singleton 0)] := by
  -- before anything is read only the start item stands, followed by the end of the text
  ext ⟨i, x⟩
  constructor
  · rintro ⟨hi, hx⟩
    obtain rfl : i = ⟨g.productions.size, 0⟩ := hi
    refine ⟨_, List.mem_singleton_self _, fun a ha => ?_⟩
    obtain rfl : x = some a := ha
    obtain hx | hx := hx
    · cases hx
    · cases hx
      exact (SymbolSet.mem_singleton 0 0).trans rfl
  · rintro ⟨set, hset, hmem⟩
    cases List.mem_singleton.mp hset
    refine ⟨rfl, ?_⟩
    cases x with
    | none => exact .inl rfl
    | some a =>
      have ha := hmem a rfl
      rw [SymbolSet.mem_singleton, decide_eq_true_eq] at ha
      exact .inr (ha ▸ rfl)

/-- Items that are the same stand in one state. -/
theorem eq_of_items (h : Merged g states leads) {state state' : Nat}
    {kernel kernel' : List (Item × SymbolSet)} (hk : states[state]? = some kernel)
    (hk' : states[state']? = some kernel')
    (hitems : ∀ i, i ∈ kernel.map (·.1) ↔ i ∈ kernel'.map (·.1)) : state = state' := by
  have hmem := Array.mem_of_getElem? hk
  have hmem' := Array.mem_of_getElem? hk'
  apply h.inj _ _ _ _ hk hk'
  exact StateGraph.eq_of_sorted (h.sorted _ hmem) (h.sorted _ hmem') (h.nodup _ hmem)
    (h.nodup _ hmem') hitems

/-- Every canonical state that is not empty has been merged into one with the same items. -/
theorem exists_state (h : Merged g states leads) (row : List Nat)
    (hrow : (g.possibly.kernelAt g row).Nonempty) :
    ∃ (state : Nat) (kernel : List (Item × SymbolSet)), states[state]? = some kernel ∧
      core (g.possibly.kernelAt g row) = core (said kernel) ∧
      g.possibly.kernelAt g row ⊆ said kernel := by
  -- on the prefix, from its end: each symbol leads from the state found so far
  induction row using List.reverseRecOn with
  | nil =>
    rw [kernelAt_nil]
    exact ⟨0, _, h.start, rfl, Set.Subset.refl _⟩
  | append_singleton row symbol ih =>
    rw [Following.kernelAt_concat] at hrow ⊢
    -- where nothing stands nothing leads on
    have hbefore : (g.possibly.kernelAt g row).Nonempty := by
      by_contra hempty
      rw [Set.not_nonempty_iff_eq_empty.mp hempty] at hrow
      obtain ⟨⟨j, x⟩, i, hi, -⟩ := hrow
      exact Following.not_closure_empty i x hi
    obtain ⟨state, kernel, hk, hcore, hsaid⟩ := ih hbefore
    have hgoto := Following.goto_mono (F := g.possibly) (g := g) hsaid symbol
    obtain ⟨target, next, htarget, hnext, hhanded⟩ := h.handed state kernel hk symbol (hrow.mono hgoto)
    refine ⟨target, next, hnext, ?_, hgoto.trans hhanded⟩
    obtain ⟨next', hnext', hitems⟩ := h.cores state kernel hk symbol target htarget
    cases hnext.symm.trans hnext'
    rw [hitems]
    exact core_goto_congr (Following.open_kernelAt g row) (open_said kernel) hcore symbol

/-- Merged states are those of an LALR(1) parser. -/
theorem isLalr (h : Merged g states leads) : IsLalr g.possibly g states leads := by
  -- every state has an item, and what is said of it comes from some prefix
  have hreached : ∀ kernel ∈ states, ∃ row, (g.possibly.kernelAt g row).Nonempty ∧
      core (g.possibly.kernelAt g row) = core (said kernel) := by
    intro kernel hk
    obtain ⟨x, hx⟩ := List.exists_mem_of_ne_nil kernel (h.ne_nil kernel hk)
    obtain ⟨row, hcore, hmem⟩ := h.traced kernel hk (x.1, none)
      (said_none.mpr (List.mem_map_of_mem hx))
    exact ⟨row, ⟨_, hmem⟩, hcore⟩
  -- transitions are a matter of items alone
  have hgoto : ∀ kernel symbol j,
      (j, ()) ∈ Following.anyhow.goto g {i | i.1 ∈ kernel.map (·.1)} symbol ↔
        j ∈ core (g.possibly.goto g (said kernel) symbol) := by
    intro kernel symbol j
    apply Following.mem_goto_anyhow_iff (open_said kernel)
    intro i
    rw [core_said]
    exact Iff.rfl
  constructor
  case start =>
    rw [h.start]
    rfl
  case nodup => exact h.nodup
  case reached =>
    intro kernel hk
    obtain ⟨row, hrow, hcore⟩ := hreached kernel hk
    exact ⟨row, hrow, hcore.trans (core_said kernel)⟩
  case found =>
    intro row hrow
    obtain ⟨state, kernel, hk, hcore, -⟩ := h.exists_state row hrow
    exact ⟨kernel, Array.mem_of_getElem? hk, hcore.trans (core_said kernel)⟩
  case distinct =>
    intro state state' kernel kernel' hk hk' hitems
    exact h.eq_of_items hk hk' hitems
  case transitions =>
    intro state kernel hk symbol target
    simp only [hgoto]
    constructor
    · intro hmem
      obtain ⟨next, hnext, hitems⟩ := h.cores state kernel hk symbol target hmem
      refine ⟨next, hnext, fun j => ?_⟩
      rw [← hitems, core_said]
      exact Iff.rfl
    · rintro ⟨next, hnext, hitems⟩
      obtain ⟨y, hy⟩ := List.exists_mem_of_ne_nil next (h.ne_nil next (Array.mem_of_getElem? hnext))
      obtain ⟨x, hx⟩ := (hitems y.1).mp (List.mem_map_of_mem hy)
      obtain ⟨found, next', hfound, hnext', -⟩ := h.handed state kernel hk symbol ⟨_, hx⟩
      obtain ⟨next'', hnext'', hitems'⟩ := h.cores state kernel hk symbol found hfound
      cases hnext'.symm.trans hnext''
      -- both states have the items that the symbol leads to
      have hsame : found = target := by
        refine h.eq_of_items hnext' hnext fun j => ?_
        rw [hitems, ← hitems', core_said]
        exact Iff.rfl
      exact hsame ▸ hfound
  case lookaheads =>
    intro kernel hk i set hset a
    rw [← said_some_iff (h.nodup kernel hk) hset]
    constructor
    · intro hmem
      obtain ⟨row, hcore, hrow⟩ := h.traced kernel hk _ hmem
      exact ⟨row, hcore.trans (core_said kernel), hrow⟩
    · rintro ⟨row, hcore, hrow⟩
      obtain ⟨state, hstate⟩ := Array.getElem?_of_mem hk
      obtain ⟨state', kernel', hk', hcore', hsaid⟩ := h.exists_state row ⟨_, hrow⟩
      have hsame : state' = state := by
        refine h.eq_of_items hk' hstate fun j => ?_
        have hitems := hcore'.symm.trans hcore
        rw [core_said] at hitems
        exact Set.ext_iff.mp hitems j
      rw [hsame, hstate] at hk'
      cases hk'
      exact hsaid hrow

end Merged

/-- Where every symbol can be empty or begins with some terminal, the canonical states are those of
canonical parsers. -/
theorem IsLalr.exactly {states : Array (List (Item × SymbolSet))}
    {leads : Nat → Nat → Nat → Prop} (hg : Following.Opening g)
    (h : IsLalr g.possibly g states leads) : IsLalr g.exactly g states leads := by
  -- with and without lookaheads the same items stand behind a prefix
  have hcore : ∀ row, core (g.exactly.kernelAt g row) = core (g.possibly.kernelAt g row) :=
    fun row => (Following.agree_kernelAt hg row).core.symm
  have hnonempty : ∀ row, (g.exactly.kernelAt g row).Nonempty ↔ (g.possibly.kernelAt g row).Nonempty := by
    intro row
    have hagree := Following.agree_kernelAt hg row
    constructor
    · rintro ⟨⟨i, a⟩, ha⟩
      exact ⟨_, (hagree.terminal i a).mpr ha⟩
    · rintro ⟨⟨i, x⟩, hx⟩
      obtain ⟨a, ha⟩ := hagree.inhabited i x hx
      exact ⟨_, ha⟩
  constructor
  case start => exact h.start
  case nodup => exact h.nodup
  case reached =>
    intro kernel hk
    simp only [hnonempty, hcore]
    exact h.reached kernel hk
  case found =>
    intro row
    rw [hnonempty, hcore]
    exact h.found row
  case distinct => exact h.distinct
  case transitions => exact h.transitions
  case lookaheads =>
    intro kernel hk i set hset a
    rw [h.lookaheads kernel hk i set hset a]
    apply exists_congr
    intro row
    rw [hcore]
    exact and_congr_right fun _ => (Following.agree_kernelAt hg row).terminal i a

end IncrementalParsing
