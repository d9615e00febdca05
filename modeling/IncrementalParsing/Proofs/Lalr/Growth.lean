import IncrementalParsing.Proofs.Lalr.Closings
import IncrementalParsing.Proofs.Lalr.Origins
import Mathlib.Logic.Function.Basic

/-!
# Making states in any order

States can be made with their lookaheads at once: a state that is gone on with adds what symbols lead to,
as a new state or as lookaheads of the state with these items, and a state that gains any is to be gone
on with once more.  Here the states are taken up in any order.  Where the states of a grammar can be
numbered at all, none of these orders fails, every one ends, and the states at the end are merged.

## Key results

- `grown_of_mem_yields`: what symbols lead to comes from canonical states
- `Follows.visit`: what going on with a state keeps
- `exists_visit`: going on with a state does not fail
- `growth_ends`: only so many states can be gone on with
- `merged_growth`: at the end, the states are merged
-/

namespace IncrementalParsing

open RuleBook (ofGrammar)
open StateGraph (ofRules successors bare map_bare below_bare maxStates)
open Worklist (Lawful)

/-- A state is known by its items.  It adds what its symbols lead to. -/
def RuleBook.growing (b : RuleBook) : Worklist.Rules (List Item) (List SymbolSet) where
  join := List.zipWith SymbolSet.union
  yields items sets := (successors b (items.zip sets)).map fun x => (x.2.map (·.1), x.2.map (·.2))
  repeats := false

/-- States in the making, and where each symbol leads from each of them. -/
structure Growth where
  worklist : Worklist (List Item) (List SymbolSet)
  transitions : Nat → Nat → Option Nat

namespace Growth

/-- The state of the start. -/
def start (b : RuleBook) : Growth where
  worklist := ⟨[([b.startItem], [.singleton 0])], [[b.startItem]]⟩
  transitions _ _ := none

/-- The items of all states, in the order in which they were found. -/
def items (a : Growth) : List (List Item) := a.worklist.found.map (·.1)

/-- All states with their lookaheads. -/
def states (a : Growth) : Array (List (Item × SymbolSet)) :=
  (a.worklist.found.map fun x => x.1.zip x.2).toArray

/-- A symbol leads from a state to another. -/
def Leading (a : Growth) (state symbol target : Nat) : Prop :=
  a.transitions state symbol = some target

/-- Where a symbol leads is written down. -/
def put (number : List Item → Nat) (old : Nat → Option Nat) (x : Nat × List (Item × SymbolSet)) :
    Nat → Option Nat :=
  Function.update old x.1 (some (number (x.2.map (·.1))))

/-- Where all symbols lead is written down. -/
def moves (number : List Item → Nat) (next : List (Nat × List (Item × SymbolSet)))
    (old : Nat → Option Nat) : Nat → Option Nat := next.foldl (put number) old

/-- Goes on with a state. -/
def visit (b : RuleBook) (a : Growth) (kernel : List Item) : Except CompileFault Growth :=
  let next := successors b (kernel.zip ((a.worklist.get? kernel).getD []))
  let worklist := a.worklist.visit b.growing kernel
  let number := fun items => (worklist.found.map (·.1)).idxOf items
  if maxStates < worklist.found.length then .error (.tooMany .states (maxStates + 1))
  else .ok
    { worklist := worklist
      transitions := Function.update a.transitions (number kernel)
        (moves number next (a.transitions (number kernel))) }

/-- States are reached by going on with a number of states, each of them listed at that time. -/
inductive Reaches (b : RuleBook) : Nat → Growth → Prop
  | start : Reaches b 0 (start b)
  | visit {n : Nat} {a a' : Growth} {kernel : List Item} (h : Reaches b n a)
      (hkernel : kernel ∈ a.worklist.pending) (ha : a.visit b kernel = .ok a') : Reaches b (n + 1) a'

/-! ## Lookaheads side by side -/

theorem zipWith_union_assoc (a b c : List SymbolSet) :
    List.zipWith SymbolSet.union (List.zipWith SymbolSet.union a b) c =
      List.zipWith SymbolSet.union a (List.zipWith SymbolSet.union b c) := by
  -- the lists are taken apart together, and the shortest one ends them
  induction a generalizing b c with
  | nil => rfl
  | cons x a ih =>
    cases b with
    | nil => rfl
    | cons y b =>
      cases c with
      | nil => rfl
      | cons z c =>
        rw [List.zipWith_cons_cons, List.zipWith_cons_cons, List.zipWith_cons_cons,
          List.zipWith_cons_cons, ih, SymbolSet.union_assoc]

theorem zipWith_union_self (a : List SymbolSet) : List.zipWith SymbolSet.union a a = a := by
  rw [List.zipWith_self]
  simp only [SymbolSet.union_self, List.map_id']

variable {g : FlatGrammar} {graph : StateGraph}

/-- What a state is found with: items of a state of the grammar, and lookaheads that come from canonical
states. -/
structure Grown (g : FlatGrammar) (graph : StateGraph) (kernel : List Item) (sets : List SymbolSet) :
    Prop where
  known : kernel ∈ graph.kernels.toList
  length : sets.length = kernel.length
  below : ∀ set ∈ sets, set.Below g.symbols.size
  traced : Traced g (said (kernel.zip sets))
  first : kernel = [(ofGrammar g).startItem] → sets = [.singleton 0]

namespace Grown

variable {kernel : List Item} {sets : List SymbolSet} (h : Grown g graph kernel sets)
include h

theorem map_zip : (kernel.zip sets).map (·.1) = kernel :=
  List.map_fst_zip (Nat.le_of_eq h.length.symm)

theorem below_zip : ∀ x ∈ kernel.zip sets, x.2.Below g.symbols.size :=
  fun x hx => h.below x.2 (List.of_mem_zip hx).2

/-- Which items a symbol leads to does not depend on the lookaheads. -/
theorem map_successors (hg : g.Sound) :
    (successors (ofGrammar g) (kernel.zip sets)).map (fun x => (x.1, x.2.map (·.1))) =
      (successors (ofGrammar g) (bare kernel)).map (fun x => (x.1, x.2.map (·.1))) := by
  apply StateGraph.map_successors_congr hg h.below_zip (below_bare kernel)
  rw [h.map_zip, map_bare]

/-- What a symbol leads to is what it leads to without lookaheads. -/
theorem exists_bare (hg : g.Sound) {symbol : Nat} {next : List (Item × SymbolSet)}
    (hnext : (symbol, next) ∈ successors (ofGrammar g) (kernel.zip sets)) :
    ∃ next', (symbol, next') ∈ successors (ofGrammar g) (bare kernel) ∧
      next'.map (·.1) = next.map (·.1) := by
  have hmem : (symbol, next.map (·.1)) ∈
      (successors (ofGrammar g) (kernel.zip sets)).map (fun x => (x.1, x.2.map (·.1))) :=
    List.mem_map.mpr ⟨_, hnext, rfl⟩
  rw [h.map_successors hg] at hmem
  obtain ⟨⟨symbol', next'⟩, hnext', heq⟩ := List.mem_map.mp hmem
  obtain ⟨rfl, hitems⟩ := Prod.mk.inj heq
  exact ⟨next', hnext', hitems⟩

/-- And the other way round. -/
theorem exists_of_bare (hg : g.Sound) {symbol : Nat} {next' : List (Item × SymbolSet)}
    (hnext' : (symbol, next') ∈ successors (ofGrammar g) (bare kernel)) :
    ∃ next, (symbol, next) ∈ successors (ofGrammar g) (kernel.zip sets) ∧
      next.map (·.1) = next'.map (·.1) := by
  have hmem : (symbol, next'.map (·.1)) ∈
      (successors (ofGrammar g) (bare kernel)).map (fun x => (x.1, x.2.map (·.1))) :=
    List.mem_map.mpr ⟨_, hnext', rfl⟩
  rw [← h.map_successors hg] at hmem
  obtain ⟨⟨symbol', next⟩, hnext, heq⟩ := List.mem_map.mp hmem
  obtain ⟨rfl, hitems⟩ := Prod.mk.inj heq
  exact ⟨next, hnext, hitems⟩

/-- Lookaheads that are found for the same items once more are right as well. -/
theorem join {sets' : List SymbolSet} (h' : Grown g graph kernel sets') :
    Grown g graph kernel (List.zipWith SymbolSet.union sets sets') := by
  have hzip : (kernel.zip sets').map (·.2) = sets' := List.map_snd_zip (Nat.le_of_eq h'.length)
  -- the two kernels hold the same items, so their sets are joined place by place
  have hmerge := StateGraph.merge_zip kernel sets (kernel.zip sets')
  rw [hzip] at hmerge
  refine ⟨h.known, ?_, fun set hset => ?_, ?_, fun hstart => ?_⟩
  · rw [List.length_zipWith, h.length, h'.length, Nat.min_self]
  · obtain ⟨k, hk, rfl⟩ := List.getElem_of_mem hset
    rw [List.getElem_zipWith]
    exact (h.below _ (List.getElem_mem _)).union (h'.below _ (List.getElem_mem _))
  · rw [← hmerge]
    exact h.traced.merge h'.traced (h.map_zip.trans h'.map_zip.symm)
  · rw [h.first hstart, h'.first hstart]
    exact zipWith_union_self _

/-- What symbols lead to comes from canonical states. -/
theorem of_mem_yields (hg : g.Sound) (hs : graph.Sound g) :
    ∀ x ∈ (ofGrammar g).growing.yields kernel sets, Grown g graph x.1 x.2 := by
  intro x hx
  obtain ⟨⟨symbol, next⟩, hnext, rfl⟩ := List.mem_map.mp hx
  obtain ⟨next', hnext', hitems⟩ := h.exists_bare hg hnext
  have hzip : (next.map (·.1)).zip (next.map (·.2)) = next := (List.zip_of_prod rfl rfl).symm
  constructor
  case known =>
    rw [← hitems]
    exact hs.closed kernel h.known _ hnext'
  case length => rw [List.length_map, List.length_map]
  -- the lookaheads of a successor are those of items of the closure
  case below =>
    intro set hset
    obtain ⟨x, hx, rfl⟩ := List.mem_map.mp hset
    rw [StateGraph.eq_of_mem_successors hnext] at hx
    obtain ⟨y, hy, rfl⟩ := List.mem_map.mp hx
    exact RuleBook.below_closure hg h.below_zip y (List.mem_of_mem_filter hy)
  -- what a prefix leads to, the symbol after it leads on from
  case traced =>
    rw [hzip, said_of_mem_successors hg h.below_zip hnext]
    exact h.traced.goto (open_said _) symbol
  case first =>
    -- no symbol leads back to the start, of which nothing has been read
    intro hstart
    have hmem : (ofGrammar g).startItem ∈ next'.map (·.1) := by
      rw [hitems, show next.map (·.1) = _ from hstart]
      exact List.mem_singleton_self _
    obtain ⟨i, -, -, heq⟩ := StateGraph.advance_of_mem_successors hnext' hmem
    cases congrArg Item.dot heq

end Grown

theorem lawful_growing (hg : g.Sound) (hs : graph.Sound g) :
    Lawful (ofGrammar g).growing (Grown g graph) graph.kernels.toList
      (sumOf (SymbolSet.missing g.symbols.size)) fun kernel => kernel.length * g.symbols.size where
  assoc := zipWith_union_assoc
  comm a b := List.zipWith_comm_of_comm SymbolSet.union_comm
  idem := zipWith_union_self
  join := fun h h' => h.join h'
  yields := fun h => h.of_mem_yields hg hs
  known := Grown.known
  -- a set that is joined to and changes has fewer symbols missing
  less := by
    intro kernel sets sets' h h' hne
    exact (StateGraph.zipWith_union_eq_or_lt (h.length.trans h'.length.symm) h'.below).resolve_left hne
  missing_le := by
    intro kernel sets h
    rw [← h.length]
    exact sumOf_le fun set _ => set.missing_le _

/-! ## Where symbols lead -/

/-- What leads somewhere keeps doing so. -/
theorem exists_moves (number : List Item → Nat) (next : List (Nat × List (Item × SymbolSet)))
    {old : Nat → Option Nat} {symbol : Nat} (h : ∃ target, old symbol = some target) :
    ∃ target, moves number next old symbol = some target := by
  induction next generalizing old with
  | nil => exact h
  | cons x next ih =>
    apply ih
    rw [put, Function.update_apply]
    split
    · exact ⟨_, rfl⟩
    · exact h

/-- Where a symbol leads has been written down. -/
theorem moves_cases {number : List Item → Nat} {next : List (Nat × List (Item × SymbolSet))}
    {old : Nat → Option Nat} {symbol target : Nat} (h : moves number next old symbol = some target) :
    old symbol = some target ∨
      ∃ items, (symbol, items) ∈ next ∧ target = number (items.map (·.1)) := by
  induction next generalizing old with
  | nil => exact .inl h
  | cons x next ih =>
    obtain hold | ⟨items, hitems, htarget⟩ := ih h
    -- the last successor of the symbol is the one that counts
    · rw [put, Function.update_apply] at hold
      split at hold
      · rename_i heq
        cases hold
        exact .inr ⟨x.2, heq ▸ List.mem_cons_self .., rfl⟩
      · exact .inl hold
    · exact .inr ⟨items, List.mem_cons_of_mem _ hitems, htarget⟩

/-- Every symbol leads somewhere. -/
theorem exists_moves_of_mem {number : List Item → Nat} {next : List (Nat × List (Item × SymbolSet))}
    (old : Nat → Option Nat) {symbol : Nat} {items : List (Item × SymbolSet)}
    (h : (symbol, items) ∈ next) : ∃ target, moves number next old symbol = some target := by
  induction next generalizing old with
  | nil => cases h
  | cons x next ih =>
    obtain rfl | h := List.mem_cons.mp h
    · exact exists_moves number next ⟨_, Function.update_self ..⟩
    · exact ih _ h

/-! ## Going on with states -/

/-- Going on with a state writes down where its symbols lead, and nothing else. -/
theorem visit_spec {b : RuleBook} {a a' : Growth} {kernel : List Item} {sets : List SymbolSet}
    (hsets : a.worklist.get? kernel = some sets) (h : a.visit b kernel = .ok a') :
    a'.worklist = a.worklist.visit b.growing kernel ∧ ∀ state, a'.transitions state =
      if state = a'.items.idxOf kernel then
        moves (a'.items.idxOf ·) (successors b (kernel.zip sets)) (a.transitions state)
      else a.transitions state := by
  unfold visit at h
  rw [hsets] at h
  dsimp only [Option.getD_some] at h
  -- a visit fails only where there are too many states
  split at h
  · cases h
  · cases h
    -- only the transitions of the visited state are changed
    refine ⟨rfl, fun state => (Function.update_apply ..).trans ?_⟩
    split
    · rename_i heq
      subst heq
      exact (if_pos rfl).symm
    · rename_i hne
      exact (if_neg hne).symm

/-- What holds of states that are reached: each symbol leads to the items after it, and from the states
that are not listed every symbol leads somewhere. -/
structure Follows (g : FlatGrammar) (n : Nat) (a : Growth) : Prop where
  worklist : Worklist.Reaches (ofGrammar g).growing (start (ofGrammar g)).worklist n a.worklist
  target : ∀ state symbol target, a.transitions state symbol = some target →
    ∃ kernel next, a.items[state]? = some kernel ∧
      (symbol, next) ∈ successors (ofGrammar g) (bare kernel) ∧
        a.items[target]? = some (next.map (·.1))
  all : ∀ kernel ∈ a.items, kernel ∉ a.worklist.pending → ∀ symbol next,
    (symbol, next) ∈ successors (ofGrammar g) (bare kernel) →
      ∃ target, a.transitions (a.items.idxOf kernel) symbol = some target

/-- There are no more states than the grammar has. -/
theorem length_le (hs : graph.Sound g) {w : Worklist (List Item) (List SymbolSet)}
    (hw : w.Sound (Grown g graph)) : w.found.length ≤ maxStates := by
  have hsubset : w.found.map (·.1) ⊆ graph.kernels.toList := by
    intro kernel hk
    obtain ⟨sets, hsets⟩ := Worklist.exists_get? hk
    exact (hw.fits kernel sets hsets).known
  have hlength := (List.subperm_of_subset hw.nodup hsubset).length_le
  rw [List.length_map, Array.length_toList] at hlength
  exact hlength.trans hs.size_le

section

variable (hg : g.Sound) (hs : graph.Sound g)
include hg hs

theorem sound_start : (start (ofGrammar g)).worklist.Sound (Grown g graph) := by
  refine ⟨List.nodup_singleton _, fun kernel sets hsets => ?_, List.Subset.refl _⟩
  obtain ⟨rfl, rfl⟩ := Prod.mk.inj (List.mem_singleton.mp (Worklist.mem_of_get? hsets))
  -- the worklist holds the start item alone, in front of the end of the text
  constructor
  case known => exact Array.mem_toList_iff.mpr (Array.mem_of_getElem? hs.zero)
  case length => rfl
  case below =>
    intro set hset
    rw [List.mem_singleton.mp hset]
    exact SymbolSet.below_singleton (Nat.lt_of_le_of_lt (Nat.zero_le _) hg.start.2.1)
  case traced =>
    intro x hx
    refine ⟨[], ?_⟩
    rw [Merged.kernelAt_nil]
    exact ⟨rfl, hx⟩
  case first => exact fun _ => rfl

variable {n : Nat} {a : Growth} (h : Follows g n a)
include h

theorem Follows.reaches :
    a.worklist.Sound (Grown g graph) ∧ a.worklist.Explored (ofGrammar g).growing ∧
      [[(ofGrammar g).startItem]] <+: a.items ∧
      n ≤ 1 + sumOf (fun kernel => kernel.length * g.symbols.size + 1) graph.kernels.toList := by
  -- nothing is explored yet but the kernel that waits
  have hexplored : (start (ofGrammar g)).worklist.Explored (ofGrammar g).growing := by
    intro kernel sets hsets
    obtain ⟨rfl, -⟩ := Prod.mk.inj (List.mem_singleton.mp (Worklist.mem_of_get? hsets))
    exact .inl (List.mem_singleton_self _)
  have hlawful := lawful_growing hg hs
  obtain ⟨hsound, hexplored', -, hkeys, hn⟩ :=
    hlawful.reaches (sound_start hg hs) hexplored h.worklist
  have hcost := hlawful.cost_le (sound_start hg hs)
  have hpending : (start (ofGrammar g)).worklist.pending.length = 1 := rfl
  exact ⟨hsound, hexplored', hkeys, by omega⟩

/-- Going on with a state does not fail. -/
theorem Follows.exists_visit (kernel : List Item) : ∃ a', a.visit (ofGrammar g) kernel = .ok a' := by
  obtain ⟨hsound, -⟩ := h.reaches hg hs
  have hlength := length_le hs ((lawful_growing hg hs).visit hsound kernel).1
  unfold visit
  dsimp only
  rw [if_neg (Nat.not_lt_of_le hlength)]
  exact ⟨_, rfl⟩

/-- Going on with a state finds where its symbols lead. -/
theorem Follows.visit {a' : Growth} {kernel : List Item} (hkernel : kernel ∈ a.worklist.pending)
    (ha : a.visit (ofGrammar g) kernel = .ok a') : Follows g (n + 1) a' := by
  obtain ⟨hsound, -⟩ := h.reaches hg hs
  obtain ⟨sets, hsets⟩ := Worklist.exists_get? (hsound.listed hkernel)
  have hgrown := hsound.fits kernel sets hsets
  have hlawful := lawful_growing hg hs
  obtain ⟨hsound', hgrows, hfound⟩ := hlawful.visit hsound kernel
  obtain ⟨hworklist, htransitions⟩ := visit_spec hsets ha
  rw [← hworklist] at hsound' hgrows hfound
  obtain ⟨more, hmore⟩ : a.items <+: a'.items := hgrows.keys
  -- states keep their numbers
  have hget : ∀ {state : Nat} {k : List Item}, a.items[state]? = some k →
      a'.items[state]? = some k := by
    intro state k hk
    rw [← hmore, List.getElem?_append_left (List.getElem?_eq_some_iff.mp hk).1]
    exact hk
  have hnumber : ∀ k ∈ a.items, a'.items.idxOf k = a.items.idxOf k := by
    intro k hk
    rw [← hmore, List.idxOf_append_of_mem hk]
  have hmem : kernel ∈ a'.items := hmore ▸ List.mem_append_left more (hsound.listed hkernel)
  -- each successor is a state after the visit
  have hadded : ∀ symbol next, (symbol, next) ∈ successors (ofGrammar g) (kernel.zip sets) →
      next.map (·.1) ∈ a'.items := by
    intro symbol next hnext
    obtain ⟨v, hv, -⟩ := hfound sets hsets _ (List.mem_map_of_mem hnext)
    exact List.mem_map_of_mem (Worklist.mem_of_get? hv)
  refine ⟨hworklist ▸ .visit h.worklist hkernel, fun state symbol target htarget => ?_,
    fun k hk hpending symbol next hnext => ?_⟩
  -- a transition is an old one, or one of the state that was visited
  · have hold : a.transitions state symbol = some target → ∃ k next, a'.items[state]? = some k ∧
        (symbol, next) ∈ successors (ofGrammar g) (bare k) ∧
          a'.items[target]? = some (next.map (·.1)) := by
      intro hold
      obtain ⟨k, next, hk, hnext, htarget⟩ := h.target state symbol target hold
      exact ⟨k, next, hget hk, hnext, hget htarget⟩
    rw [htransitions] at htarget
    split at htarget
    · rename_i hstate
      obtain htarget | ⟨next, hnext, rfl⟩ := moves_cases htarget
      · exact hold htarget
      · obtain ⟨next', hnext', hitems⟩ := hgrown.exists_bare hg hnext
        refine ⟨kernel, next', ?_, hnext', ?_⟩
        · rw [hstate]
          exact List.getElem?_idxOf hmem
        · rw [hitems]
          exact List.getElem?_idxOf (hadded symbol next hnext)
    · exact hold htarget
  · rw [htransitions]
    by_cases hsame : k = kernel
    -- the visited state leads on with all its symbols
    · subst hsame
      obtain ⟨next', hnext', -⟩ := hgrown.exists_of_bare hg hnext
      rw [if_pos rfl]
      exact exists_moves_of_mem _ hnext'
    · -- a state that is not listed was found before, and was not listed then
      obtain ⟨v, hv⟩ := Worklist.exists_get? hk
      have hbefore : a.worklist.get? k = some v := by
        rw [← hv]
        exact ((hgrows.same k).resolve_right hpending).symm
      have hk' : k ∈ a.items := List.mem_map_of_mem (Worklist.mem_of_get? hbefore)
      have hpending' : k ∉ a.worklist.pending :=
        fun hlisted => hpending (hworklist ▸ hlawful.mem_pending_visit hsound hsame hlisted)
      have hexists := h.all k hk' hpending' symbol next hnext
      rw [hnumber k hk']
      split
      · exact exists_moves _ _ hexists
      · exact hexists

end

/-- Whatever the order of the states is, each symbol leads to the items after it. -/
theorem Reaches.follows (hg : g.Sound) (hs : graph.Sound g) {n : Nat} {a : Growth}
    (h : Reaches (ofGrammar g) n a) : Follows g n a := by
  induction h with
  | start =>
    refine ⟨.refl, fun state symbol target htarget => ?_, fun kernel hkernel hpending => ?_⟩
    · cases htarget
    · exact absurd hkernel hpending
  | visit _ hkernel ha ih => exact ih.visit hg hs hkernel ha

/-! ## The end -/

section

variable (hg : g.Sound) (hgraph : ofRules (ofGrammar g) = .ok graph) {n : Nat} {a : Growth}
  (h : Reaches (ofGrammar g) n a)
include hg hgraph h

/-- Only so many states can be gone on with: each once, and once for every lookahead that it gains. -/
theorem growth_ends :
    n ≤ 1 + sumOf (fun kernel => kernel.length * g.symbols.size + 1) graph.kernels.toList :=
  have hs := StateGraph.sound_ofRules hg hgraph
  ((h.follows hg hs).reaches hg hs).2.2.2

/-- A state has been found with items of a state of the grammar, and with lookaheads. -/
theorem Reaches.exists_of_states {state : Nat} {kernel : List (Item × SymbolSet)}
    (hk : a.states[state]? = some kernel) :
    ∃ items sets, a.items[state]? = some items ∧ a.worklist.get? items = some sets ∧
      Grown g graph items sets ∧ kernel = items.zip sets := by
  have hs := StateGraph.sound_ofRules hg hgraph
  obtain ⟨hsound, -⟩ := (h.follows hg hs).reaches hg hs
  rw [states, List.getElem?_toArray, List.getElem?_map, Option.map_eq_some_iff] at hk
  obtain ⟨x, hx, rfl⟩ := hk
  have hget := Worklist.get?_of_mem hsound.nodup (List.mem_of_getElem? hx)
  refine ⟨x.1, x.2, ?_, hget, hsound.fits _ _ hget, rfl⟩
  rw [items, List.getElem?_map, hx]
  rfl

theorem Reaches.grown_of_mem_states {kernel : List (Item × SymbolSet)} (hk : kernel ∈ a.states) :
    ∃ items sets, Grown g graph items sets ∧ kernel = items.zip sets ∧
      ∃ state : Nat, graph.kernels[state]? = some (kernel.map (·.1)) := by
  obtain ⟨state, hk⟩ := Array.getElem?_of_mem hk
  obtain ⟨items, sets, -, -, hgrown, rfl⟩ := h.exists_of_states hg hgraph hk
  refine ⟨items, sets, hgrown, rfl, ?_⟩
  rw [hgrown.map_zip]
  exact Array.getElem?_of_mem (Array.mem_toList_iff.mp hgrown.known)

/-- At the end, the states are merged. -/
theorem merged_growth (hend : a.worklist.pending = []) : Merged g a.states a.Leading := by
  have hs := StateGraph.sound_ofRules hg hgraph
  have hfollows := h.follows hg hs
  obtain ⟨hsound, hexplored, ⟨more, hmore⟩, -⟩ := hfollows.reaches hg hs
  have hstate := fun (state : Nat) kernel (hk : a.states[state]? = some kernel) =>
    h.exists_of_states hg hgraph hk
  -- a state consists of its items with the lookaheads in the worklist
  have hof : ∀ {state : Nat} {items : List Item} {sets : List SymbolSet},
      a.items[state]? = some items → a.worklist.get? items = some sets →
      a.states[state]? = some (items.zip sets) := by
    intro state items sets hitems hsets
    rw [Growth.items, List.getElem?_map, Option.map_eq_some_iff] at hitems
    obtain ⟨x, hx, rfl⟩ := hitems
    cases (Worklist.get?_of_mem hsound.nodup (List.mem_of_getElem? hx)).symm.trans hsets
    rw [states, List.getElem?_toArray, List.getElem?_map, hx]
    rfl
  have hmem := fun kernel (hk : kernel ∈ a.states) => h.grown_of_mem_states hg hgraph hk
  constructor
  case start =>
    have hzero : a.items[0]? = some [(ofGrammar g).startItem] := by
      rw [← hmore]
      rfl
    obtain ⟨sets, hsets⟩ := Worklist.exists_get? (List.mem_of_getElem? hzero)
    rw [hof hzero hsets, (hsound.fits _ _ hsets).first rfl]
    rfl
  case ne_nil =>
    intro kernel hk hnil
    obtain ⟨-, -, -, -, state, hstate⟩ := hmem kernel hk
    rw [hnil] at hstate
    exact StateGraph.kernel_ne_nil hg hgraph hstate rfl
  case nodup =>
    intro kernel hk
    obtain ⟨-, -, -, -, state, hstate⟩ := hmem kernel hk
    exact hs.nodup state _ hstate
  case sorted =>
    intro kernel hk
    obtain ⟨-, -, -, -, state, hstate⟩ := hmem kernel hk
    exact StateGraph.forall_kernels hg hgraph (List.pairwise_singleton _ _)
      (fun _ _ _ hx => StateGraph.sorted_of_mem_successors hx) hstate
  -- states are numbered by their items, which are listed once
  case inj =>
    intro state state' kernel kernel' hk hk' hsame
    obtain ⟨items, sets, hitems, -, hgrown, rfl⟩ := hstate _ _ hk
    obtain ⟨items', sets', hitems', -, hgrown', rfl⟩ := hstate _ _ hk'
    rw [hgrown.map_zip, hgrown'.map_zip] at hsame
    subst hsame
    exact (List.getElem?_inj (List.getElem?_eq_some_iff.mp hitems).1 hsound.nodup).mp
      (hitems.trans hitems'.symm)
  case traced =>
    intro kernel hk
    obtain ⟨items, sets, hgrown, rfl, -⟩ := hmem kernel hk
    exact hgrown.traced
  -- whatever the lookaheads, a symbol leads to the same items
  case cores =>
    intro state kernel hk symbol target htarget
    obtain ⟨items, sets, hitems, -, hgrown, rfl⟩ := hstate _ _ hk
    obtain ⟨items', next, hitems', hnext, hnextItems⟩ := hfollows.target state symbol target htarget
    cases hitems.symm.trans hitems'
    obtain ⟨sets', hsets'⟩ := Worklist.exists_get? (List.mem_of_getElem? hnextItems)
    refine ⟨_, hof hnextItems hsets', ?_⟩
    have hbare : core (said (items.zip sets)) = core (said (bare items)) := by
      rw [core_said, core_said, hgrown.map_zip, map_bare]
    rw [core_goto_congr (open_said _) (open_said _) hbare symbol,
      ← said_of_mem_successors hg (below_bare items) hnext, core_said, core_said,
      (hsound.fits _ _ hsets').map_zip]
  -- at the end nothing is listed, so what each state yields has been joined to its target
  case handed =>
    intro state kernel hk symbol hgoto
    obtain ⟨items, sets, hitems, hsets, hgrown, rfl⟩ := hstate _ _ hk
    obtain ⟨next, hnext⟩ := exists_successors_of_goto hg hgrown.below_zip hgoto
    obtain ⟨next', hnext', hsame⟩ := hgrown.exists_bare hg hnext
    obtain ⟨v, hv, hjoin⟩ := hexplored.closed hend hsets _ (List.mem_map_of_mem hnext)
    have hpending : items ∉ a.worklist.pending := by
      rw [hend]
      exact List.not_mem_nil
    obtain ⟨target, htarget⟩ :=
      hfollows.all items (List.mem_of_getElem? hitems) hpending symbol next' hnext'
    have hnumber : a.items.idxOf items = state := by
      obtain ⟨hlt, rfl⟩ := List.getElem?_eq_some_iff.mp hitems
      exact hsound.nodup.idxOf_getElem state hlt
    rw [hnumber] at htarget
    obtain ⟨items'', next'', hitems'', hnext'', hnextItems⟩ :=
      hfollows.target state symbol target htarget
    cases hitems.symm.trans hitems''
    cases StateGraph.eq_of_mem_groupByKey hnext' hnext''
    rw [hsame] at hnextItems
    refine ⟨target, _, htarget, hof hnextItems hv, ?_⟩
    -- what is handed on has been merged with the lookaheads of the target
    have hmerge := StateGraph.merge_zip (next.map (·.1)) v next
    rw [show List.zipWith SymbolSet.union v (next.map (·.2)) = v from hjoin] at hmerge
    rw [← said_of_mem_successors hg hgrown.below_zip hnext, ← hmerge,
      said_merge (hsound.fits _ _ hv).map_zip]
    exact Set.subset_union_right

end

end Growth

end IncrementalParsing
