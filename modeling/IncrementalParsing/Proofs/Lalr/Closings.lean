import IncrementalParsing.Proofs.Lalr.Statements
import IncrementalParsing.Proofs.Worklist

/-!
# Closing kernels in any order

The closure of a kernel is found item by item: an item that is gone on with adds the productions of the
rule that comes next in it, with all that can follow the rule there, and a production that gains anything
is to be gone on with once more.  Here the items are taken up in any order.  Every order ends, and in
order the items are those of `RuleBook.closure`, with the same lookaheads.

## Key results

- `closing_ends`: only so many items can be gone on with
- `said_found`: at the end, all is said that the canonical closure says
- `sorted_found`: at the end, the items in order are the closure
-/

namespace IncrementalParsing

namespace RuleBook

/-- An item adds the productions of the rule that comes next in it. -/
def closing (b : RuleBook) : Worklist.Rules Item SymbolSet where
  join := SymbolSet.union
  yields i set := match b.nextRule? i with
    | none => []
    | some rule => (b.productionsOf rule).map fun p => (⟨p, 0⟩, b.following i set)
  repeats := true

/-- All items of a kernel are to be gone on with. -/
def unclosed (kernel : List (Item × SymbolSet)) : Worklist Item SymbolSet :=
  ⟨kernel, kernel.map (·.1)⟩

open Worklist (Reaches Lawful)
open StateGraph (sorted_closure le_trans_item le_total_item le_antisymm_item)

variable {g : FlatGrammar} {kernel : List (Item × SymbolSet)}

/-- What items are found with in a closure: symbols of the grammar that can follow them. -/
structure Closes (g : FlatGrammar) (kernel : List (Item × SymbolSet)) (i : Item) (set : SymbolSet) :
    Prop where
  below : set.Below g.symbols.size
  closure : ∀ x : Option Nat, (∀ a, x = some a → set.mem a = true) →
    g.possibly.Closure g (said kernel) i x

/-- The items that a closure can have. -/
def closable (g : FlatGrammar) (kernel : List (Item × SymbolSet)) : List Item :=
  kernel.map (·.1) ++ (List.range g.productions.size).map (⟨·, 0⟩)

theorem mem_closable {i : Item} {x : Option Nat} (h : g.possibly.Closure g (said kernel) i x) :
    i ∈ closable g kernel := by
  cases h with
  | kernel h => exact List.mem_append_left _ (said_none.mp (open_said kernel i x h))
  | production _ _ hq _ =>
    have hlt := (Array.getElem?_eq_some_iff.mp hq).1
    exact List.mem_append_right _ (List.mem_map_of_mem (List.mem_range.mpr hlt))

/-- What an item adds is in the canonical closure. -/
theorem closes_of_mem_yields (hg : g.Sound) {i : Item} {set : SymbolSet} (h : Closes g kernel i set) :
    ∀ x ∈ (ofGrammar g).closing.yields i set, Closes g kernel x.1 x.2 := by
  intro x hx
  cases hrule : (ofGrammar g).nextRule? i with
  | none => simp [closing, hrule] at hx
  | some rule =>
    simp only [closing, hrule] at hx
    obtain ⟨p, hp, rfl⟩ := List.mem_map.mp hx
    obtain ⟨q, hq, rfl⟩ := lhs_of_mem_productionsOf hp
    have hnext := (nextRule?_eq_some_iff hg (Array.mem_of_getElem? hq)).mp hrule
    refine ⟨RuleLookaheads.below_following hg i h.below, fun y hy => ?_⟩
    -- an item without lookahead opens productions without one; otherwise what follows is read off
    -- `following`
    cases y with
    | none =>
      exact .production (h.closure none fun a ha => by cases ha) hnext hq (Following.passes_none _ _)
    | some a =>
      obtain hbegins | ⟨hempty, hmem⟩ := (mem_following hg).mp (hy a rfl)
      · refine .production (h.closure none fun a ha => by cases ha) hnext hq ?_
        rintro _ ⟨rfl⟩
        exact .inl hbegins
      · refine .production (h.closure (some a) ?_) hnext hq ?_
        · rintro _ ⟨rfl⟩
          exact hmem
        · rintro _ ⟨rfl⟩
          exact .inr ⟨hempty, rfl⟩

theorem lawful_closing (hg : g.Sound) (kernel : List (Item × SymbolSet)) :
    Lawful (ofGrammar g).closing (Closes g kernel) (closable g kernel)
      (SymbolSet.missing g.symbols.size) fun _ => g.symbols.size where
  assoc := SymbolSet.union_assoc
  comm := SymbolSet.union_comm
  idem := SymbolSet.union_self
  join := by
    intro i set set' h h'
    refine ⟨h.below.union h'.below, fun x hx => ?_⟩
    -- a lookahead of the union is one of either set
    cases x with
    | none => exact h.closure none fun a ha => by cases ha
    | some a =>
      have hmem := hx a rfl
      rw [show (ofGrammar g).closing.join = SymbolSet.union from rfl, SymbolSet.mem_union,
        Bool.or_eq_true] at hmem
      obtain hmem | hmem := hmem
      · exact h.closure (some a) (by rintro _ ⟨rfl⟩; exact hmem)
      · exact h'.closure (some a) (by rintro _ ⟨rfl⟩; exact hmem)
  yields := closes_of_mem_yields hg
  known := fun h => mem_closable (h.closure none fun a ha => by cases ha)
  less := fun _ h' hne => SymbolSet.missing_union_lt h'.below hne
  missing_le := fun {_ set} _ => set.missing_le _

/-- Where no item stands twice, the same is said just by the same. -/
theorem mem_of_said {kernel kernel' : List (Item × SymbolSet)} (hnodup : (kernel.map (·.1)).Nodup)
    (hnodup' : (kernel'.map (·.1)).Nodup) (h : ∀ i x, (i, x) ∈ said kernel ↔ (i, x) ∈ said kernel')
    (x : Item × SymbolSet) : x ∈ kernel ↔ x ∈ kernel' := by
  obtain ⟨i, set⟩ := x
  -- one direction is enough, since the hypotheses say the same of both kernels
  have hone : ∀ {kernel kernel' : List (Item × SymbolSet)}, (kernel.map (·.1)).Nodup →
      (kernel'.map (·.1)).Nodup → (∀ i x, (i, x) ∈ said kernel ↔ (i, x) ∈ said kernel') →
      (i, set) ∈ kernel → (i, set) ∈ kernel' := by
    intro kernel kernel' hnodup hnodup' h hset
    obtain ⟨set', hset', -⟩ := (h i none).mp ⟨set, hset, fun a ha => by cases ha⟩
    have heq : set = set' := by
      refine SymbolSet.ext_mem fun a => ?_
      rw [← said_some_iff hnodup hset, ← said_some_iff hnodup' hset', h]
    exact heq ▸ hset'
  exact ⟨hone hnodup hnodup' h, hone hnodup' hnodup fun i x => (h i x).symm⟩

section

variable (hnodup : (kernel.map (·.1)).Nodup) (hkernel : ∀ x ∈ kernel, x.2.Below g.symbols.size)
include hnodup hkernel

theorem sound_unclosed : (unclosed kernel).Sound (Closes g kernel) := by
  refine ⟨hnodup, fun i set hset => ?_, List.Subset.refl _⟩
  have hmem := Worklist.mem_of_get? hset
  exact ⟨hkernel _ hmem, fun x hx => .kernel ⟨set, hmem, hx⟩⟩

variable (hg : g.Sound) {n : Nat} {w : Worklist Item SymbolSet}
  (h : Reaches (ofGrammar g).closing (unclosed kernel) n w)
include hg h

theorem reaches_unclosed :
    w.Sound (Closes g kernel) ∧ w.Explored (ofGrammar g).closing ∧
      (∀ x, (unclosed kernel).Has (ofGrammar g).closing x → w.Has (ofGrammar g).closing x) ∧
      n ≤ (unclosed kernel).cost (closable g kernel) (SymbolSet.missing g.symbols.size)
        fun _ => g.symbols.size := by
  have hexplored : (unclosed kernel).Explored (ofGrammar g).closing :=
    fun i set hset => .inl (List.mem_map_of_mem (Worklist.mem_of_get? hset))
  obtain ⟨hsound, hexplored', hhas, -, hcost⟩ :=
    (lawful_closing hg kernel).reaches (sound_unclosed hnodup hkernel) hexplored h
  exact ⟨hsound, hexplored', hhas, by omega⟩

/-- Only so many items can be gone on with: one for each of the kernel and, for every item that the
closure can have, one for the item and for each symbol of the grammar. -/
theorem closing_ends :
    n ≤ kernel.length + (kernel.length + g.productions.size) * (g.symbols.size + 1) := by
  obtain ⟨-, -, -, hn⟩ := reaches_unclosed hnodup hkernel hg h
  have hcost := (lawful_closing hg kernel).cost_le (sound_unclosed hnodup hkernel)
  have hsum : sumOf (fun _ => g.symbols.size + 1) (closable g kernel) ≤
      (closable g kernel).length * (g.symbols.size + 1) := sumOf_le fun _ _ => Nat.le_refl _
  have hlength : (closable g kernel).length = kernel.length + g.productions.size := by
    rw [closable, List.length_append, List.length_map, List.length_map, List.length_range]
  have hpending : (unclosed kernel).pending.length = kernel.length := List.length_map _
  rw [hlength] at hsum
  omega

/-- At the end, all is said that the canonical closure of the kernel says, and nothing else. -/
theorem said_found (hend : w.pending = []) (i : Item) (x : Option Nat) :
    (i, x) ∈ said w.found ↔ g.possibly.Closure g (said kernel) i x := by
  obtain ⟨hsound, hexplored, hhas, -⟩ := reaches_unclosed hnodup hkernel hg h
  have hsaid : ∀ {j : Item} {set : SymbolSet} {y : Option Nat},
      w.Has (ofGrammar g).closing (j, set) → (∀ a, y = some a → set.mem a = true) →
      (j, y) ∈ said w.found := by
    rintro j set y ⟨set', hset', hjoin⟩ hy
    refine ⟨set', Worklist.mem_of_get? hset', fun a ha => ?_⟩
    exact SymbolSet.within_of_union_eq hjoin a (hy a ha)
  constructor
  -- what is found fits, and so belongs to the closure
  · rintro ⟨set, hset, hx⟩
    exact (hsound.fits i set (Worklist.get?_of_mem hsound.nodup hset)).closure x hx
  · intro hclosure
    induction hclosure with
    | kernel hi =>
      obtain ⟨set, hset, hx⟩ := hi
      refine hsaid (hhas _ ⟨set, Worklist.get?_of_mem hnodup hset, ?_⟩) hx
      exact SymbolSet.union_self set
    | @production i x y p q _ hnext hq hpasses ih =>
      obtain ⟨set, hset, hx⟩ := ih
      have hq' := Array.mem_of_getElem? hq
      -- at the end the item that stands before the rule has been gone on with
      refine hsaid (hexplored.closed hend (Worklist.get?_of_mem hsound.nodup hset)
        (⟨p, 0⟩, (ofGrammar g).following i set) ?_) fun c hc => ?_
      · simp only [closing, (nextRule?_eq_some_iff hg hq').mpr hnext]
        exact List.mem_map_of_mem (mem_productionsOf hq (hg.lhs q hq').2.1)
      · exact (mem_following hg).mpr ((hpasses c hc).imp_right fun ⟨hempty, hy⟩ => ⟨hempty, hx c hy⟩)

/-- At the end, the items in order are the closure. -/
theorem sorted_found (hbegun : ∀ i ∈ kernel.map (·.1), i.dot = 0 → i.production = g.productions.size)
    (hend : w.pending = []) :
    (w.found.mergeSort fun x y => x.1.le y.1) = (ofGrammar g).closure kernel := by
  obtain ⟨hsound, -⟩ := reaches_unclosed hnodup hkernel hg h
  have hclosure := nodup_closure hnodup hbegun
  have hsaid : ∀ i x, (i, x) ∈ said w.found ↔ (i, x) ∈ said ((ofGrammar g).closure kernel) :=
    fun i x => (said_found hnodup hkernel hg h hend i x).trans (said_closure hg hkernel).symm
  have hmem : ∀ x, x ∈ w.found ↔ x ∈ (ofGrammar g).closure kernel :=
    mem_of_said hsound.nodup hclosure hsaid
  -- both lists hold the same items, each once
  have hperm : (w.found.mergeSort fun x y => x.1.le y.1).Perm ((ofGrammar g).closure kernel) := by
    refine (List.mergeSort_perm _ _).trans ?_
    exact (List.perm_ext_iff_of_nodup (List.Nodup.of_map _ hsound.nodup)
      (List.Nodup.of_map _ hclosure)).mpr hmem
  have hsorted : (w.found.mergeSort fun x y => x.1.le y.1).Pairwise fun x y => x.1.le y.1 = true := by
    apply List.pairwise_mergeSort
    · exact fun _ _ _ => le_trans_item
    · exact fun x y => le_total_item x.1 y.1
  have hsorted' : ((ofGrammar g).closure kernel).Pairwise fun x y => x.1.le y.1 = true :=
    List.pairwise_map.mp (sorted_closure (ofGrammar g) kernel)
  -- items that stand at the same place in the order are the same, and each is there once
  refine hperm.eq_of_pairwise (fun x y hx hy hle hle' => ?_) hsorted hsorted'
  rw [List.mem_mergeSort, hmem] at hx
  exact List.inj_on_of_nodup_map hclosure hx hy (le_antisymm_item hle hle')

end

end RuleBook

end IncrementalParsing
