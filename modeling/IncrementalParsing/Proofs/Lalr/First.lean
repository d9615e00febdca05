import IncrementalParsing.Lalr.First
import IncrementalParsing.Proofs.Grammar.Flattening
import IncrementalParsing.Proofs.Grammar.Sentences
import IncrementalParsing.Proofs.Rounds
import Mathlib.Data.Finset.Card
import Mathlib.Data.Finset.Filter
import Mathlib.Data.Finset.Range

/-!
# What symbols can begin with

`FirstSets.ofGrammar` goes over the productions until nothing changes, which every grammar allows it
enough rounds for.  So the sets that it finds hold what the sentences of each symbol begin with.

## Key results

- `complete_ofGrammar`: every production has been taken into account
- `Complete.begins`: what a row can begin with is found
-/

namespace IncrementalParsing

namespace SymbolSet

/-- All members have a property. -/
def Only (P : Nat → Prop) (set : SymbolSet) : Prop := ∀ s, set.mem s = true → P s

/-- Nothing is in the empty set. -/
theorem only_empty (P : Nat → Prop) : empty.Only P := fun s h => by simp at h

/-- Only one symbol is in a set of one. -/
theorem only_singleton {P : Nat → Prop} {s : Nat} (h : P s) : (singleton s).Only P := by
  intro r hr
  rw [mem_singleton, decide_eq_true_eq] at hr
  exact hr ▸ h

/-- What holds of all symbols of two sets holds of those of their union. -/
theorem Only.union {P : Nat → Prop} {a b : SymbolSet} (ha : a.Only P) (hb : b.Only P) :
    (a.union b).Only P := by
  intro s hs
  rw [mem_union, Bool.or_eq_true] at hs
  exact hs.elim (ha s) (hb s)

/-- All members are below a bound. -/
def Below (n : Nat) (set : SymbolSet) : Prop := ∀ s, set.mem s = true → s < n

/-- The empty set is below every bound. -/
theorem below_empty (n : Nat) : Below n empty := only_empty _

/-- A set of one symbol is below what the symbol is below. -/
theorem below_singleton {n s : Nat} (h : s < n) : Below n (singleton s) := only_singleton h

/-- A union is below a bound if both sets are. -/
theorem Below.union {n : Nat} {a b : SymbolSet} (ha : Below n a) (hb : Below n b) :
    Below n (a.union b) := Only.union ha hb

/-- Sets with the same members are equal. -/
theorem ext_mem {a b : SymbolSet} (h : ∀ s, a.mem s = true ↔ b.mem s = true) : a = b := by
  obtain ⟨a⟩ := a
  obtain ⟨b⟩ := b
  exact congrArg SymbolSet.mk (Nat.eq_of_testBit_eq fun s => Bool.eq_iff_iff.mpr (h s))

/-- Sets are united in any order, -/
theorem union_assoc (a b c : SymbolSet) : (a.union b).union c = a.union (b.union c) :=
  congrArg SymbolSet.mk (Nat.or_assoc ..)

/-- from either side, -/
theorem union_comm (a b : SymbolSet) : a.union b = b.union a :=
  congrArg SymbolSet.mk (Nat.or_comm ..)

/-- and once is enough. -/
theorem union_self (a : SymbolSet) : a.union a = a :=
  congrArg SymbolSet.mk (Nat.or_self _)

/-- All members of one set are members of another. -/
def Within (a b : SymbolSet) : Prop := ∀ s, a.mem s = true → b.mem s = true

/-- Every set is within itself. -/
theorem Within.refl (a : SymbolSet) : a.Within a := fun _ h => h

/-- What is within a set that is within another is within that one. -/
theorem Within.trans {a b c : SymbolSet} (h : a.Within b) (h' : b.Within c) : a.Within c :=
  fun s hs => h' s (h s hs)

/-- Both sets are within their union, -/
theorem within_union_left (a b : SymbolSet) : a.Within (a.union b) := fun s h => by
  rw [mem_union, h, Bool.true_or]

/-- the one on the right as well. -/
theorem within_union_right (a b : SymbolSet) : b.Within (a.union b) := fun s h => by
  rw [mem_union, h, Bool.or_true]

/-- A set that adds nothing to another is within it. -/
theorem within_of_union_eq {a b : SymbolSet} (h : a.union b = a) : b.Within a := by
  have hwithin := within_union_right a b
  rwa [h] at hwithin

/-- How many symbols below a bound are no members. -/
def missing (n : Nat) (set : SymbolSet) : Nat :=
  ((Finset.range n).filter fun s => set.mem s = false).card

/-- No more can be missing than there are symbols. -/
theorem missing_le (n : Nat) (set : SymbolSet) : set.missing n ≤ n := by
  refine (Finset.card_filter_le _ _).trans ?_
  rw [Finset.card_range]

/-- A set that gains something lacks less. -/
theorem missing_union_lt {n : Nat} {a b : SymbolSet} (hb : Below n b) (h : a.union b ≠ a) :
    (a.union b).missing n < a.missing n := by
  -- some symbol is new, since the set has changed
  obtain ⟨s, hs⟩ : ∃ s, (a.union b).mem s ≠ a.mem s := by
    by_contra hall
    push Not at hall
    exact h (ext_mem fun s => Bool.eq_iff_iff.mp (hall s))
  rw [mem_union] at hs
  have hmem : a.mem s = false ∧ b.mem s = true := by
    cases ha : a.mem s <;> cases hb' : b.mem s <;> simp_all
  refine Finset.card_lt_card ((Finset.ssubset_iff_of_subset ?_).mpr ⟨s, ?_, ?_⟩)
  · intro r hr
    simp only [Finset.mem_filter, mem_union, Bool.or_eq_false_iff] at hr ⊢
    exact ⟨hr.1, hr.2.1⟩
  · simp only [Finset.mem_filter, Finset.mem_range]
    exact ⟨hb s hmem.2, hmem.1⟩
  · simp [hmem]

end SymbolSet

namespace FirstSets

open SymbolSet (Below)

/-- All that rules can begin with has a property. -/
def Only (P : Nat → Prop) (f : FirstSets) : Prop := ∀ s, (f.firstOf s).Only P

section

variable {g : FlatGrammar} {f : FirstSets} {P : Nat → Prop}

/-- What a row begins with are terminals that satisfy a property, if those of the grammar do. -/
theorem only_ofRow (hf : f.Only P) {row : List Nat} (hrow : ∀ s ∈ row, g.isTerminal s = true → P s) :
    (ofRow g f row).1.Only P := by
  induction row with
  | nil => exact SymbolSet.only_empty P
  | cons s rest ih =>
    rw [ofRow]
    split
    · rename_i ht
      exact SymbolSet.only_singleton (hrow s (List.mem_cons_self ..) ht)
    · split
      -- what stands behind counts only where the symbol can be empty
      · exact (hf s).union (ih fun r hr => hrow r (List.mem_cons_of_mem _ hr))
      · exact hf s

/-- Taking a production into account keeps that, -/
theorem only_addProduction (hf : f.Only P) {p : FlatProduction}
    (hp : ∀ s ∈ p.rhs, g.isTerminal s = true → P s) : (addProduction g f p).Only P := by
  intro s
  have hset := only_ofRow (g := g) hf hp
  unfold addProduction firstOf
  rw [Array.getD_eq_getD_getElem?, Array.getElem?_modify]
  have hs := hf s
  unfold firstOf at hs
  rw [Array.getD_eq_getD_getElem?] at hs
  -- only the set of the left-hand side grows
  split
  · cases hfound : f.first[s]? with
    | none => exact SymbolSet.only_empty P
    | some set =>
      rw [hfound] at hs
      exact SymbolSet.Only.union hs hset
  · exact hs

/-- and so does every round of `close`. -/
theorem only_close {fuel : Nat} (hg : ∀ p ∈ g.productions, ∀ s ∈ p.rhs, g.isTerminal s = true → P s)
    (hf : f.Only P) : (close g fuel f).Only P := by
  induction fuel generalizing f with
  | zero => exact hf
  | succ fuel ih =>
    -- one round keeps the fact, production by production
    have hnext : (g.productions.foldl (addProduction g) f).Only P := by
      rw [← Array.foldl_toList]
      exact List.foldlRecOn (motive := fun f : FirstSets => f.Only P) _ _ hf fun f hf p hp =>
        only_addProduction hf (hg p (Array.mem_toList_iff.mp hp))
    rw [close]
    split
    · exact hf
    · exact ih hnext

/-- What rules can begin with is what their productions mention. -/
theorem only_ofGrammar (hg : ∀ p ∈ g.productions, ∀ s ∈ p.rhs, g.isTerminal s = true → P s) :
    (ofGrammar g).Only P := by
  refine only_close hg fun s => ?_
  unfold firstOf
  rw [Array.getD_eq_getD_getElem?, Array.getElem?_replicate]
  split <;> exact SymbolSet.only_empty P

end

/-- Whether what rules can begin with is below a bound. -/
def Bounded (n : Nat) (f : FirstSets) : Prop := ∀ s, Below n (f.firstOf s)

/-- The first symbols of a row are below the bound that its symbols are below. -/
theorem below_ofRow {g : FlatGrammar} {f : FirstSets} {n : Nat} (hf : f.Bounded n) {row : List Nat}
    (hrow : ∀ s ∈ row, s < n) : Below n (ofRow g f row).1 :=
  only_ofRow hf fun s hs _ => hrow s hs

/-- Taking a production into account keeps the sets below the bound. -/
theorem bounded_addProduction {g : FlatGrammar} {f : FirstSets} {n : Nat} (hf : f.Bounded n)
    {p : FlatProduction} (hp : ∀ s ∈ p.rhs, s < n) : (addProduction g f p).Bounded n :=
  only_addProduction hf fun s hs _ => hp s hs

/-- The sets of a grammar consist of its symbols. -/
theorem bounded_ofGrammar {g : FlatGrammar} (hg : g.Sound) :
    (ofGrammar g).Bounded g.symbols.size :=
  only_ofGrammar fun p hp s hs _ => (hg.rhs p hp s hs).2

end FirstSets

namespace FirstSets

open SymbolSet (Below)

variable {g : FlatGrammar}

/-! ## Going round -/

/-- What holds of first sets in the making. -/
structure Sized (n : Nat) (f : FirstSets) : Prop where
  nullable : f.nullable.size = n
  first : f.first.size = n
  bounded : f.Bounded n

/-- How much may still be found. -/
def cost (n : Nat) (f : FirstSets) : Nat :=
  sumOf (fun b => if b then 0 else 1) f.nullable.toList + sumOf (SymbolSet.missing n) f.first.toList

/-- There is room for at most so much. -/
theorem cost_le {n : Nat} {f : FirstSets} (h : f.Sized n) : f.cost n ≤ n * (n + 1) := by
  have hnullable : sumOf (fun b => if b then 0 else 1) f.nullable.toList ≤
      f.nullable.toList.length * 1 := sumOf_le fun b _ => by cases b <;> decide
  have hfirst : sumOf (SymbolSet.missing n) f.first.toList ≤ f.first.toList.length * n :=
    sumOf_le fun set _ => set.missing_le n
  rw [Array.length_toList, h.nullable] at hnullable
  rw [Array.length_toList, h.first] at hfirst
  rw [cost, Nat.mul_succ]
  omega

/-- A production shows something new, or it changes nothing. -/
theorem improves_addProduction {p : FlatProduction} (hlhs : p.lhs < g.symbols.size)
    (hrhs : ∀ s ∈ p.rhs, s < g.symbols.size) :
    Improves (Sized g.symbols.size) (cost g.symbols.size) fun f => addProduction g f p := by
  intro f hf
  have hset := below_ofRow (g := g) hf.bounded hrhs
  refine ⟨⟨?_, ?_, bounded_addProduction hf.bounded hrhs⟩, ?_⟩
  · exact (Array.size_modify ..).trans hf.nullable
  · exact (Array.size_modify ..).trans hf.first
  have hn : p.lhs < f.nullable.size := hf.nullable ▸ hlhs
  have hn' : p.lhs < f.first.size := hf.first ▸ hlhs
  -- each of the two entries stays or becomes smaller in `cost`
  have hnullable := modify_eq_or_lt (fun b => if b then 0 else 1) hn
    (· || (ofRow g f p.rhs).2) (by
      cases f.nullable[p.lhs] <;> cases (ofRow g f p.rhs).2 <;> decide)
  have hfirst := modify_eq_or_lt (SymbolSet.missing g.symbols.size) hn'
    (·.union (ofRow g f p.rhs).1) (by
      by_cases heq : f.first[p.lhs].union (ofRow g f p.rhs).1 = f.first[p.lhs]
      · exact .inl heq
      · exact .inr (SymbolSet.missing_union_lt hset heq))
  show addProduction g f p = f ∨ cost _ (addProduction g f p) < cost _ f
  unfold addProduction cost
  dsimp only
  obtain hnullable | hnullable := hnullable
  · obtain hfirst | hfirst := hfirst
    · exact .inl (by rw [hnullable, hfirst])
    · exact .inr (by rw [hnullable]; omega)
  · refine .inr ?_
    obtain hfirst | hfirst := hfirst
    · rw [hfirst]
      omega
    · omega

/-- Enough rounds find sets that no production changes. -/
theorem fixed_close (hg : g.Sound) (fuel : Nat) {f : FirstSets} (hf : f.Sized g.symbols.size)
    (hfuel : f.cost g.symbols.size < fuel) :
    (close g fuel f).Sized g.symbols.size ∧
      ∀ p ∈ g.productions, addProduction g (close g fuel f) p = close g fuel f := by
  have himproves : ∀ p ∈ g.productions.toList,
      Improves (Sized g.symbols.size) (cost g.symbols.size) fun f => addProduction g f p := by
    intro p hp
    have hp' := Array.mem_toList_iff.mp hp
    exact improves_addProduction (hg.lhs p hp').2.1 fun s hs => (hg.rhs p hp' s hs).2
  induction fuel generalizing f with
  | zero => omega
  | succ fuel ih =>
    rw [close, ← Array.foldl_toList]
    split
    -- a round that changes nothing has no production that changes anything
    · rename_i hsame
      exact ⟨hf, fun p hp =>
        step_eq_of_foldl_eq himproves hf (eq_of_beq hsame) p (Array.mem_toList_iff.mpr hp)⟩
    -- any other round costs less afterwards
    · rename_i hchanged
      obtain ⟨hnext, hcost⟩ := improves_foldl himproves f hf
      have hless := hcost.resolve_left fun heq => hchanged (beq_iff_eq.mpr heq)
      exact ih hnext (by dsimp only at hless; omega)

/-! ## What has been found -/

/-- Every production has been taken into account. -/
structure Complete (g : FlatGrammar) (f : FirstSets) : Prop where
  nullable : ∀ p ∈ g.productions, (ofRow g f p.rhs).2 = true → f.isNullable p.lhs = true
  first : ∀ p ∈ g.productions, ∀ a, (ofRow g f p.rhs).1.mem a = true →
    (f.firstOf p.lhs).mem a = true

/-- The second part of a row shows only behind a first part that can be empty. -/
theorem ofRow_append (g : FlatGrammar) (f : FirstSets) (row row' : List Nat) :
    (∀ a, (ofRow g f (row ++ row')).1.mem a =
      ((ofRow g f row).1.mem a || ((ofRow g f row).2 && (ofRow g f row').1.mem a))) ∧
    (ofRow g f (row ++ row')).2 = ((ofRow g f row).2 && (ofRow g f row').2) := by
  induction row with
  | nil => simp [ofRow]
  | cons s rest ih =>
    obtain ⟨hmem, hnullable⟩ := ih
    rw [List.cons_append, ofRow, ofRow]
    split
    · simp
    · split
      · simp [hmem, hnullable, Bool.or_assoc]
      · simp

/-- At first there is a set for each symbol. -/
theorem sized_start (n : Nat) : Sized n ⟨Array.replicate n false, Array.replicate n .empty⟩ := by
  refine ⟨Array.size_replicate, Array.size_replicate, fun s => ?_⟩
  unfold firstOf
  rw [Array.getD_eq_getD_getElem?, Array.getElem?_replicate]
  split <;> exact SymbolSet.below_empty _

/-- The sets that are found are not changed by any production. -/
theorem fixed_ofGrammar (hg : g.Sound) :
    (ofGrammar g).Sized g.symbols.size ∧
      ∀ p ∈ g.productions, addProduction g (ofGrammar g) p = ofGrammar g :=
  fixed_close hg (g.symbols.size * (g.symbols.size + 1) + 1) (sized_start g.symbols.size)
    (Nat.lt_succ_of_le (cost_le (sized_start _)))

/-- The sets that are found take every production into account. -/
theorem complete_ofGrammar (hg : g.Sound) : (ofGrammar g).Complete g := by
  -- what no production changes holds what every production would add
  obtain ⟨hsized, hfixed⟩ := fixed_ofGrammar hg
  generalize ofGrammar g = f at hsized hfixed
  refine ⟨fun p hp hrow => ?_, fun p hp a ha => ?_⟩
  · have hlt : p.lhs < f.nullable.size := hsized.nullable ▸ (hg.lhs p hp).2.1
    have hsame := congrArg (fun f => f.isNullable p.lhs) (hfixed p hp)
    simp only [addProduction, isNullable, Array.getD_eq_getD_getElem?, Array.getElem?_modify,
      if_true, Array.getElem?_eq_getElem hlt, Option.map_some, Option.getD_some, hrow,
      Bool.or_true] at hsame ⊢
    exact hsame.symm
  · have hlt : p.lhs < f.first.size := hsized.first ▸ (hg.lhs p hp).2.1
    have hsame := congrArg (fun f => (f.firstOf p.lhs).mem a) (hfixed p hp)
    simp only [addProduction, firstOf, Array.getD_eq_getD_getElem?, Array.getElem?_modify,
      if_true, Array.getElem?_eq_getElem hlt, Option.map_some, Option.getD_some,
      SymbolSet.mem_union, ha, Bool.or_true] at hsame ⊢
    exact hsame.symm

/-- What a row can begin with is found, and so is whether it can be empty. -/
theorem Complete.begins (hg : g.Sound) {f : FirstSets} (hf : f.Complete g) {row tokens : List Nat}
    (h : g.Generates row tokens) :
    (tokens = [] → (ofRow g f row).2 = true) ∧
      ∀ a rest, tokens = a :: rest → (ofRow g f row).1.mem a = true := by
  induction h with
  | nil => exact ⟨fun _ => rfl, fun a rest h => absurd h.symm (List.cons_ne_nil a rest)⟩
  | @terminal s row tokens hs _ ih =>
    refine ⟨fun h => absurd h (List.cons_ne_nil _ _), fun a rest h => ?_⟩
    cases h
    rw [ofRow, if_pos hs]
    simp
  | @rule q row inner tokens hq _ _ ihinner ih =>
    have hrule : g.isTerminal q.lhs = false := (hg.lhs q hq).2.2
    rw [ofRow, hrule, if_neg Bool.false_ne_true]
    cases inner with
    | nil =>
      -- the rule is empty, so what comes after it begins the row
      rw [hf.nullable q hq (ihinner.1 rfl), if_pos rfl, List.nil_append]
      refine ⟨ih.1, fun a rest h => ?_⟩
      rw [SymbolSet.mem_union, ih.2 a rest h, Bool.or_true]
    -- otherwise the row begins as the rule does
    | cons b inner =>
      have hfirst := hf.first q hq b (ihinner.2 b inner rfl)
      refine ⟨fun h => absurd h (List.cons_ne_nil _ _), fun a rest h => ?_⟩
      cases h
      split
      · rw [SymbolSet.mem_union, hfirst, Bool.true_or]
      · exact hfirst

end FirstSets

end IncrementalParsing
