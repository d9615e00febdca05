import IncrementalParsing.Proofs.Lalr.Canonical
import IncrementalParsing.Proofs.Lalr.Families
import IncrementalParsing.Proofs.Lalr.Lookaheads

/-!
# What kernels say

A kernel with lookaheads says of each of its items that it stands there, and of each lookahead that it
can follow.  What the closure of a kernel says is the canonical closure of what the kernel says, and what
a symbol leads to says what the canonical states say; so lookaheads can be put together before or after
closing.

## Key results

- `said_closure`: what a closure says
- `said_of_mem_successors`: what a symbol leads to says
-/

namespace IncrementalParsing

open RuleBook (ofGrammar)

/-- What a kernel says: its items stand there, and their lookaheads follow them. -/
def said (kernel : List (Item × SymbolSet)) : Set (Item × Option Nat) :=
  {x | ∃ set, (x.1, set) ∈ kernel ∧ ∀ a, x.2 = some a → set.mem a = true}

section

variable {kernel : List (Item × SymbolSet)} {i : Item} {a : Nat}

theorem said_none : (i, none) ∈ said kernel ↔ i ∈ kernel.map (·.1) := by
  constructor
  · rintro ⟨set, hset, -⟩
    exact List.mem_map_of_mem hset
  · intro hi
    obtain ⟨⟨_, set⟩, hset, rfl⟩ := List.mem_map.mp hi
    exact ⟨set, hset, fun a ha => by cases ha⟩

theorem said_some : (i, some a) ∈ said kernel ↔ ∃ set, (i, set) ∈ kernel ∧ set.mem a = true := by
  constructor
  · rintro ⟨set, hset, hmem⟩
    exact ⟨set, hset, hmem a rfl⟩
  · rintro ⟨set, hset, hmem⟩
    exact ⟨set, hset, by rintro _ ⟨rfl⟩; exact hmem⟩

theorem open_said (kernel : List (Item × SymbolSet)) : Following.Open (said kernel) := by
  rintro i x ⟨set, hset, -⟩
  exact ⟨set, hset, fun a ha => by cases ha⟩

theorem core_said (kernel : List (Item × SymbolSet)) : core (said kernel) = {i | i ∈ kernel.map (·.1)} := by
  ext i
  constructor
  · rintro ⟨x, hx⟩
    exact said_none.mp (open_said kernel i x hx)
  · intro hi
    exact ⟨none, said_none.mpr hi⟩

/-- Where no item stands twice, a kernel says just the lookaheads of an item of it. -/
theorem said_some_iff (hnodup : (kernel.map (·.1)).Nodup) {set : SymbolSet} (h : (i, set) ∈ kernel) :
    (i, some a) ∈ said kernel ↔ set.mem a = true := by
  rw [said_some]
  constructor
  · rintro ⟨set', hset', hmem⟩
    have heq := List.inj_on_of_nodup_map hnodup h hset' rfl
    rw [(Prod.mk.inj heq).2]
    exact hmem
  · intro hmem
    exact ⟨set, h, hmem⟩

end

variable {g : FlatGrammar} {kernel : List (Item × SymbolSet)}

/-! ## Closures -/

theorem nextRule?_eq_some_iff (hg : g.Sound) {i : Item} {q : FlatProduction} (hq : q ∈ g.productions) :
    (ofGrammar g).nextRule? i = some q.lhs ↔ (g.row i.production)[i.dot]? = some q.lhs := by
  rw [RuleBook.nextRule?, RuleBook.next?_ofGrammar, Option.filter_eq_some_iff]
  apply and_iff_left
  show (!g.isTerminal q.lhs) = true
  rw [(hg.lhs q hq).2.2]
  rfl

/-- What can follow a rule, given what can follow the item that it stands in. -/
theorem mem_following (hg : g.Sound) {i : Item} {set : SymbolSet} {a : Nat} :
    ((ofGrammar g).following i set).mem a = true ↔
      g.Begins ((g.row i.production).drop (i.dot + 1)) a ∨
        g.RewritesTo ((g.row i.production).drop (i.dot + 1)) [] ∧ set.mem a = true := by
  -- the set is handed on where what stands behind can be empty
  have hfollowing : (ofGrammar g).following i set =
      if ((FirstSets.ofGrammar g).ofRow g ((ofGrammar g).rest i)).2 then
        ((FirstSets.ofGrammar g).ofRow g ((ofGrammar g).rest i)).1.union set
      else ((FirstSets.ofGrammar g).ofRow g ((ofGrammar g).rest i)).1 := rfl
  rw [hfollowing, RuleBook.rest_ofGrammar, ← FirstSets.mem_ofRow_iff hg, ← FirstSets.ofRow_nullable_iff hg]
  split
  · rename_i hempty
    rw [SymbolSet.mem_union, Bool.or_eq_true, hempty]
    simp
  · rename_i hempty
    simp [hempty]

namespace RuleLookaheads

/-- What a rule has been found with is said of its productions by a canonical closure. -/
def Says (g : FlatGrammar) (s : Set (Item × Option Nat)) (rule : Nat) (set : SymbolSet) : Prop :=
  ∀ p q, g.productions[p]? = some q → q.lhs = rule → g.possibly.Closure g s ⟨p, 0⟩ none ∧
    ∀ a, set.mem a = true → g.possibly.Closure g s ⟨p, 0⟩ (some a)

theorem Says.empty {s : Set (Item × Option Nat)} {rule : Nat} {set : SymbolSet} (h : Says g s rule set) :
    Says g s rule .empty := by
  intro p q hq hlhs
  exact ⟨(h p q hq hlhs).1, fun a ha => by simp at ha⟩

/-- What has been found so far is said by a canonical closure, and so are the productions of the rules
that are to be gone on with. -/
structure Truthful (g : FlatGrammar) (s : Set (Item × Option Nat)) (a : RuleLookaheads)
    (work : List Nat) : Prop where
  found : ∀ rule set, a.getD rule none = some set → Says g s rule set
  listed : ∀ rule ∈ work, Says g s rule .empty

variable {s : Set (Item × Option Nat)} {a : RuleLookaheads} {work : List Nat}

theorem Truthful.add (ha : Truthful g s a work) {rule : Nat} {set : SymbolSet}
    (hset : Says g s rule set) : Truthful g s (add a work rule set).1 (add a work rule set).2 := by
  -- what is said of `rule` is true, and the other rules keep what they have
  have hwith : ∀ set', Says g s rule set' →
      Truthful g s (a.setIfInBounds rule (some set')) (rule :: work) := by
    intro set' hset'
    refine ⟨fun other found hfound => ?_, List.forall_mem_cons.mpr ⟨hset.empty, ha.listed⟩⟩
    rw [getD_set] at hfound
    split at hfound
    · rename_i heq
      cases hfound
      exact heq.1 ▸ hset'
    · exact ha.found other found hfound
  unfold RuleLookaheads.add
  split
  · exact hwith set hset
  · rename_i old hold
    split
    · exact ha
    -- a union says what either set says
    · refine hwith _ fun p q hq hlhs => ?_
      obtain ⟨hnone, hnew⟩ := hset p q hq hlhs
      refine ⟨hnone, fun c hc => ?_⟩
      rw [SymbolSet.mem_union, Bool.or_eq_true] at hc
      exact hc.elim ((ha.found rule old hold p q hq hlhs).2 c) (hnew c)

theorem Truthful.addNext (hg : g.Sound) (ha : Truthful g s a work) {i : Item} {set : SymbolSet}
    (hi : g.possibly.Closure g s i none)
    (hset : ∀ a, set.mem a = true → g.possibly.Closure g s i (some a)) :
    Truthful g s (addNext (ofGrammar g) a work i set).1 (addNext (ofGrammar g) a work i set).2 := by
  unfold RuleLookaheads.addNext
  split
  · rename_i rule hrule
    refine ha.add fun p q hq hlhs => ?_
    subst hlhs
    have hnext := (nextRule?_eq_some_iff hg (Array.mem_of_getElem? hq)).mp hrule
    refine ⟨.production hi hnext hq (Following.passes_none _ _), fun c hc => ?_⟩
    obtain hbegins | ⟨hempty, hmem⟩ := (mem_following hg).mp hc
    -- the lookahead begins what follows the rule
    · refine .production hi hnext hq ?_
      rintro _ ⟨rfl⟩
      exact .inl hbegins
    -- or what follows may be empty and the lookahead is that of the item
    · refine .production (hset c hmem) hnext hq ?_
      rintro _ ⟨rfl⟩
      exact .inr ⟨hempty, rfl⟩
  · exact ha

theorem Truthful.close (hg : g.Sound) (fuel : Nat) (ha : Truthful g s a work) :
    ∀ rule set, (close (ofGrammar g) fuel a work).getD rule none = some set → Says g s rule set := by
  induction fuel generalizing a work with
  | zero => exact ha.found
  | succ fuel ih =>
    cases work with
    | nil => exact ha.found
    | cons rule work =>
      obtain ⟨hrule, hwork⟩ := List.forall_mem_cons.mp ha.listed
      -- the lookaheads of the rule are those that it has before its productions are gone over
      have hsays : Says g s rule ((a.getD rule none).getD .empty) := by
        cases hfound : a.getD rule none with
        | none => exact hrule
        | some set => exact ha.found rule set hfound
      rw [RuleLookaheads.close]
      apply ih
      refine List.foldlRecOn
        (motive := fun (x : RuleLookaheads × List Nat) => Truthful g s x.1 x.2) _ _
        ⟨ha.found, hwork⟩ fun x hx p hp => ?_
      obtain ⟨q, hq, hlhs⟩ := RuleBook.lhs_of_mem_productionsOf hp
      obtain ⟨hnone, hsome⟩ := hsays p q hq hlhs
      exact hx.addNext hg hnone hsome

/-- Nothing is found in a kernel that its canonical closure does not say. -/
theorem says_of_ofKernel (hg : g.Sound) {rule : Nat} {set : SymbolSet}
    (h : (ofKernel (ofGrammar g) kernel).getD rule none = some set) :
    Says g (said kernel) rule set := by
  unfold ofKernel at h
  dsimp only at h
  refine Truthful.close hg _ ?_ rule set h
  -- at the start no rule is marked
  have hnone : Truthful g (said kernel) (Array.replicate g.symbols.size none) [] := by
    refine ⟨fun other found hfound => absurd ?_ (not_marks_replicate g.symbols.size other),
      fun other ho => by cases ho⟩
    rw [Marks, hfound]
    rfl
  refine List.foldlRecOn
    (motive := fun (x : RuleLookaheads × List Nat) => Truthful g (said kernel) x.1 x.2) _ _
    (b := (Array.replicate g.symbols.size none, [])) hnone fun x hx y hy => ?_
  obtain ⟨i, set⟩ := y
  refine hx.addNext hg (.kernel ⟨set, hy, fun a ha => by cases ha⟩) fun a ha => .kernel ⟨set, hy, ?_⟩
  rintro _ ⟨rfl⟩
  exact ha

end RuleLookaheads

/-- A closure says what the canonical closure of what the kernel says does. -/
theorem said_closure (hg : g.Sound) (hkernel : ∀ x ∈ kernel, x.2.Below g.symbols.size) {i : Item}
    {x : Option Nat} :
    (i, x) ∈ said ((ofGrammar g).closure kernel) ↔ g.possibly.Closure g (said kernel) i x := by
  constructor
  · rintro ⟨set, hset, hmem⟩
    obtain hkernel | ⟨rule, hfound, hdot, hp⟩ := RuleBook.mem_closure.mp hset
    · exact .kernel ⟨set, hkernel, hmem⟩
    · obtain ⟨q, hq, hlhs⟩ := RuleBook.lhs_of_mem_productionsOf hp
      obtain ⟨hnone, hsome⟩ := RuleLookaheads.says_of_ofKernel hg hfound i.production q hq hlhs
      obtain ⟨production, dot⟩ := i
      obtain rfl : dot = 0 := hdot
      cases x with
      | none => exact hnone
      | some a => exact hsome a (hmem a rfl)
  -- conversely all items of the closure are found, by its rules
  · intro h
    induction h with
    | kernel h =>
      obtain ⟨set, hset, hmem⟩ := h
      exact ⟨set, RuleBook.mem_closure.mpr (.inl hset), hmem⟩
    | @production i x y p q _ hnext hq hpasses ih =>
      obtain ⟨set, hset, hmem⟩ := ih
      have hq' := Array.mem_of_getElem? hq
      have hp := RuleBook.mem_productionsOf hq (hg.lhs q hq').2.1
      obtain ⟨found, hfound, hwithin⟩ := RuleBook.following_within_closure hg hkernel hset
        ((nextRule?_eq_some_iff hg hq').mpr hnext) hp
      refine ⟨found, hfound, fun c hc => hwithin c ((mem_following hg).mpr ?_)⟩
      exact (hpasses c hc).imp_right fun ⟨hempty, hx⟩ => ⟨hempty, hmem c hx⟩

/-! ## What symbols lead to -/

open StateGraph (successors)

/-- What a symbol leads to says what the canonical state that it leads to does. -/
theorem said_of_mem_successors (hg : g.Sound) (hkernel : ∀ x ∈ kernel, x.2.Below g.symbols.size)
    {symbol : Nat} {items : List (Item × SymbolSet)}
    (h : (symbol, items) ∈ successors (ofGrammar g) kernel) :
    said items = g.possibly.goto g (said kernel) symbol := by
  -- the items of the group are those with the symbol next, moved on by one
  ext ⟨j, x⟩
  rw [StateGraph.eq_of_mem_successors h]
  constructor
  · rintro ⟨set, hset, hmem⟩
    obtain ⟨⟨i, set'⟩, hi, heq⟩ := List.mem_map.mp hset
    obtain ⟨hclosure, hnext⟩ := List.mem_filter.mp hi
    cases heq
    refine ⟨i, (said_closure hg hkernel).mp ⟨set', hclosure, hmem⟩, ?_, rfl⟩
    rw [← RuleBook.next?_ofGrammar]
    exact beq_iff_eq.mp hnext
  · rintro ⟨i, hi, hnext, hj⟩
    obtain ⟨set, hset, hmem⟩ := (said_closure hg hkernel).mpr hi
    rw [← RuleBook.next?_ofGrammar] at hnext
    refine ⟨set, List.mem_map.mpr ⟨(i, set), List.mem_filter.mpr ⟨hset, ?_⟩, ?_⟩, hmem⟩
    · exact beq_iff_eq.mpr hnext
    · exact Prod.ext hj.symm rfl

/-- A symbol leads somewhere if it does in the canonical states. -/
theorem exists_successors_of_goto (hg : g.Sound) (hkernel : ∀ x ∈ kernel, x.2.Below g.symbols.size)
    {symbol : Nat} (h : (g.possibly.goto g (said kernel) symbol).Nonempty) :
    ∃ items, (symbol, items) ∈ successors (ofGrammar g) kernel := by
  obtain ⟨⟨j, x⟩, i, hi, hnext, -⟩ := h
  obtain ⟨set, hset, -⟩ := (said_closure hg hkernel).mpr hi
  rw [← RuleBook.next?_ofGrammar] at hnext
  obtain ⟨items, hitems, -⟩ := StateGraph.mem_successors hset hnext
  exact ⟨items, hitems⟩

end IncrementalParsing
