import IncrementalParsing.Lalr.Item
import IncrementalParsing.Proofs.Lalr.First

/-!
# The closure of a kernel

`RuleBook.closure` finds the rules that can come next with a list of work to do, which ends because
every rule gains each lookahead only once.  Here it is said which items it finds, without the list:
those of the kernel, and the productions of every rule that can come next.

## Key results

- `closed_of_mem_closure`: nothing else is found, whatever the lookaheads are
- `mem_closure_of_closed`: all of it is found
- `map_closure_congr`: the lookaheads do not decide what is found
- `following_within_closure`: what is found has all the lookaheads that it takes
-/

namespace IncrementalParsing

namespace FlatGrammar

/-- The right-hand side of a production, where the one after the last is the one that accepts. -/
def row (g : FlatGrammar) (p : Nat) : List Nat :=
  match g.productions[p]? with
  | some q => q.rhs
  | none => if p = g.productions.size then [g.start] else []

/-- The row of a production of the grammar is its right-hand side. -/
theorem row_of_production {g : FlatGrammar} {p : Nat} {q : FlatProduction}
    (h : g.productions[p]? = some q) : g.row p = q.rhs := by
  rw [row, h]

/-- The row of the production that is added is the start symbol. -/
theorem row_accepting (g : FlatGrammar) : g.row g.productions.size = [g.start] := by
  rw [row, Array.getElem?_size, if_pos rfl]

/-- What stands in a production is a symbol that rules can mention. -/
theorem Sound.row {g : FlatGrammar} (hg : g.Sound) {p s : Nat} (h : s ∈ g.row p) :
    2 ≤ s ∧ s < g.symbols.size := by
  unfold FlatGrammar.row at h
  split at h
  · rename_i q hq
    exact hg.rhs q (Array.mem_of_getElem? hq) s h
  · split at h
    · rw [List.mem_singleton.mp h]
      exact ⟨hg.start.1, hg.start.2.1⟩
    · cases h

end FlatGrammar

namespace RuleBook

/-- The rule book keeps the rows of the grammar. -/
theorem parts_ofGrammar (g : FlatGrammar) (p : Nat) :
    ((ofGrammar g).parts.getD p #[]).toList = g.row p := by
  unfold ofGrammar FlatGrammar.row
  dsimp only
  rw [Array.getD_eq_getD_getElem?, Array.getElem?_push, Array.getElem?_map, Array.size_map]
  split
  -- behind the productions of the grammar stands the accepting one
  · rename_i h
    rw [h, Array.getElem?_size]
    simp
  · rename_i h
    cases hq : g.productions[p]? with
    | none => simp
    | some q => simp

/-- What comes next in an item is read off its row. -/
theorem next?_ofGrammar (g : FlatGrammar) (i : Item) :
    (ofGrammar g).next? i = (g.row i.production)[i.dot]? := by
  rw [next?, ← parts_ofGrammar, Array.getElem?_toList]

/-- So is what comes after that. -/
theorem rest_ofGrammar (g : FlatGrammar) (i : Item) :
    (ofGrammar g).rest i = (g.row i.production).drop (i.dot + 1) := by
  rw [rest, parts_ofGrammar]

/-- Only the productions with a left-hand side are listed under it. -/
theorem mem_foldr_modify (lhs : Nat → Nat) {ps : List Nat} {n rule p : Nat}
    (h : p ∈ (ps.foldr (fun p byLhs => byLhs.modify (lhs p) (p :: ·))
      (Array.replicate n ([] : List Nat))).getD rule []) : p ∈ ps ∧ lhs p = rule := by
  -- each production is put in front of those of its left-hand side
  induction ps with
  | nil =>
    rw [List.foldr_nil, Array.getD_eq_getD_getElem?, Array.getElem?_replicate] at h
    split at h <;> simp at h
  | cons q rest ih =>
    rw [List.foldr_cons, Array.getD_eq_getD_getElem?, Array.getElem?_modify] at h
    rw [Array.getD_eq_getD_getElem?] at ih
    split at h
    · rename_i heq
      cases hfound : (rest.foldr (fun p byLhs => byLhs.modify (lhs p) (p :: ·))
          (Array.replicate n ([] : List Nat)))[rule]? with
      | none => simp [hfound] at h
      | some ps =>
        rw [hfound] at h ih
        obtain rfl | h := List.mem_cons.mp h
        · exact ⟨List.mem_cons_self .., heq⟩
        · exact ⟨List.mem_cons_of_mem _ (ih h).1, (ih h).2⟩
    · exact ⟨List.mem_cons_of_mem _ (ih h).1, (ih h).2⟩

/-- The productions of a rule build it. -/
theorem lhs_of_mem_productionsOf {g : FlatGrammar} {rule p : Nat}
    (h : p ∈ (ofGrammar g).productionsOf rule) :
    ∃ q, g.productions[p]? = some q ∧ q.lhs = rule := by
  obtain ⟨hp, hlhs⟩ := mem_foldr_modify (fun p =>
    ((g.productions[p]?).map (·.lhs) |>.getD 0)) h
  have hq := Array.getElem?_eq_getElem (List.mem_range.mp hp)
  rw [hq] at hlhs
  exact ⟨_, hq, hlhs⟩

/-- Every production is listed under its left-hand side. -/
theorem mem_foldr_modify_self (lhs : Nat → Nat) {ps : List Nat} {n p : Nat} (hp : p ∈ ps)
    (hn : lhs p < n) : p ∈ (ps.foldr (fun p byLhs => byLhs.modify (lhs p) (p :: ·))
      (Array.replicate n ([] : List Nat))).getD (lhs p) [] := by
  -- the array keeps its size, so `lhs p` stays in range
  have hsize : ∀ ps : List Nat, (ps.foldr (fun p byLhs => byLhs.modify (lhs p) (p :: ·))
      (Array.replicate n ([] : List Nat))).size = n := by
    intro ps
    induction ps with
    | nil => exact Array.size_replicate
    | cons q rest ih => rw [List.foldr_cons, Array.size_modify, ih]
  induction ps with
  | nil => cases hp
  | cons q rest ih =>
    have hlt : lhs p < (rest.foldr (fun p byLhs => byLhs.modify (lhs p) (p :: ·))
        (Array.replicate n ([] : List Nat))).size := by rwa [hsize]
    have hfound := Array.getElem?_eq_getElem hlt
    rw [List.foldr_cons, Array.getD_eq_getD_getElem?, Array.getElem?_modify, hfound]
    obtain rfl | hp := List.mem_cons.mp hp
    · rw [if_pos rfl]
      exact List.mem_cons_self ..
    · have hmem := ih hp
      rw [Array.getD_eq_getD_getElem?, hfound, Option.getD_some] at hmem
      split
      · exact List.mem_cons_of_mem _ hmem
      · exact hmem

/-- Every production is one of its rule. -/
theorem mem_productionsOf {g : FlatGrammar} {p : Nat} {q : FlatProduction}
    (hq : g.productions[p]? = some q) (hlhs : q.lhs < g.symbols.size) :
    p ∈ (ofGrammar g).productionsOf q.lhs := by
  obtain ⟨hlt, -⟩ := Array.getElem?_eq_some_iff.mp hq
  have hp : ((g.productions[p]?).map (·.lhs) |>.getD 0) = q.lhs := by rw [hq]; rfl
  have := mem_foldr_modify_self (fun p => (g.productions[p]?).map (·.lhs) |>.getD 0)
    (List.mem_range.mpr hlt) (hp ▸ hlhs)
  rwa [hp] at this

/-! ## What a kernel stands for -/

/-- The rules that can come next in a kernel. -/
inductive Reachable (b : RuleBook) (kernel : List Item) : Nat → Prop
  | kernel {i : Item} {rule : Nat} (hi : i ∈ kernel) (hnext : b.nextRule? i = some rule) :
      Reachable b kernel rule
  | production {rule p next : Nat} (h : Reachable b kernel rule) (hp : p ∈ b.productionsOf rule)
      (hnext : b.nextRule? ⟨p, 0⟩ = some next) : Reachable b kernel next

/-- The items of a kernel and the productions of all rules that can come next. -/
def Closed (b : RuleBook) (kernel : List Item) (i : Item) : Prop :=
  i ∈ kernel ∨ ∃ rule, Reachable b kernel rule ∧ i.dot = 0 ∧ i.production ∈ b.productionsOf rule

/-- More items in the kernel reach more rules, -/
theorem Reachable.mono {b : RuleBook} {kernel kernel' : List Item} (hk : kernel ⊆ kernel')
    {rule : Nat} (h : b.Reachable kernel rule) : b.Reachable kernel' rule := by
  induction h with
  | kernel hi hn => exact .kernel (hk hi) hn
  | production _ hp hn ih => exact .production ih hp hn

/-- and so close to more items. -/
theorem Closed.mono {b : RuleBook} {kernel kernel' : List Item} (hk : kernel ⊆ kernel') {i : Item}
    (h : b.Closed kernel i) : b.Closed kernel' i :=
  h.imp (fun hi => hk hi) fun ⟨rule, hr, hi⟩ => ⟨rule, hr.mono hk, hi⟩

/-- A rule that can come next does so in some item. -/
theorem Reachable.next {b : RuleBook} {kernel : List Item} {rule : Nat}
    (h : b.Reachable kernel rule) : ∃ i, b.Closed kernel i ∧ b.next? i = some rule := by
  have hnext : ∀ {i}, b.nextRule? i = some rule → b.next? i = some rule := fun h =>
    (Option.filter_eq_some_iff.mp h).1
  cases h with
  | kernel hi hn => exact ⟨_, .inl hi, hnext hn⟩
  | production hr hp hn => exact ⟨_, .inr ⟨_, hr, rfl, hp⟩, hnext hn⟩

end RuleBook

/-! ## Nothing else is found -/

namespace RuleLookaheads

/-- Whether a rule has been found. -/
def Marks (a : RuleLookaheads) (rule : Nat) : Prop := (a.getD rule none).isSome = true

/-- What is found after setting one entry. -/
theorem getD_set (a : RuleLookaheads) (rule other : Nat) (set : Option SymbolSet) :
    (a.setIfInBounds rule set).getD other none =
      if rule = other ∧ rule < a.size then set else a.getD other none := by
  rw [Array.getD_eq_getD_getElem?, Array.getD_eq_getD_getElem?, Array.getElem?_setIfInBounds]
  by_cases heq : rule = other
  · subst heq
    by_cases hlt : rule < a.size <;> simp [hlt]
  · simp [heq]

/-- At first no rule is marked. -/
theorem not_marks_replicate (n rule : Nat) : ¬Marks (Array.replicate n none) rule := by
  unfold Marks
  rw [Array.getD_eq_getD_getElem?, Array.getElem?_replicate]
  split <;> simp

/-- The list of work holds only rules that can come next, and only those have been found. -/
structure Reaches (b : RuleBook) (kernel : List Item) (a : RuleLookaheads) (work : List Nat) :
    Prop where
  marked : ∀ rule, a.Marks rule → b.Reachable kernel rule
  listed : ∀ rule ∈ work, b.Reachable kernel rule

/-- Marking a rule that is reachable keeps the invariant. -/
theorem reaches_add {b : RuleBook} {kernel : List Item} {a : RuleLookaheads} {work : List Nat}
    (h : Reaches b kernel a work) {rule : Nat} (hr : b.Reachable kernel rule) (set : SymbolSet) :
    Reaches b kernel (add a work rule set).1 (add a work rule set).2 := by
  -- marking a reachable rule and listing it keeps both fields
  have hset : ∀ set', Reaches b kernel (a.setIfInBounds rule (some set')) (rule :: work) := by
    intro set'
    refine ⟨fun other ho => ?_, fun other ho => ?_⟩
    · unfold Marks at ho
      rw [getD_set] at ho
      split at ho
      · rename_i heq
        exact heq.1 ▸ hr
      · exact h.marked other ho
    · obtain rfl | ho := List.mem_cons.mp ho
      · exact hr
      · exact h.listed other ho
  unfold add
  split
  · exact hset _
  · split
    · exact h
    · exact hset _

/-- So does marking what comes next in an item. -/
theorem reaches_addNext {b : RuleBook} {kernel : List Item} {a : RuleLookaheads} {work : List Nat}
    (h : Reaches b kernel a work) {i : Item}
    (hi : ∀ rule, b.nextRule? i = some rule → b.Reachable kernel rule) (lookaheads : SymbolSet) :
    Reaches b kernel (addNext b a work i lookaheads).1 (addNext b a work i lookaheads).2 := by
  unfold addNext
  split
  · rename_i rule hrule
    exact reaches_add h (hi rule hrule) _
  · exact h

/-- So does every round of `close`, whatever fuel it has. -/
theorem reaches_close {b : RuleBook} {kernel : List Item} {fuel : Nat} {a : RuleLookaheads}
    {work : List Nat} (h : Reaches b kernel a work) :
    ∀ rule, (close b fuel a work).Marks rule → b.Reachable kernel rule := by
  induction fuel generalizing a work with
  | zero => exact h.marked
  | succ fuel ih =>
    cases work with
    | nil => exact h.marked
    | cons rule work =>
      have hrule := h.listed rule (List.mem_cons_self ..)
      rw [close]
      -- the rules that this one leads to are marked and listed together
      refine ih ?_
      refine List.foldlRecOn
        (motive := fun (x : RuleLookaheads × List Nat) => Reaches b kernel x.1 x.2) _ _
        ⟨h.marked, fun other ho => h.listed other (List.mem_cons_of_mem _ ho)⟩ fun x hx p hp => ?_
      exact reaches_addNext hx (fun next hnext => .production hrule hp hnext) _

/-- Every rule that is marked in the end is reachable from the kernel. -/
theorem reachable_of_ofKernel {b : RuleBook} {kernel : List (Item × SymbolSet)} {rule : Nat}
    (h : (ofKernel b kernel).Marks rule) : b.Reachable (kernel.map (·.1)) rule := by
  have hstart : Reaches b (kernel.map (·.1)) (Array.replicate b.grammar.symbols.size none) [] :=
    ⟨fun other ho => absurd ho (not_marks_replicate _ other), fun other ho => by cases ho⟩
  unfold ofKernel at h
  dsimp only at h
  refine reaches_close ?_ rule h
  exact List.foldlRecOn
    (motive := fun (x : RuleLookaheads × List Nat) => Reaches b (kernel.map (·.1)) x.1 x.2) _ _
    (b := (Array.replicate b.grammar.symbols.size none, [])) hstart fun x hx i hi => reaches_addNext hx
      (fun next hnext => .kernel (List.mem_map_of_mem hi) hnext) _

end RuleLookaheads

namespace RuleBook

open RuleLookaheads (Marks)

/-- What a closure is made of. -/
theorem mem_closure {b : RuleBook} {kernel : List (Item × SymbolSet)} {i : Item} {set : SymbolSet} :
    (i, set) ∈ b.closure kernel ↔ (i, set) ∈ kernel ∨
      ∃ rule, (RuleLookaheads.ofKernel b kernel).getD rule none = some set ∧ i.dot = 0 ∧
        i.production ∈ b.productionsOf rule := by
  unfold closure
  simp only [List.mem_mergeSort, List.mem_append]
  refine or_congr Iff.rfl ⟨fun h => ?_, ?_⟩
  -- what is not in the kernel is a production of a rule that was found, at its start
  · obtain ⟨⟨found, rule⟩, hrule, h⟩ := List.mem_flatMap.mp h
    rw [List.mk_mem_zipIdx_iff_getElem?, Array.getElem?_toList] at hrule
    cases found with
    | none => cases h
    | some lookaheads =>
      obtain ⟨p, hp, heq⟩ := List.mem_map.mp h
      cases heq
      refine ⟨rule, ?_, rfl, hp⟩
      rw [Array.getD_eq_getD_getElem?, hrule]
      rfl
  · rintro ⟨rule, hr, hdot, hp⟩
    rw [Array.getD_eq_getD_getElem?] at hr
    cases hfound : (RuleLookaheads.ofKernel b kernel)[rule]? with
    | none => simp [hfound] at hr
    | some found =>
      rw [hfound, Option.getD_some] at hr
      subst hr
      refine List.mem_flatMap.mpr ⟨(some set, rule), ?_, List.mem_map.mpr ⟨i.production, hp, ?_⟩⟩
      · rw [List.mk_mem_zipIdx_iff_getElem?, Array.getElem?_toList, hfound]
      · rw [← hdot]

/-- Nothing else is found, whatever the lookaheads are. -/
theorem closed_of_mem_closure {b : RuleBook} {kernel : List (Item × SymbolSet)} {i : Item}
    {set : SymbolSet} (h : (i, set) ∈ b.closure kernel) : b.Closed (kernel.map (·.1)) i := by
  obtain h | ⟨rule, hr, hdot, hp⟩ := mem_closure.mp h
  · exact .inl (List.mem_map_of_mem h)
  · refine .inr ⟨rule, RuleLookaheads.reachable_of_ofKernel ?_, hdot, hp⟩
    rw [Marks, hr]
    rfl

/-- The start is begun nowhere inside a closure, so what follows it comes from the kernel. -/
theorem within_of_mem_closure {g : FlatGrammar} {kernel : List (Item × SymbolSet)}
    {bound : SymbolSet}
    (h : ∀ i set, (i, set) ∈ kernel → i.production = g.productions.size → set.Within bound)
    {i : Item} {set : SymbolSet} (hi : (i, set) ∈ (ofGrammar g).closure kernel)
    (hp : i.production = g.productions.size) : set.Within bound := by
  obtain hi | ⟨rule, -, -, hp'⟩ := mem_closure.mp hi
  · exact h i set hi hp
  · obtain ⟨q, hq, -⟩ := lhs_of_mem_productionsOf hp'
    have := (Array.getElem?_eq_some_iff.mp hq).1
    omega

/-! ## The items alone -/

/-- The first items of the productions of rules, given for each rule whether it has been found. -/
def opened (b : RuleBook) (found : List Bool) : List Item :=
  found.zipIdx.flatMap fun x => if x.1 then (b.productionsOf x.2).map (⟨·, 0⟩) else []

/-- The items of a closure, in order. -/
theorem map_closure (b : RuleBook) (kernel : List (Item × SymbolSet)) :
    (b.closure kernel).map (·.1) = (kernel.map (·.1) ++ b.opened
      ((RuleLookaheads.ofKernel b kernel).toList.map Option.isSome)).mergeSort Item.le := by
  unfold closure opened
  rw [List.map_mergeSort (s := Item.le) (fun _ _ _ _ => rfl), List.map_append, List.map_flatMap,
    List.zipIdx_map, List.flatMap_map]
  congr 3
  funext x
  obtain ⟨found, rule⟩ := x
  cases found with
  | none => rfl
  | some set => simp

/-- No production is listed twice under a left-hand side. -/
theorem nodup_foldr_modify (lhs : Nat → Nat) {ps : List Nat} (hps : ps.Nodup) (n rule : Nat) :
    ((ps.foldr (fun p byLhs => byLhs.modify (lhs p) (p :: ·))
      (Array.replicate n ([] : List Nat))).getD rule []).Nodup := by
  induction ps with
  | nil =>
    rw [List.foldr_nil, Array.getD_eq_getD_getElem?, Array.getElem?_replicate]
    split <;> exact List.nodup_nil
  | cons p rest ih =>
    obtain ⟨hp, hrest⟩ := List.nodup_cons.mp hps
    -- `p` is new among the productions of its rule
    have hnot := fun h => hp (@mem_foldr_modify lhs rest n rule p h).1
    have ih := ih hrest
    rw [Array.getD_eq_getD_getElem?] at ih hnot
    rw [List.foldr_cons, Array.getD_eq_getD_getElem?, Array.getElem?_modify]
    split
    · cases hfound : (rest.foldr (fun p byLhs => byLhs.modify (lhs p) (p :: ·))
          (Array.replicate n ([] : List Nat)))[rule]? with
      | none => exact List.nodup_nil
      | some ps =>
        rw [hfound] at ih hnot
        exact List.nodup_cons.mpr ⟨hnot, ih⟩
    · exact ih

variable {g : FlatGrammar}

/-- No item is opened twice. -/
theorem nodup_opened (found : List Bool) : ((ofGrammar g).opened found).Nodup := by
  refine List.nodup_flatMap.mpr ⟨fun x _ => ?_, ?_⟩
  · split
    · refine List.Nodup.map (fun p q h => congrArg Item.production h) ?_
      exact nodup_foldr_modify _ List.nodup_range _ _
    · exact List.nodup_nil
  · -- a production is one of a single rule
    refine (List.pairwise_iff_getElem.mpr fun m n hm hn hlt => ?_)
    simp only [List.getElem_zipIdx, Function.onFun]
    intro i hi hi'
    have hlhs : ∀ {c : Bool} {rule : Nat}, i ∈ (if c then
        ((ofGrammar g).productionsOf rule).map (⟨·, 0⟩) else ([] : List Item)) →
        i.production ∈ (ofGrammar g).productionsOf rule := by
      intro c rule hmem
      split at hmem
      · obtain ⟨p, hp, rfl⟩ := List.mem_map.mp hmem
        exact hp
      · cases hmem
    obtain ⟨q, hq, h⟩ := lhs_of_mem_productionsOf (hlhs hi)
    obtain ⟨q', hq', h'⟩ := lhs_of_mem_productionsOf (hlhs hi')
    cases hq.symm.trans hq'
    omega

/-- Each item stands in a closure once, if it does in the kernel and the kernel holds no first items
of productions. -/
theorem nodup_closure {kernel : List (Item × SymbolSet)} (hkernel : (kernel.map (·.1)).Nodup)
    (hbegun : ∀ i ∈ kernel.map (·.1), i.dot = 0 → i.production = g.productions.size) :
    (((ofGrammar g).closure kernel).map (·.1)).Nodup := by
  rw [map_closure, (List.mergeSort_perm _ _).nodup_iff]
  refine List.Nodup.append hkernel (nodup_opened _) fun i hi hi' => ?_
  obtain ⟨x, -, hmem⟩ := List.mem_flatMap.mp hi'
  split at hmem
  · obtain ⟨p, hp, rfl⟩ := List.mem_map.mp hmem
    obtain ⟨q, hq, -⟩ := lhs_of_mem_productionsOf hp
    have hlt := (Array.getElem?_eq_some_iff.mp hq).1
    -- an item of the kernel that stands at a beginning is the accepting one, which opens no rule
    have := hbegun _ hi rfl
    dsimp only at this
    omega
  · cases hmem

end RuleBook

/-! ## All of it is found -/

namespace RuleLookaheads

open SymbolSet (Below)

/-- How much the lookaheads of a rule can still gain. -/
def room (n : Nat) : Option SymbolSet → Nat
  | none => n + 1
  | some set => set.missing n

/-- How much all rules can still gain. -/
def cost (n : Nat) (a : RuleLookaheads) : Nat := sumOf (room n) a.toList

/-- The cost is bounded by the number of rules and of symbols. -/
theorem cost_le (n : Nat) (a : RuleLookaheads) : cost n a ≤ a.size * (n + 1) := by
  refine sumOf_le fun found _ => ?_
  cases found with
  | none => exact Nat.le_refl _
  | some set => exact Nat.le_succ_of_le (set.missing_le n)

/-- What changes in the cost where one entry is set. -/
theorem cost_set {n : Nat} {a : RuleLookaheads} {rule : Nat} (hr : rule < a.size)
    (set : Option SymbolSet) :
    cost n (a.setIfInBounds rule set) + room n (a.getD rule none) = cost n a + room n set := by
  have hlen : rule < a.toList.length := by rwa [Array.length_toList]
  have := sumOf_set (room n) set hlen
  have hget : a.getD rule none = a.toList[rule] := by
    simp [Array.getD_eq_getD_getElem?, hr]
  rw [hget]
  simpa [cost] using this

/-- All lookaheads are below a bound. -/
def AllBelow (n : Nat) (a : RuleLookaheads) : Prop :=
  ∀ rule set, a.getD rule none = some set → Below n set

/-- A rule has been found with at least the given lookaheads. -/
def Covers (a : RuleLookaheads) (rule : Nat) (set : SymbolSet) : Prop :=
  ∃ found, a.getD rule none = some found ∧ set.Within found

/-- What covers a set is marked. -/
theorem Covers.marks {a : RuleLookaheads} {rule : Nat} {set : SymbolSet} (h : a.Covers rule set) :
    a.Marks rule := by
  obtain ⟨found, hfound, -⟩ := h
  rw [Marks, hfound]
  rfl

/-- What finding more keeps: what was found, the list of work, and that every entry of the list was
paid for.  Whatever changes is listed. -/
structure Gains (n : Nat) (a : RuleLookaheads) (work : List Nat) (a' : RuleLookaheads)
    (work' : List Nat) : Prop where
  size : a'.size = a.size
  covers : ∀ rule set, a.Covers rule set → a'.Covers rule set
  same : ∀ rule, a'.getD rule none = a.getD rule none ∨ rule ∈ work'
  listed : ∀ rule ∈ work, rule ∈ work'
  cost : cost n a' + work'.length ≤ cost n a + work.length
  below : AllBelow n a'

/-- Doing nothing keeps all that `Gains` asks for. -/
theorem Gains.refl {n : Nat} {a : RuleLookaheads} (work : List Nat) (h : AllBelow n a) :
    Gains n a work a work :=
  ⟨rfl, fun _ _ h => h, fun _ => .inl rfl, fun _ h => h, Nat.le_refl _, h⟩

/-- So do two steps that keep it. -/
theorem Gains.trans {n : Nat} {a b c : RuleLookaheads} {u v w : List Nat} (h : Gains n a u b v)
    (h' : Gains n b v c w) : Gains n a u c w where
  size := h'.size.trans h.size
  covers := fun rule set hr => h'.covers rule set (h.covers rule set hr)
  same := fun rule => (h'.same rule).elim
    (fun hc => (h.same rule).imp hc.trans (h'.listed rule)) .inr
  listed := fun rule hr => h'.listed rule (h.listed rule hr)
  cost := Nat.le_trans h'.cost h.cost
  below := h'.below

/-- Lookaheads that are gained are paid for with what the rule lacks. -/
theorem gains_set {n : Nat} {a : RuleLookaheads} {rule : Nat} (hr : rule < a.size)
    (ha : AllBelow n a) {set : SymbolSet} (hset : Below n set)
    (hroom : set.missing n < room n (a.getD rule none))
    (hkeeps : ∀ old, a.getD rule none = some old → old.Within set) (work : List Nat) :
    Gains n a work (a.setIfInBounds rule (some set)) (rule :: work) := by
  refine ⟨Array.size_setIfInBounds, fun other wanted ho => ?_, fun other => ?_,
    fun other ho => List.mem_cons_of_mem _ ho, ?_, fun other found hf => ?_⟩
  · obtain ⟨found, hfound, hwithin⟩ := ho
    -- only the entry at `rule` changes
    by_cases heq : rule = other
    · subst heq
      exact ⟨set, by rw [getD_set, if_pos ⟨rfl, hr⟩], hwithin.trans (hkeeps found hfound)⟩
    · exact ⟨found, by rw [getD_set, if_neg fun h => heq h.1, hfound], hwithin⟩
  · by_cases heq : rule = other
    · exact .inr (heq ▸ List.mem_cons_self ..)
    · exact .inl (by rw [getD_set, if_neg fun h => heq h.1])
  · have := cost_set (n := n) hr (some set)
    have hsome : room n (some set) = set.missing n := rfl
    rw [List.length_cons]
    omega
  · rw [getD_set] at hf
    split at hf
    · cases hf
      exact hset
    · exact ha other found hf

/-- `add` covers the set that is added, and what it adds to the work is paid for by the `cost`. -/
theorem gains_add {n : Nat} {a : RuleLookaheads} {rule : Nat} (hr : rule < a.size)
    (ha : AllBelow n a) {set : SymbolSet} (hset : Below n set) (work : List Nat) :
    Gains n a work (add a work rule set).1 (add a work rule set).2 ∧
      (add a work rule set).1.Covers rule set := by
  unfold add
  split
  -- the rule was not found before
  · rename_i hnone
    refine ⟨gains_set hr ha hset ?_ (fun old hold => ?_) work, set, ?_, .refl set⟩
    · rw [hnone]
      exact Nat.lt_succ_of_le (set.missing_le n)
    · rw [hnone] at hold
      cases hold
    · rw [getD_set, if_pos ⟨rfl, hr⟩]
  · rename_i old hold
    split
    · rename_i heq
      exact ⟨.refl work ha, old, hold, heq ▸ SymbolSet.within_union_right old set⟩
    -- the rule was found before, with fewer lookaheads
    · rename_i hne
      refine ⟨gains_set hr ha ((ha rule old hold).union hset) ?_ (fun old' hold' => ?_) work,
        old.union set, ?_, SymbolSet.within_union_right old set⟩
      · rw [hold]
        exact SymbolSet.missing_union_lt hset hne
      · cases hold.symm.trans hold'
        exact SymbolSet.within_union_left old set
      · rw [getD_set, if_pos ⟨rfl, hr⟩]

variable {g : FlatGrammar}

open RuleBook (ofGrammar)

/-- A rule that comes next is a symbol of the grammar. -/
theorem lt_of_nextRule? (hg : g.Sound) {i : Item} {rule : Nat}
    (h : (ofGrammar g).nextRule? i = some rule) : rule < g.symbols.size := by
  have hnext := (Option.filter_eq_some_iff.mp h).1
  rw [RuleBook.next?_ofGrammar] at hnext
  exact (hg.row (List.mem_of_getElem? hnext)).2

/-- The symbols that can follow are symbols of the grammar. -/
theorem below_following (hg : g.Sound) (i : Item) {lookaheads : SymbolSet}
    (h : Below g.symbols.size lookaheads) :
    Below g.symbols.size ((ofGrammar g).following i lookaheads) := by
  have hrest : ∀ s ∈ (ofGrammar g).rest i, s < g.symbols.size := by
    intro s hs
    rw [RuleBook.rest_ofGrammar] at hs
    exact (hg.row (List.mem_of_mem_drop hs)).2
  have hset := FirstSets.below_ofRow (g := g) (FirstSets.bounded_ofGrammar hg) hrest
  unfold RuleBook.following
  dsimp only
  split
  · exact SymbolSet.Below.union hset h
  · exact hset

/-- `addNext` covers what can follow the rule that comes next. -/
theorem gains_addNext (hg : g.Sound) {a : RuleLookaheads} (hsize : a.size = g.symbols.size)
    (ha : AllBelow g.symbols.size a) (work : List Nat) (i : Item) {lookaheads : SymbolSet}
    (hl : Below g.symbols.size lookaheads) :
    Gains g.symbols.size a work (addNext (ofGrammar g) a work i lookaheads).1
      (addNext (ofGrammar g) a work i lookaheads).2 ∧
    ∀ rule, (ofGrammar g).nextRule? i = some rule →
      (addNext (ofGrammar g) a work i lookaheads).1.Covers rule
        ((ofGrammar g).following i lookaheads) := by
  unfold addNext
  split
  · rename_i rule hrule
    obtain ⟨hgains, hcovers⟩ := gains_add (hsize ▸ lt_of_nextRule? hg hrule) ha
      (below_following hg i hl) work
    refine ⟨hgains, fun other ho => ?_⟩
    cases hrule.symm.trans ho
    exact hcovers
  -- nothing is handed on where no rule is next
  · rename_i hnone
    exact ⟨.refl work ha, fun rule hr => by simp [hnone] at hr⟩

/-- Going over items, each with its lookaheads. -/
theorem gains_foldl {α : Type} (hg : g.Sound) (item : α → Item) (lookaheads : α → SymbolSet)
    {xs : List α} (hl : ∀ x ∈ xs, Below g.symbols.size (lookaheads x)) {a : RuleLookaheads}
    {work : List Nat} (hsize : a.size = g.symbols.size) (ha : AllBelow g.symbols.size a)
    {result : RuleLookaheads × List Nat}
    (h : xs.foldl (fun (x : RuleLookaheads × List Nat) y =>
      addNext (ofGrammar g) x.1 x.2 (item y) (lookaheads y)) (a, work) = result) :
    Gains g.symbols.size a work result.1 result.2 ∧
      ∀ x ∈ xs, ∀ rule, (ofGrammar g).nextRule? (item x) = some rule →
        result.1.Covers rule ((ofGrammar g).following (item x) (lookaheads x)) := by
  -- on the items, where what is covered stays covered
  induction xs generalizing a work with
  | nil =>
    subst h
    exact ⟨.refl work ha, fun x hx => by cases hx⟩
  | cons x rest ih =>
    obtain ⟨hgains, hcovers⟩ := gains_addNext hg hsize ha work (item x) (hl x (List.mem_cons_self ..))
    obtain ⟨hgains', hall⟩ := ih (fun y hy => hl y (List.mem_cons_of_mem _ hy))
      (hgains.size.trans hsize) hgains.below h
    refine ⟨hgains.trans hgains', fun y hy rule hr => ?_⟩
    obtain rfl | hy := List.mem_cons.mp hy
    · exact hgains'.covers rule _ (hcovers rule hr)
    · exact hall y hy rule hr

/-- What comes next in the productions of a rule has been found, with what can follow it there. -/
def Explored (g : FlatGrammar) (a : RuleLookaheads) (rule : Nat) : Prop :=
  ∀ set, a.getD rule none = some set → ∀ p ∈ (ofGrammar g).productionsOf rule, ∀ next,
    (ofGrammar g).nextRule? ⟨p, 0⟩ = some next →
      a.Covers next ((ofGrammar g).following ⟨p, 0⟩ set)

/-- What was found before the work and after it. -/
structure Completes (g : FlatGrammar) (a a' : RuleLookaheads) : Prop where
  size : a'.size = a.size
  covers : ∀ rule set, a.Covers rule set → a'.Covers rule set
  explored : ∀ rule, Explored g a' rule
  below : AllBelow g.symbols.size a'

/-- The work ends: what is found has been gone on with. -/
theorem completes_close (hg : g.Sound) (fuel : Nat) {a : RuleLookaheads} {work : List Nat}
    (hsize : a.size = g.symbols.size) (ha : AllBelow g.symbols.size a)
    (hfuel : cost g.symbols.size a + work.length ≤ fuel)
    (hwork : ∀ rule, rule ∈ work ∨ Explored g a rule) :
    Completes g a (close (ofGrammar g) fuel a work) := by
  -- when nothing is listed all rules are explored
  have hnil : work = [] → Completes g a a := fun hw =>
    ⟨rfl, fun _ _ h => h, fun rule => (hwork rule).resolve_left (by simp [hw]), ha⟩
  induction fuel generalizing a work with
  | zero => exact hnil (List.length_eq_zero_iff.mp (by omega))
  | succ fuel ih =>
    cases work with
    | nil => exact hnil rfl
    | cons rule work =>
      have hbelow : Below g.symbols.size ((a.getD rule none).getD .empty) := by
        cases hfound : a.getD rule none with
        | none => exact SymbolSet.below_empty _
        | some set => exact ha rule set hfound
      rw [close]
      generalize hfound : ((ofGrammar g).productionsOf rule).foldl
        (fun (x : RuleLookaheads × List Nat) p => addNext (ofGrammar g) x.1 x.2 ⟨p, 0⟩
          ((a.getD rule none).getD .empty)) (a, work) = found
      obtain ⟨hgains, hcovers⟩ := gains_foldl hg (fun p => ⟨p, 0⟩)
        (fun _ => (a.getD rule none).getD .empty) (fun _ _ => hbelow) hsize ha hfound
      obtain ⟨a', work'⟩ := found
      dsimp only at hgains hcovers ⊢
      rw [List.length_cons] at hfuel
      have hcost := hgains.cost
      -- a rule that has changed is listed, and one that has not is still explored
      have hwork' : ∀ other, other ∈ work' ∨ Explored g a' other := by
        intro other
        obtain hsame | hlisted := hgains.same other
        · obtain hmem | hexplored := hwork other
          · obtain rfl | hmem := List.mem_cons.mp hmem
            · refine .inr fun set hset p hp next hn => ?_
              have := hcovers p hp next hn
              rwa [← hsame, hset] at this
            · exact .inl (hgains.listed other hmem)
          · exact .inr fun set hset p hp next hn =>
              hgains.covers next _ (hexplored set (hsame ▸ hset) p hp next hn)
        · exact .inl hlisted
      have hnext := ih (hgains.size.trans hsize) hgains.below (by omega) hwork'
        (fun hw => ⟨rfl, fun _ _ h => h, fun other => (hwork' other).resolve_left (by simp [hw]),
          hgains.below⟩)
      exact ⟨hnext.size.trans hgains.size,
        fun other set h => hnext.covers other set (hgains.covers other set h), hnext.explored,
        hnext.below⟩

/-- What is found in a kernel: what comes next in its items, and all that follows from that. -/
structure Finds (g : FlatGrammar) (kernel : List (Item × SymbolSet)) (a : RuleLookaheads) : Prop where
  size : a.size = g.symbols.size
  covers : ∀ x ∈ kernel, ∀ rule, (ofGrammar g).nextRule? x.1 = some rule →
    a.Covers rule ((ofGrammar g).following x.1 x.2)
  explored : ∀ rule, Explored g a rule
  below : AllBelow g.symbols.size a

/-- The search from a kernel ends with all that it has to find. -/
theorem finds_ofKernel (hg : g.Sound) {kernel : List (Item × SymbolSet)}
    (hkernel : ∀ x ∈ kernel, Below g.symbols.size x.2) :
    Finds g kernel (ofKernel (ofGrammar g) kernel) := by
  -- at the start no rule has lookaheads
  have hnone : ∀ rule, (Array.replicate g.symbols.size (none : Option SymbolSet)).getD rule none =
      none := fun rule => by
    rw [Array.getD_eq_getD_getElem?, Array.getElem?_replicate]
    split <;> rfl
  have hempty : AllBelow g.symbols.size (Array.replicate g.symbols.size none) := by
    intro rule set hset
    rw [hnone] at hset
    cases hset
  generalize hfound : kernel.foldl (fun (x : RuleLookaheads × List Nat) y =>
    addNext (ofGrammar g) x.1 x.2 y.1 y.2) (Array.replicate g.symbols.size none, []) = found
  have hof : ofKernel (ofGrammar g) kernel = close (ofGrammar g)
      (g.symbols.size * (g.symbols.size + 1) + found.2.length + 1) found.1 found.2 := by
    rw [← hfound]
    rfl
  obtain ⟨hgains, hcovers⟩ := gains_foldl hg (fun y : Item × SymbolSet => y.1) (fun y => y.2) hkernel
    (Array.size_replicate ..) hempty hfound
  obtain ⟨a, work⟩ := found
  dsimp only at hgains hcovers hof
  have hsize : a.size = g.symbols.size := hgains.size.trans (Array.size_replicate ..)
  have hcost := cost_le g.symbols.size a
  rw [hsize] at hcost
  -- a rule that has not been changed has none still, so nothing has to be explored for it
  have hwork : ∀ rule, rule ∈ work ∨ Explored g a rule := by
    intro rule
    obtain hsame | hlisted := hgains.same rule
    · refine .inr fun set hset => ?_
      rw [hsame, hnone] at hset
      cases hset
    · exact .inl hlisted
  have hdone := completes_close hg (g.symbols.size * (g.symbols.size + 1) + work.length + 1)
    hsize hgains.below (by omega) hwork
  rw [hof]
  exact ⟨hdone.size.trans hsize, fun x hx rule hr => hdone.covers rule _ (hcovers x hx rule hr),
    hdone.explored, hdone.below⟩

/-- Every rule that can come next is found. -/
theorem marks_of_reachable (hg : g.Sound) {kernel : List (Item × SymbolSet)}
    (hkernel : ∀ x ∈ kernel, Below g.symbols.size x.2) {rule : Nat}
    (h : (ofGrammar g).Reachable (kernel.map (·.1)) rule) :
    (ofKernel (ofGrammar g) kernel).Marks rule := by
  have hfinds := finds_ofKernel hg hkernel
  -- the induction is on how the rule is reached: from the kernel, or from the start of a production
  induction h with
  | kernel hi hn =>
    obtain ⟨y, hy, rfl⟩ := List.mem_map.mp hi
    exact (hfinds.covers y hy _ hn).marks
  | production _ hp hn ih =>
    obtain ⟨set, hset⟩ := Option.isSome_iff_exists.mp ih
    exact (hfinds.explored _ set hset _ hp _ hn).marks

end RuleLookaheads

namespace RuleBook

variable {g : FlatGrammar} {kernel : List (Item × SymbolSet)}

/-- All items that a kernel stands for are found. -/
theorem mem_closure_of_closed (hg : g.Sound)
    (hkernel : ∀ x ∈ kernel, SymbolSet.Below g.symbols.size x.2) {i : Item}
    (h : (ofGrammar g).Closed (kernel.map (·.1)) i) :
    ∃ set, (i, set) ∈ (ofGrammar g).closure kernel := by
  obtain h | ⟨rule, hr, hdot, hp⟩ := h
  · obtain ⟨⟨_, set⟩, hmem, rfl⟩ := List.mem_map.mp h
    exact ⟨set, mem_closure.mpr (.inl hmem)⟩
  · obtain ⟨set, hset⟩ := Option.isSome_iff_exists.mp
      (RuleLookaheads.marks_of_reachable hg hkernel hr)
    exact ⟨set, mem_closure.mpr (.inr ⟨rule, hset, hdot, hp⟩)⟩

/-- The items of a closure do not depend on the lookaheads. -/
theorem map_closure_congr (hg : g.Sound) {kernel' : List (Item × SymbolSet)}
    (hkernel : ∀ x ∈ kernel, SymbolSet.Below g.symbols.size x.2)
    (hkernel' : ∀ x ∈ kernel', SymbolSet.Below g.symbols.size x.2)
    (h : kernel.map (·.1) = kernel'.map (·.1)) :
    ((ofGrammar g).closure kernel).map (·.1) = ((ofGrammar g).closure kernel').map (·.1) := by
  have hsize := (RuleLookaheads.finds_ofKernel hg hkernel).size
  have hsize' := (RuleLookaheads.finds_ofKernel hg hkernel').size
  -- which rules are opened depends only on the items of the kernel
  have hmarks : ∀ rule, (RuleLookaheads.ofKernel (ofGrammar g) kernel).Marks rule ↔
      (RuleLookaheads.ofKernel (ofGrammar g) kernel').Marks rule := fun rule =>
    ⟨fun hr => RuleLookaheads.marks_of_reachable hg hkernel'
      (h ▸ RuleLookaheads.reachable_of_ofKernel hr),
    fun hr => RuleLookaheads.marks_of_reachable hg hkernel
      (h ▸ RuleLookaheads.reachable_of_ofKernel hr)⟩
  rw [map_closure, map_closure, h]
  congr 3
  refine List.ext_getElem (by simp [hsize, hsize']) fun rule hr hr' => ?_
  have := hmarks rule
  rw [List.length_map, Array.length_toList] at hr hr'
  rw [List.getElem_map, List.getElem_map, Bool.eq_iff_iff]
  simpa [RuleLookaheads.Marks, Array.getD_eq_getD_getElem?, hr, hr'] using this

/-- The productions of the rule that comes next in an item are found with all that can follow it. -/
theorem following_within_closure (hg : g.Sound)
    (hkernel : ∀ x ∈ kernel, SymbolSet.Below g.symbols.size x.2) {i : Item} {set : SymbolSet}
    (h : (i, set) ∈ (ofGrammar g).closure kernel) {rule p : Nat}
    (hnext : (ofGrammar g).nextRule? i = some rule) (hp : p ∈ (ofGrammar g).productionsOf rule) :
    ∃ found, (⟨p, 0⟩, found) ∈ (ofGrammar g).closure kernel ∧
      ((ofGrammar g).following i set).Within found := by
  have hfinds := RuleLookaheads.finds_ofKernel hg hkernel
  obtain ⟨found, hfound, hwithin⟩ : (RuleLookaheads.ofKernel (ofGrammar g) kernel).Covers rule
      ((ofGrammar g).following i set) := by
    obtain h | ⟨rule', hset, hdot, hp'⟩ := mem_closure.mp h
    -- an item of the kernel, or one that the closure has opened
    · exact hfinds.covers _ h rule hnext
    · obtain ⟨production, dot⟩ := i
      subst hdot
      exact hfinds.explored rule' set hset production hp' rule hnext
  exact ⟨found, mem_closure.mpr (.inr ⟨rule, hfound, rfl, hp⟩), hwithin⟩

/-- The lookaheads in a closure are symbols of the grammar. -/
theorem below_closure (hg : g.Sound)
    (hkernel : ∀ x ∈ kernel, SymbolSet.Below g.symbols.size x.2) :
    ∀ x ∈ (ofGrammar g).closure kernel, SymbolSet.Below g.symbols.size x.2 := by
  rintro ⟨i, set⟩ h
  obtain h | ⟨rule, hset, -⟩ := mem_closure.mp h
  · exact hkernel _ h
  · exact (RuleLookaheads.finds_ofKernel hg hkernel).below rule set hset

end RuleBook

end IncrementalParsing
