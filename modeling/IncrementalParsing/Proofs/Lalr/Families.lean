import IncrementalParsing.Proofs.Lalr.StateGraph

/-!
# States of a known family

Where the kernels that can be reached are known, the search for states goes through them and no others.
Every kernel is numbered once, so the search ends before there are too many of them.  The items of a
kernel stand in order, so a kernel is known by its items.

## Key results

- `ofRules_of_closed`: a family that symbols do not lead out of is all that is found
- `mem_of_mem_successors`, `sorted_of_mem_successors`: which items a symbol leads to, and in what order
-/

namespace IncrementalParsing

open RuleBook (ofGrammar)

namespace StateGraph

/-! ## The search inside a family -/

section

variable {b : RuleBook} {family : List (List Item)}

/-- The states found so far are of a family, and each is found once. -/
structure Search.Among (family : List (List Item)) (s : Search) : Prop where
  subset : s.graph.kernels.toList ⊆ family
  nodup : s.graph.kernels.toList.Nodup
  numbered : ∀ kernel ∈ s.graph.kernels.toList, (s.numbers[kernel]?).isSome = true

/-- A kernel of the family has a number, or there is one for it. -/
theorem Search.Among.number {s : Search} (h : s.Among family) (hsize : family.length ≤ maxStates)
    {kernel : List Item} (hk : kernel ∈ family) :
    ∃ s' i, s.number kernel = .ok (s', i) ∧ s'.Among family ∧
      s'.graph.transitions = s.graph.transitions := by
  unfold Search.number
  split
  · exact ⟨s, _, rfl, h, rfl⟩
  · rename_i hnone
    -- a kernel without a number is new, so the states are still fewer than the family
    have hnew : kernel ∉ s.graph.kernels.toList := fun hmem => by
      simpa [hnone] using h.numbered kernel hmem
    have hnodup : (kernel :: s.graph.kernels.toList).Nodup := List.nodup_cons.mpr ⟨hnew, h.nodup⟩
    have hlength : s.graph.kernels.toList.length + 1 ≤ family.length :=
      (hnodup.subperm (List.cons_subset.mpr ⟨hk, h.subset⟩)).length_le
    rw [Array.length_toList] at hlength
    dsimp only
    rw [if_neg (by omega)]
    refine ⟨_, _, rfl, ⟨?_, ?_, fun other hother => ?_⟩, rfl⟩
    · rw [Array.toList_push]
      exact List.append_subset.mpr ⟨h.subset, List.cons_subset.mpr ⟨hk, List.nil_subset _⟩⟩
    · rw [Array.toList_push]
      exact (List.perm_append_singleton kernel _).nodup_iff.mpr hnodup
    · rw [Array.toList_push] at hother
      rw [Std.HashMap.getElem?_insert]
      split
      · rfl
      · rename_i hne
        obtain hother | hother := List.mem_append.mp hother
        · exact h.numbered other hother
        · exact absurd (beq_iff_eq.mpr (List.mem_singleton.mp hother).symm) hne

theorem Search.Among.numberAll {s : Search} (h : s.Among family) (hsize : family.length ≤ maxStates)
    (next : List (Nat × List Item)) (hnext : ∀ x ∈ next, x.2 ∈ family) :
    ∃ s' moves, s.numberAll next = .ok (s', moves) ∧ s'.Among family ∧
      s'.graph.transitions = s.graph.transitions := by
  induction next generalizing s with
  | nil => exact ⟨s, [], rfl, h, rfl⟩
  | cons x rest ih =>
    obtain ⟨s₁, i, hnumber, h₁, hsame₁⟩ := h.number hsize (hnext x (List.mem_cons_self ..))
    obtain ⟨s₂, more, hmore, h₂, hsame₂⟩ := ih h₁ fun y hy => hnext y (List.mem_cons_of_mem _ hy)
    refine ⟨s₂, (x.1, i) :: more, ?_, h₂, hsame₂.trans hsame₁⟩
    exact Except.bind_eq_ok.mpr ⟨_, hnumber, Except.bind_eq_ok.mpr ⟨_, hmore, rfl⟩⟩

theorem Search.Among.run {s : Search} (h : s.Among family) (hsize : family.length ≤ maxStates)
    (hclosed : ∀ kernel ∈ family, ∀ x ∈ successors b (bare kernel), x.2.map (·.1) ∈ family)
    (fuel : Nat) : ∃ s', run b fuel s = .ok s' ∧ s'.Among family := by
  -- on the fuel: the states stay in the family, which is closed under successors
  induction fuel generalizing s with
  | zero => exact ⟨s, rfl, h⟩
  | succ fuel ih =>
    rw [Search.run]
    split
    · exact ⟨s, rfl, h⟩
    · rename_i kernel hkernel
      have hmem : kernel ∈ family :=
        h.subset (Array.mem_toList_iff.mpr (Array.mem_of_getElem? hkernel))
      obtain ⟨s₁, moves, hnumber, h₁, -⟩ := h.numberAll hsize
        ((successors b (bare kernel)).map fun x => (x.1, x.2.map (·.1)))
        fun x hx => by
          obtain ⟨y, hy, rfl⟩ := List.mem_map.mp hx
          exact hclosed kernel hmem y hy
      obtain ⟨s', hs', h'⟩ := ih (s := { s₁ with graph :=
        { s₁.graph with transitions := s₁.graph.transitions.push moves } })
        ⟨h₁.subset, h₁.nodup, h₁.numbered⟩
      exact ⟨s', Except.bind_eq_ok.mpr ⟨_, hnumber, hs'⟩, h'⟩

/-- In a family that the start is in and that symbols do not lead out of, each kernel is found once. -/
theorem among_ofRules_of_closed (family : List (List Item)) (hstart : [b.startItem] ∈ family)
    (hsize : family.length ≤ maxStates)
    (hclosed : ∀ kernel ∈ family, ∀ x ∈ successors b (bare kernel), x.2.map (·.1) ∈ family) :
    ∃ s : Search, ofRules b = .ok s.graph ∧ s.Among family := by
  -- the search starts with the kernel of the start item alone
  have h : Search.Among family ⟨(∅ : Std.HashMap (List Item) Nat).insert [b.startItem] 0,
      ⟨#[[b.startItem]], #[]⟩⟩ := by
    refine ⟨List.cons_subset.mpr ⟨hstart, List.nil_subset _⟩, List.nodup_singleton _,
      fun kernel hk => ?_⟩
    obtain rfl : kernel = [b.startItem] := List.mem_singleton.mp hk
    rw [Std.HashMap.getElem?_insert_self]
    rfl
  obtain ⟨s, hs, hamong⟩ := h.run hsize hclosed (maxStates + 1)
  exact ⟨s, Except.bind_eq_ok.mpr ⟨s, hs, rfl⟩, hamong⟩

/-- A family that the start is in and that symbols do not lead out of is all that is found, and no
kernel of it is found twice. -/
theorem ofRules_of_closed (family : List (List Item)) (hstart : [b.startItem] ∈ family)
    (hsize : family.length ≤ maxStates)
    (hclosed : ∀ kernel ∈ family, ∀ x ∈ successors b (bare kernel), x.2.map (·.1) ∈ family) :
    ∃ graph, ofRules b = .ok graph ∧ graph.kernels.size ≤ family.length ∧
      ∀ (i : Nat) (kernel : List Item), graph.kernels[i]? = some kernel → kernel ∈ family := by
  obtain ⟨s, hs, hamong⟩ := among_ofRules_of_closed family hstart hsize hclosed
  refine ⟨s.graph, hs, ?_, fun i kernel hk => ?_⟩
  · rw [← Array.length_toList]
    exact (hamong.nodup.subperm hamong.subset).length_le
  · exact hamong.subset (Array.mem_toList_iff.mpr (Array.mem_of_getElem? hk))

end

/-! ## What a symbol leads to -/

/-- A group of entries in ascending order holds all entries of its key, in the order in which they
come. -/
theorem eq_of_mem_group {α : Type} {entries : List (Nat × α)}
    (hsorted : entries.Pairwise fun a b => a.1 ≤ b.1) {k : Nat} {xs : List α}
    (h : (k, xs) ∈ groupByKey.group entries) :
    xs = (entries.filter fun e => e.1 == k).map (·.2) := by
  -- a group is made of the entries with its key, which stand together as the entries are sorted
  induction entries generalizing xs with
  | nil => cases h
  | cons e rest ih =>
    obtain ⟨k', y⟩ := e
    obtain ⟨hle, hrest⟩ := List.pairwise_cons.mp hsorted
    have hkeys := pairwise_group hsorted
    replace ih := fun {xs} => @ih hrest xs
    -- the entries of another key are not the first, and the first is the only one of a new key
    have hother : k ≠ k' → ((((k', y) :: rest).filter fun e => e.1 == k).map (·.2)) =
        (rest.filter fun e => e.1 == k).map (·.2) := fun hne => by
      rw [List.filter_cons_of_neg]
      simpa using hne.symm
    have hown : (((k', y) :: rest).filter fun e => e.1 == k').map (·.2) =
        y :: (rest.filter fun e => e.1 == k').map (·.2) := by
      rw [List.filter_cons_of_pos (by simp), List.map_cons]
    have hnone : (∀ xs, (k', xs) ∉ groupByKey.group rest) →
        (rest.filter fun e => e.1 == k').map (·.2) = [] := fun hno => by
      rw [List.map_eq_nil_iff, List.filter_eq_nil_iff]
      rintro ⟨k'', x⟩ hx heq
      obtain rfl : k'' = k' := beq_iff_eq.mp heq
      obtain ⟨xs, hxs, -⟩ := exists_mem_group hx
      exact hno xs hxs
    obtain ⟨hopens, -⟩ | ⟨ys, more, hgroup, hjoins⟩ := group_cons k' y rest
    · rw [hopens] at h hkeys
      have hlt := (List.pairwise_cons.mp hkeys).1
      obtain h | h := List.mem_cons.mp h
      · cases h
        rw [hown, hnone fun xs hxs => Nat.lt_irrefl k (hlt (k, xs) hxs)]
      · rw [hother (Nat.ne_of_gt (hlt _ h))]
        exact ih h
    · rw [hjoins] at h hkeys
      rw [hgroup] at ih
      obtain h | h := List.mem_cons.mp h
      · cases h
        rw [hown, ← ih (List.mem_cons_self ..)]
      · rw [hother (Nat.ne_of_gt ((List.pairwise_cons.mp hkeys).1 _ h))]
        exact ih (List.mem_cons_of_mem _ h)

/-- A group holds all entries of its key, in the order in which they come. -/
theorem eq_of_mem_groupByKey_filter {α : Type} {entries : List (Nat × α)} {k : Nat} {xs : List α}
    (h : (k, xs) ∈ groupByKey entries) : xs = (entries.filter fun e => e.1 == k).map (·.2) := by
  have htrans : ∀ a b c : Nat × α, decide (a.1 ≤ b.1) = true → decide (b.1 ≤ c.1) = true →
      decide (a.1 ≤ c.1) = true := fun a b c hab hbc =>
    decide_eq_true (Nat.le_trans (of_decide_eq_true hab) (of_decide_eq_true hbc))
  have htotal : ∀ a b : Nat × α, (decide (a.1 ≤ b.1) || decide (b.1 ≤ a.1)) = true := fun a b => by
    rw [Bool.or_eq_true, decide_eq_true_eq, decide_eq_true_eq]
    exact Nat.le_total a.1 b.1
  -- `groupByKey` sorts by the key before it groups
  have hsorted := (List.pairwise_mergeSort htrans htotal entries).imp of_decide_eq_true
  rw [eq_of_mem_group hsorted h]
  -- sorting by the key leaves the entries of one key in their order
  have hsame : (entries.filter fun e => e.1 == k).Pairwise fun a b => decide (a.1 ≤ b.1) = true := by
    refine List.pairwise_of_forall_mem_list fun a ha b hb => decide_eq_true (Nat.le_of_eq ?_)
    rw [beq_iff_eq.mp (List.mem_filter.mp ha).2, beq_iff_eq.mp (List.mem_filter.mp hb).2]
  have hsub := (List.sublist_mergeSort htrans htotal hsame List.filter_sublist).filter
    fun e => e.1 == k
  rw [List.filter_filter] at hsub
  simp only [Bool.and_self] at hsub
  rw [hsub.eq_of_length]
  exact ((List.mergeSort_perm entries _).filter _).length_eq.symm

/-- The items that a symbol leads to. -/
theorem eq_of_mem_successors {b : RuleBook} {kernel : List (Item × SymbolSet)} {symbol : Nat}
    {items : List (Item × SymbolSet)} (h : (symbol, items) ∈ successors b kernel) :
    items = ((b.closure kernel).filter fun x => b.next? x.1 == some symbol).map
      fun x => (x.1.advance, x.2) := by
  rw [eq_of_mem_groupByKey_filter h, List.filter_filterMap, List.map_filterMap,
    ← List.filterMap_eq_map, List.filterMap_filter]
  congr 1
  funext x
  obtain ⟨i, set⟩ := x
  -- an item is kept when the symbol is behind its dot
  cases hnext : b.next? i with
  | none => simp [hnext]
  | some s => by_cases hs : s = symbol <;> simp [hnext, hs]

/-! ## The order of items -/

theorem le_trans_item {a b c : Item} (h : a.le b = true) (h' : b.le c = true) : a.le c = true := by
  simp only [Item.le, Bool.or_eq_true, Bool.and_eq_true, decide_eq_true_eq, beq_iff_eq] at h h' ⊢
  omega

theorem le_total_item (a b : Item) : (a.le b || b.le a) = true := by
  simp only [Item.le, Bool.or_eq_true, Bool.and_eq_true, decide_eq_true_eq, beq_iff_eq]
  omega

theorem le_antisymm_item {a b : Item} (h : a.le b = true) (h' : b.le a = true) : a = b := by
  obtain ⟨p, d⟩ := a
  obtain ⟨p', d'⟩ := b
  simp only [Item.le, Bool.or_eq_true, Bool.and_eq_true, decide_eq_true_eq, beq_iff_eq] at h h'
  rw [Item.mk.injEq]
  omega

theorem le_advance (a b : Item) : a.advance.le b.advance = a.le b := by
  obtain ⟨p, d⟩ := a
  obtain ⟨p', d'⟩ := b
  show (p < p' || (p == p' && d + 1 ≤ d' + 1)) = (p < p' || (p == p' && d ≤ d'))
  simp only [Nat.add_le_add_iff_right]

/-- Items in order. -/
def Sorted (items : List Item) : Prop := items.Pairwise fun a b => a.le b = true

/-- Items in order are known by which they are. -/
theorem eq_of_sorted {items items' : List Item} (h : Sorted items) (h' : Sorted items')
    (hnodup : items.Nodup) (hnodup' : items'.Nodup) (hmem : ∀ i, i ∈ items ↔ i ∈ items') :
    items = items' :=
  ((List.perm_ext_iff_of_nodup hnodup hnodup').mpr hmem).eq_of_pairwise
    (fun _ _ _ _ => le_antisymm_item) h h'

/-- The items of a closure stand in order. -/
theorem sorted_closure (b : RuleBook) (kernel : List (Item × SymbolSet)) :
    Sorted ((b.closure kernel).map (·.1)) := by
  have hsorted : (b.closure kernel).Pairwise fun x y => x.1.le y.1 = true := by
    unfold RuleBook.closure
    refine List.pairwise_mergeSort ?_ ?_ _
    · exact fun x y z => le_trans_item
    · exact fun x y => le_total_item x.1 y.1
  exact List.pairwise_map.mpr hsorted

/-- The items that a symbol leads to stand in order. -/
theorem sorted_of_mem_successors {b : RuleBook} {kernel : List (Item × SymbolSet)} {symbol : Nat}
    {items : List (Item × SymbolSet)} (h : (symbol, items) ∈ successors b kernel) :
    Sorted (items.map (·.1)) := by
  rw [eq_of_mem_successors h, Sorted, List.map_map, List.pairwise_map]
  exact ((List.pairwise_map.mp (sorted_closure b kernel)).sublist List.filter_sublist).imp
    fun hle => (le_advance ..).trans hle

/-- Which items a symbol leads to. -/
theorem mem_of_mem_successors {g : FlatGrammar} (hg : g.Sound) {kernel : List Item} {symbol : Nat}
    {items : List (Item × SymbolSet)}
    (h : (symbol, items) ∈ successors (ofGrammar g) (bare kernel)) {j : Item} :
    j ∈ items.map (·.1) ↔ ∃ i, (ofGrammar g).Closed kernel i ∧
      (ofGrammar g).next? i = some symbol ∧ j = i.advance := by
  refine ⟨advance_of_mem_successors h, ?_⟩
  rintro ⟨i, hi, hnext, rfl⟩
  obtain ⟨set, hset⟩ := RuleBook.mem_closure_of_closed hg (below_bare kernel) (map_bare kernel ▸ hi)
  rw [eq_of_mem_successors h, List.map_map]
  refine List.mem_map.mpr ⟨(i, set), List.mem_filter.mpr ⟨hset, ?_⟩, rfl⟩
  simp [hnext]

end StateGraph

end IncrementalParsing
