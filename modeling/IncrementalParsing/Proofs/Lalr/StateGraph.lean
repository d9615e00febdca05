import IncrementalParsing.Lalr.StateGraph
import IncrementalParsing.Proofs.Except
import IncrementalParsing.Proofs.Lalr.Closure

/-!
# Where the states of a parser lead

Every state stands for the items that its kernel is closed to.  A symbol leads from it to the state of
the items after that symbol, and every symbol that comes next in one of its items leads somewhere.

## Key results

- `Leads`: what the moves from a state mean
- `sound_ofRules`: what holds of the states of a grammar
-/

namespace IncrementalParsing

namespace StateGraph

variable {g : FlatGrammar}

open RuleBook (ofGrammar)

/-! ## Grouping -/

/-- An entry opens a group in front of those of the entries behind it, or is added to the first of
them, which is the one of its key. -/
theorem group_cons {α : Type} (k : Nat) (x : α) (rest : List (Nat × α)) :
    (groupByKey.group ((k, x) :: rest) = (k, [x]) :: groupByKey.group rest ∧
      ∀ first ∈ (groupByKey.group rest).head?, k ≠ first.1) ∨
    ∃ xs more, groupByKey.group rest = (k, xs) :: more ∧
      groupByKey.group ((k, x) :: rest) = (k, x :: xs) :: more := by
  rw [groupByKey.group]
  split
  · rename_i k' xs more hgroup
    rw [hgroup]
    split
    · rename_i heq
      subst heq
      exact .inr ⟨xs, more, rfl, rfl⟩
    · rename_i hne
      refine .inl ⟨rfl, fun first hfirst => ?_⟩
      cases hfirst
      exact hne
  · rename_i hgroup
    rw [hgroup]
    exact .inl ⟨rfl, fun first hfirst => by cases hfirst⟩

/-- A group of some entries is one of those behind the first entry, or it is the group of the first
entry, which holds it before the values behind. -/
theorem mem_group_cons {α : Type} {e : Nat × α} {rest : List (Nat × α)} {k : Nat} {xs : List α}
    (h : (k, xs) ∈ groupByKey.group (e :: rest)) :
    (k, xs) ∈ groupByKey.group rest ∨ k = e.1 ∧
      ∃ ys, xs = e.2 :: ys ∧ (ys = [] ∨ (k, ys) ∈ groupByKey.group rest) := by
  -- the entry opens a group of its own, or joins the one that is first
  obtain ⟨hopens, -⟩ | ⟨ys, more, hgroup, hjoins⟩ := group_cons e.1 e.2 rest
  · obtain h | h := List.mem_cons.mp (hopens ▸ h)
    · cases h
      exact .inr ⟨rfl, [], rfl, .inl rfl⟩
    · exact .inl h
  · rw [hgroup]
    obtain h | h := List.mem_cons.mp (hjoins ▸ h)
    · cases h
      exact .inr ⟨rfl, ys, rfl, .inr (List.mem_cons_self ..)⟩
    · exact .inl (List.mem_cons_of_mem _ h)

/-- A value in a group was entered with its key. -/
theorem mem_of_mem_group {α : Type} {entries : List (Nat × α)} {k : Nat} {xs : List α} {x : α}
    (h : (k, xs) ∈ groupByKey.group entries) (hx : x ∈ xs) : (k, x) ∈ entries := by
  induction entries generalizing xs with
  | nil => cases h
  | cons e rest ih =>
    obtain h | ⟨rfl, ys, rfl, hys⟩ := mem_group_cons h
    · exact List.mem_cons_of_mem _ (ih h hx)
    · obtain rfl | hx := List.mem_cons.mp hx
      · exact List.mem_cons_self ..
      · obtain rfl | hys := hys
        · cases hx
        · exact List.mem_cons_of_mem _ (ih hys hx)

/-- No group is empty. -/
theorem exists_of_mem_group {α : Type} {entries : List (Nat × α)} {k : Nat} {xs : List α}
    (h : (k, xs) ∈ groupByKey.group entries) : ∃ x, x ∈ xs := by
  induction entries with
  | nil => cases h
  | cons e rest ih =>
    obtain h | ⟨-, ys, rfl, -⟩ := mem_group_cons h
    · exact ih h
    · exact ⟨e.2, List.mem_cons_self ..⟩

/-- Every value that is entered is in the group of its key. -/
theorem exists_mem_group {α : Type} {entries : List (Nat × α)} {k : Nat} {x : α}
    (h : (k, x) ∈ entries) : ∃ xs, (k, xs) ∈ groupByKey.group entries ∧ x ∈ xs := by
  induction entries with
  | nil => cases h
  | cons e rest ih =>
    obtain ⟨k', y⟩ := e
    obtain ⟨hopens, -⟩ | ⟨ys, more, hgroup, hjoins⟩ := group_cons k' y rest
    · rw [hopens]
      obtain h | h := List.mem_cons.mp h
      · cases h
        exact ⟨_, List.mem_cons_self .., List.mem_singleton_self _⟩
      · obtain ⟨xs, hxs, hx⟩ := ih h
        exact ⟨xs, List.mem_cons_of_mem _ hxs, hx⟩
    · rw [hjoins]
      obtain h | h := List.mem_cons.mp h
      · cases h
        exact ⟨_, List.mem_cons_self .., List.mem_cons_self ..⟩
      · obtain ⟨xs, hxs, hx⟩ := ih h
        -- what was in the first group is now in a longer one
        obtain hxs | hxs := List.mem_cons.mp (hgroup ▸ hxs)
        · cases hxs
          exact ⟨_, List.mem_cons_self .., List.mem_cons_of_mem _ hx⟩
        · exact ⟨xs, List.mem_cons_of_mem _ hxs, hx⟩

/-- A group holds entries in the order in which they come. -/
theorem sublist_of_mem_group {α : Type} {entries : List (Nat × α)} {k : Nat} {xs : List α}
    (h : (k, xs) ∈ groupByKey.group entries) : xs.Sublist (entries.map (·.2)) := by
  induction entries generalizing xs with
  | nil => cases h
  | cons e rest ih =>
    rw [List.map_cons]
    obtain h | ⟨-, ys, rfl, rfl | hys⟩ := mem_group_cons h
    · exact (ih h).cons e.2
    · exact (List.nil_sublist _).cons_cons e.2
    · exact (ih hys).cons_cons e.2

/-- The keys of groups are those of the entries. -/
theorem key_of_mem_group {α : Type} {entries : List (Nat × α)} {k : Nat} {xs : List α}
    (h : (k, xs) ∈ groupByKey.group entries) : ∃ x, (k, x) ∈ entries := by
  obtain ⟨x, hx⟩ := exists_of_mem_group h
  exact ⟨x, mem_of_mem_group h hx⟩

/-- Groups of entries in ascending order ascend, so no two of them have the same key. -/
theorem pairwise_group {α : Type} {entries : List (Nat × α)}
    (h : entries.Pairwise fun a b => a.1 ≤ b.1) :
    (groupByKey.group entries).Pairwise fun a b => a.1 < b.1 := by
  induction entries with
  | nil => exact .nil
  | cons e rest ih =>
    obtain ⟨k, y⟩ := e
    obtain ⟨hle, hrest⟩ := List.pairwise_cons.mp h
    have ih := ih hrest
    -- keys do not get smaller further behind
    have hkeys : ∀ g ∈ groupByKey.group rest, k ≤ g.1 := by
      rintro ⟨k', xs⟩ hg
      obtain ⟨x, hx⟩ := key_of_mem_group hg
      exact hle _ hx
    obtain ⟨hopens, hne⟩ | ⟨ys, more, hgroup, hjoins⟩ := group_cons k y rest
    · rw [hopens]
      refine List.pairwise_cons.mpr ⟨fun g hg => Nat.lt_of_le_of_ne (hkeys g hg) ?_, ih⟩
      rintro rfl
      -- the first group has another key, so this one would come before it
      obtain ⟨first, more, hgroup⟩ := List.exists_cons_of_ne_nil (List.ne_nil_of_mem hg)
      rw [hgroup] at ih hkeys hg hne
      obtain rfl | hg := List.mem_cons.mp hg
      · exact hne g rfl rfl
      · exact Nat.not_lt_of_le (hkeys first (List.mem_cons_self ..))
          ((List.pairwise_cons.mp ih).1 g hg)
    · rw [hgroup] at ih
      rw [hjoins]
      exact List.pairwise_cons.mpr (List.pairwise_cons.mp ih)

/-- The groups stand in the order of their keys, -/
theorem pairwise_groupByKey {α : Type} (entries : List (Nat × α)) :
    (groupByKey entries).Pairwise fun a b => a.1 < b.1 := by
  refine pairwise_group ((List.pairwise_mergeSort (fun a b c hab hbc => ?_) (fun a b => ?_)
    entries).imp of_decide_eq_true)
  · exact decide_eq_true (Nat.le_trans (of_decide_eq_true hab) (of_decide_eq_true hbc))
  · rw [Bool.or_eq_true, decide_eq_true_eq, decide_eq_true_eq]
    exact Nat.le_total a.1 b.1

/-- so that each key has one group. -/
theorem eq_of_mem_groupByKey {α : Type} {entries : List (Nat × α)} {k : Nat} {xs ys : List α}
    (h : (k, xs) ∈ groupByKey entries) (h' : (k, ys) ∈ groupByKey entries) : xs = ys := by
  by_contra hne
  have hpair := List.Pairwise.forall_of_forall_of_flip (R := fun a b : Nat × List α => a = b ∨ a.1 ≠ b.1)
    (fun a _ => .inl rfl) ((pairwise_groupByKey entries).imp fun h => .inr (Nat.ne_of_lt h))
    ((pairwise_groupByKey entries).imp fun h => .inr (Nat.ne_of_gt h)) h h'
  obtain heq | hkeys := hpair
  · cases heq
    exact hne rfl
  · exact hkeys rfl

/-- Grouping does not look at what it groups. -/
theorem map_groupByKey {α β : Type} (f : α → β) (entries : List (Nat × α)) :
    (groupByKey entries).map (fun g => (g.1, g.2.map f)) =
      groupByKey (entries.map fun e => (e.1, f e.2)) := by
  -- grouping looks only at the keys, so the values may be mapped before or after
  have hgroup : ∀ entries : List (Nat × α),
      (groupByKey.group entries).map (fun g => (g.1, g.2.map f)) =
        groupByKey.group (entries.map fun e => (e.1, f e.2)) := by
    intro entries
    induction entries with
    | nil => rfl
    | cons e rest ih =>
      obtain ⟨k, x⟩ := e
      rw [List.map_cons, groupByKey.group, groupByKey.group, ← ih]
      cases groupByKey.group rest with
      | nil => rfl
      | cons g more =>
        obtain ⟨k', xs⟩ := g
        by_cases hk : k = k' <;> simp [hk]
  rw [groupByKey, groupByKey, hgroup]
  exact congrArg _ (List.map_mergeSort fun a _ b _ => rfl)

/-! ## Moves -/

/-- What is looked up is in the list, -/
theorem mem_of_lookup {α : Type} {xs : List (Nat × α)} {k : Nat} {x : α} (h : xs.lookup k = some x) :
    (k, x) ∈ xs := by
  rw [List.lookup_eq_some_iff] at h
  obtain ⟨before, after, rfl, -⟩ := h
  simp

/-- and what is in an ordered list is looked up. -/
theorem lookup_of_mem {α : Type} {xs : List (Nat × α)} (h : xs.Pairwise fun x y => x.1 < y.1)
    {k : Nat} {x : α} (hx : (k, x) ∈ xs) : xs.lookup k = some x := by
  induction xs with
  | nil => cases hx
  | cons e rest ih =>
    obtain ⟨hlt, hrest⟩ := List.pairwise_cons.mp h
    obtain ⟨k', y⟩ := e
    obtain hx | hx := List.mem_cons.mp hx
    · cases hx
      exact List.lookup_cons_self
    -- the keys ascend, so the one looked for is behind
    · have hne : (k == k') = false := by
        have := hlt _ hx
        simp only [beq_eq_false_iff_ne, ne_eq]
        dsimp only at this
        omega
      rw [List.lookup_cons, hne]
      exact ih hrest hx

/-- The kernel with empty lookaheads, as it is closed to find where a state leads. -/
def bare (kernel : List Item) : List (Item × SymbolSet) := kernel.map fun i => (i, .empty)

/-- A bare kernel has the items of the kernel. -/
theorem map_bare (kernel : List Item) : (bare kernel).map (·.1) = kernel := by
  simp [bare, Function.comp_def]

/-- Its items have no lookaheads, so that all of them are symbols. -/
theorem below_bare (kernel : List Item) : ∀ x ∈ bare kernel, x.2.Below g.symbols.size := by
  intro x hx
  obtain ⟨i, -, rfl⟩ := List.mem_map.mp hx
  exact SymbolSet.below_empty _

/-- What a symbol leads to consists of the items after it. -/
theorem advance_of_mem_successors {kernel : List Item} {symbol : Nat}
    {items : List (Item × SymbolSet)} {j : Item}
    (h : (symbol, items) ∈ successors (ofGrammar g) (bare kernel)) (hj : j ∈ items.map (·.1)) :
    ∃ i, (ofGrammar g).Closed kernel i ∧ (ofGrammar g).next? i = some symbol ∧ j = i.advance := by
  obtain ⟨y, hy, rfl⟩ := List.mem_map.mp hj
  have hmem := mem_of_mem_group h hy
  rw [List.mem_mergeSort, List.mem_filterMap] at hmem
  -- each member was made from an item of the closure by moving its dot
  obtain ⟨⟨i, set⟩, hi, hnext⟩ := hmem
  obtain ⟨s, hs, heq⟩ := Option.map_eq_some_iff.mp hnext
  cases heq
  have hclosed := RuleBook.closed_of_mem_closure hi
  rw [map_bare] at hclosed
  exact ⟨i, hclosed, hs, rfl⟩

/-- An item is handed on to where the symbol after its place leads. -/
theorem mem_successors {b : RuleBook} {kernel : List (Item × SymbolSet)} {symbol : Nat} {i : Item}
    {set : SymbolSet} (hi : (i, set) ∈ b.closure kernel) (hnext : b.next? i = some symbol) :
    ∃ items, (symbol, items) ∈ successors b kernel ∧ (i.advance, set) ∈ items := by
  refine exists_mem_group ?_
  rw [List.mem_mergeSort, List.mem_filterMap]
  refine ⟨(i, set), hi, ?_⟩
  dsimp only
  rw [hnext]
  rfl

/-- No item is handed on to the same place twice. -/
theorem nodup_of_mem_successors {kernel : List (Item × SymbolSet)} {symbol : Nat}
    {items : List (Item × SymbolSet)} (hkernel : (kernel.map (·.1)).Nodup)
    (hbegun : ∀ i ∈ kernel.map (·.1), i.dot = 0 → i.production = g.productions.size)
    (h : (symbol, items) ∈ successors (ofGrammar g) kernel) : (items.map (·.1)).Nodup := by
  have hsub := (sublist_of_mem_group h).map (·.1)
  refine hsub.nodup ?_
  rw [List.map_map, ((List.mergeSort_perm _ _).map _).nodup_iff]
  -- the items of a group are items of the closure, moved on by one
  have hitems : (((ofGrammar g).closure kernel).filterMap fun x =>
      ((ofGrammar g).next? x.1).map fun s => (s, (x.1.advance, x.2))).map (fun e => e.2.1) =
      (((ofGrammar g).closure kernel).map (·.1)).filterMap fun i =>
        ((ofGrammar g).next? i).map fun _ => i.advance := by
    rw [List.map_filterMap, List.filterMap_map]
    congr
    funext x
    simp only [Option.map_map, Function.comp_apply]
    rfl
  refine Eq.mpr (congrArg _ hitems) ?_
  refine (RuleBook.nodup_closure hkernel hbegun).filterMap fun i i' j hi hi' => ?_
  obtain ⟨_, -, rfl⟩ := Option.map_eq_some_iff.mp hi
  obtain ⟨_, -, heq⟩ := Option.map_eq_some_iff.mp hi'
  obtain ⟨production, dot⟩ := i
  obtain ⟨production', dot'⟩ := i'
  simp only [Item.advance, Item.mk.injEq, Nat.add_right_cancel_iff] at heq ⊢
  exact ⟨heq.1.symm, heq.2.symm⟩

/-- A symbol that comes next leads somewhere. -/
theorem exists_mem_successors (hg : g.Sound) {kernel : List Item} {symbol : Nat} {i : Item}
    (hi : (ofGrammar g).Closed kernel i) (hnext : (ofGrammar g).next? i = some symbol) :
    ∃ items, (symbol, items) ∈ successors (ofGrammar g) (bare kernel) := by
  obtain ⟨set, hset⟩ := RuleBook.mem_closure_of_closed hg (below_bare kernel)
    (by rw [map_bare]; exact hi)
  obtain ⟨items, hitems, -⟩ := mem_successors hset hnext
  exact ⟨items, hitems⟩

/-- What the moves from a state mean: a symbol leads to a state of items after it, and every symbol
that comes next leads somewhere.  The items are in the order in which they are found, and none leads
back to the first state. -/
structure Leads (g : FlatGrammar) (kernels : Array (List Item)) (kernel : List Item)
    (moves : List (Nat × Nat)) : Prop where
  target : ∀ symbol target, (symbol, target) ∈ moves → target ≠ 0 ∧
    (∃ i, (ofGrammar g).next? i = some symbol) ∧ ∃ next,
    kernels[target]? = some next ∧ ∀ j ∈ next, ∃ i, (ofGrammar g).Closed kernel i ∧
      (ofGrammar g).next? i = some symbol ∧ j = i.advance
  exact : ∀ symbol target, (symbol, target) ∈ moves → ∀ items,
    (symbol, items) ∈ successors (ofGrammar g) (bare kernel) →
      kernels[target]? = some (items.map (·.1))
  all : ∀ i symbol, (ofGrammar g).Closed kernel i → (ofGrammar g).next? i = some symbol →
    ∃ target, (symbol, target) ∈ moves

/-- Moves keep their targets as more states are made. -/
theorem Leads.grows {kernels kernels' : Array (List Item)} {kernel : List Item}
    {moves : List (Nat × Nat)} (h : Leads g kernels kernel moves)
    (hk : ∀ (i : Nat) (k : List Item), kernels[i]? = some k → kernels'[i]? = some k) :
    Leads g kernels' kernel moves where
  target := fun symbol target hm => by
    obtain ⟨hne, hsymbol, next, hnext, hall⟩ := h.target symbol target hm
    exact ⟨hne, hsymbol, next, hk target next hnext, hall⟩
  exact := fun symbol target hm items hitems => hk target _ (h.exact symbol target hm items hitems)
  all := h.all

/-- An item of which something has been read, and no more than there is. -/
def Begun (g : FlatGrammar) (j : Item) : Prop := j.dot ≠ 0 ∧ j.dot ≤ (g.row j.production).length

/-- An item that goes on over a symbol has been begun. -/
theorem begun_advance {i : Item} {symbol : Nat} (h : (ofGrammar g).next? i = some symbol) :
    Begun g i.advance := by
  rw [RuleBook.next?_ofGrammar] at h
  obtain ⟨hlt, -⟩ := List.getElem?_eq_some_iff.mp h
  exact ⟨Nat.succ_ne_zero _, hlt⟩

/-- What holds of the states found so far. -/
structure Search.Sound (g : FlatGrammar) (s : Search) : Prop where
  numbers : ∀ (kernel : List Item) (i : Nat), s.numbers[kernel]? = some i →
    s.graph.kernels[i]? = some kernel
  zero : s.graph.kernels[0]? = some [(ofGrammar g).startItem]
  begun : ∀ (i : Nat) (kernel : List Item), s.graph.kernels[i]? = some kernel → i ≠ 0 →
    ∀ j ∈ kernel, Begun g j
  nodup : ∀ (i : Nat) (kernel : List Item), s.graph.kernels[i]? = some kernel → kernel.Nodup
  size_le : s.graph.kernels.size ≤ maxStates
  transitions_le : s.graph.transitions.size ≤ s.graph.kernels.size
  leads : ∀ (i : Nat) (kernel : List Item) (moves : List (Nat × Nat)),
    s.graph.kernels[i]? = some kernel → s.graph.transitions[i]? = some moves →
    Leads g s.graph.kernels kernel moves

/-- Only the item of the start has not been begun. -/
theorem Search.Sound.dot_ne_zero {s : Search} (hs : s.Sound g) {state : Nat} {kernel : List Item}
    (hk : s.graph.kernels[state]? = some kernel) :
    ∀ i ∈ kernel, i.dot = 0 → i.production = g.productions.size := by
  intro i hi hdot
  by_cases hzero : state = 0
  · rw [hzero, hs.zero] at hk
    cases hk
    rw [List.mem_singleton.mp hi]
    rfl
  · exact absurd hdot (hs.begun state kernel hk hzero i hi).1

/-- More states may be known, but none is gone through. -/
structure Search.Grows (s s' : Search) : Prop where
  kernels : ∀ (i : Nat) (k : List Item), s.graph.kernels[i]? = some k → s'.graph.kernels[i]? = some k
  transitions : s'.graph.transitions = s.graph.transitions

/-- A kernel that is added changes none of those before it. -/
theorem getElem?_push_of_known {kernels : Array (List Item)} {kernel k : List Item} {i : Nat}
    (h : kernels[i]? = some k) : (kernels.push kernel)[i]? = some k := by
  have hlt := (Array.getElem?_eq_some_iff.mp h).1
  rw [Array.getElem?_push, if_neg (Nat.ne_of_lt hlt), h]

/-- When a kernel has been added, each is the new one or was there before. -/
theorem known_or_eq_of_getElem?_push {kernels : Array (List Item)} {kernel k : List Item} {i : Nat}
    (h : (kernels.push kernel)[i]? = some k) :
    (i = kernels.size ∧ k = kernel) ∨ kernels[i]? = some k := by
  rw [Array.getElem?_push] at h
  split at h
  · rename_i hi
    exact .inl ⟨hi, (Option.some.inj h).symm⟩
  · exact .inr h

/-- A new kernel whose items have been begun can be added. -/
theorem Search.sound_push {s : Search} {kernel : List Item} (hs : s.Sound g)
    (hk : ∀ j ∈ kernel, Begun g j) (hdup : kernel.Nodup) (hlt : s.graph.kernels.size < maxStates) :
    Search.Sound g { numbers := s.numbers.insert kernel s.graph.kernels.size
                     graph := { s.graph with kernels := s.graph.kernels.push kernel } } := by
  constructor
  -- the new kernel is numbered by the place where it is pushed
  case numbers =>
    intro other j hj
    rw [Std.HashMap.getElem?_insert] at hj
    split at hj
    · rename_i heq
      cases hj
      rw [← eq_of_beq heq]
      exact Array.getElem?_push_size
    · exact getElem?_push_of_known (hs.numbers other j hj)
  case zero => exact getElem?_push_of_known hs.zero
  case begun =>
    intro j k hj hne
    obtain ⟨-, rfl⟩ | hj := known_or_eq_of_getElem?_push hj
    · exact hk
    · exact hs.begun j k hj hne
  case nodup =>
    intro j k hj
    obtain ⟨-, rfl⟩ | hj := known_or_eq_of_getElem?_push hj
    · exact hdup
    · exact hs.nodup j k hj
  case size_le =>
    rw [Array.size_push]
    exact hlt
  case transitions_le =>
    rw [Array.size_push]
    exact Nat.le_succ_of_le hs.transitions_le
  case leads =>
    intro j k moves hj hm
    obtain ⟨rfl, -⟩ | hj := known_or_eq_of_getElem?_push hj
    · -- the new state has not been gone through
      have hm := (Array.getElem?_eq_some_iff.mp hm).1
      exact absurd hs.transitions_le (Nat.not_le_of_lt hm)
    · exact (hs.leads j k moves hj hm).grows fun _ _ h => getElem?_push_of_known h

/-- The state of a kernel whose items have been begun. -/
theorem Search.number_spec {s s' : Search} {kernel : List Item} {i : Nat} (hs : s.Sound g)
    (hk : ∀ j ∈ kernel, Begun g j) (hdup : kernel.Nodup) (h : s.number kernel = .ok (s', i)) :
    s'.Sound g ∧ s.Grows s' ∧ s'.graph.kernels[i]? = some kernel := by
  unfold number at h
  split at h
  · rename_i found hfound
    cases h
    exact ⟨hs, ⟨fun _ _ h => h, rfl⟩, hs.numbers _ _ hfound⟩
  · dsimp only at h
    split at h
    · cases h
    -- a kernel that was not met is stored behind the others
    · rename_i hlt
      cases h
      exact ⟨sound_push hs hk hdup (Nat.lt_of_not_le hlt),
        ⟨fun _ _ h => getElem?_push_of_known h, rfl⟩, Array.getElem?_push_size⟩

/-- What grows twice grows. -/
theorem Search.Grows.trans {a b c : Search} (h : a.Grows b) (h' : b.Grows c) : a.Grows c where
  kernels := fun i k hk => h'.kernels i k (h.kernels i k hk)
  transitions := h'.transitions.trans h.transitions

/-- The states of kernels whose items have been begun. -/
theorem Search.numberAll_spec {s s' : Search} {next : List (Nat × List Item)}
    {moves : List (Nat × Nat)} (hs : s.Sound g)
    (hnext : ∀ symbol kernel, (symbol, kernel) ∈ next → ∀ j ∈ kernel, Begun g j)
    (hdup : ∀ symbol kernel, (symbol, kernel) ∈ next → kernel.Nodup)
    (h : s.numberAll next = .ok (s', moves)) :
    s'.Sound g ∧ s.Grows s' ∧
      (∀ symbol target, (symbol, target) ∈ moves →
        ∃ kernel, (symbol, kernel) ∈ next ∧ s'.graph.kernels[target]? = some kernel) ∧
      (∀ symbol kernel, (symbol, kernel) ∈ next → ∃ target, (symbol, target) ∈ moves) := by
  -- on the kernels: each is numbered in turn, and numbers are kept afterwards
  induction next generalizing s moves with
  | nil =>
    cases h
    exact ⟨hs, ⟨fun _ _ h => h, rfl⟩, (fun _ _ h => by cases h), fun _ _ h => by cases h⟩
  | cons entry rest ih =>
    obtain ⟨symbol, kernel⟩ := entry
    rw [numberAll] at h
    simp only [Except.bind_eq_ok, Except.pure_eq_ok] at h
    obtain ⟨⟨s₁, i⟩, hnumber, ⟨s₂, more⟩, hmore, heq⟩ := h
    cases heq
    obtain ⟨hs₁, hg₁, hi⟩ := number_spec hs (hnext _ _ (List.mem_cons_self ..))
      (hdup _ _ (List.mem_cons_self ..)) hnumber
    obtain ⟨hs₂, hg₂, hfrom, hto⟩ := ih hs₁
      (fun other k hk => hnext other k (List.mem_cons_of_mem _ hk))
      (fun other k hk => hdup other k (List.mem_cons_of_mem _ hk)) hmore
    refine ⟨hs₂, hg₁.trans hg₂, fun other target hm => ?_, fun other k hk => ?_⟩
    · obtain hm | hm := List.mem_cons.mp hm
      · cases hm
        exact ⟨kernel, List.mem_cons_self .., hg₂.kernels _ _ hi⟩
      · obtain ⟨k, hk, htarget⟩ := hfrom other target hm
        exact ⟨k, List.mem_cons_of_mem _ hk, htarget⟩
    · obtain hk | hk := List.mem_cons.mp hk
      · cases hk
        exact ⟨i, List.mem_cons_self ..⟩
      · obtain ⟨target, ht⟩ := hto other k hk
        exact ⟨target, List.mem_cons_of_mem _ ht⟩

/-- What the symbols lead to, without lookaheads. -/
theorem exists_of_mem_next {items : List (Item × SymbolSet)} {symbol : Nat} {next : List Item}
    (h : (symbol, next) ∈ (successors (ofGrammar g) items).map
      fun (symbol, items) => (symbol, items.map (·.1))) :
    ∃ items', (symbol, items') ∈ successors (ofGrammar g) items ∧ next = items'.map (·.1) := by
  obtain ⟨⟨s, items'⟩, hmem, heq⟩ := List.mem_map.mp h
  cases heq
  exact ⟨items', hmem, rfl⟩

/-- The moves to the states that were numbered are where the kernel leads. -/
theorem Search.leads_of_numberAll (hg : g.Sound) {s s' : Search} {kernel : List Item}
    {moves : List (Nat × Nat)} (hs : s.Sound g) {state : Nat}
    (hkernel : s.graph.kernels[state]? = some kernel)
    (h : s.numberAll ((successors (ofGrammar g) (bare kernel)).map fun (symbol, items) =>
      (symbol, items.map (·.1))) = .ok (s', moves)) :
    s'.Sound g ∧ s.Grows s' ∧ Leads g s'.graph.kernels kernel moves := by
  -- in what a symbol leads to something has been read of every item
  have hbegun : ∀ symbol next, (symbol, next) ∈ (successors (ofGrammar g) (bare kernel)).map
      (fun (symbol, items) => (symbol, items.map (·.1))) → ∀ j ∈ next, Begun g j := by
    intro symbol next hn j hj
    obtain ⟨items, hmem, rfl⟩ := exists_of_mem_next hn
    obtain ⟨i, -, hnext, rfl⟩ := advance_of_mem_successors hmem hj
    exact begun_advance hnext
  -- and no item stands there twice
  have hdup : ∀ symbol next, (symbol, next) ∈ (successors (ofGrammar g) (bare kernel)).map
      (fun (symbol, items) => (symbol, items.map (·.1))) → next.Nodup := by
    intro symbol next hn
    obtain ⟨items, hmem, rfl⟩ := exists_of_mem_next hn
    refine nodup_of_mem_successors ?_ ?_ hmem
    · rw [map_bare]
      exact hs.nodup _ _ hkernel
    · rw [map_bare]
      exact hs.dot_ne_zero hkernel
  obtain ⟨hs', hgrows, hfrom, hto⟩ := numberAll_spec hs hbegun hdup h
  refine ⟨hs', hgrows, ?_⟩
  constructor
  case target =>
    intro symbol target hm
    obtain ⟨next, hmem, htarget⟩ := hfrom symbol target hm
    obtain ⟨items, hitems, rfl⟩ := exists_of_mem_next hmem
    refine ⟨fun hzero => ?_, ?_, _, htarget, fun j hj => advance_of_mem_successors hitems hj⟩
    · -- of the item in the first state nothing has been read
      rw [hzero, hs'.zero] at htarget
      have hmem' := Option.some.inj htarget
      exact (hbegun _ _ hmem _ (hmem' ▸ List.mem_singleton_self _)).1 rfl
    · obtain ⟨x, hx⟩ := exists_of_mem_group hitems
      obtain ⟨i, -, hnext, -⟩ := advance_of_mem_successors hitems (List.mem_map_of_mem hx)
      exact ⟨i, hnext⟩
  case exact =>
    intro symbol target hm items hitems
    obtain ⟨next, hmem, htarget⟩ := hfrom symbol target hm
    obtain ⟨items', hitems', rfl⟩ := exists_of_mem_next hmem
    rw [htarget, eq_of_mem_groupByKey hitems hitems']
  case all =>
    intro i symbol hi hnext
    obtain ⟨items, hitems⟩ := exists_mem_successors hg hi hnext
    exact hto symbol _ (List.mem_map.mpr ⟨_, hitems, rfl⟩)

/-- Going through a state finds where it leads. -/
theorem Search.sound_explore (hg : g.Sound) {s s' : Search} {kernel : List Item}
    {moves : List (Nat × Nat)} (hs : s.Sound g)
    (hkernel : s.graph.kernels[s.graph.transitions.size]? = some kernel)
    (h : s.numberAll ((successors (ofGrammar g) (bare kernel)).map fun (symbol, items) =>
      (symbol, items.map (·.1))) = .ok (s', moves)) :
    Sound g { s' with graph := { s'.graph with transitions := s'.graph.transitions.push moves } } ∧
      s'.graph.transitions.size = s.graph.transitions.size := by
  obtain ⟨hs', hgrows, hleads⟩ := leads_of_numberAll hg hs hkernel h
  have hkernel' := hgrows.kernels _ _ hkernel
  refine ⟨⟨hs'.numbers, hs'.zero, hs'.begun, hs'.nodup, hs'.size_le, ?_, fun i k m hk hm => ?_⟩,
    congrArg _ hgrows.transitions⟩
  · rw [Array.size_push, hgrows.transitions]
    exact (Array.getElem?_eq_some_iff.mp hkernel').1
  -- the transitions that were pushed are those of `kernel`, the others are older
  · dsimp only at hk hm ⊢
    rw [Array.getElem?_push, hgrows.transitions] at hm
    split at hm
    · rename_i heq
      cases hm
      rw [heq, hkernel'] at hk
      cases hk
      exact hleads
    · exact hs'.leads i k m hk (by rw [hgrows.transitions]; exact hm)

/-- Enough rounds go through all states. -/
theorem Search.run_spec (hg : g.Sound) {fuel : Nat} {s s' : Search} (hs : s.Sound g)
    (hfuel : maxStates < fuel + s.graph.transitions.size)
    (h : run (ofGrammar g) fuel s = .ok s') :
    s'.Sound g ∧ s'.graph.transitions.size = s'.graph.kernels.size := by
  have hle := hs.transitions_le
  have hmax := hs.size_le
  -- on the fuel, which is enough for all states that may be made
  induction fuel generalizing s with
  | zero => omega
  | succ fuel ih =>
    rw [run] at h
    split at h
    · rename_i hnone
      cases h
      have := Array.getElem?_eq_none_iff.mp hnone
      exact ⟨hs, by omega⟩
    · rename_i kernel hkernel
      simp only [Except.bind_eq_ok] at h
      obtain ⟨⟨s₁, moves⟩, hnumber, hrun⟩ := h
      obtain ⟨hs₁, hsize⟩ := sound_explore hg hs hkernel hnumber
      refine ih hs₁ ?_ hrun hs₁.transitions_le hs₁.size_le
      simp only [Array.size_push, hsize]
      omega

/-- What holds of the states of a grammar. -/
structure Sound (g : FlatGrammar) (graph : StateGraph) : Prop where
  zero : graph.kernels[0]? = some [(ofGrammar g).startItem]
  begun : ∀ (i : Nat) (kernel : List Item), graph.kernels[i]? = some kernel → i ≠ 0 →
    ∀ j ∈ kernel, Begun g j
  nodup : ∀ (i : Nat) (kernel : List Item), graph.kernels[i]? = some kernel → kernel.Nodup
  first : ∀ (i : Nat) (kernel : List Item), graph.kernels[i]? = some kernel →
    ∀ j ∈ kernel, j.dot = 0 → j.production = g.productions.size
  size_le : graph.kernels.size ≤ maxStates
  leads : ∀ (i : Nat) (kernel : List Item), graph.kernels[i]? = some kernel →
    Leads g graph.kernels kernel (graph.transitions.getD i [])

/-- The states that are found are sound. -/
theorem sound_ofRules (hg : g.Sound) {graph : StateGraph} (h : ofRules (ofGrammar g) = .ok graph) :
    graph.Sound g := by
  unfold ofRules at h
  simp only [Except.bind_eq_ok, Except.pure_eq_ok] at h
  obtain ⟨s, hrun, rfl⟩ := h
  -- the search begins with the start item alone
  have hstart : Search.Sound g ⟨(∅ : Std.HashMap (List Item) Nat).insert
      [(ofGrammar g).startItem] 0, ⟨#[[(ofGrammar g).startItem]], #[]⟩⟩ := by
    refine ⟨fun kernel i hi => ?_, rfl, fun i kernel hk hne => ?_, fun i kernel hk => ?_,
      (show 1 ≤ maxStates by decide), Nat.zero_le _,
      fun i kernel moves _ hm => ?_⟩
    · rw [Std.HashMap.getElem?_insert] at hi
      split at hi
      · rename_i heq
        cases hi
        rw [← eq_of_beq heq]
        rfl
      · simp at hi
    · obtain ⟨hlt, -⟩ := Array.getElem?_eq_some_iff.mp hk
      exact absurd (Nat.lt_one_iff.mp hlt) hne
    · have hmem := List.mem_singleton.mp (Array.mem_def.mp (Array.mem_of_getElem? hk))
      exact hmem ▸ List.nodup_singleton _
    · simp at hm
  obtain ⟨hs, hsize⟩ := Search.run_spec hg hstart (by simp) hrun
  refine ⟨hs.zero, hs.begun, hs.nodup, fun i kernel hk => hs.dot_ne_zero hk, hs.size_le,
    fun i kernel hk => ?_⟩
  obtain ⟨hlt, -⟩ := Array.getElem?_eq_some_iff.mp hk
  have hmoves : s.graph.transitions[i]? = some (s.graph.transitions.getD i []) := by
    rw [← hsize] at hlt
    simp [Array.getD_eq_getD_getElem?, hlt]
  exact hs.leads i kernel _ hk hmoves

/-- No more than a whole production is read. -/
theorem Sound.dot_eq {graph : StateGraph} (h : graph.Sound g) {state : Nat} {kernel : List Item}
    (hk : graph.kernels[state]? = some kernel) {i : Item} (hi : (ofGrammar g).Closed kernel i)
    (hnext : (ofGrammar g).next? i = none) : i.dot = (g.row i.production).length := by
  rw [RuleBook.next?_ofGrammar, List.getElem?_eq_none_iff] at hnext
  obtain hi | ⟨-, -, hdot, -⟩ := hi
  -- only the start item has its dot at the beginning, and its row is not empty
  · by_cases hs : state = 0
    · rw [hs, h.zero] at hk
      cases hk
      have hrow : g.row i.production = [g.start] := by
        rw [List.mem_singleton.mp hi]
        exact g.row_accepting
      rw [List.mem_singleton.mp hi] at hnext hrow ⊢
      rw [hrow] at hnext
      simp [RuleBook.startItem] at hnext
    · have := (h.begun state kernel hk hs i hi).2
      omega
  · omega

/-- Every item is one of a production. -/
theorem Sound.production_le {graph : StateGraph} (h : graph.Sound g) {state : Nat}
    {kernel : List Item} (hk : graph.kernels[state]? = some kernel) {i : Item}
    (hi : (ofGrammar g).Closed kernel i) : i.production ≤ g.productions.size := by
  obtain hi | ⟨rule, -, -, hp⟩ := hi
  · by_cases hs : state = 0
    · rw [hs, h.zero] at hk
      cases hk
      rw [List.mem_singleton.mp hi]
      exact Nat.le_refl _
    · obtain ⟨hne, hle⟩ := h.begun state kernel hk hs i hi
      -- a row behind the accepting one is empty, but the dot of a kernel has moved
      refine Nat.le_of_not_lt fun hlt => ?_
      have hrow : g.row i.production = [] := by
        rw [FlatGrammar.row, Array.getElem?_eq_none (Nat.le_of_lt hlt), if_neg (by omega)]
      rw [hrow, List.length_nil] at hle
      omega
  · obtain ⟨q, hq, -⟩ := RuleBook.lhs_of_mem_productionsOf hp
    exact Nat.le_of_lt (Array.getElem?_eq_some_iff.mp hq).1

/-- Items that are not begun are those of the start, in the first state only, and those of rules that
come next. -/
theorem Sound.begins {graph : StateGraph} (h : graph.Sound g) {state : Nat} {kernel : List Item}
    (hk : graph.kernels[state]? = some kernel) {p : Nat} (hi : (ofGrammar g).Closed kernel ⟨p, 0⟩) :
    (p = g.productions.size ∧ state = 0) ∨ ∃ q, g.productions[p]? = some q ∧
      (ofGrammar g).Reachable kernel q.lhs := by
  -- only the kernel of the start has an item that begins
  obtain hi | ⟨rule, hr, -, hp⟩ := hi
  · by_cases hs : state = 0
    · rw [hs, h.zero] at hk
      cases hk
      have := List.mem_singleton.mp hi
      exact .inl ⟨congrArg Item.production this, hs⟩
    · exact absurd rfl (h.begun state kernel hk hs _ hi).1
  · obtain ⟨q, hq, rfl⟩ := RuleBook.lhs_of_mem_productionsOf hp
    exact .inr ⟨q, hq, hr⟩

end StateGraph

end IncrementalParsing
