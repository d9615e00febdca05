import IncrementalParsing.Proofs.Navigation.Ranges
import IncrementalParsing.Proofs.Parse.TakingOver

/-!
# The way back from a child

A node does not store what it lies in: `Node.parent?` searches for it from the root, and goes only into
parts that reach over the node with its padding.  The search can go into other parts first, since parts
without bytes can stand at the same place, but it never ends in one: a node is told from all others by
its path.  So it finds what the node lies in, and from there the siblings are found.

## Key results

- `Node.parent?_of_stored`: the search for what a node lies in finds it
- `Node.indexIn?_of_child`: a node finds its number among the children
- `Language.way_back`: from a child the node that it is a child of is found, and so are its siblings
-/

namespace IncrementalParsing

/-! ## Searching in a list from a place on -/

section

variable {α : Type} {xs : List α} {p : α → Bool} {i : Nat} {x : α}

/-- The first entry that has a property. -/
theorem find?_eq_some_iff_getElem? : xs.find? p = some x ↔
    ∃ j : Nat, xs[j]? = some x ∧ p x = true ∧ ∀ k < j, ∀ y, xs[k]? = some y → p y = false := by
  rw [List.find?_eq_some_iff_getElem]
  constructor
  · rintro ⟨hx, j, hj, rfl, hbefore⟩
    refine ⟨j, List.getElem?_eq_getElem hj, hx, fun k hk y hy => ?_⟩
    obtain ⟨-, rfl⟩ := List.getElem?_eq_some_iff.mp hy
    simpa using hbefore k hk
  · rintro ⟨j, hj, hx, hbefore⟩
    obtain ⟨hlt, rfl⟩ := List.getElem?_eq_some_iff.mp hj
    refine ⟨hx, j, hlt, rfl, fun k hk => ?_⟩
    simpa using hbefore k hk _ (List.getElem?_eq_getElem (Nat.lt_trans hk hlt))

/-- The first entry behind a place that has a property. -/
theorem find?_drop_eq_some_iff : (xs.drop (i + 1)).find? p = some x ↔
    ∃ j, i < j ∧ xs[j]? = some x ∧ p x = true ∧
      ∀ k, i < k → k < j → ∀ y, xs[k]? = some y → p y = false := by
  simp only [find?_eq_some_iff_getElem?, List.getElem?_drop]
  constructor
  · rintro ⟨j, hj, hx, hbefore⟩
    -- places in the rest of the list count from behind the dropped ones
    refine ⟨i + 1 + j, by omega, hj, hx, fun k hik hk y hy => ?_⟩
    refine hbefore (k - (i + 1)) (by omega) y ?_
    rwa [Nat.add_sub_cancel' hik]
  · rintro ⟨j, hij, hj, hx, hbefore⟩
    refine ⟨j - (i + 1), ?_, hx, fun k hk y hy => hbefore _ (by omega) (by omega) y hy⟩
    rwa [Nat.add_sub_cancel' hij]

/-- The last entry in front of a place that has a property. -/
theorem find?_reverse_take_eq_some_iff : ((xs.take i).reverse).find? p = some x ↔
    ∃ j, j < i ∧ xs[j]? = some x ∧ p x = true ∧
      ∀ k, j < k → k < i → ∀ y, xs[k]? = some y → p y = false := by
  have hlength : (xs.take i).length = min i xs.length := List.length_take
  -- the entries of the reversed list stand at the other end of the list
  have hget : ∀ k < min i xs.length,
      (xs.take i).reverse[k]? = xs[min i xs.length - 1 - k]? := by
    intro k hk
    rw [List.getElem?_reverse (hlength ▸ hk), hlength, List.getElem?_take_of_lt (by omega)]
  rw [find?_eq_some_iff_getElem?]
  constructor
  · rintro ⟨j, hj, hx, hbefore⟩
    have hlt := (List.getElem?_eq_some_iff.mp hj).1
    rw [List.length_reverse, hlength] at hlt
    rw [hget j hlt] at hj
    refine ⟨_, by omega, hj, hx, fun k hjk hki y hy => ?_⟩
    have hk := (List.getElem?_eq_some_iff.mp hy).1
    refine hbefore (min i xs.length - 1 - k) (by omega) y ?_
    rwa [hget _ (by omega), Nat.sub_sub_self (by omega)]
  · rintro ⟨j, hji, hj, hx, hbefore⟩
    have hlt := (List.getElem?_eq_some_iff.mp hj).1
    refine ⟨min i xs.length - 1 - j, ?_, hx, fun k hk y hy => ?_⟩
    · rwa [hget _ (by omega), Nat.sub_sub_self (by omega)]
    · rw [hget k (by omega)] at hy
      exact hbefore _ (by omega) (by omega) y hy

end

/-- Places below a part are listed in the order of their numbers. -/
theorem Place.pairwise_index (position : Length) (index : Nat)
    (children : List (Subtree × Option FieldId)) :
    (listFrom position index children).Pairwise fun p q => p.index < q.index := by
  induction children generalizing position index with
  | nil => exact .nil
  | cons c rest ih =>
    exact List.pairwise_cons.mpr ⟨fun q hq => index_of_mem_listFrom hq, ih _ _⟩

namespace Node

/-- The node that is reached by taking children one after the other. -/
def descend? (n : Node) : List Nat → Option Node
  | [] => some n
  | i :: is => (n.child? i).bind fun c => c.descend? is

variable {tree : Tree} {n m p a : Node} {i : Nat} {is js : List Nat}

theorem descend?_append : n.descend? (is ++ js) = (n.descend? is).bind fun m => m.descend? js := by
  induction is generalizing n with
  | nil => rfl
  | cons i is ih =>
    rw [List.cons_append, descend?, descend?, Option.bind_assoc]
    simp only [ih]

/-- The last step leads to a child. -/
theorem descend?_concat : n.descend? (is ++ [i]) = (n.descend? is).bind fun m => m.child? i := by
  rw [descend?_append]
  congr
  funext m
  rw [descend?]
  cases m.child? i <;> rfl

theorem above_of_descend? (h : n.descend? is = some m) : Above n m := by
  induction is generalizing n with
  | nil =>
    cases h
    exact .refl
  | cons i is ih =>
    obtain ⟨c, hc, hrest⟩ := Option.bind_eq_some_iff.mp h
    exact .head (mem_stored_of_mem_children (List.mem_of_getElem? hc)) (ih hrest)

/-! ## What a node lies in -/

/-- Nodes of a tree are told apart by their paths. -/
theorem beq_iff (hn : tree.Has n) (hm : tree.Has m) : (n == m) = true ↔ n = m := by
  change (n.path == m.path) = true ↔ n = m
  rw [beq_iff_eq]
  exact ⟨hn.eq_of_path hm, congrArg path⟩

/-- The search goes through what is stored below a node. -/
theorem parentFrom?_eq (n target : Node) : n.parentFrom? target =
    n.stored.findSome? fun c =>
      if c == target then some n
      else if c.place.covers target.place && !c.subtree.isLeaf then c.parentFrom? target
      else none := by
  rw [parentFrom?]
  conv => rhs; rw [← List.attach_map_subtype_val n.stored, List.findSome?_map]
  rfl

/-- What is found has the node stored directly below it. -/
theorem stored_of_parentFrom? (ha : tree.Has a) (hn : tree.Has n)
    (h : a.parentFrom? n = some p) : tree.Has p ∧ n ∈ p.stored := by
  induction a using induction with
  | step a ih =>
    rw [parentFrom?_eq] at h
    obtain ⟨c, hc, hfound⟩ := List.exists_of_findSome?_eq_some h
    have hhas := Tree.Has.stored ha hc
    -- the node is the child itself, or is looked for inside it
    split at hfound
    · rename_i hsame
      cases hfound
      exact ⟨ha, (beq_iff hhas hn).mp hsame ▸ hc⟩
    · split at hfound
      · exact ih c hc hhas hfound
      · cases hfound

/-- Something is found from wherever the node is stored below. -/
theorem isSome_parentFrom? (h : tree.Nested) (ha : tree.Has a) (habove : Above a p)
    (hn : n ∈ p.stored) : (a.parentFrom? n).isSome = true := by
  induction habove using Relation.ReflTransGen.head_induction_on with
  | refl =>
    -- right below its parent the node is found itself
    rw [parentFrom?_eq, List.findSome?_isSome_iff]
    refine ⟨n, hn, ?_⟩
    rw [if_pos ((beq_iff (.stored ha hn) (.stored ha hn)).mpr rfl)]
    rfl
  | @head a c hc hrest ih =>
    have hhas := Tree.Has.stored ha hc
    rw [parentFrom?_eq, List.findSome?_isSome_iff]
    refine ⟨c, hc, ?_⟩
    split
    · rfl
    -- what lies above the node reaches over it, and is no leaf
    · have hinside := inside_of_above h hhas (hrest.tail hn)
      have hcovers : c.place.covers n.place = true := by
        simp only [Place.covers, Bool.and_eq_true, decide_eq_true_eq]
        exact hinside
      obtain ⟨d, hd⟩ : ∃ d, d ∈ c.stored := by
        obtain rfl | ⟨d, hd, -⟩ := hrest.cases_head
        · exact ⟨n, hn⟩
        · exact ⟨d, hd⟩
      obtain ⟨⟨child, hchild, -⟩, -⟩ := exists_child_of_stored hd
      have hfilled : c.subtree.isLeaf = false :=
        List.isEmpty_eq_false_iff.mpr (List.ne_nil_of_mem hchild)
      rw [if_pos (by rw [hcovers, hfilled]; rfl)]
      exact ih hhas

/-- The search for what a node lies in finds it. -/
theorem parent?_of_stored (h : tree.Nested) (hp : tree.Has p) (hn : n ∈ p.stored) :
    n.parent? = some p := by
  have hhas := Tree.Has.stored hp hn
  have hroot : (n == n.tree.node) = false := by
    rw [hhas.tree_eq, ← Bool.not_eq_true, beq_iff hhas .root]
    rintro rfl
    cases (exists_child_of_stored hn).2
  rw [parent?, hroot, hhas.tree_eq]
  obtain ⟨q, hq⟩ := Option.isSome_iff_exists.mp (isSome_parentFrom? h .root hp.above hn)
  obtain ⟨hhas', hn'⟩ := stored_of_parentFrom? .root hhas hq
  -- both have the path of the node without its last step
  have hpath := path_stored hn
  rw [path_stored hn', List.cons.injEq] at hpath
  rw [← hhas'.eq_of_path hp hpath.2, ← hq]
  rfl

/-- The root lies in nothing. -/
theorem parent?_root (tree : Tree) : tree.node.parent? = none := by
  have hroot : tree.Has tree.node := .root
  rw [parent?, if_pos]
  exact (beq_iff hroot hroot).mpr rfl

/-! ## Siblings -/

/-- No node is stored twice. -/
theorem nodup_stored (n : Node) : n.stored.Nodup := by
  rw [stored, List.Nodup, List.pairwise_map]
  refine (Place.pairwise_index _ _ _).imp fun {p q} hlt heq => ?_
  rw [Node.mk.injEq] at heq
  exact Nat.ne_of_lt hlt (congrArg Place.index heq.2.1)

/-- A node finds its number among the children. -/
theorem indexIn?_of_child (hp : tree.Has p) (h : p.child? i = some n) : n.indexIn? p = some i := by
  have hhas : ∀ c ∈ p.children, tree.Has c := fun c hc => .stored hp (mem_stored_of_mem_children hc)
  obtain ⟨hlt, rfl⟩ := List.getElem?_eq_some_iff.mp h
  have hn := hhas _ (List.getElem_mem hlt)
  rw [indexIn?, List.findIdx?_eq_some_iff_getElem]
  refine ⟨hlt, (beq_iff hn hn).mpr rfl, fun j hj hsame => ?_⟩
  have heq := (beq_iff (hhas _ (List.getElem_mem (Nat.lt_trans hj hlt))) hn).mp hsame
  have hnodup := p.nodup_stored.sublist (List.filter_sublist (p := isVisible))
  exact Nat.ne_of_lt hj ((List.Nodup.getElem_inj_iff hnodup).mp heq)

/-- No child between two numbers is named. -/
def NoneNamed (p : Node) (i j : Nat) : Prop :=
  ∀ k, i < k → k < j → ∀ c, p.child? k = some c → c.isNamed = false

/-- What a node that is the child of a number finds around it. -/
structure FindsBack (n p : Node) (i : Nat) : Prop where
  parent : n.parent? = some p
  next : n.next? = p.child? (i + 1)
  previous : n.previous? = if i = 0 then none else p.child? (i - 1)
  nextNamed : ∀ m, n.nextNamed? = some m ↔
    ∃ j, i < j ∧ p.child? j = some m ∧ m.isNamed = true ∧ p.NoneNamed i j
  previousNamed : ∀ m, n.previousNamed? = some m ↔
    ∃ j, j < i ∧ p.child? j = some m ∧ m.isNamed = true ∧ p.NoneNamed j i

/-- A child finds the node that it is a child of, and its siblings. -/
theorem findsBack_of_child (h : tree.Nested) (hp : tree.Has p) (hn : p.child? i = some n) :
    n.FindsBack p i := by
  have hparent := parent?_of_stored h hp (mem_stored_of_mem_children (List.mem_of_getElem? hn))
  -- with the parent and the place known, each step to the side is one lookup
  have hindex := indexIn?_of_child hp hn
  refine ⟨hparent, ?_, ?_, fun m => ?_, fun m => ?_⟩
  · simp only [next?, hparent, hindex, Option.bind_eq_bind, Option.bind_some]
  · simp only [previous?, hparent, hindex, Option.bind_eq_bind, Option.bind_some]
    cases i <;> rfl
  · simp only [nextNamed?, hparent, hindex, Option.bind_eq_bind, Option.bind_some]
    exact find?_drop_eq_some_iff
  · simp only [previousNamed?, hparent, hindex, Option.bind_eq_bind, Option.bind_some]
    exact find?_reverse_take_eq_some_iff

end Node

/-- In a tree that belongs to a text the way back from a node is found: the root lies in nothing, and a
node that is reached by taking children finds the node that it is a child of, and its siblings. -/
theorem Language.way_back {l : Language} {text : String} {tree : Tree} (h : l.TreeFor text tree) :
    tree.node.parent? = none ∧ ∀ (is : List Nat) (i : Nat) (n : Node),
      tree.node.descend? (is ++ [i]) = some n → ∃ p, tree.node.descend? is = some p ∧
        p.child? i = some n ∧ n.FindsBack p i := by
  refine ⟨Node.parent?_root tree, fun is i n hn => ?_⟩
  rw [Node.descend?_concat] at hn
  obtain ⟨p, hp, hn⟩ := Option.bind_eq_some_iff.mp hn
  have hhas := Node.has_of_above .root (Node.above_of_descend? hp)
  exact ⟨p, hp, hn, Node.findsBack_of_child (kept_of_treeFor h).nested hhas hn⟩

/-- The way back from the last token of a text, behind a rule that consists of nothing. -/
theorem Sunken.way_back_from_last : ∃ p a z, Language.parse ⟨0, table⟩ "bnz" none = some p ∧
    p.tree.node.descend? [1] = some a ∧ p.tree.node.descend? [1, 1] = some z ∧
    z.FindsBack a 1 := by
  -- the tree is run once, and only the start of one node is read off it
  have hrun : ((Config.start table none).doneAfter? table "bnz".toUTF8 5).bind (fun r =>
      ((Tree.node ⟨⟨0, table⟩, r.1⟩).descend? [1, 1]).map Node.startByte) = some 2 := by
    cbv
  obtain ⟨r, hr, hrun⟩ := Option.bind_eq_some_iff.mp hrun
  obtain ⟨z, hz, -⟩ := Option.map_eq_some_iff.mp hrun
  have hp := Language.parse_of_doneAfter? ⟨0, table⟩ "bnz" none hr
  obtain ⟨a, ha, -, hback⟩ := (Language.way_back (l := ⟨0, table⟩)
    (.parsed (fun _ h => by cases h) hp)).2 [1] 1 z hz
  exact ⟨_, a, z, hp, ha, hz, hback⟩

end IncrementalParsing
