import IncrementalParsing.Proofs.Parse.WholeText
import IncrementalParsing.Proofs.Tree.Derivations

/-!
# Nodes of an edited tree

An edit keeps the shape of a tree: every node of the edited tree has the path of a node of the tree
before.  `Node.Carried` says so of two nodes, together with where the one stands if it is known where
the other stands.  Only bytes are counted here, so nothing is asked of the text.

## Key results

- `carried_stored`: what is stored below a node is carried over with it
- `exists_carried`, `exists_carried_of_edited`: the nodes of the two trees belong together
- `subtree_of_spares`: a node that the edit does not touch keeps all that is stored in it
-/

namespace IncrementalParsing

/-! ## Places -/

namespace Place

/-- How far the part and the bytes looked at after it reach. -/
def reach (p : Place) : Nat := p.finish.bytes + p.subtree.lookahead

/-- A place ends behind all that its node takes. -/
theorem bytes_finish (p : Place) : p.finish.bytes = p.position.bytes + p.subtree.total.bytes := rfl

/-- A place lies inside another. -/
def Inside (p outer : Place) : Prop :=
  outer.position.bytes ≤ p.position.bytes ∧ p.finish.bytes ≤ outer.finish.bytes

/-- Every place is inside itself. -/
theorem Inside.refl (p : Place) : p.Inside p := ⟨Nat.le_refl _, Nat.le_refl _⟩

/-- What is inside a place that is inside a third one is inside that. -/
theorem Inside.trans {p q r : Place} (hpq : p.Inside q) (hqr : q.Inside r) : p.Inside r :=
  ⟨Nat.le_trans hqr.1 hpq.1, Nat.le_trans hpq.2 hqr.2⟩

/-- A place of a tree and the place of the same number in the edited tree. -/
structure Moved (e : Edit) (p q : Place) : Prop where
  index : q.index = p.index
  field : q.field = p.field
  start : q.position.bytes = e.move p.position.bytes
  finish : q.finish.bytes = e.move p.finish.bytes
  lookahead : q.subtree.lookahead = p.subtree.lookahead

end Place

namespace Edit

variable {e : Edit} {text text' : ByteArray}

/-- An edit leaves a place and the bytes looked at after it alone. -/
def Spares (e : Edit) (p : Place) : Prop :=
  e.affects p.position p.finish p.subtree.lookahead = false

/-- An edit spares a place whose reach ends before it or that begins behind it. -/
theorem spares_iff {p : Place} :
    e.Spares p ↔ p.reach ≤ e.startByte ∨ e.oldEndByte < p.position.bytes := by
  rw [Spares, affects, Bool.and_eq_false_iff, decide_eq_false_iff_not, decide_eq_false_iff_not,
    Nat.not_lt, Nat.not_le]
  rfl

/-- Bytes are mapped as they are moved. -/
theorem bytes_map (e : Edit) (l : Length) : (e.map l).bytes = e.move l.bytes := by
  unfold map move
  split
  · rfl
  · split <;> rfl

/-- What an edit spares is moved as a whole. -/
theorem Replaces.move_of_spares (he : e.Replaces text text') {p : Place} (h : e.Spares p)
    {i j : Nat} (hi : p.position.bytes ≤ i) (hij : i ≤ j) (hj : j ≤ p.finish.bytes) :
    e.move j = e.move i + (j - i) := by
  obtain h | h := spares_iff.mp h
  · have hreach : p.finish.bytes ≤ p.reach := Nat.le_add_right _ _
    rw [move_of_le (by omega), move_of_le (by omega)]
    omega
  · have := he.start_le
    rw [move_of_ge (by omega) (by omega), move_of_ge (by omega) (by omega)]
    omega

end Edit

/-! ## Parts -/

namespace Subtree

variable {e : Edit} {text text' : ByteArray}

/-- An edit does not change how far was looked ahead. -/
theorem lookahead_edit (e : Edit) (n : Subtree) (position : Length) :
    (n.edit e position).lookahead = n.lookahead := by
  cases h : e.affects position (position + n.total) n.lookahead with
  | false => rw [edit_of_not_affects h]
  | true => rw [edit_of_affects h]

/-- An edited part ends where its end was moved to. -/
theorem move_add_total_edit (he : e.Replaces text text') (n : Subtree) (position : Length) :
    e.move position.bytes + (n.edit e position).total.bytes =
      e.move (position.bytes + n.total.bytes) := by
  have htotal : n.total.bytes = n.padding.bytes + n.size.bytes := rfl
  -- a node that the edit spares keeps its length, and both its ends move alike
  cases h : e.affects position (position + n.total) n.lookahead with
  | false =>
    rw [edit_of_not_affects h]
    have hmove := he.move_of_spares (p := ⟨n, position, none, 0⟩) h (Nat.le_refl _)
      (Nat.le_add_right position.bytes n.total.bytes) (Nat.le_refl _)
    rw [Nat.add_sub_cancel_left] at hmove
    exact hmove.symm
  -- the padding and the size are shifted on their own, and neither crosses the other
  | true =>
    have hpad := he.move_mono (Nat.le_add_right position.bytes n.padding.bytes)
    have hsize := he.move_mono
      (show position.bytes + n.padding.bytes ≤ position.bytes + n.total.bytes by omega)
    rw [edit_of_affects h, bytes_total]
    simp only [Length.bytes_sub, Length.bytes_add, Edit.bytes_map]
    omega

/-- The places of edited children are those that the places of the children were moved to. -/
theorem forall₂_listFrom_editAll (he : e.Replaces text text') {position position' : Length}
    (h : position'.bytes = e.move position.bytes) (index : Nat)
    (children : List (Subtree × Option FieldId)) :
    List.Forall₂ (fun p q => Place.Moved e p q ∧ q.subtree = p.subtree.edit e p.position)
      (Place.listFrom position index children)
      (Place.listFrom position' index (editAll e position children)) := by
  induction children generalizing position position' index with
  | nil =>
    rw [editAll]
    exact .nil
  | cons c rest ih =>
    obtain ⟨n, field⟩ := c
    rw [editAll_cons]
    -- the next child begins where the edit has moved the end of this one
    have hend : position'.bytes + (n.edit e position).total.bytes =
        e.move (position.bytes + n.total.bytes) := h ▸ move_add_total_edit he n position
    exact .cons ⟨⟨rfl, rfl, h, hend, lookahead_edit e n position⟩, rfl⟩ (ih hend _)

/-- The places of children that are spared with what they lie in are moved along. -/
theorem forall₂_listFrom_of_spares (he : e.Replaces text text') {outer : Place}
    (ho : e.Spares outer) {position position' : Length}
    (h : position'.bytes = e.move position.bytes) (index : Nat)
    (children : List (Subtree × Option FieldId))
    (hinside : ∀ p ∈ Place.listFrom position index children, p.Inside outer) :
    List.Forall₂ (fun p q => Place.Moved e p q ∧ q.subtree = p.subtree ∧ p.Inside outer)
      (Place.listFrom position index children) (Place.listFrom position' index children) := by
  induction children generalizing position position' index with
  | nil => exact .nil
  | cons c rest ih =>
    obtain ⟨n, field⟩ := c
    rw [Place.listFrom, List.forall_mem_cons] at hinside
    -- an edit outside a node moves both its ends by as much
    have hend : position'.bytes + n.total.bytes = e.move (position.bytes + n.total.bytes) := by
      rw [he.move_of_spares ho hinside.1.1 (Nat.le_add_right _ _) hinside.1.2, h,
        Nat.add_sub_cancel_left]
    exact .cons ⟨⟨rfl, rfl, h, hend, rfl⟩, rfl, hinside.1⟩ (ih hend _ hinside.2)

end Subtree

/-! ## Nodes -/

/-- The path to what is stored below a node goes on from the path to the node. -/
theorem Node.path_stored {n m : Node} (hm : m ∈ n.stored) : m.path = m.place.index :: n.path := by
  simp only [stored, List.mem_map] at hm
  obtain ⟨p, -, rfl⟩ := hm
  unfold path
  cases n.above <;> rfl

/-- Children are numbered upwards from the first. -/
theorem Place.index_of_mem_listFrom {position : Length} {index : Nat}
    {children : List (Subtree × Option FieldId)} {p : Place} (h : p ∈ listFrom position index children) :
    index ≤ p.index := by
  induction children generalizing position index with
  | nil => cases h
  | cons c rest ih =>
    obtain ⟨n, field⟩ := c
    obtain rfl | h := List.mem_cons.mp h
    · exact Nat.le_refl _
    · exact Nat.le_of_succ_le (ih h)

/-- Places below a part differ in their numbers. -/
theorem Place.eq_of_index {position : Length} {index : Nat}
    {children : List (Subtree × Option FieldId)} {p q : Place}
    (hp : p ∈ listFrom position index children) (hq : q ∈ listFrom position index children)
    (h : p.index = q.index) : p = q := by
  induction children generalizing position index with
  | nil => cases hp
  | cons c rest ih =>
    obtain ⟨n, field⟩ := c
    -- the indices count up, so that the first place has an index of its own
    obtain rfl | hp := List.mem_cons.mp hp
    · obtain rfl | hq := List.mem_cons.mp hq
      · rfl
      · have := index_of_mem_listFrom hq
        rw [← h] at this
        exact absurd this (Nat.not_succ_le_self _)
    · obtain rfl | hq := List.mem_cons.mp hq
      · have := index_of_mem_listFrom hp
        rw [h] at this
        exact absurd this (Nat.not_succ_le_self _)
      · exact ih hp hq

/-- The nodes of a tree differ in their paths. -/
theorem Tree.Has.eq_of_path {tree : Tree} {n m : Node} (hn : tree.Has n) (hm : tree.Has m)
    (h : n.path = m.path) : n = m := by
  -- the induction is on the way down to `n`, whose last step the path ends in
  induction hn generalizing m with
  | root =>
    cases hm with
    | root => rfl
    | stored _ hm =>
      rw [Node.path_stored hm] at h
      cases h
  | @stored n' n _ hn ih =>
    rw [Node.path_stored hn] at h
    cases hm with
    | root => cases h
    | @stored m' _ hm' hm =>
      rw [Node.path_stored hm] at h
      injection h with hindex hpath
      obtain rfl := ih hm' hpath
      obtain ⟨p, hp, rfl⟩ := List.mem_map.mp hn
      obtain ⟨q, hq, rfl⟩ := List.mem_map.mp hm
      obtain rfl := Place.eq_of_index hp hq hindex
      rfl

/-- In a nested tree every part lies inside what it is stored in. -/
def Tree.Nested (tree : Tree) : Prop :=
  ∀ n, tree.Has n → ∀ p ∈ n.place.below, p.Inside n.place

/-- Two nodes have the same path, the one in a tree and the other in the edited tree.  The part of the
other is the edited part, or it is in something that the edit has not touched. -/
structure Node.Carried (e : Edit) (n m : Node) : Prop where
  tree : m.tree = n.tree.edit e
  places : List.Forall₂ (Place.Moved e) (n.place :: n.above) (m.place :: m.above)
  subtree : m.subtree = n.subtree.edit e n.place.position ∨
    m.subtree = n.subtree ∧ ∃ outer ∈ n.place :: n.above, e.Spares outer ∧ n.place.Inside outer

namespace Node

variable {e : Edit} {text text' : ByteArray} {tree : Tree} {n m : Node}

/-- A node that is carried over stands at the moved place, -/
theorem Carried.place (h : Carried e n m) : Place.Moved e n.place m.place := by
  cases h.places with
  | cons h _ => exact h

/-- and has the same path. -/
theorem Carried.path (h : Carried e n m) : m.path = n.path := by
  obtain ⟨hplace, habove⟩ := List.forall₂_cons.mp h.places
  -- what a node lies in keeps its place among its siblings
  have hindices : m.above.map (·.index) = n.above.map (·.index) := by
    generalize m.above = qs at habove
    generalize n.above = ps at habove
    induction habove with
    | nil => rfl
    | cons h _ ih => rw [List.map_cons, List.map_cons, h.index, ih]
  -- the root is the only node that lies in nothing, before the edit and after it
  have hempty : m.above = [] ↔ n.above = [] := by
    rw [← List.map_eq_nil_iff, hindices, List.map_eq_nil_iff]
  unfold Node.path
  split
  · rename_i hnil
    rw [hempty.mp hnil]
  · rename_i q qs hcons
    split
    · rename_i hnil
      rw [hempty.mpr hnil] at hcons
      cases hcons
    · rw [hplace.index, List.map_dropLast, List.map_dropLast, hindices]

/-- A node that the edit does not touch keeps all that is stored in it. -/
theorem subtree_of_spares (h : Carried e n m) (hs : e.Spares n.place) : m.subtree = n.subtree := by
  obtain h | h := h.subtree
  · rw [h]
    exact Subtree.edit_of_not_affects hs
  · exact h.1

/-- What is stored below a node is carried over with it. -/
theorem carried_stored (he : e.Replaces text text') (hn : ∀ p ∈ n.place.below, p.Inside n.place)
    (h : Carried e n m) : List.Forall₂ (Carried e) n.stored m.stored := by
  -- below a node that the edit spares nothing changes, so all is moved by the same length
  have hspared : ∀ {outer}, outer ∈ n.place :: n.above → e.Spares outer → n.place.Inside outer →
      m.subtree = n.subtree → List.Forall₂ (Carried e) n.stored m.stored := by
    intro outer hmem hs hinside hsubtree
    have hplaces := Subtree.forall₂_listFrom_of_spares he hs h.place.start 0 n.subtree.children
      fun p hp => (hn p hp).trans hinside
    rw [stored, stored, Place.below, Place.below, show m.place.subtree = n.subtree from hsubtree,
      List.forall₂_map_left_iff, List.forall₂_map_right_iff]
    refine hplaces.imp fun p q hpq => ?_
    obtain ⟨hmoved, hsame, hp⟩ := hpq
    exact ⟨h.tree, .cons hmoved h.places,
      .inr ⟨hsame, outer, List.mem_cons_of_mem _ hmem, hs, hp⟩⟩
  -- the node was edited itself, or lies in one that was spared
  obtain hedit | ⟨hsame, outer, hmem, hs, hinside⟩ := h.subtree
  · cases haffects : e.affects n.place.position n.place.finish n.subtree.lookahead with
    | false =>
      exact hspared (List.mem_cons_self ..) haffects (.refl _) (subtree_of_spares h haffects)
    | true =>
      have hchildren : m.place.subtree.children =
          Subtree.editAll e n.place.position n.subtree.children := by
        rw [show m.place.subtree = _ from hedit, Subtree.edit_of_affects (n := n.subtree) haffects]
      have hplaces := Subtree.forall₂_listFrom_editAll he h.place.start 0 n.subtree.children
      rw [stored, stored, Place.below, Place.below, hchildren, List.forall₂_map_left_iff,
        List.forall₂_map_right_iff]
      exact hplaces.imp fun p q hpq => ⟨h.tree, .cons hpq.1 h.places, .inl hpq.2⟩
  · exact hspared hmem hs hinside hsame

/-- The root of the edited tree is that of the tree before. -/
theorem carried_root (he : e.Replaces text text') (tree : Tree) :
    Carried e tree.node (tree.edit e).node := by
  have hend := Subtree.move_add_total_edit he tree.root .zero
  rw [Length.bytes_zero, Edit.move_zero] at hend
  exact ⟨rfl, .cons ⟨rfl, rfl, Edit.move_zero.symm, hend, Subtree.lookahead_edit e _ _⟩ .nil, .inl rfl⟩

/-- Every node is carried over. -/
theorem exists_carried (he : e.Replaces text text') (ht : tree.Nested) (hn : tree.Has n) :
    ∃ m, (tree.edit e).Has m ∧ Carried e n m := by
  induction hn with
  | root => exact ⟨_, .root, carried_root he tree⟩
  | stored hn hm ih =>
    obtain ⟨n', hn', hcarried⟩ := ih
    obtain ⟨m', hm', h⟩ := Subtree.exists_of_mem_forall₂ (carried_stored he (ht _ hn) hcarried) hm
    exact ⟨m', .stored hn' hm', h⟩

/-- Every node of the edited tree is one that was carried over. -/
theorem exists_carried_of_edited (he : e.Replaces text text') (ht : tree.Nested)
    (hm : (tree.edit e).Has m) : ∃ n, tree.Has n ∧ Carried e n m := by
  induction hm with
  | root => exact ⟨_, .root, carried_root he tree⟩
  | stored hm hm' ih =>
    obtain ⟨n, hn, hcarried⟩ := ih
    obtain ⟨n', hn', h⟩ := Subtree.exists_of_mem_forall₂
      (List.Forall₂.flip (carried_stored he (ht _ hn) hcarried)) hm'
    exact ⟨n', .stored hn hn', h⟩

end Node

/-- Places inside one another stay so when they are moved. -/
theorem Place.Moved.inside {e : Edit} {text text' : ByteArray} (he : e.Replaces text text')
    {p q p' q' : Place} (hp : Moved e p p') (hq : Moved e q q') (h : p.Inside q) : p'.Inside q' :=
  ⟨hp.start ▸ hq.start ▸ he.move_mono h.1, hp.finish ▸ hq.finish ▸ he.move_mono h.2⟩

/-- A place below a node is that of a stored node, -/
theorem Node.exists_stored {n : Node} {p : Place} (h : p ∈ n.place.below) :
    ∃ m ∈ n.stored, m.place = p :=
  ⟨_, List.mem_map_of_mem h, rfl⟩

/-- A place of what is stored below a node. -/
theorem Node.mem_below {n m : Node} (h : m ∈ n.stored) : m.place ∈ n.place.below := by
  simp only [stored, List.mem_map] at h
  obtain ⟨p, hp, rfl⟩ := h
  exact hp

/-- which belongs to the same tree. -/
theorem Node.tree_of_stored {n m : Node} (h : m ∈ n.stored) : m.tree = n.tree := by
  obtain ⟨p, -, rfl⟩ := List.mem_map.mp h
  rfl

/-- The nodes of a tree know it. -/
theorem Tree.Has.tree_eq {tree : Tree} {n : Node} (h : tree.Has n) : n.tree = tree := by
  induction h with
  | root => rfl
  | stored _ hm ih => rw [Node.tree_of_stored hm, ih]

/-- An edit keeps a tree nested. -/
theorem Tree.Nested.edit {e : Edit} {text text' : ByteArray} (he : e.Replaces text text')
    {tree : Tree} (h : tree.Nested) : (tree.edit e).Nested := by
  intro m hm q hq
  obtain ⟨n, hn, hcarried⟩ := Node.exists_carried_of_edited he h hm
  obtain ⟨m', hm', rfl⟩ := Node.exists_stored hq
  obtain ⟨n', hn', hcarried'⟩ := Subtree.exists_of_mem_forall₂
    (List.Forall₂.flip (Node.carried_stored he (h n hn) hcarried)) hm'
  exact hcarried'.place.inside he hcarried.place (h n hn _ (Node.mem_below hn'))

end IncrementalParsing
