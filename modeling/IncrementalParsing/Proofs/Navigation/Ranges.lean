import IncrementalParsing.Proofs.Navigation.HiddenParts

/-!
# Ranges of nodes

A tree that belongs to a text is orderly, whether it was parsed or edited: every node lies in what it is
stored in, with its padding and without it, siblings follow each other, and whatever is visible below a
node is a child of it or below one.

## Key results

- `Language.orderly_of_treeFor`: the trees that belong to a text are orderly
- `Node.mem_children_of_above`: the way to what is visible leads through children
- `Node.within_of_above`: what is below a node lies between its first and its last byte
-/

namespace IncrementalParsing

/-- No node begins before what it is stored in. -/
def Tree.Begins (tree : Tree) : Prop :=
  ∀ n, tree.Has n → ∀ m ∈ n.stored, n.startByte ≤ m.startByte

/-- What is known of how the nodes of a tree lie in each other. -/
structure Tree.Orderly (tree : Tree) : Prop where
  nested : tree.Nested
  begins : tree.Begins
  clear : tree.Clear

namespace Node

/-! ## Edits -/

/-- A node that is carried over begins where its first byte was moved to. -/
theorem startByte_of_carried {e : Edit} {text text' : ByteArray} (he : e.Replaces text text')
    {n m : Node} (h : Carried e n m) :
    m.startByte = e.move n.startByte := by
  have hplace := h.place.start
  have hend := n.endByte_eq ▸ n.startByte_le_endByte
  have hstart : n.place.position.bytes ≤ n.startByte := Nat.le_add_right _ _
  -- below a place that the edit spares everything is moved by the same length
  have hspared : ∀ outer, e.Spares outer → n.place.Inside outer → m.subtree = n.subtree →
      m.startByte = e.move n.startByte := by
    intro outer hs hinside hsame
    rw [he.move_of_spares hs hinside.1 hstart (Nat.le_trans hend hinside.2), startByte, startByte,
      hplace, hsame, Nat.add_sub_cancel_left]
  obtain hedit | ⟨hsame, outer, -, hs, hinside⟩ := h.subtree
  -- an edit of the node itself either spares it or changes its padding
  · cases haffects : e.affects n.place.position n.place.finish n.subtree.lookahead with
    | false => exact hspared n.place haffects (.refl _) (subtree_of_spares h haffects)
    | true =>
      have hmono := he.move_mono hstart
      have hpadding : m.subtree.padding =
          e.map (n.place.position + n.subtree.padding) - e.map n.place.position := by
        rw [hedit, Subtree.edit_of_affects (n := n.subtree) haffects]
      rw [startByte, hplace, hpadding, Length.bytes_sub, Edit.bytes_map, Edit.bytes_map,
        Length.bytes_add]
      exact Nat.add_sub_of_le hmono
  · exact hspared outer hs hinside hsame

end Node

/-- After an edit still no node begins before what it is stored in. -/
theorem Tree.Begins.edit {e : Edit} {text text' : ByteArray} (he : e.Replaces text text') {tree : Tree}
    (hnested : tree.Nested) (h : tree.Begins) : (tree.edit e).Begins := by
  intro m hm m' hm'
  obtain ⟨n, hn, hcarried⟩ := Node.exists_carried_of_edited he hnested hm
  obtain ⟨n', hn', hcarried'⟩ := Subtree.exists_of_mem_forall₂
    (List.Forall₂.flip (Node.carried_stored he (hnested n hn) hcarried)) hm'
  rw [Node.startByte_of_carried he hcarried, Node.startByte_of_carried he hcarried']
  exact he.move_mono (h n hn n' hn')

namespace Node

variable {tree : Tree} {n m : Node}

/-! ## Orderly trees -/

/-- The parts stored below a node follow each other. -/
theorem pairwise_stored (n : Node) : n.stored.Pairwise fun a b => a.endByte ≤ b.place.position.bytes := by
  rw [stored, List.pairwise_map]
  refine (Place.pairwise_listFrom _ _ _).2.imp fun {p q} hpq => ?_
  rw [endByte_eq]
  exact hpq

theorem pairwise_children (n : Node) :
    n.children.Pairwise fun a b => a.endByte ≤ b.place.position.bytes :=
  n.pairwise_stored.sublist List.filter_sublist

theorem mem_stored_of_mem_children (h : m ∈ n.children) : m ∈ n.stored := (List.mem_filter.mp h).1

theorem isVisible_of_mem_children (h : m ∈ n.children) : m.isVisible = true := (List.mem_filter.mp h).2

/-- What is visible below a node is below a child. -/
theorem mem_children_of_above (h : tree.Clear) (hn : tree.Has n) (habove : Above n m)
    (hm : m.isVisible = true) : m = n ∨ ∃ c ∈ n.children, Above c m := by
  obtain rfl | ⟨c, hc, hrest⟩ := habove.cases_head
  · exact .inl rfl
  · refine .inr ⟨c, List.mem_filter.mpr ⟨hc, ?_⟩, hrest⟩
    -- nothing is below what is hidden
    by_contra hhidden
    rw [Bool.not_eq_true] at hhidden
    obtain rfl | ⟨d, hd, -⟩ := hrest.cases_head
    · exact absurd (hm.symm.trans hhidden) (by decide)
    · rw [h n hn c hc hhidden] at hd
      cases hd

/-- What is below a node lies between its first and its last byte. -/
theorem within_of_above (h : tree.Orderly) (hn : tree.Has n) (habove : Above n m) :
    n.startByte ≤ m.startByte ∧ m.endByte ≤ n.endByte := by
  constructor
  · induction habove with
    | refl => exact Nat.le_refl _
    | tail habove hm ih => exact Nat.le_trans ih (h.begins _ (has_of_above hn habove) _ hm)
  · rw [endByte_eq, endByte_eq]
    exact (inside_of_above h.nested hn habove).2

end Node

namespace Language

variable {l : Language} {g : FlatGrammar} {items : StateId → Item → Prop}

/-- In a tree that belongs to a text no node begins before what it is stored in. -/
theorem begins_of_treeFor (h : l.table.Serves g items) {text : String} {tree : Tree}
    (htree : l.TreeFor text tree) : tree.Begins := by
  induction htree with
  | parsed hold hp _ =>
    have hreports := (reports_of_parse h (fun tree htree => grown_of_treeFor (hold tree htree)) hp).1
    exact fun n hn m hm => Node.startByte_le_of_stored (hreports n hn).begins hm
  | edited start stop replacement htree _ ih =>
    exact ih.edit (Edit.replaces_splice _ replacement start stop) (kept_of_treeFor htree).nested

/-- The trees that belong to a text are orderly. -/
theorem orderly_of_treeFor {grammar : Grammar} (h : grammar.table = .ok l.table) {text : String}
    {tree : Tree} (htree : l.TreeFor text tree) : tree.Orderly := by
  obtain ⟨g, items, -, hserves⟩ := Grammar.serves_table h
  exact ⟨(kept_of_treeFor htree).nested, begins_of_treeFor hserves htree,
    clear_of_grown h (grown_of_treeFor htree)⟩

end Language

end IncrementalParsing
