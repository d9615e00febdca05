import IncrementalParsing.Proofs.Parse.AsciiTokens
import IncrementalParsing.Proofs.Parse.Ending
import IncrementalParsing.Proofs.Parse.Histories
import IncrementalParsing.Proofs.Table.Compiled
import IncrementalParsing.Tree.Node

/-!
# Trees cover their texts

What `Fits` says about parts is said here about the nodes of a tree: where they begin and end, how they
lie in each other, and that nothing of the text is lost.

## Key results

- `Tree.Spans`: what is meant by a tree that covers a text
- `aligned_of_rootFits`: the nodes of a tree whose root fits a text lie at places of the text
- `spans_of_rootCovers`: a tree whose root covers a text does so with all its nodes
- `Language.parse_spans`: every parse with the table of a grammar gives such a tree
-/

namespace IncrementalParsing

open Subtree (Fits FitAll fits_iff fitAll_cons fitAll_nil)

/-- The nodes of a tree, visible or not. -/
inductive Tree.Has (tree : Tree) : Node → Prop
  | root : Has tree tree.node
  | stored {n m : Node} (h : Has tree n) (hm : m ∈ n.stored) : Has tree m

/-- A tree covers a text exactly: its nodes begin and end between characters, at the points where they
say, lie in each other in order, and together have all bytes but the trivia at the end. -/
structure Tree.Spans (tree : Tree) (t : Table) (text : ByteArray) : Prop where
  range : tree.node.startByte = 0 ∧ tree.node.endByte = text.size
  fields : ∀ n, tree.Has n → n.stored.map Node.subtree = n.subtree.children.map Prod.fst ∧
    n.stored.map Node.field? = n.subtree.children.map Prod.snd
  ordered : ∀ n, tree.Has n → n.stored.Pairwise fun a b => a.endByte ≤ b.startByte
  inside : ∀ n, tree.Has n → ∀ m ∈ n.stored,
    n.startByte ≤ m.startByte ∧ m.startByte ≤ m.endByte ∧ m.endByte ≤ n.endByte
  sums : ∀ n, tree.Has n → n.isRoot = false → n.subtree.children ≠ [] →
    Length.sum (n.subtree.children.map fun c => c.1.total) = n.subtree.total
  rest : ∃ k ≤ text.size,
    Length.sum (tree.root.children.map fun c => c.1.total) = .of (text.extract 0 k) ∧
      Lexer.Trivia t text k text.size
  boundaries : ∀ n, tree.Has n →
    isBoundary text n.startByte = true ∧ isBoundary text n.endByte = true
  points : ∀ n, tree.Has n → n.start = .of (text.extract 0 n.startByte) ∧
    n.finish = .of (text.extract 0 n.endByte)

/-- A tree fits the beginning of a text: its nodes begin and end between characters, at the points
where they say, lie in each other in order, and below the root cover what they consist of. -/
structure Tree.Aligned (tree : Tree) (text : ByteArray) : Prop where
  start : tree.node.startByte = 0
  fields : ∀ n, tree.Has n → n.stored.map Node.subtree = n.subtree.children.map Prod.fst ∧
    n.stored.map Node.field? = n.subtree.children.map Prod.snd
  ordered : ∀ n, tree.Has n → n.stored.Pairwise fun a b => a.endByte ≤ b.startByte
  inside : ∀ n, tree.Has n → ∀ m ∈ n.stored,
    n.startByte ≤ m.startByte ∧ m.startByte ≤ m.endByte ∧ m.endByte ≤ n.endByte
  sums : ∀ n, tree.Has n → n.isRoot = false → n.subtree.children ≠ [] →
    Length.sum (n.subtree.children.map fun c => c.1.total) = n.subtree.total
  boundaries : ∀ n, tree.Has n →
    isBoundary text n.startByte = true ∧ isBoundary text n.endByte = true
  points : ∀ n, tree.Has n → n.start = .of (text.extract 0 n.startByte) ∧
    n.finish = .of (text.extract 0 n.endByte)

variable {t : Table} {text : ByteArray}

/-! ## Sums -/

theorem sum_cons (l : Length) (ls : List Length) : Length.sum (l :: ls) = l + Length.sum ls := by
  have hfold : ∀ (ls : List Length) (a b : Length), ls.foldl (· + ·) (a + b) =
      a + ls.foldl (· + ·) b := by
    intro ls
    induction ls with
    | nil => intro a b; rfl
    | cons c rest ih => intro a b; rw [List.foldl_cons, List.foldl_cons, Length.add_assoc, ih]
  rw [Length.sum, List.foldl_cons, Length.zero_add, ← Length.add_zero l, hfold, Length.add_zero]
  rfl

/-- The lengths of parts that follow each other add up to what they cover. -/
theorem sum_of_fitAll {i k : Nat} {children : List (Subtree × Option FieldId)}
    (h : FitAll t text i k children) (hi : isBoundary text i = true) :
    Length.sum (children.map fun c => c.1.total) = .of (text.extract i k) := by
  induction children generalizing i with
  | nil =>
    rw [fitAll_nil] at h
    rw [h, ByteArray.extract_same]
    rfl
  | cons c rest ih =>
    obtain ⟨n, field⟩ := c
    rw [fitAll_cons] at h
    have hnext := h.1.stands.finish
    have hle := (Subtree.fitAll_bounds h.2 hnext).1
    -- the text up to the end is the child's and the rest
    have hadd := Length.of_extract_add text (Nat.le_add_right i n.total.bytes) hle
    rw [← h.1.stands.total] at hadd
    rw [List.map_cons, sum_cons, ih h.2 hnext]
    exact hadd

/-! ## Nodes in their places -/

/-- What is listed below a place stands there. -/
theorem stored_of_fitAll {i j k : Nat} {index : Nat} {children : List (Subtree × Option FieldId)}
    (h : FitAll t text i k children) (hi : isBoundary text i = true)
    (hj : ∀ c ∈ children.head?, j ≤ i + c.1.padding.bytes) {p : Place}
    (hp : p ∈ Place.listFrom (.before text i) index children) :
    ∃ l, p.position = .before text l ∧ i ≤ l ∧ Fits t text l p.subtree ∧
      j ≤ l + p.subtree.padding.bytes ∧ l + p.subtree.total.bytes ≤ k := by
  -- the induction is on the children, each of which begins where the one before it ends
  induction children generalizing i j index with
  | nil => cases hp
  | cons c rest ih =>
    obtain ⟨n, field⟩ := c
    rw [fitAll_cons] at h
    have hstands := h.1.stands
    have hle := (Subtree.fitAll_bounds h.2 hstands.finish).1
    rw [Place.listFrom, hstands.before_add, List.mem_cons] at hp
    have hfirst := hj _ rfl
    have htotal : n.total.bytes = n.padding.bytes + n.size.bytes := rfl
    obtain rfl | hp := hp
    · exact ⟨i, rfl, Nat.le_refl _, h.1, hfirst, hle⟩
    · obtain ⟨l, hposition, hil, hfits, hjl, hlk⟩ := ih (j := j) h.2 hstands.finish
        (fun c _ => by dsimp only at hfirst; omega) hp
      exact ⟨l, hposition, by omega, hfits, hjl, hlk⟩

/-- Parts that are listed one after the other do not overlap. -/
theorem pairwise_stored {i k : Nat} {index : Nat} {children : List (Subtree × Option FieldId)}
    (h : FitAll t text i k children) (hi : isBoundary text i = true) :
    (Place.listFrom (.before text i) index children).Pairwise fun p q =>
      p.position.bytes + p.subtree.total.bytes ≤ q.position.bytes + q.subtree.padding.bytes := by
  induction children generalizing i index with
  | nil => exact List.Pairwise.nil
  | cons c rest ih =>
    obtain ⟨n, field⟩ := c
    rw [fitAll_cons] at h
    have hstands := h.1.stands
    rw [Place.listFrom, hstands.before_add, List.pairwise_cons]
    refine ⟨fun q hq => ?_, ih h.2 hstands.finish⟩
    -- all that follows begins behind this child
    obtain ⟨l, hposition, hil, hfits, -, -⟩ := stored_of_fitAll h.2 hstands.finish
      (fun c _ => Nat.le_add_right _ _) hq
    have hisize := le_size_of_isBoundary hi
    have hlsize := le_size_of_isBoundary hfits.stands.start
    rw [hposition, Length.bytes_before hisize, Length.bytes_before hlsize]
    dsimp only
    omega

theorem map_listFrom (position : Length) (index : Nat) (children : List (Subtree × Option FieldId)) :
    (Place.listFrom position index children).map (·.subtree) = children.map Prod.fst ∧
      (Place.listFrom position index children).map (·.field) = children.map Prod.snd := by
  induction children generalizing position index with
  | nil => exact ⟨rfl, rfl⟩
  | cons c rest ih =>
    obtain ⟨n, field⟩ := c
    obtain ⟨hsub, hfield⟩ := ih (position + n.total) (index + 1)
    simp only [Place.listFrom, List.map_cons, hsub, hfield, and_self]

/-- What is stored below a node are the children of its part, each in its field. -/
theorem Node.map_stored (n : Node) : n.stored.map Node.subtree = n.subtree.children.map Prod.fst ∧
    n.stored.map Node.field? = n.subtree.children.map Prod.snd := by
  simp only [Node.stored, List.map_map]
  exact map_listFrom n.place.position 0 n.subtree.children

/-- A node stands where its place says: the root from the start of the text on, and any other where it
fits. -/
inductive NodeFits (t : Table) (text : ByteArray) (n : Node) : Prop
  | root (habove : n.above = []) (hposition : n.place.position = .before text 0)
      (h : RootFits t text n.subtree)
  | inner {i : Nat} (habove : n.above ≠ []) (hposition : n.place.position = .before text i)
      (h : Fits t text i n.subtree)

/-- What a node consists of: its children follow each other, from its place to where they end. -/
theorem children_of_nodeFits {n : Node} (h : NodeFits t text n) (hne : n.subtree.children ≠ []) :
    ∃ i k, n.place.position = .before text i ∧ isBoundary text i = true ∧
      FitAll t text i k n.subtree.children ∧ k ≤ i + n.subtree.total.bytes ∧
      ∀ c ∈ n.subtree.children.head?,
        i + n.subtree.padding.bytes ≤ i + c.1.padding.bytes := by
  -- the root is made of children that may end before the text does
  cases h with
  | root habove hposition h =>
    obtain ⟨j, k, hj, hsize, hkj, hall⟩ := h.spans
    refine ⟨0, k, hposition, isBoundary_zero text, hall, ?_, fun c _ => ?_⟩
    · rw [Subtree.bytes_total, h.padding, hsize, Length.bytes_before (le_size_of_isBoundary hj),
        Length.bytes_zero]
      omega
    · rw [h.padding]
      exact Nat.add_le_add_left (Nat.zero_le _) 0
  | @inner i habove hposition h =>
    obtain ⟨-, hstands, hall, hfirst⟩ := fits_iff.mp h
    exact ⟨i, _, hposition, hstands.start, hall (.inl hne), Nat.le_refl _,
      fun c hc => Nat.add_le_add_left (hfirst c hc) i⟩

theorem children_ne_nil {n m : Node} (hm : m ∈ n.stored) : n.subtree.children ≠ [] := by
  intro hnil
  rw [Node.stored, Place.below, show n.place.subtree.children = [] from hnil] at hm
  cases hm

/-- What is stored below a node stands where its place says. -/
theorem nodeFits_stored {n m : Node} (h : NodeFits t text n) (hm : m ∈ n.stored) :
    NodeFits t text m ∧ n.startByte ≤ m.startByte ∧ m.endByte ≤ n.endByte := by
  obtain ⟨i, k, hposition, hi, hall, hk, hfirst⟩ := children_of_nodeFits h (children_ne_nil hm)
  -- a stored node stands at the place of one of the children
  simp only [Node.stored, Place.below, List.mem_map] at hm
  obtain ⟨p, hp, rfl⟩ := hm
  rw [hposition] at hp
  obtain ⟨l, hl, -, hfits, hjl, hlk⟩ := stored_of_fitAll hall hi hfirst hp
  have hisize := le_size_of_isBoundary hi
  have hlsize := le_size_of_isBoundary hfits.stands.start
  have htotal : n.subtree.total.bytes = n.subtree.padding.bytes + n.subtree.size.bytes := rfl
  have htotal' : p.subtree.total.bytes = p.subtree.padding.bytes + p.subtree.size.bytes := rfl
  refine ⟨.inner (List.cons_ne_nil _ _) hl hfits, ?_, ?_⟩
  · simp only [Node.startByte, Node.subtree, hposition, hl, Length.bytes_before hisize,
      Length.bytes_before hlsize]
    exact hjl
  · simp only [Node.endByte, Node.startByte, Node.subtree, hposition, hl,
      Length.bytes_before hisize, Length.bytes_before hlsize] at htotal htotal' hk ⊢
    omega

theorem nodeFits_of_has {tree : Tree} (h : RootFits t text tree.root) {n : Node}
    (hn : tree.Has n) : NodeFits t text n := by
  induction hn with
  | root => exact .root rfl (Length.before_zero text).symm h
  | stored _ hm ih => exact (nodeFits_stored ih hm).1

/-- A node begins and ends between characters, at the points of the text that it names. -/
theorem places_of_nodeFits {n : Node} (h : NodeFits t text n) :
    isBoundary text n.startByte = true ∧ isBoundary text n.endByte = true ∧
      n.start = .of (text.extract 0 n.startByte) ∧ n.finish = .of (text.extract 0 n.endByte) := by
  cases h with
  | root habove hposition h =>
    obtain ⟨j, k, hj, hsize, -, -⟩ := h.spans
    -- the root begins with the text, and ends where its bytes do
    have hstart : n.startByte = 0 := by
      rw [Node.startByte, hposition, h.padding, Length.before_zero]
      rfl
    have hend : n.endByte = j := by
      rw [Node.endByte, hstart, hsize, Length.bytes_before (le_size_of_isBoundary hj), Nat.zero_add]
    rw [hend, hstart]
    refine ⟨isBoundary_zero text, hj, ?_, ?_⟩
    · rw [Node.start, hposition, h.padding, Length.add_zero]
      rfl
    · rw [Node.finish, Place.finish, hposition, Length.before_zero, Length.zero_add, Subtree.total,
        show n.place.subtree.padding = .zero from h.padding, Length.zero_add,
        show n.place.subtree.size = .before text j from hsize]
      rfl
  | @inner i habove hposition h =>
    have hstands := h.stands
    have hisize := le_size_of_isBoundary hstands.start
    have hstart : n.startByte = i + n.subtree.padding.bytes := by
      rw [Node.startByte, hposition, Length.bytes_before hisize]
    have hend : n.endByte = i + n.subtree.total.bytes := by
      rw [Node.endByte, hstart, Nat.add_assoc]
      rfl
    rw [hend, hstart]
    refine ⟨hstands.content, hstands.finish, ?_, ?_⟩
    · have hadd := Length.before_add text (Nat.le_add_right i n.subtree.padding.bytes)
      rw [← hstands.padding] at hadd
      rw [Node.start, hposition, hadd]
      rfl
    · rw [Node.finish, Place.finish, hposition]
      exact hstands.before_add

/-- The root ends where the tree does. -/
theorem Tree.endByte_node (tree : Tree) : tree.node.endByte = tree.size := by
  change 0 + tree.root.padding.bytes + tree.root.size.bytes = tree.root.total.bytes
  rw [Nat.zero_add]
  rfl

/-- The nodes of a tree whose root fits a text lie in each other at places of the text. -/
theorem aligned_of_rootFits {tree : Tree} (h : RootFits t text tree.root) : tree.Aligned text := by
  constructor
  · change 0 + tree.root.padding.bytes = 0
    rw [h.padding, Length.bytes_zero]
  · exact fun n _ => n.map_stored
  · intro n hn
    by_cases hne : n.subtree.children = []
    · rw [Node.stored, Place.below, show n.place.subtree.children = [] from hne]
      exact List.Pairwise.nil
    · obtain ⟨i, k, hposition, hi, hall, -, -⟩ := children_of_nodeFits (nodeFits_of_has h hn) hne
      rw [Node.stored, Place.below, List.pairwise_map, hposition]
      refine (pairwise_stored hall hi).imp fun {p q} hpq => ?_
      simpa [Node.endByte, Node.startByte, Node.subtree, Nat.add_assoc, Subtree.bytes_total] using hpq
  -- what is stored in a node fits inside it
  · intro n hn m hm
    obtain ⟨-, hstart, hend⟩ := nodeFits_stored (nodeFits_of_has h hn) hm
    exact ⟨hstart, Nat.le_add_right _ _, hend⟩
  · intro n hn hinner hne
    -- the root is left out here, as the rest of the text follows what it is made of
    cases nodeFits_of_has h hn with
    | root habove => simp [Node.isRoot, habove] at hinner
    | inner _ _ hfits =>
      obtain ⟨-, hstands, hall, -⟩ := fits_iff.mp hfits
      rw [sum_of_fitAll (hall (.inl hne)) hstands.start, ← hstands.total]
  · intro n hn
    have := places_of_nodeFits (nodeFits_of_has h hn)
    exact ⟨this.1, this.2.1⟩
  · intro n hn
    exact (places_of_nodeFits (nodeFits_of_has h hn)).2.2

/-- A tree whose root covers a text does so with all its nodes. -/
theorem spans_of_rootCovers {tree : Tree} (h : RootCovers t text tree.root) : tree.Spans t text := by
  have ha := aligned_of_rootFits h.fits
  obtain ⟨k, hk, hall, htrivia⟩ := h.children
  have hsize : tree.size = text.size := by
    rw [Tree.size, Subtree.bytes_total, h.padding, h.size, Length.bytes_of, Length.bytes_zero,
      Nat.zero_add]
  exact ⟨⟨ha.start, tree.endByte_node.trans hsize⟩, ha.fields, ha.ordered, ha.inside, ha.sums,
    ⟨k, le_size_of_isBoundary hk, sum_of_fitAll hall (isBoundary_zero text), htrivia⟩,
    ha.boundaries, ha.points⟩

/-! ## Tables of grammars -/

/-- The end of the text is never shifted in the table of a grammar: no production mentions it. -/
theorem Table.Guided.shift_ne {g : FlatGrammar} {items : StateId → Item → Prop} (hg : g.Sound)
    (h : t.Guided g items) (s target : StateId) :
    t.action? s Symbol.finish ≠ some (.shift target) := by
  intro hshift
  obtain ⟨-, ⟨p, hmem⟩, -⟩ := h.leads s _ target (.inl hshift)
  exact absurd (hg.row hmem).1 (by decide)

theorem Table.keepsFinish_of_guided {g : FlatGrammar} {items : StateId → Item → Prop} (hg : g.Sound)
    (hs : t.Speaks g) (h : t.Guided g items) : t.KeepsFinish :=
  ⟨hs.lexeme, h.shift_ne hg⟩

end IncrementalParsing
