import IncrementalParsing.Diagnostics.SyntaxErrors
import IncrementalParsing.Proofs.Parse.Damage
import IncrementalParsing.Proofs.Parse.DerivedTrees

/-!
# Marks of errors

A part is marked if it is an error or has one in it, and only marked parts are searched for the errors
that are reported.  Where every part is marked for what it consists of, and no marked part is hidden,
the marks tell exactly where errors are, and the search finds the outermost of them in the order of the
text.

## Key results

- `Node.hasError_iff`: a node is marked exactly if it is an error or one is stored below it
- `Node.errorsBelow_ne_nil_iff`: a search finds something exactly in marked nodes
- `Node.pairwise_errorsBelow`, `Node.covered_errorsBelow`: what is found is in the order of the text, and
  every error lies in it
-/

namespace IncrementalParsing

/-- What the marks of a part say: it is marked for itself or for a part that it consists of, which is
then visible unless it is in an error; only terminals can be extras; and it begins no later than what it
consists of. -/
structure Subtree.Reports (t : Table) (n : Subtree) : Prop where
  marked : n.hasError = true ↔ n.symbol = Symbol.error ∨ ∃ c ∈ n.children, c.1.hasError = true
  shown : n.symbol ≠ Symbol.error → ∀ c ∈ n.children, c.1.hasError = true →
    t.isVisible c.1.symbol = true
  token : t.isTerminal n.symbol = true → n.symbol ≠ Symbol.error → n.children = []
  extra : n.extra = true → t.isTerminal n.symbol = true
  begins : ∀ c ∈ n.children.head?, n.padding.bytes ≤ c.1.padding.bytes

/-- The parts of all nodes of a tree are marked for what they consist of. -/
def Tree.Reports (tree : Tree) : Prop :=
  ∀ n, tree.Has n → n.subtree.Reports tree.table

namespace Node

/-- One node is the other or is stored below it. -/
abbrev Above : Node → Node → Prop := Relation.ReflTransGen fun n m => m ∈ n.stored

/-- Each part stored below a node is a node. -/
theorem exists_stored_of_mem {n : Node} {c : Subtree × Option FieldId}
    (h : c ∈ n.subtree.children) : ∃ m ∈ n.stored, m.subtree = c.1 := by
  have hmem : c.1 ∈ n.place.below.map (·.subtree) := by
    rw [Place.below, (map_listFrom _ _ _).1]
    exact List.mem_map_of_mem h
  obtain ⟨p, hp, hsame⟩ := List.mem_map.mp hmem
  obtain ⟨m, hm, rfl⟩ := exists_stored hp
  exact ⟨m, hm, hsame⟩

/-- What holds of every node for which it holds of what is stored below holds of all nodes. -/
theorem induction {P : Node → Prop} (step : ∀ n, (∀ m ∈ n.stored, P m) → P n) (n : Node) : P n := by
  suffices ∀ (s : Subtree) (n : Node), n.subtree = s → P n from this n.subtree n rfl
  intro s
  induction s using Subtree.induction with
  | step s ih =>
    rintro n rfl
    refine step n fun m hm => ?_
    obtain ⟨c, hc, hsame⟩ := (exists_child_of_stored hm).1
    exact ih c hc m hsame

theorem has_of_above {tree : Tree} {n m : Node} (hn : tree.Has n) (h : Above n m) : tree.Has m := by
  induction h with
  | refl => exact hn
  | tail _ hm ih => exact .stored ih hm

end Node

namespace Place

/-- Parts that follow each other begin where the one before ends. -/
theorem pairwise_listFrom (position : Length) (index : Nat)
    (children : List (Subtree × Option FieldId)) :
    (∀ p ∈ listFrom position index children, position.bytes ≤ p.position.bytes) ∧
      (listFrom position index children).Pairwise fun p q => p.finish.bytes ≤ q.position.bytes := by
  induction children generalizing position index with
  | nil => exact ⟨(fun _ h => by cases h), .nil⟩
  | cons c rest ih =>
    obtain ⟨n, field⟩ := c
    obtain ⟨hstart, hrest⟩ := ih (position + n.total) (index + 1)
    -- each place starts where the one before it ends
    refine ⟨fun p hp => ?_, List.pairwise_cons.mpr ⟨fun q hq => hstart q hq, hrest⟩⟩
    obtain rfl | hp := List.mem_cons.mp hp
    · exact Nat.le_refl _
    · exact Nat.le_trans (Nat.le_add_right _ _) (hstart p hp)

end Place

namespace Node

variable {n m : Node}

theorem isError_iff : n.isError = true ↔ n.symbol = Symbol.error := beq_iff_eq

theorem startByte_le_endByte (n : Node) : n.startByte ≤ n.endByte := Nat.le_add_right _ _

theorem endByte_eq (n : Node) : n.endByte = n.place.finish.bytes := Nat.add_assoc _ _ _

/-- A node that begins no later than what it consists of begins before all that is stored below. -/
theorem startByte_le_of_stored
    (h : ∀ c ∈ n.subtree.children.head?, n.subtree.padding.bytes ≤ c.1.padding.bytes)
    (hm : m ∈ n.stored) : n.startByte ≤ m.startByte := by
  have hp := mem_below hm
  change m.place ∈ Place.listFrom n.place.position 0 n.subtree.children at hp
  cases hchildren : n.subtree.children with
  | nil =>
    rw [hchildren] at hp
    cases hp
  | cons c rest =>
    obtain ⟨s, field⟩ := c
    rw [hchildren] at h hp
    have hpadding : n.subtree.padding.bytes ≤ s.padding.bytes := h (s, field) rfl
    change n.place.position.bytes + n.subtree.padding.bytes ≤
      m.place.position.bytes + m.place.subtree.padding.bytes
    -- the first child starts behind the padding, and the others behind the first
    obtain hfirst | hrest := List.mem_cons.mp hp
    · rw [hfirst]
      exact Nat.add_le_add_left hpadding _
    · have hstart := (Place.pairwise_listFrom _ _ _).1 _ hrest
      rw [Length.bytes_add, Subtree.bytes_total] at hstart
      omega

/-! ## Marks -/

variable {tree : Tree}

/-- A node is marked exactly if it is an error or one is stored below it. -/
theorem hasError_iff (h : tree.Reports) (hn : tree.Has n) :
    n.hasError = true ↔ ∃ m, Above n m ∧ m.symbol = Symbol.error := by
  constructor
  -- downwards, to the part that a mark stands for
  · induction n using induction with
    | step n ih =>
      intro hmarked
      obtain herror | ⟨c, hc, hchild⟩ := (h n hn).marked.mp hmarked
      · exact ⟨n, .refl, herror⟩
      · obtain ⟨m, hm, hsame⟩ := exists_stored_of_mem hc
        obtain ⟨e, he, herror⟩ := ih m hm (.stored hn hm) (by rwa [hasError, hsame])
        exact ⟨e, .head hm he, herror⟩
  -- upwards, along the way from the error to the node
  · rintro ⟨m, habove, herror⟩
    induction habove using Relation.ReflTransGen.head_induction_on with
    | refl => exact (h m hn).marked.mpr (.inl herror)
    | @head n n' hstored _ ih =>
      obtain ⟨c, hc, hsame⟩ := (exists_child_of_stored hstored).1
      exact (h n hn).marked.mpr (.inr ⟨c, hc, hsame ▸ ih (.stored hn hstored)⟩)

/-- What is marked below a node that is no error is visible. -/
theorem mem_children_of_hasError (h : tree.Reports) (hn : tree.Has n)
    (hne : n.symbol ≠ Symbol.error) (hm : m ∈ n.stored) (hmarked : m.hasError = true) :
    m ∈ n.children := by
  obtain ⟨c, hc, hsame⟩ := (exists_child_of_stored hm).1
  refine List.mem_filter.mpr ⟨hm, ?_⟩
  rw [isVisible, (Tree.Has.stored hn hm).tree_eq, symbol, hsame]
  exact (h n hn).shown hne c hc (hsame ▸ hmarked)

/-! ## The search for errors -/

/-- The search for errors without its bookkeeping. -/
theorem errorsBelow_eq (n : Node) : n.errorsBelow =
    if n.isError then [(n.startByte, n.endByte)]
    else if n.hasError then n.children.flatMap errorsBelow else [] := by
  rw [errorsBelow]
  split
  · rfl
  · split
    · rw [List.flatMap_def, List.flatMap_def, List.attach_map_val]
    · rfl

/-- Each range that is found is that of an error. -/
theorem exists_of_mem_errorsBelow {range : Nat × Nat} (h : range ∈ n.errorsBelow) :
    ∃ m, Above n m ∧ m.symbol = Symbol.error ∧ range = (m.startByte, m.endByte) := by
  induction n using induction with
  | step n ih =>
    rw [errorsBelow_eq] at h
    split at h
    · rename_i herror
      exact ⟨n, .refl, isError_iff.mp herror, List.mem_singleton.mp h⟩
    -- an error is reported itself, and only marked nodes are looked into
    · split at h
      · obtain ⟨m, hm, h⟩ := List.mem_flatMap.mp h
        have hstored := (List.mem_filter.mp hm).1
        obtain ⟨e, he, herror⟩ := ih m hstored h
        exact ⟨e, .head hstored he, herror⟩
      · cases h

/-- Something is found exactly in a node that is marked. -/
theorem errorsBelow_ne_nil_iff (h : tree.Reports) (hn : tree.Has n) :
    n.errorsBelow ≠ [] ↔ n.hasError = true := by
  constructor
  · intro hne
    obtain ⟨range, hrange⟩ := List.exists_mem_of_ne_nil _ hne
    obtain ⟨m, hm, herror, -⟩ := exists_of_mem_errorsBelow hrange
    exact (hasError_iff h hn).mpr ⟨m, hm, herror⟩
  -- the induction is on the node, down to the error it is marked for
  · induction n using induction with
    | step n ih =>
      intro hmarked
      rw [errorsBelow_eq]
      split
      · exact List.cons_ne_nil _ _
      · rename_i hne
        rw [isError_iff] at hne
        rw [ne_eq, List.flatMap_eq_nil_iff]
        -- a node that is no error is marked for a child, and the search goes there
        obtain ⟨c, hc, hchild⟩ := ((h n hn).marked.mp hmarked).resolve_left hne
        obtain ⟨m, hm, hsame⟩ := exists_stored_of_mem hc
        have hmarked' : m.hasError = true := by rwa [hasError, hsame]
        intro hnil
        exact ih m hm (.stored hn hm) hmarked'
          (hnil m (mem_children_of_hasError h hn hne hm hmarked'))

/-- What is stored below a node lies inside it. -/
theorem inside_of_above (hnested : tree.Nested) (hn : tree.Has n) (h : Above n m) :
    m.place.Inside n.place := by
  induction h with
  | refl => exact .refl _
  | tail h hm ih => exact (hnested _ (has_of_above hn h) _ (mem_below hm)).trans ih

theorem startByte_le_of_above (h : tree.Reports) (hn : tree.Has n) (habove : Above n m) :
    n.startByte ≤ m.startByte := by
  induction habove with
  | refl => exact Nat.le_refl _
  | tail habove hm ih =>
    exact Nat.le_trans ih (startByte_le_of_stored (h _ (has_of_above hn habove)).begins hm)

/-- Every error at or below a node lies in a range that is found. -/
theorem covered_errorsBelow (h : tree.Reports) (hnested : tree.Nested) (hn : tree.Has n)
    (habove : Above n m) (herror : m.symbol = Symbol.error) :
    ∃ range ∈ n.errorsBelow, range.1 ≤ m.startByte ∧ m.endByte ≤ range.2 := by
  induction n using induction with
  | step n ih =>
    have hmarked := (hasError_iff h hn).mpr ⟨m, habove, herror⟩
    rw [errorsBelow_eq]
    split
    -- an error is given with all of its text, and what is below lies inside it
    · refine ⟨_, List.mem_singleton_self _, startByte_le_of_above h hn habove, ?_⟩
      rw [endByte_eq, endByte_eq]
      exact (inside_of_above hnested hn habove).2
    · rename_i hne
      rw [isError_iff] at hne
      -- the error is stored below a child, and that is marked for it
      obtain rfl | ⟨n', hn', hrest⟩ := habove.cases_head
      · exact absurd herror hne
      · have hchild := mem_children_of_hasError h hn hne hn'
          ((hasError_iff h (.stored hn hn')).mpr ⟨m, hrest, herror⟩)
        obtain ⟨range, hrange, hcovers⟩ := ih n' hn' (.stored hn hn') hrest
        exact ⟨range, List.mem_flatMap.mpr ⟨n', hchild, hrange⟩, hcovers⟩

/-- What is found at or below a node lies inside it. -/
theorem bounds_errorsBelow (hnested : tree.Nested) (hn : tree.Has n) {range : Nat × Nat}
    (h : range ∈ n.errorsBelow) :
    n.place.position.bytes ≤ range.1 ∧ range.1 ≤ range.2 ∧ range.2 ≤ n.place.finish.bytes := by
  obtain ⟨m, hm, -, rfl⟩ := exists_of_mem_errorsBelow h
  obtain ⟨hstart, hfinish⟩ := inside_of_above hnested hn hm
  refine ⟨Nat.le_trans hstart (Nat.le_add_right _ _), m.startByte_le_endByte, ?_⟩
  rw [← endByte_eq m] at hfinish
  exact hfinish

/-- The ranges are found in the order of the text, and none reaches into another. -/
theorem pairwise_errorsBelow (hnested : tree.Nested) (hn : tree.Has n) :
    n.errorsBelow.Pairwise fun a b => a.2 ≤ b.1 := by
  induction n using induction with
  | step n ih =>
    rw [errorsBelow_eq]
    split
    · exact List.pairwise_singleton _ _
    · split
      -- what is found in two children lies inside them, and they follow each other
      · have hplaces : n.children.Pairwise fun a b =>
            a.place.finish.bytes ≤ b.place.position.bytes := by
          refine List.Pairwise.sublist List.filter_sublist ?_
          rw [stored, List.pairwise_map]
          exact (Place.pairwise_listFrom _ _ _).2
        have hstored : ∀ m ∈ n.children, m ∈ n.stored := fun m hm => (List.mem_filter.mp hm).1
        refine List.pairwise_flatMap.mpr
          ⟨fun m hm => ih m (hstored m hm) (.stored hn (hstored m hm)), ?_⟩
        refine hplaces.imp_of_mem fun {a b} ha hb hab x hx y hy => ?_
        have hx := (bounds_errorsBelow hnested (.stored hn (hstored a ha)) hx).2.2
        have hy := (bounds_errorsBelow hnested (.stored hn (hstored b hb)) hy).1
        exact Nat.le_trans hx (Nat.le_trans hab hy)
      · exact .nil

end Node

end IncrementalParsing
