import IncrementalParsing.Proofs.Navigation.Parents
import IncrementalParsing.Tree.Cursor

/-!
# Cursors and nodes

A cursor keeps places among everything that is stored, what hidden tokens leave included; the functions
on nodes count the children alone.  The two agree: wherever moves take a cursor, it stands where taking
children leads, and each move is one on the numbers of the children that were taken.

## Key results

- `Node.move?_cursorAt`: where a move leads, told by the numbers of children
- `Node.exists_cursorAt_moveAll`: moves never lead away from what is below the node
- `Node.agrees_of_cursorAt`: what a cursor tells is what the functions on nodes tell
-/

namespace IncrementalParsing

/-- What is kept in front of an entry and behind it, found from its place before the others were left
out. -/
theorem filter_around {α : Type} {xs : List α} {p : α → Bool} (hnodup : xs.Nodup) {i j : Nat} {x : α}
    (hj : xs[j]? = some x) (hi : (xs.filter p)[i]? = some x) :
    (xs.take j).filter p = (xs.filter p).take i ∧
      (xs.drop (j + 1)).filter p = (xs.filter p).drop (i + 1) := by
  obtain ⟨hlt, hget⟩ := List.getElem?_eq_some_iff.mp hj
  have hkept : p x = true := (List.mem_filter.mp (List.mem_of_getElem? hi)).2
  have hxs : xs = xs.take j ++ x :: xs.drop (j + 1) := by
    conv_lhs => rw [← List.take_append_drop j xs, List.drop_eq_getElem_cons hlt, hget]
  -- `x` is kept, with those before it that are kept in front
  have hsplit : xs.filter p = (xs.take j).filter p ++ x :: (xs.drop (j + 1)).filter p := by
    rw [← List.filter_cons_of_pos hkept, ← List.filter_append, ← hxs]
  -- nothing stands at two places, so the new place is the number of those in front that are kept
  have hplace : i = ((xs.take j).filter p).length := by
    refine (List.getElem?_inj (List.getElem?_eq_some_iff.mp hi).1
      (hnodup.sublist List.filter_sublist)).mp (hi.trans ?_)
    conv_rhs => rw [hsplit]
    simp
  rw [hplace, hsplit]
  exact ⟨List.take_left.symm, by rw [List.drop_length_add_append]; rfl⟩

namespace Node

variable {n : Node} {f : Frame} {i : Nat}

/-- The children as they stand on the way of a cursor. -/
def shown (n : Node) : List Frame := n.frames.filter Frame.isVisible

/-- The frames that are shown are those of the children. -/
theorem map_shown (n : Node) : n.shown.map Frame.node = n.children := by
  have hframes : n.frames.map Frame.node = n.stored := by
    refine List.ext_getElem? fun i => ?_
    rw [List.getElem?_map, getElem?_frames, Option.map_map]
    exact Option.map_id'
  rw [children, ← hframes, List.filter_map]
  rfl

/-- The children are numbered as the frames that are shown. -/
theorem child?_eq_shown (n : Node) (i : Nat) : n.child? i = (n.shown[i]?).map Frame.node := by
  rw [child?, ← map_shown, List.getElem?_map]

/-- Frames know their number among what is stored. -/
theorem index_of_getElem?_frames (h : n.frames[i]? = some f) : f.index = i := by
  rw [getElem?_frames] at h
  obtain ⟨c, -, rfl⟩ := Option.map_eq_some_iff.mp h
  rfl

/-- No frame is listed twice. -/
theorem nodup_frames (n : Node) : n.frames.Nodup := by
  rw [List.nodup_iff_getElem?_ne_getElem?]
  intro i j hij hj heq
  rw [List.getElem?_eq_getElem hj] at heq
  have hindex := index_of_getElem?_frames heq
  rw [index_of_getElem?_frames (List.getElem?_eq_getElem hj)] at hindex
  exact Nat.ne_of_gt hij hindex

/-- What is shown in front of a child and behind it, found from its place among all that is stored. -/
theorem filter_around_of_shown (h : n.shown[i]? = some f) :
    (n.frames.take f.index).filter Frame.isVisible = n.shown.take i ∧
      (n.frames.drop (f.index + 1)).filter Frame.isVisible = n.shown.drop (i + 1) :=
  filter_around n.nodup_frames (mem_frames (List.mem_filter.mp (List.mem_of_getElem? h)).1).2.2 h

end Node

namespace Cursor

variable {c d : Cursor} {i byte : Nat}

/-- The cursor at the child of a number. -/
def child? (c : Cursor) (i : Nat) : Option Cursor := (c.node.shown[i]?).map c.push

/-- To go to a child is to take that child of the node. -/
theorem map_node_child? (c : Cursor) (i : Nat) : (c.child? i).map node = c.node.child? i := by
  rw [child?, Option.map_map, Node.child?_eq_shown]
  rfl

/-- Going down keeps the way back. -/
theorem below_of_child? (h : c.child? i = some d) : d.below = c.top :: c.below := by
  obtain ⟨f, -, rfl⟩ := Option.map_eq_some_iff.mp h
  rfl

/-- The field that the cursor keeps is the one of the child. -/
theorem fieldName?_of_child? (h : c.child? i = some d) :
    d.fieldName? = c.node.fieldNameForChild? i := by
  rw [Node.fieldNameForChild?, ← map_node_child?, h]
  obtain ⟨f, hf, rfl⟩ := Option.map_eq_some_iff.mp h
  have hfield := (Node.mem_frames (List.mem_filter.mp (List.mem_of_getElem? hf)).1).2.1
  change f.field.bind _ = f.node.field?.bind _
  rw [hfield]

/-! ## Moves -/

/-- The first child has the number 0. -/
theorem firstChild?_eq (c : Cursor) : c.firstChild? = c.child? 0 := by
  rw [firstChild?, child?, ← List.head?_eq_getElem?, Node.shown, List.head?_filter]

/-- The child for a byte is the first that ends behind it. -/
theorem firstChildForByte?_eq (c : Cursor) (byte : Nat) : c.firstChildForByte? byte =
    (c.node.children.findIdx? fun m => decide (byte < m.endByte)).bind fun i =>
      (c.child? i).map fun d => (i, d) := by
  rw [← Node.map_shown, List.findIdx?_map, List.findIdx?_eq_fst_find?_zipIdx]
  change (c.node.shown.zipIdx.find? fun x => decide (byte < x.1.node.endByte)).map _ =
    ((c.node.shown.zipIdx.find? fun x => decide (byte < x.1.node.endByte)).map _).bind _
  cases hfind : c.node.shown.zipIdx.find? fun x => decide (byte < x.1.node.endByte) with
  | none => rfl
  | some x =>
    -- what is found stands at the number that it is found with
    have hget := List.mem_zipIdx_iff_getElem?.mp (List.mem_of_find?_eq_some hfind)
    rw [Option.map_some, Option.map_some, Option.bind_some, child?, hget]
    rfl

/-- It is the one that the node has. -/
theorem map_node_firstChildForByte? (c : Cursor) (byte : Nat) :
    (c.firstChildForByte? byte).map (fun x => x.2.node) = c.node.firstChildForByte? byte := by
  rw [firstChildForByte?_eq, Node.firstChildForByte?, List.find?_eq_bind_findIdx?_getElem?]
  cases c.node.children.findIdx? fun m => decide (byte < m.endByte) with
  | none => rfl
  | some i =>
    change ((c.child? i).map _).map _ = c.node.child? i
    rw [← map_node_child?, Option.map_map]
    rfl

/-- The next sibling has the next number, -/
theorem next?_of_child? (h : c.child? i = some d) : d.next? = c.child? (i + 1) := by
  obtain ⟨f, hf, rfl⟩ := Option.map_eq_some_iff.mp h
  change ((c.node.frames.drop (f.index + 1)).find? Frame.isVisible).map c.push = _
  rw [← List.head?_filter, (Node.filter_around_of_shown hf).2, List.head?_drop]
  rfl

/-- and the one before the number before. -/
theorem previous?_of_child? (h : c.child? i = some d) :
    d.previous? = if i = 0 then none else c.child? (i - 1) := by
  obtain ⟨f, hf, rfl⟩ := Option.map_eq_some_iff.mp h
  change ((c.node.frames.take f.index).filter Frame.isVisible).getLast?.map c.push = _
  rw [(Node.filter_around_of_shown hf).1, List.getLast?_take]
  split
  · rfl
  · have hlt := (List.getElem?_eq_some_iff.mp hf).1
    rw [child?, List.getElem?_eq_getElem (Nat.lt_of_le_of_lt (Nat.sub_le i 1) hlt)]
    rfl

/-- Going down and up again changes nothing. -/
theorem parent?_of_child? (h : c.child? i = some d) : d.parent? = some c := by
  rw [parent?, below_of_child? h]

end Cursor

namespace Node

variable {n : Node} {c d : Cursor} {path : List Nat}

/-- The cursor that was started at a node, where taking children one after the other leads. -/
def cursorAt? (n : Node) (path : List Nat) : Option Cursor := path.foldlM Cursor.child? n.walk

/-- To follow a longer path is to follow its beginning and to go down once more. -/
theorem cursorAt?_concat (n : Node) (path : List Nat) (i : Nat) :
    n.cursorAt? (path ++ [i]) = (n.cursorAt? path).bind fun c => c.child? i := by
  simp [cursorAt?, List.foldlM_append]

/-- A cursor that follows a path is at the node that the path leads to. -/
theorem map_node_cursorAt? (n : Node) (path : List Nat) :
    (n.cursorAt? path).map Cursor.node = n.descend? path := by
  induction path using List.reverseRecOn with
  | nil => rfl
  | append_singleton path i ih =>
    rw [cursorAt?_concat, descend?_concat, ← ih]
    cases n.cursorAt? path with
    | none => rfl
    | some c => exact c.map_node_child? i

/-- The name of the field of the node at a path, as the node before tells it. -/
def fieldNameAt? (n : Node) (path : List Nat) : Option String :=
  path.getLast?.bind fun i => (n.descend? path.dropLast).bind fun m => m.fieldNameForChild? i

/-- Where a move leads from the end of a path, in the numbers of the children that are taken. -/
def follow? (n : Node) (path : List Nat) : Cursor.Move → Option (List Nat)
  | .firstChild => some (path ++ [0])
  | .firstChildForByte byte =>
    (n.descend? path).bind fun m =>
      (m.children.findIdx? fun c => decide (byte < c.endByte)).map fun i => path ++ [i]
  | .next => path.getLast?.map fun i => path.dropLast ++ [i + 1]
  | .previous =>
    path.getLast?.bind fun i => if i = 0 then none else some (path.dropLast ++ [i - 1])
  | .parent => path.getLast?.map fun _ => path.dropLast

/-- A cursor has not moved, or was at the node above before its last step down. -/
theorem cursorAt?_cases (h : n.cursorAt? path = some c) :
    (path = [] ∧ c = n.walk) ∨
      ∃ is i up, path = is ++ [i] ∧ n.cursorAt? is = some up ∧ up.child? i = some c := by
  obtain rfl | ⟨is, i, rfl⟩ := path.eq_nil_or_concat'
  · exact .inl ⟨rfl, (Option.some.inj h).symm⟩
  · rw [cursorAt?_concat] at h
    obtain ⟨up, hup, hc⟩ := Option.bind_eq_some_iff.mp h
    exact .inr ⟨is, i, up, rfl, hup, hc⟩

/-- A move of the cursor is a move on the numbers of children. -/
theorem move?_cursorAt (h : n.cursorAt? path = some c) (m : Cursor.Move) :
    c.move? m = (n.follow? path m).bind n.cursorAt? := by
  have hnode : n.descend? path = some c.node := by rw [← map_node_cursorAt?, h]; rfl
  cases m with
  | firstChild =>
    change c.firstChild? = n.cursorAt? (path ++ [0])
    rw [cursorAt?_concat, h, Cursor.firstChild?_eq]
    rfl
  | firstChildForByte byte =>
    change (c.firstChildForByte? byte).map _ = ((n.descend? path).bind _).bind _
    rw [hnode, Cursor.firstChildForByte?_eq, Option.bind_some]
    cases c.node.children.findIdx? fun m => decide (byte < m.endByte) with
    | none => rfl
    | some i =>
      change ((c.child? i).map _).map _ = n.cursorAt? (path ++ [i])
      rw [cursorAt?_concat, h, Option.map_map]
      exact Option.map_id'
  -- where the cursor was started there is nothing above, and the other moves lead nowhere
  | next =>
    obtain ⟨rfl, rfl⟩ | ⟨is, i, up, rfl, hup, hc⟩ := cursorAt?_cases h
    · rfl
    · rw [follow?, List.getLast?_concat, List.dropLast_concat]
      change c.next? = n.cursorAt? (is ++ [i + 1])
      rw [cursorAt?_concat, hup, Cursor.next?_of_child? hc]
      rfl
  | previous =>
    obtain ⟨rfl, rfl⟩ | ⟨is, i, up, rfl, hup, hc⟩ := cursorAt?_cases h
    · rfl
    · rw [follow?, List.getLast?_concat, List.dropLast_concat, Option.bind_some]
      change c.previous? = _
      rw [Cursor.previous?_of_child? hc]
      split
      · rfl
      · rw [Option.bind_some, cursorAt?_concat, hup]
        rfl
  | parent =>
    obtain ⟨rfl, rfl⟩ | ⟨is, i, up, rfl, hup, hc⟩ := cursorAt?_cases h
    · rfl
    · rw [follow?, List.getLast?_concat, List.dropLast_concat]
      change c.parent? = n.cursorAt? is
      rw [hup, Cursor.parent?_of_child? hc]

/-- Moves never lead away from what is below the node where the cursor was started. -/
theorem exists_cursorAt_moveAll (h : n.cursorAt? path = some c) (moves : List Cursor.Move) :
    ∃ path', n.cursorAt? path' = some (c.moveAll moves) := by
  induction moves generalizing path c with
  | nil => exact ⟨path, h⟩
  | cons m moves ih =>
    -- a move that fails leaves the cursor where it is
    have hmove : ∃ path', n.cursorAt? path' = some (c.move m) := by
      rw [Cursor.move]
      cases hm : c.move? m with
      | none => exact ⟨path, h⟩
      | some d =>
        rw [move?_cursorAt h] at hm
        obtain ⟨path', -, hd⟩ := Option.bind_eq_some_iff.mp hm
        exact ⟨path', hd⟩
    obtain ⟨path', hd⟩ := hmove
    exact ih hd

/-! ## What a cursor tells -/

/-- A cursor tells what the functions on nodes tell: it stands where taking children leads, and so does
each move. -/
structure Agrees (n : Node) (path : List Nat) (c : Cursor) : Prop where
  node : n.descend? path = some c.node
  depth : c.depth = path.length
  fieldName : c.fieldName? = n.fieldNameAt? path
  moves : ∀ m, (c.move? m).map Cursor.node = (n.follow? path m).bind n.descend?
  stays : ∀ m, c.move? m = none → c.move m = c
  previous : ∀ d, c.next? = some d → d.previous? = some c
  parent : ∀ d, c.firstChild? = some d → d.parent? = some c
  childForByte : ∀ byte, (c.firstChildForByte? byte).map (fun x => x.2.node) =
    c.node.firstChildForByte? byte
  parentForByte : ∀ byte i d, c.firstChildForByte? byte = some (i, d) →
    c.node.child? i = some d.node ∧ d.parent? = some c

/-- A cursor is as deep as its path is long. -/
theorem depth_of_cursorAt (h : n.cursorAt? path = some c) : c.depth = path.length := by
  induction path using List.reverseRecOn generalizing c with
  | nil =>
    cases h
    rfl
  | append_singleton path i ih =>
    rw [cursorAt?_concat] at h
    obtain ⟨up, hup, hc⟩ := Option.bind_eq_some_iff.mp h
    rw [List.length_append, ← ih hup, Cursor.depth, Cursor.below_of_child? hc]
    rfl

/-- A cursor that follows a path agrees with the node there. -/
theorem agrees_of_cursorAt (h : n.cursorAt? path = some c) : n.Agrees path c where
  node := by rw [← map_node_cursorAt?, h]; rfl
  depth := depth_of_cursorAt h
  fieldName := by
    obtain ⟨rfl, rfl⟩ | ⟨is, i, up, rfl, hup, hc⟩ := cursorAt?_cases h
    · rfl
    · rw [fieldNameAt?, List.getLast?_concat, List.dropLast_concat, Option.bind_some,
        ← map_node_cursorAt?, hup, Cursor.fieldName?_of_child? hc]
      rfl
  moves m := by
    rw [move?_cursorAt h]
    cases n.follow? path m with
    | none => rfl
    | some path' => exact n.map_node_cursorAt? path'
  stays m hm := by rw [Cursor.move, hm]; rfl
  -- going on and back again leads to the same place
  previous d hd := by
    obtain ⟨rfl, rfl⟩ | ⟨is, i, up, rfl, hup, hc⟩ := cursorAt?_cases h
    · cases hd
    · rw [Cursor.next?_of_child? hc] at hd
      rw [Cursor.previous?_of_child? hd, if_neg (Nat.succ_ne_zero i), Nat.add_sub_cancel, hc]
  parent d hd := Cursor.parent?_of_child? (c.firstChild?_eq ▸ hd)
  childForByte := c.map_node_firstChildForByte?
  parentForByte byte i d hd := by
    rw [Cursor.firstChildForByte?_eq] at hd
    obtain ⟨j, -, hj⟩ := Option.bind_eq_some_iff.mp hd
    obtain ⟨e, he, heq⟩ := Option.map_eq_some_iff.mp hj
    cases heq
    exact ⟨by rw [← Cursor.map_node_child?, he]; rfl, Cursor.parent?_of_child? he⟩

end Node

end IncrementalParsing
