import IncrementalParsing.Tree.Node

/-!
# Cursors

A `Cursor` walks through the nodes below the one it was started at and never leaves it.  It keeps the
way that it came, where everything stored in a node counts, so that a step to the side goes from the
place where it stands and looks over what is hidden.  A move that leads nowhere gives nothing.

* `firstChild?`, `firstChildForByte?`, `next?`, `previous?` and `parent?` are the moves;
* `visits` walks through everything below a cursor, with each node before what is below it.
-/

namespace IncrementalParsing

/-- A node on the way of a cursor. -/
structure Frame where
  node : Node
  field : Option FieldId
  /-- The place among all that is stored in the node before. -/
  index : Nat
deriving Inhabited

namespace Frame

def isVisible (f : Frame) : Bool := f.node.isVisible

end Frame

/-- The way from where a cursor was started to the node where it stands. -/
structure Cursor where
  top : Frame
  /-- The nodes on the way, the nearest first. -/
  below : List Frame
deriving Inhabited

namespace Node

/-- A cursor at a node. -/
def walk (n : Node) : Cursor := ⟨⟨n, none, 0⟩, []⟩

/-- Everything that is stored in a node as it stands on the way of a cursor. -/
def frames (n : Node) : List Frame := n.stored.zipIdx.map fun (c, i) => ⟨c, c.field?, i⟩

theorem getElem?_frames (n : Node) (i : Nat) :
    n.frames[i]? = (n.stored[i]?).map fun c => ⟨c, c.field?, i⟩ := by
  simp [frames, List.getElem?_zipIdx, Function.comp_def]

theorem mem_frames {n : Node} {f : Frame} (h : f ∈ n.frames) :
    f.node ∈ n.stored ∧ f.field = f.node.field? ∧ n.frames[f.index]? = some f := by
  obtain ⟨i, hi⟩ := List.getElem?_of_mem h
  obtain ⟨c, hc, rfl⟩ := Option.map_eq_some_iff.mp (n.getElem?_frames i ▸ hi)
  exact ⟨List.mem_of_getElem? hc, rfl, hi⟩

end Node

namespace Cursor

/-- The node where the cursor stands. -/
def node (c : Cursor) : Node := c.top.node

/-- The field of the node in what it lies in; where the cursor was started there is none. -/
def field? (c : Cursor) : Option FieldId := c.top.field

/-- The name of that field. -/
def fieldName? (c : Cursor) : Option String := c.field?.bind c.node.tree.table.fieldName?

/-- The distance from where the cursor was started. -/
def depth (c : Cursor) : Nat := c.below.length

/-! ## Moves -/

/-- The cursor one step further down. -/
def push (c : Cursor) (f : Frame) : Cursor := ⟨f, c.top :: c.below⟩

/-- The cursor with another node in place of the last one. -/
def replaceTop (c : Cursor) (f : Frame) : Cursor := ⟨f, c.below⟩

/-- What is stored where the cursor's node is; nothing where the cursor was started. -/
def level (c : Cursor) : List Frame :=
  match c.below with
  | [] => []
  | up :: _ => up.node.frames

def firstChild? (c : Cursor) : Option Cursor := (c.node.frames.find? Frame.isVisible).map c.push

/-- The first child that ends after a byte, with its number among the children. -/
def firstChildForByte? (c : Cursor) (byte : Nat) : Option (Nat × Cursor) :=
  ((c.node.frames.filter Frame.isVisible).zipIdx.find? fun (f, _) => byte < f.node.endByte).map
    fun (f, i) => (i, c.push f)

def next? (c : Cursor) : Option Cursor :=
  ((c.level.drop (c.top.index + 1)).find? Frame.isVisible).map c.replaceTop

def previous? (c : Cursor) : Option Cursor :=
  ((c.level.take c.top.index).filter Frame.isVisible).getLast?.map c.replaceTop

def parent? (c : Cursor) : Option Cursor :=
  match c.below with
  | [] => none
  | up :: rest => some ⟨up, rest⟩

/-- What a cursor can be told to do. -/
inductive Move where
  | firstChild
  | firstChildForByte (byte : Nat)
  | next
  | previous
  | parent
deriving DecidableEq, Inhabited

/-- Where a move leads. -/
def move? (c : Cursor) : Move → Option Cursor
  | .firstChild => c.firstChild?
  | .firstChildForByte byte => (c.firstChildForByte? byte).map (·.2)
  | .next => c.next?
  | .previous => c.previous?
  | .parent => c.parent?

/-- The cursor after a move; one that leads nowhere leaves it where it is. -/
def move (c : Cursor) (m : Move) : Cursor := (c.move? m).getD c

/-- The cursor after some moves. -/
def moveAll (c : Cursor) (moves : List Move) : Cursor := moves.foldl move c

/-! ## Walking through everything -/

theorem level_of_next? {c d : Cursor} (h : c.next? = some d) :
    d.below = c.below ∧ d.top ∈ c.level ∧ c.top.index < d.top.index ∧
      d.top.index < c.level.length := by
  obtain ⟨f, hf, rfl⟩ := Option.map_eq_some_iff.mp h
  obtain ⟨i, hi⟩ := List.getElem?_of_mem (List.mem_of_find?_eq_some hf)
  rw [List.getElem?_drop] at hi
  have hlt := (List.getElem?_eq_some_iff.mp hi).1
  -- what stands at a place of a level has the number of that place
  have hindex : f.index = c.top.index + 1 + i := by
    unfold level at hi
    split at hi
    · cases hi
    · rw [Node.getElem?_frames] at hi
      obtain ⟨n, -, rfl⟩ := Option.map_eq_some_iff.mp hi
      rfl
  refine ⟨rfl, List.mem_of_getElem? hi, ?_, ?_⟩
  · change c.top.index < f.index
    omega
  · change f.index < c.level.length
    omega

/-- The cursor and those at the siblings behind it, one after the other. -/
def rest (c : Cursor) : List Cursor :=
  match _h : c.next? with
  | none => [c]
  | some d => c :: rest d
termination_by c.level.length - c.top.index
decreasing_by
  obtain ⟨hbelow, -, hlt, hbound⟩ := level_of_next? _h
  simp only [level, hbelow] at hbound ⊢
  omega

/-- The cursors at the children of the node, one after the other. -/
def children (c : Cursor) : List Cursor :=
  match c.firstChild? with
  | none => []
  | some d => d.rest

theorem below_of_mem_rest {c d : Cursor} (h : d ∈ c.rest) :
    d.below = c.below ∧ (d = c ∨ d.top ∈ c.level) := by
  fun_induction rest c with
  | case1 c => exact ⟨congrArg below (List.mem_singleton.mp h), .inl (List.mem_singleton.mp h)⟩
  | case2 c e hnext ih =>
    obtain ⟨hbelow, hmem, -⟩ := level_of_next? hnext
    have hlevel : e.level = c.level := by rw [level, hbelow, level]
    obtain rfl | h := List.mem_cons.mp h
    · exact ⟨rfl, .inl rfl⟩
    · obtain ⟨hbelow', hd⟩ := ih h
      refine ⟨hbelow'.trans hbelow, .inr ?_⟩
      obtain rfl | hd := hd
      · exact hmem
      · exact hlevel ▸ hd

theorem count_lt_of_mem_children {c d : Cursor} (h : d ∈ c.children) :
    d.node.subtree.count < c.node.subtree.count := by
  have hmem : d.top ∈ c.node.frames := by
    unfold children at h
    split at h
    · cases h
    · rename_i e he
      obtain ⟨f, hf, rfl⟩ := Option.map_eq_some_iff.mp he
      obtain ⟨-, rfl | hd⟩ := below_of_mem_rest h
      · exact List.mem_of_find?_eq_some hf
      · exact hd
  exact Node.count_lt_of_mem_stored (Node.mem_frames hmem).1

/-- The cursors at the node and at everything below it, each node before what is below it. -/
def visits (c : Cursor) : List Cursor :=
  c :: c.children.attach.flatMap fun d => visits d.1
termination_by c.node.subtree.count
decreasing_by exact count_lt_of_mem_children d.2

end Cursor

end IncrementalParsing
