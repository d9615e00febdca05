import IncrementalParsing.Tree.Basic

/-!
# Nodes

A `Node` is a part of a tree at its place: it knows the parts it lies in, up to the root.  Two nodes
are equal if they stand at the same place, since parts that look the same can be stored at several.
What hidden tokens leave in a tree is no node for the functions here; `Node.stored` alone lists it.

* `children`, `child?` and the functions on fields and bytes go down;
* `parent?` and the functions on siblings go up and sideways;
* `preorder` lists a node with everything below it;
* `sexp` writes the named nodes.
-/

namespace IncrementalParsing

/-- A part of a tree with its place among the children of the part above it. -/
structure Place where
  subtree : Subtree
  /-- Where its padding begins. -/
  position : Length
  field : Option FieldId
  index : Nat
deriving Inhabited

namespace Place

/-- Where the part ends. -/
def finish (p : Place) : Length := p.position + p.subtree.total

/-- Whether the part reaches over all of another with its padding. -/
def covers (p q : Place) : Bool :=
  decide (p.position.bytes ≤ q.position.bytes)
    && decide (q.position.bytes + q.subtree.total.bytes ≤ p.position.bytes + p.subtree.total.bytes)

/-- The children of a part, each with its place; the first has the given position and index. -/
def listFrom (position : Length) (index : Nat) : List (Subtree × Option FieldId) → List Place
  | [] => []
  | (n, field) :: rest =>
    ⟨n, position, field, index⟩ :: listFrom (position + n.total) (index + 1) rest

/-- What is stored directly below a part. -/
def below (p : Place) : List Place := listFrom p.position 0 p.subtree.children

end Place

/-- A part of a tree with everything it lies in. -/
structure Node where
  tree : Tree
  place : Place
  /-- What the part lies in, the nearest first; the last is the root. -/
  above : List Place
deriving Inhabited

namespace Tree

/-- The root of a tree as a node. -/
def node (t : Tree) : Node := ⟨t, ⟨t.root, .zero, none, 0⟩, []⟩

end Tree

namespace Node

def subtree (n : Node) : Subtree := n.place.subtree

def symbol (n : Node) : Symbol := n.subtree.symbol

/-- The name of the node's symbol. -/
def kind (n : Node) : String := n.tree.table.symbolName n.symbol

def isNamed (n : Node) : Bool := n.tree.table.isNamed n.symbol
def isVisible (n : Node) : Bool := n.tree.table.isVisible n.symbol
def isExtra (n : Node) : Bool := n.subtree.extra
def isError (n : Node) : Bool := n.subtree.isError

/-- Whether the node is an error or has one below it. -/
def hasError (n : Node) : Bool := n.subtree.hasError

/-- Whether an edit has touched the node since it was parsed. -/
def hasChanges (n : Node) : Bool := n.subtree.changed

/-- Where the node begins after its padding. -/
def start (n : Node) : Length := n.place.position + n.subtree.padding

/-- Where the node ends. -/
def finish (n : Node) : Length := n.place.finish

def startByte (n : Node) : Nat := n.place.position.bytes + n.subtree.padding.bytes
def endByte (n : Node) : Nat := n.startByte + n.subtree.size.bytes

/-- The way to the node: which child to take, from the node up to the root. -/
def path (n : Node) : List Nat :=
  match n.above with
  | [] => []
  | _ :: _ => n.place.index :: (n.above.dropLast.map (·.index))

instance : BEq Node := ⟨fun a b => a.path == b.path⟩

def isRoot (n : Node) : Bool := n.above.isEmpty

/-- The node as it is shown. -/
def describe (n : Node) : String := s!"{n.kind} [{n.startByte}..{n.endByte}]"

/-- The bytes of the node in a source, cut where the source ends. -/
def bytesIn (n : Node) (source : ByteArray) : ByteArray :=
  let finish := min n.endByte source.size
  source.extract (min n.startByte finish) finish

/-- The text of the node in a source. -/
def textIn (n : Node) (source : ByteArray) : Except Utf8.Fault String :=
  Utf8.decode (n.bytesIn source)

/-! ## Down -/

/-- Everything stored directly below the node. -/
def stored (n : Node) : List Node :=
  n.place.below.map fun p => ⟨n.tree, p, n.place :: n.above⟩

/-- The nodes directly below the node. -/
def children (n : Node) : List Node := n.stored.filter isVisible

def child? (n : Node) (i : Nat) : Option Node := n.children[i]?

def namedChildren (n : Node) : List Node := n.children.filter isNamed

def namedChild? (n : Node) (i : Nat) : Option Node := n.namedChildren[i]?

/-- The field of the node in what it lies in. -/
def field? (n : Node) : Option FieldId := n.place.field

/-- The name of that field. -/
def fieldName? (n : Node) : Option String := n.field?.bind n.tree.table.fieldName?

/-- The children in a field. -/
def childrenByField (n : Node) (name : String) : List Node :=
  match n.tree.table.fieldId? name with
  | some field => n.children.filter fun c => c.field? == some field
  | none => []

/-- The first child in a field. -/
def childByField? (n : Node) (name : String) : Option Node := (n.childrenByField name).head?

/-- The name of the field of a child. -/
def fieldNameForChild? (n : Node) (i : Nat) : Option String := (n.child? i).bind fieldName?

/-- The first child that ends after a byte. -/
def firstChildForByte? (n : Node) (byte : Nat) : Option Node :=
  n.children.find? fun c => decide (byte < c.endByte)

/-- Whether the node is not empty and reaches over a range of bytes. -/
def spans (n : Node) (start finish : Nat) : Bool :=
  decide (n.startByte ≤ start) && decide (finish ≤ n.endByte) && decide (n.startByte < n.endByte)

theorem count_le_of_mem_listFrom {q : Place} {position : Length} {index : Nat}
    {children : List (Subtree × Option FieldId)} (h : q ∈ Place.listFrom position index children) :
    q.subtree.count ≤ Subtree.countAll children := by
  induction children generalizing position index with
  | nil => simp [Place.listFrom] at h
  | cons c rest ih =>
    simp only [Place.listFrom, List.mem_cons] at h
    simp only [Subtree.countAll]
    cases h with
    | inl h => subst h; simp
    | inr h => have := ih h; omega

/-- What is stored below a node has fewer parts than the node. -/
theorem count_lt_of_mem_stored {n c : Node} (h : c ∈ n.stored) :
    c.subtree.count < n.subtree.count := by
  simp only [stored, List.mem_map] at h
  obtain ⟨p, hp, rfl⟩ := h
  have := count_le_of_mem_listFrom hp
  simp only [subtree] at *
  cases hs : n.place.subtree
  simp only [hs, Subtree.count] at *
  omega

/-- A child has fewer parts than what it lies in. -/
theorem count_lt_of_mem_children {n c : Node} (h : c ∈ n.children) :
    c.subtree.count < n.subtree.count :=
  count_lt_of_mem_stored (List.mem_filter.mp h).1

/-- The smallest node at or below this one that reaches over a range.  A node without bytes reaches
over none. -/
def smallestSpanning (n : Node) (start finish : Nat) : Node :=
  match _h : n.children.find? fun c => c.spans start finish with
  | some c => smallestSpanning c start finish
  | none => n
termination_by n.subtree.count
decreasing_by exact count_lt_of_mem_children (List.mem_of_find?_eq_some _h)

/-- The smallest node at or below this one that reaches over a range; nothing where this one does
not. -/
def descendantForRange? (n : Node) (start finish : Nat) : Option Node :=
  if start < n.startByte || n.endByte < finish then none
  else some (n.smallestSpanning start finish)

/-! ## Up and sideways -/

/-- What the target lies in directly, searched for in everything below a node.  The search goes in the
order of the text, and only into parts that reach over the target with its padding; the node it begins
at is searched in any case. -/
def parentFrom? (n target : Node) : Option Node :=
  n.stored.attach.findSome? fun c =>
    if c.1 == target then some n
    -- parts without bytes reach over others at the same place, so the search can go into a wrong one
    else if c.1.place.covers target.place && !c.1.subtree.isLeaf then parentFrom? c.1 target
    else none
termination_by n.subtree.count
decreasing_by exact count_lt_of_mem_stored c.2

/-- What the node lies in directly, searched for from the root; the root lies in nothing. -/
def parent? (n : Node) : Option Node :=
  if n == n.tree.node then none else n.tree.node.parentFrom? n

/-- The number of the node among the children of what it lies in. -/
def indexIn? (n parent : Node) : Option Nat := parent.children.findIdx? (· == n)

def next? (n : Node) : Option Node := do
  let parent ← n.parent?
  parent.child? ((← n.indexIn? parent) + 1)

def previous? (n : Node) : Option Node := do
  let parent ← n.parent?
  match ← n.indexIn? parent with
  | 0 => none
  | i + 1 => parent.child? i

/-- The first named sibling behind the node. -/
def nextNamed? (n : Node) : Option Node := do
  let parent ← n.parent?
  (parent.children.drop ((← n.indexIn? parent) + 1)).find? isNamed

/-- The last named sibling in front of the node. -/
def previousNamed? (n : Node) : Option Node := do
  let parent ← n.parent?
  (parent.children.take (← n.indexIn? parent)).reverse.find? isNamed

/-! ## Everything below -/

/-- The node with all nodes below it, in the order of the text, each with its depth. -/
def preorder (n : Node) (depth : Nat) : List (Nat × Node) :=
  (depth, n) :: n.children.attach.flatMap fun c => preorder c.1 (depth + 1)
termination_by n.subtree.count
decreasing_by exact count_lt_of_mem_children c.2

/-- The named nodes as nested lists, with their fields. -/
def sexp (n : Node) : String :=
  let inside := n.children.attach.map fun c =>
    if c.1.isNamed then
      let label := match c.1.fieldName? with
        | some name => name ++ ": "
        | none => ""
      " " ++ label ++ sexp c.1
    else ""
  "(" ++ n.kind ++ String.join inside ++ ")"
termination_by n.subtree.count
decreasing_by exact count_lt_of_mem_children c.2

end Node

end IncrementalParsing
