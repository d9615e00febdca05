import IncrementalParsing.Parse.Stack

/-!
# Building nodes

`buildNode` makes one node of the entries of a production.  Hidden rules leave no node: their
children take their place and their field.  Inside an error the errors taken up leave no node either,
and characters that are no token are joined where nothing lies between them.
-/

namespace IncrementalParsing

/-- What a node is built with besides its parts. -/
structure Surroundings where
  /-- Where the next token's padding begins. -/
  position : Length
  /-- The next token. -/
  lookahead : Subtree
  /-- Whether that was looked for in every mode. -/
  inErrorMode : Bool
deriving Inhabited

namespace Build

/-- Gives each entry that is no extra the next field. -/
def withFields : List Entry → (fields : List (Option FieldId)) → List (Entry × Option FieldId)
  | [], _ => []
  | e :: rest, fields =>
    -- an extra is no part of the production, so it uses up no field
    if e.node.extra then (e, none) :: withFields rest fields
    else (e, fields.headD none) :: withFields rest fields.tail

/-- Whether a symbol is a rule without a node of its own. -/
def isHiddenRule (t : Table) (s : Symbol) : Bool := !t.isTerminal s && !t.isVisible s

/-- Whether an entry is replaced by its children inside a node of the given symbol. -/
def isSpliced (t : Table) (parent : Symbol) (n : Subtree) : Bool :=
  -- errors dissolve in an error too, but for runs of characters, which have nothing inside
  !n.isLeaf && ((!n.extra && isHiddenRule t n.symbol) || (parent == Symbol.error && n.isError))

/-- The children that an entry stands for. -/
def pieces (t : Table) (parent : Symbol) (entry : Entry × Option FieldId) :
    List (Subtree × Option FieldId) :=
  let (e, field) := entry
  -- a child keeps the field that it has, the others take the one of the part that is dissolved
  if isSpliced t parent e.node then e.node.children.map fun (c, inner) => (c, inner.or field)
  else [(e.node, field)]

/-- Adds a child to those before it, which are in reverse. -/
def addChild (parent : Symbol) (before : List (Subtree × Option FieldId))
    (child : Subtree × Option FieldId) : List (Subtree × Option FieldId) :=
  match before with
  | [] => [child]
  | (last, field) :: rest =>
    -- a child with a field is one that something can be asked for by, so it is not joined
    if parent == Symbol.error && child.2.isNone then
      match last.joinErrors? child.1 with
      | some joined => (joined, field) :: rest
      | none => child :: before
    else child :: before

/-- The children of a node. -/
def children (t : Table) (parent : Symbol) (entries : List Entry) (fields : List (Option FieldId)) :
    List (Subtree × Option FieldId) :=
  (((withFields entries fields).flatMap (pieces t parent)).foldl (addChild parent) []).reverse

end Build

/-- A node of a symbol made of entries, and where its padding begins; without entries that is
`fallback`. -/
def buildNode (t : Table) (around : Surroundings) (symbol : Symbol) (entries : List Entry)
    (fields : List (Option FieldId)) (fallback : Length) (parseState : StateId) :
    Subtree × Length :=
  let position := ((entries.head?).map (·.position)).getD fallback
  let finish := ((entries.getLast?).map Entry.finish).getD fallback
  let padding := ((entries.head?).map (·.node.padding)).getD .zero
  -- that the parts end here was decided by the next token, so the node depends on as much as that
  -- does
  let seen := (around.position + around.lookahead.total).bytes + around.lookahead.lookahead
  let reach := entries.foldl (fun reach e => max reach (e.finish.bytes + e.node.lookahead)) seen
  ({ symbol
     padding
     size := finish - (position + padding)
     children := Build.children t symbol entries fields
     parseState
     firstMode := entries.findSome? (·.node.firstMode)
     trailingMode := if around.inErrorMode then none else around.lookahead.firstMode
     lookahead := reach - finish.bytes
     extra := false
     hasError := symbol == Symbol.error || entries.any (·.node.hasError)
     changed := false },
   position)

/-- A root that spans the whole text. -/
def buildRoot (text : ByteArray) (symbol : Symbol) (children : List (Subtree × Option FieldId))
    (lookahead : Subtree) : Subtree where
  symbol := symbol
  padding := .zero
  size := .of text
  children := children
  parseState := 0
  firstMode := children.findSome? (·.1.firstMode)
  trailingMode := lookahead.firstMode
  -- the end of the text counts as one byte that was looked at
  lookahead := 1
  extra := false
  hasError := children.any (·.1.hasError)
  changed := false

/-- The text that entries cover, without the padding of the first. -/
def coveredBy (entries : List Entry) : Nat × Nat :=
  match entries.head?, entries.getLast? with
  | some first, some last => (first.content.bytes, last.finish.bytes)
  | _, _ => (0, 0)

end IncrementalParsing
