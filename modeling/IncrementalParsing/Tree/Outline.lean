import IncrementalParsing.Json.Printer
import IncrementalParsing.Tree.Cursor

/-!
# Showing trees

`Node.outline` writes the named nodes, one a line, each indented by its depth, as a cursor comes to
them.  `Node.report` tells of all nodes, with the text of those that have nothing below them, and
`Report.toJson` gives it as a JSON value.
-/

namespace IncrementalParsing

/-- A node as a line of an outline. -/
def outlineLine (spans : Bool) (depth : Nat) (field : Option String) (kind : String)
    (start finish : Point) : String :=
  let label := match field with
    | some name => name ++ ": "
    | none => ""
  let span := if spans then " [" ++ start.render ++ "-" ++ finish.render ++ "]" else ""
  Json.indent depth ++ label ++ kind ++ span ++ "\n"

namespace Cursor

/-- The line of the node where the cursor stands; only named nodes have one. -/
def outlineLine? (spans : Bool) (c : Cursor) : Option String :=
  if c.node.isNamed then
    some (outlineLine spans c.depth c.fieldName? c.node.kind c.node.start.extent c.node.finish.extent)
  else none

end Cursor

/-- What is told of a node and of everything below it. -/
structure Report where
  kind : String
  field : Option String
  named : Bool
  extra : Bool
  error : Bool
  startByte : Nat
  endByte : Nat
  start : Point
  finish : Point
  /-- The text, of a node without children whose bytes are one. -/
  text : Option String
  children : List Report
deriving Inhabited

namespace Report

/-- A point as a JSON value. -/
def pointJson (p : Point) : Json := .ofMembers [("row", .ofNat p.row), ("column", .ofNat p.column)]

/-- A mark as a member of an object, if it is there. -/
def mark (name : String) (holds : Bool) : List (String × Json) :=
  if holds then [(name, .bool true)] else []

mutual

/-- A report as a JSON value.  What is absent or false is left out, except whether the node is named. -/
def toJson : Report → Json
  | ⟨kind, field, named, extra, error, startByte, endByte, start, finish, text, children⟩ =>
    .ofMembers
      ([("kind", .string kind)] ++ (field.map fun name => ("field", Json.string name)).toList
        ++ [("named", .bool named)] ++ mark "extra" extra ++ mark "error" error
        ++ [("start_byte", .ofNat startByte), ("end_byte", .ofNat endByte),
          ("start", pointJson start), ("end", pointJson finish)]
        ++ (text.map fun text => ("text", Json.string text)).toList
        ++ if children.isEmpty then [] else [("children", .array (toJsons children))])

def toJsons : List Report → List Json
  | [] => []
  | r :: rest => r.toJson :: toJsons rest

end

end Report

namespace Node

/-- The named nodes, one a line; where they begin and end is added if asked for. -/
def outline (n : Node) (spans : Bool) : String :=
  String.join (n.walk.visits.filterMap (Cursor.outlineLine? spans))

/-- The report of a node that lies in a field, with the text that a source has for it. -/
def report (source : ByteArray) (n : Node) (field : Option String) : Report :=
  let children := n.children.attach.zipIdx.map fun (c, i) =>
    report source c.1 (n.fieldNameForChild? i)
  { kind := n.kind
    field
    named := n.isNamed
    extra := n.isExtra
    error := n.isError
    startByte := n.startByte
    endByte := n.endByte
    start := n.start.extent
    finish := n.finish.extent
    text := if children.isEmpty then (n.textIn source).toOption else none
    children }
termination_by n.subtree.count
decreasing_by exact count_lt_of_mem_children c.2

/-- A node with everything below it as a JSON value. -/
def toJson (source : ByteArray) (n : Node) : Json := (n.report source none).toJson

end Node

end IncrementalParsing
