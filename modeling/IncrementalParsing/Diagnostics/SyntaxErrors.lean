import IncrementalParsing.Diagnostics.Snippet
import IncrementalParsing.Tree.Node

/-!
# Reporting syntax errors

`Tree.syntaxErrors` gives the outermost errors of a tree as ranges of bytes, and `renderErrors` shows
them in the text.
-/

namespace IncrementalParsing

/-- The outermost errors at or below a node. -/
def Node.errorsBelow (n : Node) : List (Nat × Nat) :=
  if n.isError then [(n.startByte, n.endByte)]
  else if n.hasError then n.children.attach.flatMap fun c => Node.errorsBelow c.1
  else []
termination_by n.subtree.count
decreasing_by exact Node.count_lt_of_mem_children c.2

/-- The outermost errors in the order of the text. -/
def Tree.syntaxErrors (t : Tree) : List (Nat × Nat) := t.node.errorsBelow

/-- What is wrong with a range: its text, of which at most 32 characters are shown. -/
def describeError (source : ByteArray) (start finish : Nat) : String :=
  let text := trimChars (((Utf8.slice? source start finish).getD "").toList)
  if text.isEmpty then "unexpected end of input"
  else
    let shown := String.ofList (text.take 32)
    "unexpected \x60" ++ shown ++ (if 32 < text.length then "..." else "") ++ "\x60"

/-- An empty range is shown as the byte after it, if there is one. -/
def shownRange (start finish size : Nat) : Nat × Nat :=
  if start = finish then (start, min (start + 1) size) else (start, finish)

/-- Whether an error can be shown: a text cannot be cut inside a character. -/
def isShowable (source : ByteArray) (error : Nat × Nat) : Bool :=
  let (start, finish) := shownRange error.1 error.2 source.size
  isBoundary source start && isBoundary source finish

/-- An error shown in the text. -/
def renderError (source path : String) (error : Nat × Nat) : String :=
  let bytes := source.toUTF8
  let (start, finish) := shownRange error.1 error.2 bytes.size
  (Snippet.ofRange source start finish (describeError bytes error.1 error.2)).render
    "error: syntax error" path

/-- Errors shown in the text, with empty lines between them. -/
def renderErrors (source path : String) (errors : List (Nat × Nat)) : String :=
  String.intercalate "\n" (errors.map fun e => renderError source path e ++ "\n")

end IncrementalParsing
