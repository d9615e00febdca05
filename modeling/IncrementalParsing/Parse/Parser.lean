import IncrementalParsing.Parse.Stats
import IncrementalParsing.Parse.Step
import IncrementalParsing.Text.InputEdit
import IncrementalParsing.Tree.Basic

/-!
# Parsing

`Language.parse` parses a text.  Given the tree of an earlier text, edited to fit this one, it takes
over what has stayed the same, so as to come to the tree that a parse without it gives.

The places in a tree are kept as numbers of 32 bits, so a text with more than `maxTextSize` bytes is
refused before anything is done with it: `Language.tryParse` is the parser with this check in front.
`Language.parse` itself needs no width: of a text that the check lets through no place in the tree lies
behind the end.
-/

namespace IncrementalParsing

/-- A parsed text with what was done for it. -/
structure Parsed where
  tree : Tree
  events : List Event
deriving Inhabited

namespace Parsed

def stats (p : Parsed) : Stats := .ofEvents p.events

end Parsed

/-- Why a text is not parsed. -/
inductive ParseFault where
  /-- There are more bytes in the text than 32 bits count. -/
  | inputTooLarge (size : Nat)
  /-- The table lets the parser go round forever. -/
  | endless
deriving DecidableEq, Inhabited

/-- The wording of a fault. -/
def ParseFault.message : ParseFault → String
  | .inputTooLarge size => s!"input of {size} bytes exceeds the 4 GiB limit"
  | .endless => "the grammar table never ends a parse"

namespace Language

/-- The tree whose parts may be used again, if it is of the same language. -/
def usable? (l : Language) (old : Option Tree) : Option Subtree :=
  (old.filter fun tree => tree.language.id == l.id).map (·.root)

/-- Parses a text.  There is no result where the table lets the parser go round forever. -/
def parse (l : Language) (text : String) (old : Option Tree) : Option Parsed :=
  let bytes := text.toUTF8
  (Config.run l.table bytes (.start l.table (l.usable? old))).map fun (root, events) =>
    ⟨⟨l, root⟩, events⟩

/-- Parses a text unless it is too large. -/
def tryParse (l : Language) (text : String) (old : Option Tree) : Except ParseFault Parsed :=
  if maxTextSize < text.utf8ByteSize then .error (.inputTooLarge text.utf8ByteSize)
  else
    match l.parse text old with
    | some p => .ok p
    | none => .error .endless

/-- Parses the text after an edit of the tree's text. -/
def reparse (l : Language) (tree : Tree) (e : Edit) (text : String) : Option Parsed :=
  l.parse text (some (tree.edit e))

end Language

end IncrementalParsing
