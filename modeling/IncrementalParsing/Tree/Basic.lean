import IncrementalParsing.Tree.Subtree

/-!
# Trees

A `Tree` is the root of a parsed text together with the language it was parsed in.  Trees are values:
`Tree.edit` gives the tree that an edit of the text leads to, in which the parts that the edit touches
are marked, and which the parser takes as the old tree of the edited text.
-/

namespace IncrementalParsing

/-- A parse table under a number.  Trees are used again only for the language of the same number, even
where the tables are equal. -/
structure Language where
  id : Nat
  table : Table
deriving Inhabited

/-- A parsed text. -/
structure Tree where
  language : Language
  root : Subtree
deriving Inhabited

namespace Tree

/-- The table the text was parsed with. -/
def table (t : Tree) : Table := t.language.table

def hasError (t : Tree) : Bool := t.root.hasError

/-- The length of the text in bytes. -/
def size (t : Tree) : Nat := t.root.total.bytes

def isEmpty (t : Tree) : Bool := t.size == 0

/-- The tree after an edit of its text. -/
def edit (t : Tree) (e : Edit) : Tree := { t with root := t.root.edit e .zero }

/-- Trees are equal if their parts have the same symbols, places, fields and marks. -/
instance : BEq Tree := ⟨fun a b => a.root.sameShape b.root⟩

end Tree

end IncrementalParsing
