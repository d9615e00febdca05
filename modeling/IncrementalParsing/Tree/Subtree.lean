import IncrementalParsing.Parse.Lexer
import IncrementalParsing.Text.Edit

/-!
# Parts of a tree

A `Subtree` knows what it is made of and how long it is, but not where it stands, so the parts of an
old tree can be used in a new one.  Beside its shape it keeps what the parser has to know to take it
over: the state it was built in, the lex modes around it, and how far its tokens looked ahead.

* `Subtree.sameShape` compares shapes and ignores what is kept for the parser;
* `Subtree.edit` moves a part along with an edit of the text and marks it as changed if it is touched.
-/

namespace IncrementalParsing

/-- A part of a tree. -/
structure Subtree where
  symbol : Symbol
  /-- What is skipped in front of the part. -/
  padding : Length
  size : Length
  /-- What the part consists of, each with its field. -/
  children : List (Subtree × Option FieldId)
  /-- The state in which the part was begun. -/
  parseState : StateId
  /-- The lex mode of the first token; nothing where there is none. -/
  firstMode : Option LexMode
  /-- The lex mode of the token that completed the part; nothing where that was looked for in any
  mode. -/
  trailingMode : Option LexMode
  /-- How many bytes after the part it depends on. -/
  lookahead : Nat
  extra : Bool
  /-- Whether the part is an error or has one in it. -/
  hasError : Bool
  /-- Whether an edit has touched the part since it was parsed. -/
  changed : Bool
deriving Inhabited

namespace Subtree

/-- Padding and size together. -/
def total (n : Subtree) : Length := n.padding + n.size

def isError (n : Subtree) : Bool := n.symbol == Symbol.error

/-- Whether nothing is inside. -/
def isLeaf (n : Subtree) : Bool := n.children.isEmpty

/-- A token as a part of a tree. -/
def leaf (token : Token) (parseState : StateId) (extra : Bool) : Subtree where
  symbol := token.symbol
  padding := token.padding
  size := token.size
  children := []
  parseState := parseState
  firstMode := some token.lexMode
  trailingMode := none
  lookahead := token.lookahead
  extra := extra
  hasError := token.symbol == Symbol.error
  changed := false

/-- The part as an extra, or not as one. -/
def withExtra (n : Subtree) (extra : Bool) : Subtree := { n with extra := extra }

/-- Two error tokens without anything between as one. -/
def joinErrors? (a b : Subtree) : Option Subtree :=
  if a.isError && b.isError && a.isLeaf && b.isLeaf && b.padding.bytes == 0 then
    some { a with size := a.size + b.size, lookahead := b.lookahead }
  else none

mutual

/-- The number of parts, the whole included. -/
def count : Subtree → Nat
  | ⟨_, _, _, children, _, _, _, _, _, _, _⟩ => countAll children + 1

def countAll : List (Subtree × Option FieldId) → Nat
  | [] => 0
  | (n, _) :: rest => n.count + countAll rest

end

mutual

/-- Whether two parts have the same symbols, lengths, fields and marks throughout. -/
def sameShape : Subtree → Subtree → Bool
  | ⟨s, p, z, cs, _, _, _, _, x, e, _⟩, ⟨s', p', z', cs', _, _, _, _, x', e', _⟩ =>
    s == s' && p == p' && z == z' && x == x' && e == e' && sameShapes cs cs'

def sameShapes : List (Subtree × Option FieldId) → List (Subtree × Option FieldId) → Bool
  | [], [] => true
  | (n, f) :: rest, (n', f') :: rest' => f == f' && n.sameShape n' && sameShapes rest rest'
  | _, _ => false

end

mutual

/-- The part after an edit of the text, where its padding begins at `position` before it. -/
def edit (e : Edit) (position : Length) : Subtree → Subtree
  | ⟨symbol, padding, size, children, state, first, trailing, lookahead, extra, hasError, changed⟩ =>
    let finish := position + (padding + size)
    -- a part that is not touched moves as a whole, with everything in it
    if e.affects position finish lookahead then
      let content := e.map (position + padding)
      ⟨symbol, content - e.map position, e.map finish - content, editAll e position children, state,
        first, trailing, lookahead, extra, hasError, true⟩
    else
      ⟨symbol, padding, size, children, state, first, trailing, lookahead, extra, hasError, changed⟩

def editAll (e : Edit) (position : Length) :
    List (Subtree × Option FieldId) → List (Subtree × Option FieldId)
  | [] => []
  | (n, f) :: rest => (n.edit e position, f) :: editAll e (position + n.total) rest

end

/-- Parts that follow each other from a place on, each with where its padding begins. -/
def placeAll (position : Length) : List (Subtree × Option FieldId) → List (Length × Subtree)
  | [] => []
  | (n, _) :: rest => (position, n) :: placeAll (position + n.total) rest

end Subtree

end IncrementalParsing
