import IncrementalParsing.Tree.Subtree

/-!
# The parser's stack

A `Stack` lists what has been read and built, the latest first.  Under the last entry is the start
state.  Extras lie between the other entries without changing the state.

`Stack.popChildren` takes the parts of a production off: extras on top are not among them, those
between its parts are.
-/

namespace IncrementalParsing

/-- An entry of the stack. -/
structure Entry where
  /-- The state after the entry. -/
  state : StateId
  node : Subtree
  /-- Where the padding of the node begins. -/
  position : Length
deriving Inhabited

namespace Entry

/-- Where the node ends. -/
def finish (e : Entry) : Length := e.position + e.node.total

/-- Where the node begins after its padding. -/
def content (e : Entry) : Length := e.position + e.node.padding

end Entry

/-- The entries above the start state, the latest first. -/
abbrev Stack := List Entry

namespace Stack

/-- The state on top. -/
def state : Stack → StateId
  | [] => 0
  | e :: _ => e.state

/-- What remains of a stack when only so many entries are kept. -/
def keep (s : Stack) (depth : Nat) : Stack := s.drop (s.length - depth)

/-- The entries above those that are kept, in the order in which they were pushed. -/
def above (s : Stack) (depth : Nat) : List Entry := (s.take (s.length - depth)).reverse

/-- Takes entries off until `count` of them are no extras; gives them in the order in which they were
pushed, after those in `taken`. -/
def popRegular : (count : Nat) → (taken : List Entry) → Stack → List Entry × Stack
  | 0, taken, s => (taken, s)
  | _ + 1, taken, [] => (taken, [])
  | count + 1, taken, e :: s =>
    -- an extra between two parts goes with them without being counted
    if e.node.extra then popRegular (count + 1) (e :: taken) s else popRegular count (e :: taken) s

/-- The entries of a production's parts, the extras above them, and what remains. -/
def popChildren (count : Nat) (s : Stack) : List Entry × List Entry × Stack :=
  let trailing := (s.takeWhile fun e => e.node.extra).reverse
  let (children, rest) := popRegular count [] (s.dropWhile fun e => e.node.extra)
  (children, trailing, rest)

end Stack

end IncrementalParsing
