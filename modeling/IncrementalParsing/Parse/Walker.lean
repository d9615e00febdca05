import IncrementalParsing.Sum
import IncrementalParsing.Tree.Subtree

/-!
# Taking over parts of an old tree

A `Walker` goes through an old tree in the order of the text and offers parts that can be used again.
It lists the parts that have not been passed, each with where its padding begins in the edited text;
going into a part puts its children in its place.

`Walker.next` finds the part that begins at a place and, by what is kept with it, would be built in
the same way there.
-/

namespace IncrementalParsing

/-- The parts of an old tree that have not been passed, in order. -/
abbrev Walker := List (Length × Subtree)

namespace Subtree

/-- The children of a part that stands at a place. -/
def placed (n : Subtree) (position : Length) : Walker := placeAll position n.children

/-- Whether a part of an old tree would be built in the same way in a state, by what is kept with it:
nothing in it has changed or is an error, its first token was looked for in the same mode, and for
what is not a single token also the state and the mode after it are the same. -/
def isReusable (n : Subtree) (t : Table) (state : StateId) : Bool :=
  if n.changed || n.hasError || n.firstMode != some (t.lexMode state) then false
  else if t.isTerminal n.symbol then true
  else if n.extra || n.parseState != state then false
  else
    -- the token that completed the part would be looked for after it in the same mode
    match t.goto? state n.symbol, n.trailingMode with
    | some target, some trailing => t.lexMode target == trailing
    | _, _ => false

end Subtree

namespace Walker

/-- The walker before an old tree whose root is not used again itself. -/
def start (root : Subtree) : Walker := root.placed .zero

/-- The number of parts inside those listed. -/
def weight (w : Walker) : Nat := sumOf (fun p => p.2.count) w

@[simp] theorem weight_cons (p : Length × Subtree) (w : Walker) :
    weight (p :: w) = p.2.count + weight w := by
  simp [weight]

@[simp] theorem weight_append (v w : Walker) : weight (v ++ w) = weight v + weight w := by
  simp [weight]

theorem weight_placeAll (position : Length) (children : List (Subtree × Option FieldId)) :
    weight (Subtree.placeAll position children) = Subtree.countAll children := by
  induction children generalizing position with
  | nil => simp [Subtree.placeAll, weight, Subtree.countAll]
  | cons c rest ih => simp [Subtree.placeAll, weight_cons, Subtree.countAll, ih]

/-- Going into a part passes the part itself. -/
theorem weight_placed (n : Subtree) (position : Length) : weight (n.placed position) < n.count := by
  cases n
  simp [Subtree.placed, weight_placeAll, Subtree.count]

/-- The next part that can be used at a place in a state, and the walker after it.  Parts that end
before the place or are empty are passed, parts that reach across it are gone into, and a part that
begins later is left for then. -/
def next (t : Table) (state : StateId) (place : Nat) : Walker → Option Subtree × Walker
  | [] => (none, [])
  | (start, n) :: rest =>
    if start.bytes < place then
      if place < start.bytes + n.total.bytes then next t state place (n.placed start ++ rest)
      else next t state place rest
    else if n.total.bytes = 0 then next t state place rest
    else if place < start.bytes then (none, (start, n) :: rest)
    else if n.isReusable t state then (some n, rest)
    else next t state place (n.placed start ++ rest)
termination_by w => weight w
decreasing_by
  all_goals
    have := weight_placed n start
    cases n
    simp only [weight_cons, weight_append, Subtree.count] at *
    omega

end Walker

end IncrementalParsing
