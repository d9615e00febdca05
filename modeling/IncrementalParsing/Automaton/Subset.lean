import IncrementalParsing.Automaton.Basic
import IncrementalParsing.Automaton.Network
import Std.Data.HashMap

/-!
# From networks to automata

A state of the automaton stands for a `Situation`: the nodes that may come next, what kind of byte
was read last, and whether the bytes before it are a match.  The nodes reached without reading are
found when the next byte is known, because conditions on places depend on it.
`Automaton.ofExpression` explores the situations from the start and drops those from which no match
can be reached.
-/

namespace IncrementalParsing

namespace Network

/-- The number of links between nodes that read nothing. -/
def links (n : Network) : Nat :=
  n.nodes.foldl (fun count node =>
    match node with
    | .split next => count + next.length
    | .look _ _ => count + 1
    | _ => count) 0

/-- The nodes reached from a stack of nodes without reading, where conditions hold as `holds` says;
`seen` are those found already. -/
def reach (n : Network) (holds : Look → Bool) :
    (fuel : Nat) → (seen stack : List Nat) → List Nat
  | 0, seen, _ => seen
  | _ + 1, seen, [] => seen
  | fuel + 1, seen, i :: stack =>
    -- going round without reading adds nothing
    if seen.contains i then reach n holds fuel seen stack
    else
      match n.node i with
      | .split next => reach n holds fuel (i :: seen) (next ++ stack)
      | .look kind next =>
        reach n holds fuel (i :: seen) (if holds kind then next :: stack else stack)
      | _ => reach n holds fuel (i :: seen) stack

/-- Whether a node ends a match. -/
def isAccept (n : Network) (i : Nat) : Bool :=
  match n.node i with
  | .accept => true
  | _ => false

/-- The byte ranges that lead on from a node. -/
def movesOf (n : Network) (i : Nat) : List (Nat × Nat × Nat) :=
  match n.node i with
  | .bytes moves => moves
  | _ => []

/-- Whether any condition on places occurs. -/
def hasLooks (n : Network) : Bool :=
  n.nodes.any fun node =>
    match node with
    | .look _ _ => true
    | _ => false

end Network

/-- Where a run of a network stands. -/
structure Situation where
  matched : Bool
  before : Option ByteKind
  nodes : List Nat
deriving DecidableEq, Inhabited, Hashable

namespace Situation

/-- A list without repetitions, in ascending order. -/
def sorted (xs : List Nat) : List Nat :=
  let rec dedup : List Nat → List Nat
    | [] => []
    | a :: rest =>
      match dedup rest with
      | b :: rest => if a = b then b :: rest else a :: b :: rest
      | [] => [a]
  dedup (xs.mergeSort (· ≤ ·))

/-- The places in `first` to `last` at which a range begins, or the one before has ended. -/
def cuts (first last : Nat) (moves : List (Nat × Nat × Nat)) : List Nat :=
  sorted (first :: moves.flatMap fun m =>
    [m.1, m.2.1 + 1].filter fun b => first < b && b ≤ last)

/-- The parts of `first` to `last` between cuts. -/
def parts (last : Nat) : (cuts : List Nat) → List (Nat × Nat)
  | [] => []
  | [a] => [(a, last)]
  | a :: b :: rest => (a, b - 1) :: parts last (b :: rest)

/-- The bytes from `first` to `last`, in ranges, with the nodes that each leads to. -/
def targets (first last : Nat) (moves : List (Nat × Nat × Nat)) : List (Nat × Nat × List Nat) :=
  (parts last (cuts first last moves)).map fun (a, b) =>
    (a, b, sorted ((moves.filter fun m => m.1 ≤ a && b ≤ m.2.1).map (·.2.2)))

/-- The nodes reached when the next byte is of a kind, or the text ends. -/
def reached (n : Network) (links : Nat) (s : Situation) (after : Option ByteKind) : List Nat :=
  n.reach (Look.holds s.before after) (links + n.nodes.size + s.nodes.length + 1) [] s.nodes

/-- What the bytes from `first` to `last`, of one kind, lead to. -/
def stepsOn (n : Network) (first last : Nat) (before : Option ByteKind) (reached : List Nat) :
    List (Nat × Nat × Situation) :=
  let matched := reached.any n.isAccept
  (targets first last (reached.flatMap n.movesOf)).map fun (a, b, nodes) =>
    (a, b, ⟨matched, before, nodes⟩)

/-- What all bytes lead to, in ranges.  Without conditions on places their kinds do not count. -/
def steps (n : Network) (links : Nat) (looks : Bool) (s : Situation) :
    List (Nat × Nat × Situation) :=
  if looks then
    let byKind := ByteKind.all.map fun kind => (kind, reached n links s (some kind))
    ByteKind.ranges.flatMap fun (first, last, kind) =>
      stepsOn n first last (some kind) ((byKind.lookup kind).getD [])
  else
    stepsOn n 0 255 none (reached n links s none)

/-- Whether nothing can come of a situation. -/
def isOver (s : Situation) : Bool := !s.matched && s.nodes.isEmpty

end Situation

namespace Automaton

/-- The situations met so far, by number, and the states of those that have been gone through. -/
structure Exploration where
  numbers : Std.HashMap Situation Nat
  situations : Array Situation
  states : Array State

namespace Exploration

/-- The number of a situation, a new one if it was not met before. -/
def number (x : Exploration) (s : Situation) : Exploration × Nat :=
  match x.numbers[s]? with
  | some i => (x, i)
  | none =>
    let i := x.situations.size
    ({ x with numbers := x.numbers.insert s i, situations := x.situations.push s }, i)

/-- Adds moves to the situations that ranges of bytes lead to. -/
def addMoves : Exploration → List (Nat × Nat × Situation) → Exploration × List Move
  | x, [] => (x, [])
  | x, (first, last, s) :: rest =>
    if s.isOver then addMoves x rest
    else
      let (x, i) := x.number s
      let (x, moves) := addMoves x rest
      match moves with
      | m :: more =>
        -- ranges that touch and lead to one state become one
        if m.target = i && m.first = last + 1 then (x, ⟨first, m.last, i⟩ :: more)
        else (x, ⟨first, last, i⟩ :: moves)
      | [] => (x, [⟨first, last, i⟩])

/-- Goes through the situations in the order in which they were met. -/
def run (n : Network) (links : Nat) (looks : Bool) : (fuel : Nat) → Exploration → Exploration
  | 0, x => x
  | fuel + 1, x =>
    match x.situations[x.states.size]? with
    | none => x
    | some s =>
      -- at the end of the text conditions see no byte
      let final := (s.reached n links none).any n.isAccept
      let (x, moves) := x.addMoves (s.steps n links looks)
      run n links looks fuel { x with states := x.states.push ⟨s.matched, final, moves⟩ }

end Exploration

/-- Whether a match can be told of from a state on, given the states of which that is known. -/
def isAlive (alive : Array Bool) (s : State) : Bool :=
  s.matched || s.final || s.moves.any fun m => alive.getD m.target false

/-- The states from which a match can be told of, found by going over them again until nothing
changes; later states come first, since moves mostly lead to those. -/
def aliveStates (states : Array State) : (fuel : Nat) → Array Bool → Array Bool
  | 0, alive => alive
  | fuel + 1, alive =>
    let next := (List.range states.size).foldr
      (fun i alive => alive.setIfInBounds i (isAlive alive (states.getD i default))) alive
    -- states only come to life, so a round without any is the last
    if next == alive then alive else aliveStates states fuel next

/-- The state without the moves after which no match can be told of. -/
def State.pruned (alive : Array Bool) (s : State) : State :=
  { s with moves := s.moves.filter fun m => alive.getD m.target false }

/-- The automaton of an expression.  It follows what `regex-automata` 0.4 documents of a DFA with
anchored starts and the match kind `All`: it keeps going while any way of matching is left, so that the
last match it tells of is the longest one; a match is told of one byte late; there is a start for each
kind of byte that may stand in front; and the search stops in a dead state, from which no match can be
told of.  States that behave alike are not joined, which a search does not show.

There are no more situations than sets of nodes, each after one of four kinds of bytes or none,
matched or not. -/
def ofExpression (e : Expression) : Automaton :=
  let n := Network.ofExpression e
  let looks := n.hasLooks
  let befores := none :: ByteKind.all.map some
  -- without conditions it does not matter what stands before
  let initial (before : Option ByteKind) : Situation :=
    ⟨false, if looks then before else none, [n.start]⟩
  let (x, starts) := befores.foldl (fun (x, starts) before =>
    let (x, i) := Exploration.number x (initial before)
    (x, starts ++ [i])) ((⟨∅, #[], #[]⟩ : Exploration), ([] : List Nat))
  let x := x.run n n.links looks (Nat.pow 2 (n.nodes.size + 4))
  let alive := aliveStates x.states (x.states.size + 1) (x.states.map fun _ => false)
  ⟨starts, x.states.map (State.pruned alive)⟩

end Automaton

end IncrementalParsing
