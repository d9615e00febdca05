import IncrementalParsing.Pattern.Expression

/-!
# Networks of expressions

A `Network` is an expression laid out as numbered nodes.  A node is the end of a match, a choice
between nodes, a condition on the place, or a set of byte ranges that lead to other nodes.
Characters are laid out as the bytes of their UTF-8 form; nodes for sets share what they have in
common.
-/

namespace IncrementalParsing

open Unicode (CodeSet)

/-- A node of a network. -/
inductive Junction where
  | accept
  | split (next : List Nat)
  | look (kind : Look) (next : Nat)
  /-- Bytes from the first to the second number lead to the node with the third. -/
  | bytes (moves : List (Nat × Nat × Nat))
deriving Inhabited

/-- An expression laid out as nodes. -/
structure Network where
  nodes : Array Junction
  start : Nat
deriving Inhabited

namespace Network

/-- Nodes that are being laid out. -/
abbrev Layout := StateM (Array Junction)

/-- Adds a node. -/
def add (node : Junction) : Layout Nat := fun nodes => (nodes.size, nodes.push node)

/-- Replaces a node. -/
def put (i : Nat) (node : Junction) : Layout Unit := modify fun nodes => nodes.setIfInBounds i node

/-- A digit range, with the ranges of what follows it. -/
abbrev Piece := Nat × Nat × List (Nat × Nat)

/-- Splits a range of numbers by their first digit, where the digits after it count up to `unit`. -/
def splitRange (unit : Nat) (range : Nat × Nat) : List Piece :=
  let (lo, hi) := range
  let whole := [(0, unit - 1)]
  let a := lo / unit
  let b := hi / unit
  if a = b then [(a, a, [(lo % unit, hi % unit)])]
  else
    -- below and above the first digits that may be followed by anything
    let head := if lo % unit = 0 then [] else [(a, a, [(lo % unit, unit - 1)])]
    let tail := if hi % unit = unit - 1 then [] else [(b, b, [(0, hi % unit)])]
    let a' := if lo % unit = 0 then a else a + 1
    let b' := if hi % unit = unit - 1 then b else b - 1
    head ++ (if a' ≤ b' then [(a', b', whole)] else []) ++ tail

/-- Joins pieces that follow each other and have one digit in common. -/
def joinPieces : List Piece → List Piece
  | [] => []
  | (a, b, r) :: rest =>
    match joinPieces rest with
    | (a', b', r') :: rest' =>
      if a = a' && b = b' then (a, b, r ++ r') :: rest' else (a, b, r) :: (a', b', r') :: rest'
    | [] => [(a, b, r)]

/-- Nodes laid out for sets before, by the number of bytes and the ranges they read. -/
abbrev Known := List ((Nat × List (Nat × Nat)) × Nat)

mutual

/-- A node that reads `count` more bytes of a character, whose digits are in `ranges`, and goes on
to `next`.  To the first digit of each piece `base` is added. -/
def digitsNode (next : Nat) (count base : Nat) (ranges : List (Nat × Nat)) (known : Known) :
    Layout (Nat × Known) :=
  match count with
  | 0 => pure (next, known)
  | count + 1 =>
    -- what reads the same and goes on to the same node is laid out once
    match known.lookup (count + 1 + base, ranges) with
    | some i => pure (i, known)
    | none => do
      let pieces := joinPieces (ranges.flatMap (splitRange (Nat.pow 64 count)))
      let (moves, known') ← pieceMoves next count base pieces known
      let i ← add (.bytes moves)
      pure (i, ((count + 1 + base, ranges), i) :: known')

/-- The moves for pieces after which `count` more bytes are read. -/
def pieceMoves (next : Nat) (count base : Nat) (pieces : List Piece) (known : Known) :
    Layout (List (Nat × Nat × Nat) × Known) :=
  match pieces with
  | [] => pure ([], known)
  | (a, b, rest) :: pieces => do
    let (target, known) ← digitsNode next count 0x80 rest known
    let (moves, known) ← pieceMoves next count base pieces known
    pure ((a + base, b + base, target) :: moves, known)

end

/-- The codes of each number of bytes: how many follow the first one, what is added to the first
digit, and the first and last code. -/
def forms : List (Nat × Nat × Nat × Nat) :=
  [(0, 0, 0, 0x7F), (1, 0xC0, 0x80, 0x7FF), (2, 0xE0, 0x800, 0xFFFF), (3, 0xF0, 0x10000, 0x10FFFF)]

/-- The moves on the first bytes of the characters of a set, form by form. -/
def setMoves (next : Nat) (chars : CodeSet) :
    List (Nat × Nat × Nat × Nat) → Known → Layout (List (Nat × Nat × Nat))
  | [], _ => pure []
  | (count, base, lo, hi) :: rest, known => do
    -- a character of each form is read as its digits to base 64
    let ranges := chars.ranges.filterMap (CodeSet.clip lo hi)
    let pieces := joinPieces (ranges.flatMap (splitRange (Nat.pow 64 count)))
    let (moves, known) ← pieceMoves next count base pieces known
    return moves ++ (← setMoves next chars rest known)

/-- A node that reads a character of a set. -/
def setNode (chars : CodeSet) (next : Nat) : Layout Nat := do
  add (.bytes (← setMoves next chars forms []))

/-- A node that reads given bytes. -/
def bytesNode (bytes : List UInt8) (next : Nat) : Layout Nat :=
  bytes.foldr (fun b rest => do add (.bytes [(b.toNat, b.toNat, ← rest)])) (pure next)

/-- Lays something out up to `count` times, each time with the choice to go on to `next`. -/
def optionally (place : Nat → Layout Nat) (next : Nat) : (count : Nat) → Layout Nat
  | 0 => pure next
  | count + 1 => do
    let rest ← optionally place next count
    let first ← place rest
    add (.split [first, next])

/-- Lays something out `count` times. -/
def times (place : Nat → Layout Nat) (next : Nat) : (count : Nat) → Layout Nat
  | 0 => pure next
  | count + 1 => do place (← times place next count)

/-- Lays something out that may be gone through any number of times. -/
def loop (place : Nat → Layout Nat) (next : Nat) : Layout Nat := do
  let i ← add (.split [])
  let first ← place i
  -- the node comes first, so that what is gone through can lead back to it
  put i (.split [first, next])
  return i

mutual

/-- Lays out an expression after which `next` follows; gives the node to start from. -/
def layout : Expression → (next : Nat) → Layout Nat
  | .empty, next => pure next
  | .literal text, next => bytesNode (String.ofList text).toUTF8.toList next
  | .set chars _, next => setNode chars next
  | .look kind, next => add (.look kind next)
  | .repetition least most _ content, next => do
    let rest ← match most with
      | some most => optionally (layout content) next (most - least)
      | none => loop (layout content) next
    times (layout content) rest least
  | .capture _ content, next => layout content next
  | .concat parts, next => layoutSequence parts next
  | .alternation branches, next => do
    add (.split (← layoutBranches branches next))

def layoutSequence : List Expression → (next : Nat) → Layout Nat
  | [], next => pure next
  | e :: rest, next => do layout e (← layoutSequence rest next)

def layoutBranches : List Expression → (next : Nat) → Layout (List Nat)
  | [], _ => pure []
  | e :: rest, next => do
    let first ← layout e next
    return first :: (← layoutBranches rest next)

end

/-- The network of an expression. -/
def ofExpression (e : Expression) : Network :=
  let (start, nodes) := ((add .accept >>= layout e) : Layout Nat).run #[]
  ⟨nodes, start⟩

/-- The node of a number. -/
def node (n : Network) (i : Nat) : Junction := n.nodes.getD i (.split [])

end Network

end IncrementalParsing
