import IncrementalParsing.Pattern.Expression
import IncrementalParsing.Text.Length

/-!
# Byte automata

An `Automaton` reads bytes from a place in a text, one step each.  It learns one byte late that a
match ended, since conditions on places look at the byte that follows: a state is `matched` when the
bytes before the last one read are a match, and `final` when those read so far are one if the text
ends here.  A byte without a move leads nowhere: no way of going on can match.

`Automaton.scan` finds the longest match at a place and how far the automaton looked.
-/

namespace IncrementalParsing

/-- What conditions on places can tell about a byte. -/
inductive ByteKind where
  | lineFeed
  | carriageReturn
  /-- An ASCII letter, digit or underscore. -/
  | word
  | other
deriving DecidableEq, Inhabited, Hashable

namespace ByteKind

/-- The ranges of bytes of each kind, in order. -/
def ranges : List (Nat × Nat × ByteKind) :=
  [(0, 9, .other), (10, 10, .lineFeed), (11, 12, .other), (13, 13, .carriageReturn),
   (14, 47, .other), (48, 57, .word), (58, 64, .other), (65, 90, .word), (91, 94, .other),
   (95, 95, .word), (96, 96, .other), (97, 122, .word), (123, 255, .other)]

/-- The kind of a byte. -/
def ofByte (byte : Nat) : ByteKind :=
  match ranges.find? fun r => r.1 ≤ byte && byte ≤ r.2.1 with
  | some (_, _, kind) => kind
  | none => .other

/-- All kinds. -/
def all : List ByteKind := [.lineFeed, .carriageReturn, .word, .other]

end ByteKind

namespace Look

/-- Whether the condition holds between two bytes, either of which may be the edge of the text.
Conditions on words of all letters hold nowhere: no automaton is built for them. -/
def holds (before after : Option ByteKind) (look : Look) : Bool :=
  match look with
  | .textStart => before == none
  | .textEnd => after == none
  | .lineStart => before == none || before == some .lineFeed
  | .lineEnd => after == none || after == some .lineFeed
  | .anyLineStart =>
    before == none || before == some .lineFeed
      || (before == some .carriageReturn && after != some .lineFeed)
  | .anyLineEnd =>
    after == none || after == some .carriageReturn
      || (after == some .lineFeed && before != some .carriageReturn)
  | .wordBoundary => (before == some .word) != (after == some .word)
  | .notWordBoundary => (before == some .word) == (after == some .word)
  | .wordStart => before != some .word && after == some .word
  | .wordEnd => before == some .word && after != some .word
  | .wordStartHalf => before != some .word
  | .wordEndHalf => after != some .word
  | .unicodeWord _ => false

/-- Whether the condition needs to know letters beyond ASCII. -/
def isUnicodeWord : Look → Bool
  | .unicodeWord _ => true
  | _ => false

end Look

namespace Automaton

/-- Bytes from `first` to `last` lead to the state numbered `target`. -/
structure Move where
  first : Nat
  last : Nat
  target : Nat
deriving DecidableEq, Inhabited

structure State where
  matched : Bool
  final : Bool
  moves : List Move
deriving DecidableEq, Inhabited

end Automaton

/-- A byte automaton. -/
structure Automaton where
  /-- Where to start at the start of the text, and after a byte of each kind. -/
  starts : List Nat
  states : Array Automaton.State
deriving DecidableEq, Inhabited

namespace Automaton

/-- The position in `starts` for what stands before. -/
def startIndex : Option ByteKind → Nat
  | none => 0
  | some .lineFeed => 1
  | some .carriageReturn => 2
  | some .word => 3
  | some .other => 4

/-- The state to start in. -/
def start (a : Automaton) (before : Option ByteKind) : Nat := a.starts.getD (startIndex before) 0

/-- The state of a number. -/
def state (a : Automaton) (i : Nat) : State := a.states.getD i default

/-- Where a byte leads. -/
def State.next? (s : State) (byte : Nat) : Option Nat :=
  (s.moves.find? fun m => m.first ≤ byte && byte ≤ m.last).map (·.target)

/-- Goes on over the `left` bytes from `place` to the end; `longest` is the end of the longest match
so far. -/
def scanFrom (a : Automaton) (text : ByteArray) (start : Nat) :
    (left place : Nat) → (s : State) → (longest : Option Nat) → Option Nat × Nat
  | 0, place, s, longest =>
    (if s.final && start < place then some place else longest, place + 1)
  | left + 1, place, s, longest =>
    match byteAt? text place with
    | none => (longest, place + 1)
    | some byte =>
      match s.next? byte.toNat with
      | none => (longest, place + 1)
      | some i =>
        let s := a.state i
        scanFrom a text start left (place + 1) s
          -- the state tells only now that a match ended before this byte
          (if s.matched && start < place then some place else longest)

/-- The end of the longest match that starts at `start` and is not empty, and the end of what was
looked at, where the end of the text counts as one byte. -/
def scan (a : Automaton) (text : ByteArray) (start : Nat) : Option Nat × Nat :=
  -- a match can depend on the byte before it
  let before := if start = 0 then none else (byteAt? text (start - 1)).map (ByteKind.ofByte ·.toNat)
  scanFrom a text start (text.size - start) start (a.state (a.start before)) none

end Automaton

end IncrementalParsing
