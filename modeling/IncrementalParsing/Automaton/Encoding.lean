import IncrementalParsing.Automaton.Basic
import IncrementalParsing.Binary.LittleEndian

/-!
# Automata in bytes

An automaton is written as a mark, the number of its states, the five states to start in, and the
states: a byte with two flags, the number of moves, and the moves.  `Automaton.decode?` reads it
back from the front of some bytes and refuses what names no state.

Tables leave it to an `Automaton.Codec` how their automata stand in bytes, so nothing about a table
rests on this form; it is the codec `Automaton.Codec.plain`.
-/

namespace IncrementalParsing.Automaton

/-- What the bytes of an automaton begin with. -/
def mark : List UInt8 := [0x44, 0x46, 0x41, 0x01]

def Move.encode (m : Move) : List UInt8 :=
  UInt8.ofNat m.first :: UInt8.ofNat m.last :: littleEndian 4 m.target

def State.encode (s : State) : List UInt8 :=
  UInt8.ofNat ((if s.matched then 1 else 0) + (if s.final then 2 else 0))
    :: (littleEndian 2 s.moves.length ++ s.moves.flatMap Move.encode)

/-- The bytes of an automaton. -/
def encode (a : Automaton) : List UInt8 :=
  mark ++ littleEndian 4 a.states.size ++ a.starts.flatMap (littleEndian 4)
    ++ a.states.toList.flatMap State.encode

/-- The number of a state, of which there are `count`. -/
def takeState? (count : Nat) (bytes : List UInt8) : Option (Nat × List UInt8) := do
  let (i, rest) ← takeNumber? 4 bytes
  if i < count then return (i, rest) else none

/-- Reads several things of a kind. -/
def takeMany? {α : Type} (take? : List UInt8 → Option (α × List UInt8)) :
    (count : Nat) → List UInt8 → Option (List α × List UInt8)
  | 0, bytes => some ([], bytes)
  | count + 1, bytes => do
    let (x, rest) ← take? bytes
    let (xs, rest) ← takeMany? take? count rest
    return (x :: xs, rest)

def takeMove? (count : Nat) : List UInt8 → Option (Move × List UInt8)
  | first :: last :: rest => do
    let (target, rest) ← takeState? count rest
    return (⟨first.toNat, last.toNat, target⟩, rest)
  | _ => none

def takeFullState? (count : Nat) : List UInt8 → Option (State × List UInt8)
  | flags :: rest => do
    if 4 ≤ flags then none
    let (n, rest) ← takeNumber? 2 rest
    let (moves, rest) ← takeMany? (takeMove? count) n rest
    return (⟨flags &&& 1 == 1, flags &&& 2 == 2, moves⟩, rest)
  | [] => none

/-- The automaton that bytes begin with. -/
def decode? (bytes : List UInt8) : Option Automaton := do
  if !mark.isPrefixOf bytes then none
  let (count, rest) ← takeNumber? 4 (bytes.drop mark.length)
  let (starts, rest) ← takeMany? (takeState? count) 5 rest
  let (states, _) ← takeMany? (takeFullState? count) count rest
  return ⟨starts, states.toArray⟩

/-- A way in which automata stand in bytes. -/
structure Codec where
  encode : Automaton → List UInt8
  /-- The automaton that bytes begin with, if they begin with one. -/
  decode? : List UInt8 → Option Automaton

namespace Codec

/-- An automaton is read back from its bytes, whatever stands behind them. -/
def ReadsBack (codec : Codec) (a : Automaton) : Prop :=
  ∀ rest, codec.decode? (codec.encode a ++ rest) = some a

/-- The form of this library. -/
def plain : Codec := ⟨Automaton.encode, Automaton.decode?⟩

@[simp] theorem encode_plain : plain.encode = Automaton.encode := rfl

@[simp] theorem decode?_plain : plain.decode? = Automaton.decode? := rfl

end Codec

end IncrementalParsing.Automaton
