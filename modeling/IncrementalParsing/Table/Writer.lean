import IncrementalParsing.Automaton.Encoding
import IncrementalParsing.Automaton.Subset
import IncrementalParsing.Binary.Checksum
import IncrementalParsing.Lalr.Resolution
import IncrementalParsing.Pattern.Meaning
import IncrementalParsing.Pattern.Reader
import IncrementalParsing.Sum
import IncrementalParsing.Table.Header

/-!
# Writing tables

`TableImage.write` lays a flat grammar and its parser table out as the bytes that `Table.load`
reads.  Strings and patterns are kept once and named by their position, in the order in which they
are first needed: the grammar's name, each symbol with its pattern, and the fields.  How automata
stand in bytes is a parameter of `TableImage.writeWith`.
-/

namespace IncrementalParsing

/-- A token's automaton, with the position of its pattern among the strings. -/
structure PatternEntry where
  string : Nat
  automaton : List UInt8
deriving DecidableEq, Inhabited

/-- The strings and patterns named so far. -/
structure Names where
  strings : Array String
  patterns : Array PatternEntry
deriving DecidableEq, Inhabited

namespace TableImage

/-- Computations that name strings and patterns. -/
abbrev Naming := StateT Names (Except CompileFault)

/-- How many things a number of 16 bits can count. -/
def maxCount : Nat := 65535

/-- The position of a string. -/
def string (s : String) : Naming Nat := do
  let names ← get
  match names.strings.findIdx? (· == s) with
  | some i => return i
  | none =>
    let i := names.strings.size
    if maxCount ≤ i then throw (.tooMany .strings (i + 1))
    set { names with strings := names.strings.push s }
    return i

/-- The automaton of a pattern.  Conditions on words of all letters have none. -/
def automaton? (pattern : String) : Option Automaton := do
  let e ← (Pattern.parse? pattern).bind Pattern.expression?
  -- an automaton sees bytes, so it knows no letters beyond ASCII
  if e.looks.any Look.isUnicodeWord then none else some (.ofExpression e)

/-- The position of a pattern that is the string of the given position; the first is number one. -/
def pattern (codec : Automaton.Codec) (symbol pattern : String) (id : Nat) : Naming Nat := do
  let names ← get
  match names.patterns.findIdx? (·.string == id) with
  | some i => return i + 1
  | none =>
    match automaton? pattern with
    | none => throw (.invalidPattern symbol pattern)
    | some automaton =>
      let i := names.patterns.size + 1
      if maxCount ≤ i then throw (.tooMany .tokenPatterns (i + 1))
      set { names with patterns := names.patterns.push ⟨id, codec.encode automaton⟩ }
      return i

/-- A number whose binary digits are given, the lowest first. -/
def ofBits : List Bool → Nat
  | [] => 0
  | b :: rest => b.toNat + 2 * ofBits rest

/-- The entry of a symbol. -/
def symbolEntry (codec : Automaton.Codec) (s : FlatSymbol) : Naming (List UInt8) := do
  let name ← string s.name
  let token := s.lexeme?
  let lexeme ← match token with
    | some t => pattern codec s.name t.pattern (← string t.pattern)
    | none => pure 0
  let flags := ofBits [s.terminal, s.named, s.visible, s.extra,
    token.any (·.literal), token.any (·.immediate)]
  let precedence := unsigned16 ((token.map (·.precedence)).getD 0)
  return littleEndian 2 name ++ [UInt8.ofNat flags, 0] ++ littleEndian 2 lexeme
    ++ littleEndian 2 precedence

/-- The entry of a production whose fields start at the given position. -/
def productionEntry (p : FlatProduction) (first : Nat) : List UInt8 :=
  littleEndian 2 p.lhs ++ littleEndian 2 p.parts.length ++ littleEndian 4 first

def fieldEntries (p : FlatProduction) : List UInt8 :=
  p.parts.flatMap fun part => littleEndian 2 (part.2.getD 0)

/-- The kind and the number that an action is written by. -/
def actionCode : Action → Nat × Nat
  | .shift target => (1, target)
  | .reduce production => (2, production)
  | .accept => (3, 0)
  | .goto target => (4, target)

def actionEntry (entry : Symbol × Action) : List UInt8 :=
  let (kind, value) := actionCode entry.2
  littleEndian 2 entry.1 ++ [UInt8.ofNat kind, 0] ++ littleEndian 2 value ++ [0, 0]

def stateEntry (s : ParserState) (first : Nat) : List UInt8 :=
  littleEndian 4 first ++ littleEndian 2 s.actions.length ++ littleEndian 2 s.lexMode

def lexModeEntry (symbols : List Symbol) (first : Nat) : List UInt8 :=
  littleEndian 4 first ++ littleEndian 2 symbols.length ++ [0, 0]

/-- Each thing with the sum of the sizes of those before it. -/
def withOffsets {α : Type} (size : α → Nat) : (offset : Nat) → List α → List (α × Nat)
  | _, [] => []
  | offset, x :: rest => (x, offset) :: withOffsets size (offset + size x) rest

/-- The ends of pieces that follow each other. -/
def ends : (offset : Nat) → List Nat → List Nat
  | _, [] => []
  | offset, n :: rest => (offset + n) :: ends (offset + n) rest

/-- Bytes filled up with zeros to a multiple of a number. -/
def padTo (unit : Nat) (bytes : List UInt8) : List UInt8 :=
  bytes ++ List.replicate ((unit - bytes.length % unit) % unit) 0

/-- The strings one after another, and where they end. -/
def stringSections (strings : List String) : List UInt8 × List UInt8 :=
  let pieces := strings.map fun s => s.toUTF8.toList
  (pieces.flatten, (0 :: ends 0 (pieces.map List.length)).flatMap (littleEndian 4))

/-- An entry of the table of patterns. -/
def patternEntry (string offset : Nat) : List UInt8 :=
  littleEndian 2 string ++ [0, 0] ++ littleEndian 4 offset

/-- The automata after `size` bytes, each at a multiple of four, and their entries, the last of which
is the end. -/
def patternSections : (size : Nat) → List PatternEntry → List UInt8 × List UInt8
  | size, [] => ([], patternEntry 0 size)
  | size, p :: rest =>
    -- automata are read in place, so they are aligned
    let gap := (4 - size % 4) % 4
    let offset := size + gap
    let (blob, entries) := patternSections (offset + p.automaton.length) rest
    (List.replicate gap 0 ++ p.automaton ++ blob, patternEntry p.string offset ++ entries)

/-- Refuses more than a number of 16 bits can count. -/
def checkCount (what : Counted) (n : Nat) : Except CompileFault Unit :=
  if maxCount < n then .error (.tooMany what n) else .ok ()

/-- Everything that is named, in order: the positions of the name of the grammar, the entries of the
symbols and those of the fields. -/
def nameAll (codec : Automaton.Codec) (g : FlatGrammar) :
    Naming (Nat × List (List UInt8) × List Nat) := do
  let name ← string g.name
  let symbols ← g.symbols.toList.mapM (symbolEntry codec)
  let fields ← g.fields.toList.mapM string
  return (name, symbols, fields)

/-- The bytes of a table whose automata are written by a codec. -/
def writeWith (codec : Automaton.Codec) (g : FlatGrammar) (t : ParserTable) :
    Except CompileFault ByteArray := do
  let ((name, symbols, fields), names) ← (nameAll codec g).run ⟨#[], #[]⟩
  let productions := g.productions.toList
  -- a list that is longer than its count can say is refused before anything is laid out
  for p in productions do checkCount .children p.parts.length
  let states := t.states.toList
  for s in states do checkCount .actions s.actions.length
  let modes := t.lexModes.toList
  let (stringBlob, stringTable) := stringSections names.strings.toList
  let (patternBlob, patternTable) := patternSections 0 names.patterns.toList
  let body := [
    stringBlob,
    patternBlob,
    stringTable,
    patternEntry 0 0 ++ patternTable,
    symbols.flatten,
    fields.flatMap (littleEndian 2),
    (withOffsets (fun p => p.parts.length) 0 productions).flatMap fun (p, first) =>
      productionEntry p first,
    productions.flatMap fieldEntries,
    (withOffsets (fun s => s.actions.length) 0 states).flatMap fun (s, first) =>
      stateEntry s first,
    states.flatMap fun s => s.actions.flatMap actionEntry,
    (withOffsets List.length 0 modes).flatMap fun (symbols, first) => lexModeEntry symbols first,
    modes.flatMap fun symbols => symbols.flatMap (littleEndian 2)].flatMap (padTo Header.size)
  let total := Header.size + body.length
  -- of what is too large in both ways the size is reported
  if 0x100000000 ≤ total then throw (.tooMany .tableBytes total)
  checkCount .productions productions.length
  let header : Header := {
    magic := Header.tableMagic
    version := Header.currentVersion
    checksum := checksum (ofBytes body)
    totalSize := total
    stringBlobSize := stringBlob.length
    patternBlobSize := patternBlob.length
    actionCount := sumOf (fun s => s.actions.length) states
    productionFieldCount := sumOf (fun p => p.parts.length) productions
    lexModeSymbolCount := sumOf List.length modes
    stringCount := names.strings.size
    patternCount := names.patterns.size + 1
    symbolCount := g.symbols.size
    fieldCount := g.fields.size
    productionCount := productions.length
    stateCount := states.length
    lexModeCount := modes.length
    name
    start := g.start
    reserved := List.replicate 10 0 }
  return ofBytes (header.encode ++ body)

/-- The bytes of a table. -/
def write (g : FlatGrammar) (t : ParserTable) : Except CompileFault ByteArray :=
  writeWith .plain g t

end TableImage

end IncrementalParsing
