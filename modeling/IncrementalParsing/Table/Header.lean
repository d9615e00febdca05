import IncrementalParsing.Binary.LittleEndian

/-!
# Headers of table files

The first 64 bytes of a table file say how large its sections are.  Every section starts at a
multiple of 64, so where they start follows from their sizes.
-/

namespace IncrementalParsing

/-- The parts of a table file after its header, in their order. -/
inductive Section where
  | stringBlob
  | patternBlob
  | stringTable
  | patternTable
  | symbols
  | fields
  | productions
  | productionFields
  | states
  | actions
  | lexModes
  | lexModeSymbols
deriving DecidableEq, Inhabited

namespace Section

/-- All sections in their order. -/
def all : List Section :=
  [.stringBlob, .patternBlob, .stringTable, .patternTable, .symbols, .fields, .productions,
   .productionFields, .states, .actions, .lexModes, .lexModeSymbols]

end Section

/-- The first 64 bytes of a table file. -/
structure Header where
  /-- Four bytes that say that this is a table. -/
  magic : List UInt8
  version : Nat
  /-- The check of everything after the header. -/
  checksum : Nat
  totalSize : Nat
  stringBlobSize : Nat
  patternBlobSize : Nat
  actionCount : Nat
  productionFieldCount : Nat
  lexModeSymbolCount : Nat
  stringCount : Nat
  /-- The first of the patterns is not used. -/
  patternCount : Nat
  symbolCount : Nat
  fieldCount : Nat
  productionCount : Nat
  stateCount : Nat
  lexModeCount : Nat
  /-- The position of the grammar's name among the strings. -/
  name : Nat
  start : Nat
  reserved : List UInt8
deriving DecidableEq, Inhabited

namespace Header

/-- How many bytes a header takes; sections start at multiples of it. -/
def size : Nat := 64

/-- What tables begin with. -/
def tableMagic : List UInt8 := [0x53, 0x59, 0x4C, 0x54]

/-- The version that is written, and the only one that is read. -/
def currentVersion : Nat := 1

/-- How many bytes an entry of a section takes. -/
def entrySize : Section → Nat
  | .stringBlob | .patternBlob => 1
  | .stringTable => 4
  | .fields | .productionFields | .lexModeSymbols => 2
  | _ => 8

/-- How many entries a section has.  The tables of strings and patterns end with one more, which
holds the end of the last. -/
def entryCount (h : Header) : Section → Nat
  | .stringBlob => h.stringBlobSize
  | .patternBlob => h.patternBlobSize
  | .stringTable => h.stringCount + 1
  | .patternTable => h.patternCount + 1
  | .symbols => h.symbolCount
  | .fields => h.fieldCount
  | .productions => h.productionCount
  | .productionFields => h.productionFieldCount
  | .states => h.stateCount
  | .actions => h.actionCount
  | .lexModes => h.lexModeCount
  | .lexModeSymbols => h.lexModeSymbolCount

/-- How many bytes a section has, without what fills it up. -/
def sectionSize (h : Header) (s : Section) : Nat := h.entryCount s * entrySize s

/-- The first multiple of the header's size that is not smaller. -/
def alignUp (n : Nat) : Nat := (n + (size - 1)) / size * size

/-- Where sections that follow each other from `offset` on end. -/
def endOf (h : Header) (offset : Nat) (sections : List Section) : Nat :=
  sections.foldl (fun offset s => alignUp (offset + h.sectionSize s)) offset

/-- Where a section starts. -/
def offset (h : Header) (s : Section) : Nat := h.endOf size (Section.all.takeWhile (· != s))

/-- Where the last section ends. -/
def finish (h : Header) : Nat := h.endOf size Section.all

/-- Reads a header; nothing where bytes are missing. -/
def decode? (bytes : ByteArray) : Option Header := do
  if bytes.size < size then none
  let long (i : Nat) : Option Nat := numberAt? bytes 4 i
  let short (i : Nat) : Option Nat := numberAt? bytes 2 i
  return {
    magic := (bytes.extract 0 4).toList
    version := ← long 4
    checksum := ← long 8
    totalSize := ← long 12
    stringBlobSize := ← long 16
    patternBlobSize := ← long 20
    actionCount := ← long 24
    productionFieldCount := ← long 28
    lexModeSymbolCount := ← long 32
    stringCount := ← short 36
    patternCount := ← short 38
    symbolCount := ← short 40
    fieldCount := ← short 42
    productionCount := ← short 44
    stateCount := ← short 46
    lexModeCount := ← short 48
    name := ← short 50
    start := ← short 52
    reserved := (bytes.extract 54 size).toList }

/-- The bytes of a header. -/
def encode (h : Header) : List UInt8 :=
  h.magic
    ++ [h.version, h.checksum, h.totalSize, h.stringBlobSize, h.patternBlobSize, h.actionCount,
        h.productionFieldCount, h.lexModeSymbolCount].flatMap (littleEndian 4)
    ++ [h.stringCount, h.patternCount, h.symbolCount, h.fieldCount, h.productionCount,
        h.stateCount, h.lexModeCount, h.name, h.start].flatMap (littleEndian 2)
    ++ h.reserved

def hasMagic (h : Header) : Bool := h.magic == tableMagic

def hasVersion (h : Header) : Bool := h.version == currentVersion

end Header

end IncrementalParsing
