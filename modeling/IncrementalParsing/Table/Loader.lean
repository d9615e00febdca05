import IncrementalParsing.Automaton.Encoding
import IncrementalParsing.Binary.Checksum
import IncrementalParsing.Table.Basic
import IncrementalParsing.Table.Header

/-!
# Loading tables

`Table.load` reads a table from bytes and checks every number that names something, so that in a
loaded table none leads nowhere.  What is found first to be wrong is reported as a `LoadFault`.
How automata stand in bytes is a parameter of `Table.loadWith`.
-/

namespace IncrementalParsing

/-- Why bytes are no table. -/
inductive LoadFault where
  | tooShort (size : Nat)
  | wrongMagic
  | wrongVersion (found : Nat)
  | wrongSize (declared actual : Nat)
  | wrongLayout (needed actual : Nat)
  | wrongChecksum
  | stringOutside (index : Nat)
  | stringNotText (index : Nat)
  | noString (id : Nat)
  | patternOutside (index : Nat)
  | noAutomaton (index : Nat) (pattern : String)
  | builtInsMissing
  | wrongLexeme (symbol lexeme : Nat)
  | builtInsNotTerminal
  | reducesToTerminal (production : Nat)
  | productionOutside (production : Nat)
  | wrongField (production field : Nat)
  | noStates
  | stateOutside (state : Nat)
  | wrongLexMode (state : Nat)
  | wrongActionSymbol (action : Nat)
  | wrongAction (action kind : Nat)
  | actionsNotSorted (state : Nat)
  | modeEntryNotTerminal (entry : Nat)
  | modeOutside (mode : Nat)
  | startNotRule
  /-- Something is read past the end; the checks of sizes exclude it. -/
  | endsEarly
deriving DecidableEq, Inhabited

namespace LoadFault

/-- What is wrong with a table of a version that can be read. -/
def reason : LoadFault → String
  | .tooShort n => s!"{n} bytes is too short for a header"
  | .wrongMagic => "invalid magic: expected SYLT"
  | .wrongVersion _ => ""
  | .wrongSize declared actual => s!"size mismatch: header says {declared} bytes, got {actual}"
  | .wrongLayout needed actual => s!"section layout needs {needed} bytes, table has {actual}"
  | .wrongChecksum => "checksum mismatch"
  | .stringOutside i => s!"string {i} is out of bounds"
  | .stringNotText i => s!"string {i} is not UTF-8"
  | .noString id => s!"invalid string id {id}"
  | .patternOutside i => s!"regex {i} is out of bounds"
  | .noAutomaton i pattern => s!"regex {i} ({pattern})"
  | .builtInsMissing => "missing built-in symbols"
  | .wrongLexeme symbol lexeme => s!"symbol {symbol} has invalid regex {lexeme}"
  | .builtInsNotTerminal => "built-in symbols must be terminals"
  | .reducesToTerminal p => s!"production {p} reduces to a terminal"
  | .productionOutside p => s!"production {p} fields are out of bounds"
  | .wrongField p field => s!"production {p} has invalid field {field}"
  | .noStates => "table has no parse states"
  | .stateOutside s => s!"state {s} actions are out of bounds"
  | .wrongLexMode s => s!"state {s} has invalid lex mode"
  | .wrongActionSymbol i => s!"action {i} has invalid symbol"
  | .wrongAction i kind => s!"action {i} (kind {kind}) is invalid"
  | .actionsNotSorted s => s!"state {s} actions are not sorted"
  | .modeEntryNotTerminal i => s!"lex mode entry {i} is not a terminal"
  | .modeOutside m => s!"lex mode {m} is out of bounds"
  | .startNotRule => "start symbol is not a non-terminal"
  | .endsEarly => "table ends early"

/-- The wording of a fault. -/
def message : LoadFault → String
  | .wrongVersion found =>
    s!"incompatible grammar table version {found} (supported: {Header.currentVersion} to "
      ++ s!"{Header.currentVersion})"
  | fault => "corrupt grammar table: " ++ fault.reason

end LoadFault

namespace Table

/-- Reads entry by entry. -/
def readMany {α : Type} (count : Nat) (read : Nat → Except LoadFault α) :
    Except LoadFault (Array α) := do
  return (← (List.range count).mapM read).toArray

/-- The number of `width` bytes at an offset. -/
def numberAt (bytes : ByteArray) (width offset : Nat) : Except LoadFault Nat :=
  match numberAt? bytes width offset with
  | some n => .ok n
  | none => .error .endsEarly

/-- The bytes between two offsets. -/
def sliceAt (bytes : ByteArray) (start stop : Nat) : Except LoadFault ByteArray :=
  if start ≤ stop && stop ≤ bytes.size then .ok (bytes.extract start stop) else .error .endsEarly

/-- The string of a position. -/
def stringAt (strings : Array String) (id : Nat) : Except LoadFault String :=
  match strings[id]? with
  | some s => .ok s
  | none => .error (.noString id)

def loadStrings (bytes : ByteArray) (h : Header) : Except LoadFault (Array String) :=
  readMany h.stringCount fun i => do
    let entry := h.offset .stringTable + 4 * i
    let start ← numberAt bytes 4 entry
    -- a string ends where the next one begins; there is an entry more than strings
    let stop ← numberAt bytes 4 (entry + 4)
    if stop < start || h.stringBlobSize < stop then throw (.stringOutside i)
    let base := h.offset .stringBlob
    match String.fromUTF8? (← sliceAt bytes (base + start) (base + stop)) with
    | some s => return s
    | none => throw (.stringNotText i)

def loadLexemes (codec : Automaton.Codec) (bytes : ByteArray) (h : Header)
    (strings : Array String) : Except LoadFault (Array (Option Lexeme)) :=
  readMany h.patternCount fun i => do
    -- number zero stands for no lexeme
    if i = 0 then return none
    let entry := h.offset .patternTable + 8 * i
    let id ← numberAt bytes 2 entry
    let start ← numberAt bytes 4 (entry + 4)
    let stop ← numberAt bytes 4 (entry + 12)
    if stop < start || h.patternBlobSize < stop then throw (.patternOutside i)
    let pattern ← stringAt strings id
    let base := h.offset .patternBlob
    match codec.decode? (← sliceAt bytes (base + start) (base + stop)).toList with
    | some automaton => return some ⟨pattern, automaton⟩
    | none => throw (.noAutomaton i pattern)

/-- The lexeme named by a number, which only terminals have. -/
def lexemeOf (lexemes : Array (Option Lexeme)) (symbol : Nat) (terminal : Bool) (id : Nat) :
    Except LoadFault (Option Nat) :=
  if id = 0 then .ok none
  else if terminal && (lexemes.getD id none).isSome then .ok (some id)
  else .error (.wrongLexeme symbol id)

def loadSymbols (bytes : ByteArray) (h : Header) (strings : Array String)
    (lexemes : Array (Option Lexeme)) : Except LoadFault (Array SymbolInfo) := do
  if h.symbolCount < 2 then throw .builtInsMissing
  let symbols ← readMany h.symbolCount fun i => do
    let entry := h.offset .symbols + 8 * i
    let flags ← numberAt bytes 1 (entry + 2)
    let terminal := flags.testBit 0
    let lexeme ← lexemeOf lexemes i terminal (← numberAt bytes 2 (entry + 4))
    let name ← stringAt strings (← numberAt bytes 2 entry)
    let precedence ← numberAt bytes 2 (entry + 6)
    return {
      name, terminal
      named := flags.testBit 1
      visible := flags.testBit 2
      extra := flags.testBit 3
      literal := flags.testBit 4
      immediate := flags.testBit 5
      lexeme
      precedence := signed16 precedence }
  -- the end of the text and errors are terminals in every table
  if (symbols.toList.take 2).all (·.terminal) then return symbols else throw .builtInsNotTerminal

def loadFields (bytes : ByteArray) (h : Header) (strings : Array String) :
    Except LoadFault (Array String) :=
  readMany h.fieldCount fun i => do
    stringAt strings (← numberAt bytes 2 (h.offset .fields + 2 * i))

/-- Whether a number names a rule rather than a terminal. -/
def isRule (symbols : Array SymbolInfo) (s : Symbol) : Bool := (symbols[s]?).any (!·.terminal)

def loadProductions (bytes : ByteArray) (h : Header) (symbols : Array SymbolInfo) :
    Except LoadFault (Array Production) :=
  readMany h.productionCount fun i => do
    let entry := h.offset .productions + 8 * i
    let lhs ← numberAt bytes 2 entry
    let size ← numberAt bytes 2 (entry + 2)
    let first ← numberAt bytes 4 (entry + 4)
    if !isRule symbols lhs then throw (.reducesToTerminal i)
    if h.productionFieldCount < first + size then throw (.productionOutside i)
    let fields ← readMany size fun c => do
      let field ← numberAt bytes 2 (h.offset .productionFields + 2 * (first + c))
      if h.fieldCount < field then throw (.wrongField i field)
      -- zero stands for no field
      return if field = 0 then none else some field
    return ⟨lhs, fields.toList⟩

/-- Where the actions of a state are listed, how many there are, and its lex mode. -/
structure StateEntry where
  first : Nat
  count : Nat
  lexMode : LexMode
deriving DecidableEq, Inhabited

def loadStates (bytes : ByteArray) (h : Header) : Except LoadFault (Array StateEntry) := do
  if h.stateCount = 0 then throw .noStates
  readMany h.stateCount fun i => do
    let entry := h.offset .states + 8 * i
    let first ← numberAt bytes 4 entry
    let count ← numberAt bytes 2 (entry + 4)
    let lexMode ← numberAt bytes 2 (entry + 6)
    if h.actionCount < first + count then throw (.stateOutside i)
    if h.lexModeCount ≤ lexMode then throw (.wrongLexMode i)
    return ⟨first, count, lexMode⟩

/-- The action of a kind, if it is one for the symbol. -/
def actionOf? (h : Header) (symbol : Symbol) (terminal : Bool) (kind value : Nat) :
    Option Action :=
  match kind with
  | 1 => if terminal && value < h.stateCount then some (.shift value) else none
  | 2 => if terminal && value < h.productionCount then some (.reduce value) else none
  | 3 => if symbol = Symbol.finish then some .accept else none
  | 4 => if !terminal && value < h.stateCount then some (.goto value) else none
  | _ => none

def loadActions (bytes : ByteArray) (h : Header) (symbols : Array SymbolInfo) :
    Except LoadFault (Array (Symbol × Action)) :=
  readMany h.actionCount fun i => do
    let entry := h.offset .actions + 8 * i
    let symbol ← numberAt bytes 2 entry
    let kind ← numberAt bytes 1 (entry + 2)
    let value ← numberAt bytes 2 (entry + 4)
    match symbols[symbol]? with
    | none => throw (.wrongActionSymbol i)
    | some info =>
      match actionOf? h symbol info.terminal kind value with
      | some action => return (symbol, action)
      | none => throw (.wrongAction i kind)

/-- Whether symbols ascend. -/
def isAscending : List Symbol → Bool
  | a :: b :: rest => a < b && isAscending (b :: rest)
  | _ => true

/-- Gives each state its own actions. -/
def attachActions (entries : Array StateEntry) (actions : Array (Symbol × Action)) :
    Except LoadFault (Array TableState) :=
  readMany entries.size fun i => do
    let entry := entries.getD i default
    let own := (actions.extract entry.first (entry.first + entry.count)).toList
    if isAscending (own.map (·.1)) then return ⟨own, entry.lexMode⟩
    else throw (.actionsNotSorted i)

def loadLexModes (bytes : ByteArray) (h : Header) (symbols : Array SymbolInfo) :
    Except LoadFault (Array (List Symbol)) := do
  let entries ← readMany h.lexModeSymbolCount fun i => do
    let symbol ← numberAt bytes 2 (h.offset .lexModeSymbols + 2 * i)
    if (symbols[symbol]?).any (·.terminal) then return symbol
    else throw (.modeEntryNotTerminal i)
  readMany h.lexModeCount fun i => do
    let entry := h.offset .lexModes + 8 * i
    let first ← numberAt bytes 4 entry
    let count ← numberAt bytes 2 (entry + 4)
    if h.lexModeSymbolCount < first + count then throw (.modeOutside i)
    return (entries.extract first (first + count)).toList

/-- The header of bytes that are a table as a whole. -/
def loadHeader (bytes : ByteArray) : Except LoadFault Header := do
  -- mark and version come first, so that a table of another version is not taken for a damaged one
  if bytes.size < 8 then throw (.tooShort bytes.size)
  if (bytes.extract 0 4).toList != Header.tableMagic then throw .wrongMagic
  let version ← numberAt bytes 4 4
  if version != Header.currentVersion then throw (.wrongVersion version)
  match Header.decode? bytes with
  | none => throw (.tooShort bytes.size)
  | some h =>
    if h.totalSize != bytes.size then throw (.wrongSize h.totalSize bytes.size)
    if h.finish != bytes.size then throw (.wrongLayout h.finish bytes.size)
    if checksum (bytes.extract Header.size bytes.size) != h.checksum then throw .wrongChecksum
    return h

/-- The table that bytes hold if its automata are read by a codec. -/
def loadWith (codec : Automaton.Codec) (bytes : ByteArray) : Except LoadFault Table := do
  -- the first fault in this order is the one that is reported
  let h ← loadHeader bytes
  let strings ← loadStrings bytes h
  let lexemes ← loadLexemes codec bytes h strings
  let symbols ← loadSymbols bytes h strings lexemes
  let fields ← loadFields bytes h strings
  let productions ← loadProductions bytes h symbols
  let entries ← loadStates bytes h
  let actions ← loadActions bytes h symbols
  let states ← attachActions entries actions
  let lexModes ← loadLexModes bytes h symbols
  let name ← stringAt strings h.name
  if !isRule symbols h.start then throw .startNotRule
  return {
    version := h.version
    name
    start := h.start
    symbols, fields, productions, states, lexModes, lexemes }

/-- The table that bytes hold. -/
def load (bytes : ByteArray) : Except LoadFault Table := loadWith .plain bytes

end Table

end IncrementalParsing
