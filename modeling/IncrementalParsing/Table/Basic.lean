import IncrementalParsing.Automaton.Basic
import IncrementalParsing.Text.Quoted

/-!
# Parse tables

A `Table` is what a text is parsed with: the symbols of a grammar, the lengths and fields of its
productions, the states of its automaton with their actions, and the tokens to look for in each lex
mode.  Symbols, productions, states and lex modes are named by their positions; fields count from
one.  Symbol `0` is the end of the text and symbol `1` stands for errors.
-/

namespace IncrementalParsing

abbrev Symbol := Nat
abbrev StateId := Nat
abbrev ProductionId := Nat
abbrev FieldId := Nat
abbrev LexMode := Nat

namespace Symbol

/-- The end of the text. -/
def finish : Symbol := 0

/-- Characters that are no token, and what could not be parsed. -/
def error : Symbol := 1

end Symbol

/-- The lex mode in which every token is looked for. -/
def allTokens : LexMode := 0

/-- What is known about a symbol. -/
structure SymbolInfo where
  name : String
  terminal : Bool
  /-- Whether the symbol has a name of its own in the grammar. -/
  named : Bool
  /-- Hidden symbols never become nodes. -/
  visible : Bool
  /-- Whether the symbol may stand between any two tokens. -/
  extra : Bool
  /-- Whether the token is written as a string. -/
  literal : Bool
  /-- Whether the token has to follow the one before directly. -/
  immediate : Bool
  /-- The position of the token's lexeme. -/
  lexeme : Option Nat
  /-- Which of two equally long tokens wins. -/
  precedence : Int
deriving DecidableEq, Inhabited

namespace SymbolInfo

/-- Whether the token only adds to the padding of the one after it. -/
def isTrivia (s : SymbolInfo) : Bool := s.terminal && s.extra && !s.visible

end SymbolInfo

/-- What to do in a state on a symbol. -/
inductive Action where
  | shift (target : StateId)
  | reduce (production : ProductionId)
  | accept
  | goto (target : StateId)
deriving DecidableEq, Inhabited

/-- A production: what it builds, and the field of each of its parts. -/
structure Production where
  lhs : Symbol
  fields : List (Option FieldId)
deriving DecidableEq, Inhabited

namespace Production

/-- The number of parts. -/
def size (p : Production) : Nat := p.fields.length

end Production

/-- The pattern of a token, and the automaton that finds it. -/
structure Lexeme where
  pattern : String
  automaton : Automaton
deriving DecidableEq, Inhabited

/-- A state: its actions in ascending order of symbols, and where its tokens are listed. -/
structure TableState where
  actions : List (Symbol × Action)
  lexMode : LexMode
deriving DecidableEq, Inhabited

/-- A parse table. -/
structure Table where
  version : Nat
  name : String
  start : Symbol
  symbols : Array SymbolInfo
  fields : Array String
  productions : Array Production
  states : Array TableState
  lexModes : Array (List Symbol)
  /-- The lexemes by position; the first position is not used. -/
  lexemes : Array (Option Lexeme)
deriving DecidableEq, Inhabited

namespace Table

def symbol? (t : Table) (s : Symbol) : Option SymbolInfo := t.symbols[s]?

/-- The name of a symbol, empty where there is none. -/
def symbolName (t : Table) (s : Symbol) : String := ((t.symbol? s).map (·.name)).getD ""

/-- The first symbol of a name. -/
def symbolForName? (t : Table) (name : String) (named : Bool) : Option Symbol :=
  t.symbols.findIdx? fun info => info.name == name && info.named == named

def isTerminal (t : Table) (s : Symbol) : Bool := (t.symbol? s).any (·.terminal)
def isNamed (t : Table) (s : Symbol) : Bool := (t.symbol? s).any (·.named)
def isVisible (t : Table) (s : Symbol) : Bool := (t.symbol? s).any (·.visible)
def isExtra (t : Table) (s : Symbol) : Bool := (t.symbol? s).any (·.extra)
def isTrivia (t : Table) (s : Symbol) : Bool := (t.symbol? s).any (·.isTrivia)

/-- The name of a field. -/
def fieldName? (t : Table) : FieldId → Option String
  | 0 => none
  | i + 1 => t.fields[i]?

/-- The first field of a name. -/
def fieldId? (t : Table) (name : String) : Option FieldId :=
  (t.fields.findIdx? (· == name)).map (· + 1)

def production? (t : Table) (p : ProductionId) : Option Production := t.productions[p]?

/-- The actions of a state in ascending order of symbols. -/
def actions (t : Table) (s : StateId) : List (Symbol × Action) :=
  match t.states[s]? with
  | some state => state.actions
  | none => []

/-- What to do in a state when a token comes next; nothing where it is an error. -/
def action? (t : Table) (s : StateId) (token : Symbol) : Option Action :=
  match (t.actions s).lookup token with
  | some (.goto _) => none
  | found => found

/-- The state after a part of the given symbol was built. -/
def goto? (t : Table) (s : StateId) (built : Symbol) : Option StateId :=
  match (t.actions s).lookup built with
  | some (.goto target) => some target
  | _ => none

def lexMode (t : Table) (s : StateId) : LexMode :=
  match t.states[s]? with
  | some state => state.lexMode
  | none => allTokens

/-- The tokens looked for in a lex mode. -/
def modeSymbols (t : Table) (m : LexMode) : List Symbol := (t.lexModes[m]?).getD []

def lexeme? (t : Table) (s : Symbol) : Option Lexeme := do
  let info ← t.symbol? s
  let i ← info.lexeme
  (← t.lexemes[i]?)

/-- A table in one line. -/
def summary (t : Table) : String :=
  "GrammarTable \x7b name: " ++ quoted t.name ++ s!", version: {t.version}"
    ++ s!", symbols: {t.symbols.size}, states: {t.states.size}"
    ++ s!", productions: {t.productions.size}" ++ " \x7d"

end Table

end IncrementalParsing
