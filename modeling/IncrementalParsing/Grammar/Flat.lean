import IncrementalParsing.Grammar.Basic

/-!
# Flat grammars

A `FlatGrammar` is a grammar whose rules are productions over numbered symbols.  Terminals carry the
pattern of their token; everything else has productions.
-/

namespace IncrementalParsing

/-- What is known about a token: its pattern, and what decides between equally long ones. -/
structure TokenRule where
  pattern : String
  /-- Whether it is written as a string. -/
  literal : Bool
  immediate : Bool
  precedence : Int
deriving DecidableEq, Inhabited

/-- A symbol of a flat grammar.  The built-in terminals have no token. -/
structure FlatSymbol where
  name : String
  token : Option TokenRule
  terminal : Bool
  named : Bool
  visible : Bool
  extra : Bool
deriving DecidableEq, Inhabited

/-- How tightly a production binds, and how it groups with its equals. -/
structure Binding where
  value : Int
  associativity : Associativity
deriving DecidableEq, Inhabited

/-- A production: a symbol and what it may consist of, each part with its field. -/
structure FlatProduction where
  lhs : Nat
  parts : List (Nat × Option Nat)
  binding : Option Binding
deriving DecidableEq, Inhabited

namespace FlatProduction

/-- The symbols on the right-hand side. -/
def rhs (p : FlatProduction) : List Nat := p.parts.map (·.1)

end FlatProduction

/-- A grammar as productions over numbered symbols. -/
structure FlatGrammar where
  name : String
  symbols : Array FlatSymbol
  productions : Array FlatProduction
  fields : Array String
  start : Nat
deriving DecidableEq, Inhabited

namespace FlatSymbol

/-- The token of a terminal that the lexer can find. -/
def lexeme? (s : FlatSymbol) : Option TokenRule := s.token.filter fun t => !t.pattern.isEmpty

end FlatSymbol

namespace FlatGrammar

def isTerminal (g : FlatGrammar) (s : Nat) : Bool := (g.symbols[s]?).any (·.terminal)

def symbolName (g : FlatGrammar) (s : Nat) : String := ((g.symbols[s]?).map (·.name)).getD ""

/-- The terminals that the lexer can find, in ascending order. -/
def lexicalTerminals (g : FlatGrammar) : List Nat :=
  (List.range g.symbols.size).filter fun s =>
    (g.symbols[s]?).any fun info => info.terminal && info.lexeme?.isSome

/-- The terminals that may stand anywhere, in ascending order. -/
def extras (g : FlatGrammar) : List Nat :=
  g.lexicalTerminals.filter fun s => (g.symbols[s]?).any (·.extra)

/-- A production in words. -/
def describe (g : FlatGrammar) (p : FlatProduction) : String :=
  g.symbolName p.lhs ++ " →"
    ++ (if p.parts.isEmpty then " ε"
      else String.join (p.rhs.map fun s => " " ++ g.symbolName s))

end FlatGrammar

end IncrementalParsing
