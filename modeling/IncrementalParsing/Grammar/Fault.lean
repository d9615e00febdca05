import IncrementalParsing.Grammar.Reader

/-!
# Why a grammar cannot be compiled
-/

namespace IncrementalParsing

/-- What a grammar uses that cannot be compiled. -/
inductive Feature where
  | externalScanners
  | structuredExtras
  | recursiveTokens
  | aliases
deriving DecidableEq, Inhabited

/-- What there may be too many of. -/
inductive Counted where
  | symbols
  | fields
  | alternatives
  | children
  | productions
  | states
  | actions
  | lexModes
  | strings
  | tokenPatterns
  | tableBytes
deriving DecidableEq, Inhabited

/-- Which choice between actions is open. -/
inductive ConflictKind where
  | shiftReduce
  | reduceReduce
deriving DecidableEq, Inhabited

/-- Why a grammar cannot be compiled. -/
inductive CompileFault where
  | grammar (fault : GrammarFault)
  | unknownSymbol (rule symbol : String)
  /-- A rule other than the first can match the empty text. -/
  | emptyRule (rule : String)
  | emptyToken (rule : String)
  | invalidPattern (rule pattern : String)
  | unsupported (rule : String) (feature : Feature)
  | unknownPrecedence (rule name : String)
  | conflict (kind : ConflictKind) (lookahead : String) (candidates : List String)
  | tooMany (what : Counted) (count : Nat)
deriving DecidableEq, Inhabited

namespace Feature

def name : Feature → String
  | .externalScanners => "external scanners"
  | .structuredExtras => "non-token extras"
  | .recursiveTokens => "recursive tokens"
  | .aliases => "ALIAS"

end Feature

namespace Counted

def name : Counted → String
  | .symbols => "symbols"
  | .fields => "fields"
  | .alternatives => "alternatives in one rule"
  | .children => "children in one production"
  | .productions => "productions"
  | .states => "parse states"
  | .actions => "actions in one state"
  | .lexModes => "lex modes"
  | .strings => "strings"
  | .tokenPatterns => "token patterns"
  | .tableBytes => "table bytes"

end Counted

namespace ConflictKind

def name : ConflictKind → String
  | .shiftReduce => "shift/reduce"
  | .reduceReduce => "reduce/reduce"

end ConflictKind

namespace CompileFault

/-- The wording of a fault. -/
def message : CompileFault → String
  | .grammar fault => fault.message
  | .unknownSymbol rule symbol => s!"rule '{rule}' references undefined symbol '{symbol}'"
  | .emptyRule rule => s!"rule '{rule}' matches the empty string; only the start rule may"
  | .emptyToken rule => s!"token '{rule}' matches the empty string"
  | .invalidPattern rule pattern => s!"invalid pattern /{pattern}/ in rule '{rule}'"
  | .unsupported rule feature => s!"unsupported {feature.name} in rule '{rule}'"
  | .unknownPrecedence rule name => s!"unknown precedence '{name}' in rule '{rule}'"
  | .conflict kind lookahead candidates =>
    s!"unresolved {kind.name} conflict on {lookahead}: " ++ String.intercalate " | " candidates
  | .tooMany what count => s!"too many {what.name} ({count})"

end CompileFault

end IncrementalParsing
