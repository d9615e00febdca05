import IncrementalParsing.Grammar.Fault
import IncrementalParsing.Grammar.Flat
import IncrementalParsing.Pattern.Meaning
import IncrementalParsing.Pattern.Reader

/-!
# Token rules as patterns

A token rule becomes one regular expression: strings are escaped, sequences, choices and repetitions
become those of patterns, and a rule that is named stands for its content.  `Grammar.token` also
finds what decides between tokens of the same length.
-/

namespace IncrementalParsing

namespace Rule

/-- A text in which every character stands for itself. -/
def escaped (s : String) : String :=
  String.join (s.toList.map fun c =>
    if Pattern.metaCharacters.contains c then "\\" ++ c.toString else c.toString)

/-- The switches that token patterns may set. -/
def keptFlags (flags : Option String) : String :=
  String.ofList ((flags.getD "").toList.filter fun c => c == 'i' || c == 'm' || c == 's')

mutual

/-- The pattern of a rule, given those of the rules it names. -/
def patternText (owner : String) (ofSymbol : String → Except CompileFault String) :
    Rule → Except CompileFault String
  | .blank => .ok ""
  | .string value => .ok (escaped value)
  | .pattern value flags => .ok ("(?" ++ keptFlags flags ++ ":" ++ value ++ ")")
  | .seq members => do return String.join (← patternTexts owner ofSymbol members)
  | .choice members => do
    return "(?:" ++ String.intercalate "|" (← patternTexts owner ofSymbol members) ++ ")"
  | .zeroOrMore content => do return "(?:" ++ (← content.patternText owner ofSymbol) ++ ")*"
  | .oneOrMore content => do return "(?:" ++ (← content.patternText owner ofSymbol) ++ ")+"
  | .symbol name => do return "(?:" ++ (← ofSymbol name) ++ ")"
  | .token content => content.patternText owner ofSymbol
  | .immediateToken content => content.patternText owner ofSymbol
  | .field _ content => content.patternText owner ofSymbol
  | .prec _ _ content => content.patternText owner ofSymbol
  | .precDynamic _ content => content.patternText owner ofSymbol
  | .reserved _ content => content.patternText owner ofSymbol
  | .alias .. => .error (.unsupported owner .aliases)

def patternTexts (owner : String) (ofSymbol : String → Except CompileFault String) :
    List Rule → Except CompileFault (List String)
  | [] => .ok []
  | r :: rest => do
    return (← r.patternText owner ofSymbol) :: (← patternTexts owner ofSymbol rest)

end

/-- How a token is shown where it has no name: its text, or its pattern as written. -/
def displayName? : Rule → Option String
  | .string value => some value
  | .pattern value _ => some value
  | .token content => content.displayName?
  | .immediateToken content => content.displayName?
  | .prec _ _ content => content.displayName?
  | .precDynamic _ content => content.displayName?
  | _ => none

end Rule

namespace Grammar

/-- How tightly a named precedence binds: names listed earlier bind tighter, and the first list that
has a name decides. -/
def rank? (g : Grammar) (name : String) : Option Int :=
  g.precedences.findSome? fun list =>
    -- the last name of a list counts one, so it still binds tighter than what has no precedence
    (list.findIdx? (· == .named name)).map fun i => (list.length : Int) - i

/-- The number that a precedence stands for. -/
def precedence (g : Grammar) (rule : String) : Precedence → Except CompileFault Int
  | .integer n => .ok n
  | .named name =>
    match g.rank? name with
    | some n => .ok n
    | none => .error (.unknownPrecedence rule name)

/-- The pattern of a token rule.  `visiting` are the rules whose patterns are being put together;
`fuel` bounds how many there can be. -/
def tokenPattern (g : Grammar) (owner : String) :
    (fuel : Nat) → (visiting : List String) → Rule → Except CompileFault String
  | 0, _, _ => .error (.unsupported owner .recursiveTokens)
  | fuel + 1, visiting, rule =>
    rule.patternText owner fun name =>
      match g.rule? name with
      | none => .error (.unknownSymbol owner name)
      | some referenced =>
        -- a token that contains itself is no regular expression
        if visiting.contains name then .error (.unsupported owner .recursiveTokens)
        else g.tokenPattern owner fuel (name :: visiting) referenced

/-- Takes the wrappers that give precedence off a rule; the outermost decides. -/
def lexicalPrecedence (g : Grammar) (owner : String) :
    Rule → Except CompileFault (Option Int × Rule)
  | .prec _ value content => do
    let n ← g.precedence owner value
    return (some n, content.withoutPrecedence)
  | .precDynamic _ content => g.lexicalPrecedence owner content
  | rule => .ok (none, rule)

/-- Refuses what is no pattern, or matches the empty text. -/
def checkPattern (owner pattern : String) : Except CompileFault Unit :=
  match (Pattern.parse? pattern).bind Pattern.expression? with
  | none => .error (.invalidPattern owner pattern)
  | some e => if e.minLength == some 0 then .error (.emptyToken owner) else .ok ()

/-- A number moved into the range of 16 bits. -/
def clamp16 (n : Int) : Int := max (-32768) (min n 32767)

/-- The content of a token rule, and whether it has to follow the token before directly. -/
def tokenBody : Rule → Bool × Rule
  | .token content => (false, content)
  | .immediateToken content => (true, content)
  | rule => (false, rule)

/-- Whether a rule is a string. -/
def isString : Rule → Bool
  | .string _ => true
  | _ => false

/-- The token that a rule describes. -/
def token (g : Grammar) (owner : String) (rule : Rule) : Except CompileFault TokenRule := do
  let (outer, body) ← g.lexicalPrecedence owner rule
  let (immediate, body) := tokenBody body
  -- precedence may stand around the token or inside it; the outer one counts
  let (inner, body) ← g.lexicalPrecedence owner body
  let pattern ← g.tokenPattern owner (g.rules.length + 1) [] body
  checkPattern owner pattern
  return ⟨pattern, isString body, immediate, clamp16 ((outer.or inner).getD 0)⟩

end Grammar

end IncrementalParsing
