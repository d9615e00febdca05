/-!
# Grammars

A `Grammar` names rules, the first of which is where a parse starts.  A `Rule` is a tree: strings and
patterns at its leaves, sequences, choices and repetitions inside, with wrappers that name fields,
bind parts into one token, or give precedence.
-/

namespace IncrementalParsing

/-- A precedence: a number, or a name whose place in an ordering decides. -/
inductive Precedence where
  | integer (value : Int)
  | named (name : String)
deriving DecidableEq, Inhabited

/-- What an ordering of precedences lists. -/
inductive PrecedenceEntry where
  | named (name : String)
  | symbol (name : String)
deriving DecidableEq, Inhabited

/-- How operators of equal precedence group. -/
inductive Associativity where
  | none
  | left
  | right
deriving DecidableEq, Inhabited

/-- The right-hand side of a rule. -/
inductive Rule where
  /-- The empty text. -/
  | blank
  | string (value : String)
  /-- A regular expression. -/
  | pattern (value : String) (flags : Option String)
  /-- Another rule by its name. -/
  | symbol (name : String)
  | seq (members : List Rule)
  | choice (members : List Rule)
  | zeroOrMore (content : Rule)
  | oneOrMore (content : Rule)
  /-- A part that is found by a name in its parent. -/
  | field (name : String) (content : Rule)
  /-- A part shown under another name. -/
  | alias (content : Rule) (value : String) (named : Bool)
  /-- A part that is one token. -/
  | token (content : Rule)
  /-- A token that follows the one before without anything between. -/
  | immediateToken (content : Rule)
  | prec (assoc : Associativity) (value : Precedence) (content : Rule)
  | precDynamic (value : Int) (content : Rule)
  /-- A part in which other words are reserved. -/
  | reserved (context : String) (content : Rule)
deriving Inhabited

namespace Rule

/-- Whether the rule is one of the wrappers that give precedence. -/
def isPrecedence : Rule → Bool
  | .prec .. | .precDynamic .. => true
  | _ => false

/-- The rule inside the wrappers that give precedence. -/
def withoutPrecedence : Rule → Rule
  | .prec _ _ content => content.withoutPrecedence
  | .precDynamic _ content => content.withoutPrecedence
  | rule => rule

/-- Whether the rule describes a single token rather than a structure. -/
def isLexical (rule : Rule) : Bool :=
  match rule.withoutPrecedence with
  | .string _ | .pattern .. | .token _ | .immediateToken _ => true
  | _ => false

end Rule

/-- A grammar. -/
structure Grammar where
  name : String
  /-- The rules in their order; the first is the start rule. -/
  rules : List (String × Rule)
  /-- What may stand between any two tokens. -/
  extras : List Rule
  /-- Orderings of named precedences, the tightest first. -/
  precedences : List (List PrecedenceEntry)
  conflicts : List (List String)
  externals : List Rule
  inlined : List String
  supertypes : List String
  word : Option String
  reserved : List (String × List Rule)
deriving Inhabited

namespace Grammar

/-- The rule a parse starts from. -/
def start? (g : Grammar) : Option (String × Rule) := g.rules.head?

/-- The rule of a name. -/
def rule? (g : Grammar) (name : String) : Option Rule := g.rules.lookup name

/-- Hidden rules have no node of their own: their children go to their parent. -/
def isHidden (g : Grammar) (name : String) : Bool :=
  name.startsWith "_" || g.inlined.contains name || g.supertypes.contains name

end Grammar

end IncrementalParsing
