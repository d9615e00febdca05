import IncrementalParsing.Grammar.TokenPattern

/-!
# Flattening grammars

`Grammar.flatten` turns rule trees into productions.  Choices are multiplied out, and a repetition
becomes a hidden rule of its own that builds a list from the left.  Symbols are numbered in the order
in which they are first met: the two built-in ones, the start rule, the extras, and then what the
rules mention, rule by rule.
-/

namespace IncrementalParsing

/-- One way of writing a rule: its parts, each with its field. -/
structure Alternative where
  parts : List (Nat × Option Nat)
  binding : Option Binding
deriving DecidableEq, Inhabited

namespace Alternative

/-- The alternative without parts. -/
def empty : Alternative := ⟨[], none⟩

/-- The alternative of one symbol. -/
def single (symbol : Nat) : Alternative := ⟨[(symbol, none)], none⟩

/-- One alternative after another; the first binding holds. -/
def append (a b : Alternative) : Alternative := ⟨a.parts ++ b.parts, a.binding.or b.binding⟩

/-- Gives a field to the parts that have none. -/
def withField (field : Nat) (a : Alternative) : Alternative :=
  { a with parts := a.parts.map fun p => (p.1, p.2.or (some field)) }

/-- Gives a binding to an alternative that has none. -/
def withBinding (binding : Binding) (a : Alternative) : Alternative :=
  { a with binding := a.binding.or (some binding) }

/-- The list without repetitions, each alternative where it comes first. -/
def distinct (alternatives : List Alternative) : List Alternative :=
  (alternatives.foldl (fun out a => if out.contains a then out else a :: out) []).reverse

end Alternative

/-- A flat grammar in the making. -/
structure Flattening where
  symbols : Array FlatSymbol
  productions : Array FlatProduction
  fields : Array String
  /-- The rules that have a symbol. -/
  rules : List (String × Nat)
  /-- The tokens without a rule, by pattern and whether they are immediate. -/
  anonymous : List ((String × Bool) × Nat)
  /-- The rules whose productions are still to be found. -/
  pending : List String
  /-- How many repetitions each rule has so far. -/
  repetitions : List (String × Nat)
deriving Inhabited

/-- Computations that add to a flat grammar. -/
abbrev Flatten := StateT Flattening (Except CompileFault)

namespace Flatten

/-- The most symbols and fields that there may be. -/
def maxCount : Nat := 65535

/-- The most alternatives that a rule may have. -/
def maxAlternatives : Nat := 4096

/-- The symbols that every grammar has: the end of the text, and errors. -/
def builtIns : Array FlatSymbol :=
  #[⟨"end", none, true, false, false, false⟩, ⟨"ERROR", none, true, true, true, false⟩]

/-- Where flattening starts. -/
def initial : Flattening := ⟨builtIns, #[], #[], [], [], [], []⟩

def addSymbol (symbol : FlatSymbol) : Flatten Nat := do
  let s ← get
  let i := s.symbols.size
  if maxCount ≤ i then throw (.tooMany .symbols (i + 1))
  set { s with symbols := s.symbols.push symbol }
  return i

def addProduction (lhs : Nat) (a : Alternative) : Flatten Unit :=
  modify fun s => { s with productions := s.productions.push ⟨lhs, a.parts, a.binding⟩ }

/-- The number of a field, which count from one. -/
def field (name : String) : Flatten Nat := do
  let s ← get
  let i := (s.fields.findIdx? (· == name)).getD s.fields.size
  if maxCount ≤ i then throw (.tooMany .fields (i + 1))
  -- one name is one field, whichever rules have it
  if i = s.fields.size then set { s with fields := s.fields.push name }
  return i + 1

/-- The symbol of a token without a rule. -/
def anonymousToken (g : Grammar) (owner : String) (rule : Rule) : Flatten Nat := do
  let token ← g.token owner rule
  let key := (token.pattern, token.immediate)
  match (← get).anonymous.lookup key with
  | some symbol => return symbol
  | none =>
    -- the first token of a pattern gives the symbol its name
    let name := rule.displayName?.getD token.pattern
    let symbol ← addSymbol ⟨name, some token, true, false, token.literal, false⟩
    modify fun s => { s with anonymous := (key, symbol) :: s.anonymous }
    return symbol

/-- The symbol of a rule.  One that is met first here is a token or waits for its productions; the
start rule is never a token. -/
def ruleSymbol (g : Grammar) (start referrer name : String) : Flatten Nat := do
  match (← get).rules.lookup name with
  | some symbol => return symbol
  | none =>
    match g.rule? name with
    | none => throw (.unknownSymbol referrer name)
    | some rule =>
      let hidden := g.isHidden name
      let info : FlatSymbol ←
        -- the text as a whole needs a rule, even if a token is all that it is
        if rule.isLexical && name != start then
          pure ⟨name, some (← g.token name rule), true, !hidden, true, false⟩
        else do
          modify fun s => { s with pending := s.pending ++ [name] }
          pure ⟨name, none, false, true, !hidden, false⟩
      let symbol ← addSymbol info
      modify fun s => { s with rules := (name, symbol) :: s.rules }
      return symbol

/-- A new symbol for a repetition inside a rule. -/
def repetitionSymbol (owner : String) : Flatten Nat := do
  let n := ((← get).repetitions.lookup owner).getD 0 + 1
  modify fun s => { s with repetitions := (owner, n) :: s.repetitions }
  addSymbol ⟨s!"{owner}_repeat{n}", none, false, false, false, false⟩

def checkCount (n : Nat) : Flatten Unit :=
  if maxAlternatives < n then throw (.tooMany .alternatives n) else pure ()

/-- One or more of what alternatives describe, as a list built from the left.  Repeating nothing is
nothing. -/
def repetition (owner : String) (content : List Alternative) : Flatten (List Alternative) := do
  let body := content.filter fun a => !a.parts.isEmpty
  if body.isEmpty then return [.empty]
  let list ← repetitionSymbol owner
  for a in body do
    -- the list goes on with one more, or begins
    addProduction list ((Alternative.single list).append a)
    addProduction list a
  return [.single list]

mutual

/-- The alternatives of a rule inside the rule `owner`. -/
def expand (g : Grammar) (start owner : String) : Rule → Flatten (List Alternative)
  | .blank => pure [.empty]
  | .string value => do return [.single (← anonymousToken g owner (.string value))]
  | .pattern value flags => do return [.single (← anonymousToken g owner (.pattern value flags))]
  | .token content => do return [.single (← anonymousToken g owner (.token content))]
  | .immediateToken content => do
    return [.single (← anonymousToken g owner (.immediateToken content))]
  | .symbol name => do return [.single (← ruleSymbol g start owner name)]
  | .seq members => expandSeq g start owner [.empty] members
  | .choice members => do
    let alternatives := Alternative.distinct (← expandChoice g start owner members)
    checkCount alternatives.length
    return alternatives
  | .zeroOrMore content => do
    let alternatives ← repetition owner (← expand g start owner content)
    -- repeating nothing gives the empty alternative already
    return if alternatives.contains .empty then alternatives else alternatives ++ [.empty]
  | .oneOrMore content => do repetition owner (← expand g start owner content)
  | .field name content => do
    let i ← field name
    return (← expand g start owner content).map (·.withField i)
  | .alias .. => throw (.unsupported owner .aliases)
  | .prec assoc value content => do
    let n ← g.precedence owner value
    return (← expand g start owner content).map (·.withBinding ⟨n, assoc⟩)
  | .precDynamic _ content => expand g start owner content
  | .reserved _ content => expand g start owner content

/-- The alternatives of a sequence after those of its first members. -/
def expandSeq (g : Grammar) (start owner : String) (heads : List Alternative) :
    List Rule → Flatten (List Alternative)
  | [] => pure heads
  | r :: rest => do
    let tails ← expand g start owner r
    -- counted before they are made
    checkCount (heads.length * tails.length)
    expandSeq g start owner (heads.flatMap fun a => tails.map a.append) rest

/-- The alternatives of all members. -/
def expandChoice (g : Grammar) (start owner : String) :
    List Rule → Flatten (List Alternative)
  | [] => pure []
  | r :: rest => do
    return (← expand g start owner r) ++ (← expandChoice g start owner rest)

end

/-- Makes a symbol one that may stand anywhere. -/
def markExtra (symbol : Nat) (hide : Bool) : Flatten Unit :=
  modify fun s =>
    { s with symbols := s.symbols.modify symbol fun info =>
        { info with extra := true, visible := info.visible && !hide } }

/-- Adds one of the grammar's extras, which have to be tokens. -/
def addExtra (g : Grammar) (start : String) (rule : Rule) : Flatten Unit := do
  match rule with
  | .symbol name =>
    let symbol ← ruleSymbol g start start name
    if ((← get).symbols[symbol]?).any (·.terminal) then
      markExtra symbol (name.startsWith "_")
    else throw (.unsupported name .structuredExtras)
  | rule =>
    if !rule.isLexical then throw (.unsupported start .structuredExtras)
    -- a token without a name is never shown as an extra
    markExtra (← anonymousToken g start rule) true

/-- Adds the productions of a rule.  Only the start rule may be empty. -/
def addRule (g : Grammar) (start name : String) : Flatten Unit := do
  match g.rule? name, (← get).rules.lookup name with
  | some rule, some lhs =>
    for a in ← expand g start name rule do
      if a.parts.isEmpty && name != start then throw (.emptyRule name)
      addProduction lhs a
  | _, _ => pure ()

/-- Adds the productions of all pending rules, of which there are no more than `fuel`. -/
def addPending (g : Grammar) (start : String) : (fuel : Nat) → Flatten Unit
  | 0 => pure ()
  | fuel + 1 => do
    match (← get).pending with
    | [] => pure ()
    | name :: rest =>
      modify fun s => { s with pending := rest }
      addRule g start name
      addPending g start fuel

/-- Adds everything reached from the start rule; gives the start symbol. -/
def addAll (g : Grammar) (start : String) : Flatten Nat := do
  let symbol ← ruleSymbol g start start start
  for rule in g.extras do addExtra g start rule
  addPending g start (g.rules.length + 1)
  return symbol

end Flatten

namespace Grammar

/-- The grammar as productions over numbered symbols. -/
def flatten (g : Grammar) : Except CompileFault FlatGrammar := do
  match g.start? with
  | none => throw (.grammar (.noRules g.name))
  | some (start, _) =>
    if !g.externals.isEmpty then throw (.unsupported start .externalScanners)
    let (symbol, s) ← (Flatten.addAll g start).run Flatten.initial
    return ⟨g.name, s.symbols, s.productions, s.fields, symbol⟩

end Grammar

end IncrementalParsing
