import IncrementalParsing.Lalr.StateGraph
import IncrementalParsing.Table.Basic

/-!
# Choosing actions

In each state and for each token the parser has one action.  Where items ask for different ones, the
production that binds tighter wins; a tie between reading on and finishing a production goes by how
the production groups; everything else is a conflict, which is reported with the productions that
take part.

An action names a production by 16 bits of its number.  A grammar with more productions than these tell
apart gets a parser table all the same, whose actions name wrong ones; it is refused later, when its
table is to be written.
-/

namespace IncrementalParsing

/-- A state of the parser: its actions in ascending order of symbols, and its lex mode. -/
abbrev ParserState := TableState

/-- What a grammar is parsed with: the states, and the tokens of each lex mode. -/
structure ParserTable where
  states : Array ParserState
  lexModes : Array (List Symbol)
deriving DecidableEq, Inhabited

namespace RuleBook

/-- How a production binds. -/
def binding? (b : RuleBook) (p : Nat) : Option Binding :=
  (b.grammar.productions[p]?).bind (·.binding)

/-- How tightly a production binds; zero unless it says otherwise. -/
def tightness (b : RuleBook) (p : Nat) : Int := ((b.binding? p).map (·.value)).getD 0

/-- A production in words. -/
def describe (b : RuleBook) (p : Nat) : String :=
  match b.grammar.productions[p]? with
  | some production => b.grammar.describe production
  | none => ""

/-- How many productions actions can tell apart. -/
def productionIds : Nat := 65536

/-- Finishing a production.  `TableImage.write` refuses grammars in which its number is cut. -/
def reduction (b : RuleBook) (p : Nat) : Action :=
  if p = b.accepting then .accept else .reduce (p % productionIds)

def describeReduction (b : RuleBook) (p : Nat) : String :=
  if p = b.accepting then "accept" else "reduce " ++ b.describe p

def conflict (b : RuleBook) (kind : ConflictKind) (token : Nat) (candidates : List String) :
    CompileFault :=
  .conflict kind ("'" ++ b.grammar.symbolName token ++ "'") candidates

/-- Of several productions that can be finished, the one that binds tighter than all others. -/
def pickReduction (b : RuleBook) (token : Nat) (productions : List Nat) :
    Except CompileFault (Option Nat) :=
  match productions with
  | [] => .ok none
  | p :: rest =>
    let best := rest.foldl (fun q r => if b.tightness q < b.tightness r then r else q) p
    -- a tie at the top decides nothing, even if other productions bind less tightly
    if (productions.countP fun q => b.tightness q = b.tightness best) = 1 then .ok (some best)
    else .error (b.conflict .reduceReduce token (productions.map b.describeReduction))

/-- The list without repetitions, each entry where it comes first. -/
def distinct (xs : List String) : List String :=
  (xs.foldl (fun out x => if out.contains x then out else x :: out) []).reverse

/-- The choice between finishing a production and reading the token for other ones. -/
def shiftOrReduce (b : RuleBook) (token target p : Nat) (shifting : List Nat) :
    Except CompileFault Action :=
  let undecided : CompileFault := b.conflict .shiftReduce token
    (distinct (b.describeReduction p
      :: (shifting.filter (· ≠ b.accepting)).map fun q => "shift " ++ b.describe q))
  let tightnesses := (shifting.filterMap b.binding?).map (·.value)
  match b.binding? p, tightnesses with
  -- without any binding there is nothing to go by
  | none, [] => .error undecided
  | own, tightnesses =>
    -- what binds tightest speaks for reading on
    let shift := match tightnesses with
      | [] => 0
      | v :: rest => rest.foldl max v
    let reduce := b.tightness p
    if shift < reduce then .ok (b.reduction p)
    else if reduce < shift then .ok (.shift target)
    else
      -- bound equally tight, so the production's own grouping decides
      match own with
      | some ⟨_, .left⟩ => .ok (b.reduction p)
      | some ⟨_, .right⟩ => .ok (.shift target)
      | _ => .error undecided

/-- The action of a state on a token, given where reading it leads. -/
def chooseAction (b : RuleBook) (closure : List (Item × SymbolSet)) (token : Nat)
    (target : Option Nat) : Except CompileFault (Option Action) := do
  let finished := closure.filterMap fun (i, lookaheads) =>
    if b.isComplete i && lookaheads.mem token then some i.production else none
  match ← b.pickReduction token finished, target with
  | none, none => return none
  | none, some target => return some (.shift target)
  | some p, none => return some (b.reduction p)
  | some p, some target =>
    let shifting := closure.filterMap fun (i, _) =>
      if b.next? i == some token then some i.production else none
    return some (← b.shiftOrReduce token target p shifting)

/-- The actions of a state in ascending order of symbols, terminals and rules together. -/
def chooseActions (b : RuleBook) (closure : List (Item × SymbolSet))
    (transitions : List (Nat × Nat)) : Except CompileFault (List (Symbol × Action)) := do
  let lookaheads := closure.foldl (fun set (i, own) =>
    if b.isComplete i then set.union own else set) SymbolSet.empty
  let entries ← (List.range b.grammar.symbols.size).mapM fun s => do
    let target := transitions.lookup s
    if b.grammar.isTerminal s then
      -- no item asks for any other token
      if lookaheads.mem s || target.isSome then
        return (← b.chooseAction closure s target).map fun action => (s, action)
      else return none
    else return target.map fun target => (s, Action.goto target)
  return entries.filterMap id

end RuleBook

namespace ParserTable

/-- The tokens to look for in a state: those with an action, and the extras. -/
def stateTokens (lexical extras : SymbolSet) (bound : Nat) (actions : List (Symbol × Action)) :
    List Symbol :=
  -- a set, so that the same tokens give the same list
  ((SymbolSet.ofList ((actions.map (·.1)).filter lexical.mem)).union extras).toList bound

/-- Gives states their lex modes; states with the same tokens share one. -/
def assignLexModes (lexical extras : SymbolSet) (bound : Nat) :
    List (List (Symbol × Action)) → (modes : Array (List Symbol)) →
      Except CompileFault (List ParserState × Array (List Symbol))
  | [], modes => .ok ([], modes)
  | actions :: rest, modes =>
    let tokens := stateTokens lexical extras bound actions
    -- the numbers of modes fit 16 bits
    if 65535 < modes.size then .error (.tooMany .lexModes modes.size)
    else
      let mode := (modes.findIdx? (· == tokens)).getD modes.size
      let modes := if mode = modes.size then modes.push tokens else modes
      match assignLexModes lexical extras bound rest modes with
      | .ok (states, modes) => .ok (⟨actions, mode⟩ :: states, modes)
      | .error fault => .error fault

/-- The table of a flat grammar.  Every token is looked for in the first lex mode. -/
def ofGrammar (g : FlatGrammar) : Except CompileFault ParserTable := do
  let b := RuleBook.ofGrammar g
  let graph ← StateGraph.ofRules b
  let lookaheads := graph.lookaheads b
  let actions ← (List.range graph.kernels.size).mapM fun state =>
    b.chooseActions (b.closure (graph.kernel lookaheads state)) (graph.transitions.getD state [])
  let (states, modes) ← assignLexModes (.ofList g.lexicalTerminals) (.ofList g.extras)
    g.symbols.size actions #[g.lexicalTerminals]
  return ⟨states.toArray, modes⟩

end ParserTable

end IncrementalParsing
