import IncrementalParsing.Lalr.First

/-!
# Items and their closure

An `Item` is a production with a place in it.  The states of the parser are sets of items: the
kernel, whose items have been begun, and its closure, which adds the productions of every rule that
can come next.  All productions of a rule are added together and with the same lookaheads, so the
closure is kept by rule.
-/

namespace IncrementalParsing

/-- A production with the number of its parts that have been read. -/
structure Item where
  production : Nat
  dot : Nat
deriving DecidableEq, Inhabited, Hashable

namespace Item

def advance (i : Item) : Item := ⟨i.production, i.dot + 1⟩

/-- By production, then by place. -/
def le (a b : Item) : Bool :=
  a.production < b.production || (a.production == b.production && a.dot ≤ b.dot)

end Item

/-- The productions of a grammar in the form in which items ask for them.  After the last one stands
the production by which the whole text is the start symbol. -/
structure RuleBook where
  grammar : FlatGrammar
  /-- The right-hand sides by production. -/
  parts : Array (Array Nat)
  /-- The productions of each symbol. -/
  byLhs : Array (List Nat)
  firsts : FirstSets
deriving Inhabited

namespace RuleBook

def ofGrammar (g : FlatGrammar) : RuleBook where
  grammar := g
  parts := (g.productions.map fun p => p.rhs.toArray).push #[g.start]
  -- from the last production down, so that those of a rule are listed in order
  byLhs := (List.range g.productions.size).foldr
    (fun p byLhs => byLhs.modify ((g.productions[p]?).map (·.lhs) |>.getD 0) (p :: ·))
    (Array.replicate g.symbols.size [])
  firsts := .ofGrammar g

/-- The production that accepts. -/
def accepting (b : RuleBook) : Nat := b.grammar.productions.size

/-- The item a parse starts from. -/
def startItem (b : RuleBook) : Item := ⟨b.accepting, 0⟩

/-- The symbol after the place of an item. -/
def next? (b : RuleBook) (i : Item) : Option Nat := (b.parts.getD i.production #[])[i.dot]?

/-- The symbols after that one. -/
def rest (b : RuleBook) (i : Item) : List Nat :=
  ((b.parts.getD i.production #[]).toList).drop (i.dot + 1)

/-- Whether the whole production has been read. -/
def isComplete (b : RuleBook) (i : Item) : Bool := (b.next? i).isNone

/-- The rule after the place of an item. -/
def nextRule? (b : RuleBook) (i : Item) : Option Nat :=
  (b.next? i).filter fun s => !b.grammar.isTerminal s

/-- What can follow the rule after the place of an item that has the given lookaheads. -/
def following (b : RuleBook) (i : Item) (lookaheads : SymbolSet) : SymbolSet :=
  let (set, nullable) := b.firsts.ofRow b.grammar (b.rest i)
  if nullable then set.union lookaheads else set

/-- The productions of a rule. -/
def productionsOf (b : RuleBook) (rule : Nat) : List Nat := b.byLhs.getD rule []

end RuleBook

/-- The lookaheads of each rule in a closure; rules without an entry are not in it. -/
abbrev RuleLookaheads := Array (Option SymbolSet)

namespace RuleLookaheads

/-- Adds lookaheads to a rule, and the rule to those to be gone on with if that is new. -/
def add (a : RuleLookaheads) (work : List Nat) (rule : Nat) (set : SymbolSet) :
    RuleLookaheads × List Nat :=
  match a.getD rule none with
  | none => (a.setIfInBounds rule (some set), rule :: work)
  | some old =>
    -- what gains nothing has been gone on with already
    if old.union set = old then (a, work)
    else (a.setIfInBounds rule (some (old.union set)), rule :: work)

/-- Adds the rule that follows the place of an item. -/
def addNext (b : RuleBook) (a : RuleLookaheads) (work : List Nat) (i : Item)
    (lookaheads : SymbolSet) : RuleLookaheads × List Nat :=
  match b.nextRule? i with
  | some rule => add a work rule (b.following i lookaheads)
  | none => (a, work)

/-- Goes on with rules until nothing is new. -/
def close (b : RuleBook) : (fuel : Nat) → RuleLookaheads → List Nat → RuleLookaheads
  | 0, a, _ => a
  | _ + 1, a, [] => a
  | fuel + 1, a, rule :: work =>
    let lookaheads := (a.getD rule none).getD .empty
    let (a, work) := (b.productionsOf rule).foldl
      (fun (a, work) p => addNext b a work ⟨p, 0⟩ lookaheads) (a, work)
    close b fuel a work

/-- The rules that can come next in a kernel.  Each is gone on with once when it is added and once
for every lookahead that it gains. -/
def ofKernel (b : RuleBook) (kernel : List (Item × SymbolSet)) : RuleLookaheads :=
  let n := b.grammar.symbols.size
  let (a, work) := kernel.foldl (fun (a, work) (i, lookaheads) => addNext b a work i lookaheads)
    ((Array.replicate n none : RuleLookaheads), ([] : List Nat))
  close b (n * (n + 1) + work.length + 1) a work

end RuleLookaheads

namespace RuleBook

/-- The items of a state with their lookaheads, in order. -/
def closure (b : RuleBook) (kernel : List (Item × SymbolSet)) : List (Item × SymbolSet) :=
  let rules := RuleLookaheads.ofKernel b kernel
  let added := rules.toList.zipIdx.flatMap fun (lookaheads, rule) =>
    match lookaheads with
    | none => []
    | some set => (b.productionsOf rule).map fun p => ((⟨p, 0⟩ : Item), set)
  -- in order, so that equal kernels are equal lists
  (kernel ++ added).mergeSort fun x y => x.1.le y.1

end RuleBook

end IncrementalParsing
