import IncrementalParsing.Grammar.Fault
import IncrementalParsing.Lalr.Item
import Std.Data.HashMap

/-!
# The states of a parser

A `StateGraph` holds the kernels of all states reached from the start, numbered in the order in which
they are found, and where each symbol leads.  `StateGraph.lookaheads` finds the lookaheads of their
items: states are told apart by their items alone, so each item collects the lookaheads from all ways
to its state.
-/

namespace IncrementalParsing

/-- The states reached from the start. -/
structure StateGraph where
  kernels : Array (List Item)
  /-- Where each state leads, in ascending order of symbols. -/
  transitions : Array (List (Nat × Nat))
deriving Inhabited

namespace StateGraph

/-- Entries with the same key together, in ascending order of keys. -/
def groupByKey {α : Type} (entries : List (Nat × α)) : List (Nat × List α) :=
  let rec group : List (Nat × α) → List (Nat × List α)
    | [] => []
    | (k, x) :: rest =>
      match group rest with
      | (k', xs) :: more => if k = k' then (k, x :: xs) :: more else (k, [x]) :: (k', xs) :: more
      | [] => [(k, [x])]
  -- sorting keeps the order of the entries of one key
  group (entries.mergeSort fun a b => a.1 ≤ b.1)

/-- What each symbol leads to from a state: the items after it, with their lookaheads. -/
def successors (b : RuleBook) (kernel : List (Item × SymbolSet)) :
    List (Nat × List (Item × SymbolSet)) :=
  groupByKey ((b.closure kernel).filterMap fun (i, lookaheads) =>
    (b.next? i).map fun s => (s, (i.advance, lookaheads)))

/-- States found so far, with their numbers; those with transitions have been gone through. -/
structure Search where
  numbers : Std.HashMap (List Item) Nat
  graph : StateGraph

/-- The most states that there may be. -/
def maxStates : Nat := 65535

/-- The number of a state, a new one if it was not found before. -/
def Search.number (s : Search) (kernel : List Item) : Except CompileFault (Search × Nat) :=
  match s.numbers[kernel]? with
  | some i => .ok (s, i)
  | none =>
    let i := s.graph.kernels.size
    if maxStates ≤ i then .error (.tooMany .states (i + 1))
    else
      .ok ({ numbers := s.numbers.insert kernel i
             graph := { s.graph with kernels := s.graph.kernels.push kernel } }, i)

/-- Numbers the states that symbols lead to. -/
def Search.numberAll : Search → List (Nat × List Item) →
    Except CompileFault (Search × List (Nat × Nat))
  | s, [] => .ok (s, [])
  | s, (symbol, kernel) :: rest => do
    let (s, i) ← s.number kernel
    let (s, more) ← s.numberAll rest
    return (s, (symbol, i) :: more)

/-- Goes through the states in the order in which they were found. -/
def Search.run (b : RuleBook) : (fuel : Nat) → Search → Except CompileFault Search
  | 0, s => .ok s
  | fuel + 1, s =>
    match s.graph.kernels[s.graph.transitions.size]? with
    | none => .ok s
    | some kernel => do
      -- which items there are does not depend on lookaheads, so they are left out here
      let next := successors b (kernel.map fun i => (i, .empty))
      let (s, moves) ← s.numberAll (next.map fun (symbol, items) => (symbol, items.map (·.1)))
      run b fuel { s with graph := { s.graph with transitions := s.graph.transitions.push moves } }

/-- The states of a grammar. -/
def ofRules (b : RuleBook) : Except CompileFault StateGraph := do
  let start := [b.startItem]
  let numbers := (∅ : Std.HashMap (List Item) Nat).insert start 0
  let s ← Search.run b (maxStates + 1) ⟨numbers, ⟨#[start], #[]⟩⟩
  return s.graph

/-- The lookaheads of each item of each kernel. -/
abbrev Lookaheads := Array (List SymbolSet)

/-- The items of a state's kernel with their lookaheads. -/
def kernel (g : StateGraph) (l : Lookaheads) (state : Nat) : List (Item × SymbolSet) :=
  (g.kernels.getD state []).zip (l.getD state [])

/-- Where a symbol leads. -/
def target? (g : StateGraph) (state symbol : Nat) : Option Nat :=
  (g.transitions.getD state []).lookup symbol

/-- Hands the lookaheads of a state's items on to the states that it leads to. -/
def spread (b : RuleBook) (g : StateGraph) (l : Lookaheads) (state : Nat) : Lookaheads :=
  (successors b (g.kernel l state)).foldl (fun l (symbol, items) =>
    match g.target? state symbol with
    -- the items come in the order of the target's kernel
    | some target => l.modify target fun sets => List.zipWith SymbolSet.union sets (items.map (·.2))
    | none => l) l

/-- Goes over all states until nothing changes. -/
def spreadAll (b : RuleBook) (g : StateGraph) : (fuel : Nat) → Lookaheads → Lookaheads
  | 0, l => l
  | fuel + 1, l =>
    let next := (List.range g.kernels.size).foldl (spread b g) l
    if next == l then l else spreadAll b g fuel next

/-- The lookaheads of all items.  Every round but the last adds one to some item. -/
def lookaheads (b : RuleBook) (g : StateGraph) : Lookaheads :=
  let items := (g.kernels.map List.length).foldl (· + ·) 0
  let none := g.kernels.map fun items => items.map fun _ => SymbolSet.empty
  spreadAll b g (items * (b.grammar.symbols.size + 1) + 1)
    -- the whole text is followed by its end
    (none.setIfInBounds 0 [.singleton 0])

end StateGraph

end IncrementalParsing
