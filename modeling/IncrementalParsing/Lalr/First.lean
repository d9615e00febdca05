import IncrementalParsing.Grammar.Flat
import IncrementalParsing.Lalr.SymbolSet

/-!
# What symbols can begin with

`FirstSets.ofGrammar` finds which rules can be empty and which terminals what they derive can begin
with, by going over all productions until nothing changes.
-/

namespace IncrementalParsing

/-- Of each symbol, whether it can be empty and what it can begin with. -/
structure FirstSets where
  nullable : Array Bool
  first : Array SymbolSet
deriving DecidableEq, Inhabited

namespace FirstSets

/-- Whether a rule can be empty. -/
def isNullable (f : FirstSets) (s : Nat) : Bool := f.nullable.getD s false

/-- What a rule can begin with. -/
def firstOf (f : FirstSets) (s : Nat) : SymbolSet := f.first.getD s .empty

/-- What a row of symbols can begin with, and whether all of it can be empty. -/
def ofRow (g : FlatGrammar) (f : FirstSets) : List Nat → SymbolSet × Bool
  | [] => (.empty, true)
  | s :: rest =>
    if g.isTerminal s then (.singleton s, false)
    -- the rest shows only behind what can be empty
    else if f.isNullable s then
      let (set, nullable) := ofRow g f rest
      ((f.firstOf s).union set, nullable)
    else (f.firstOf s, false)

/-- Adds what a production shows about its rule. -/
def addProduction (g : FlatGrammar) (f : FirstSets) (p : FlatProduction) : FirstSets :=
  let (set, nullable) := ofRow g f p.rhs
  ⟨f.nullable.modify p.lhs (· || nullable), f.first.modify p.lhs (·.union set)⟩

/-- Goes over all productions until nothing changes. -/
def close (g : FlatGrammar) : (fuel : Nat) → FirstSets → FirstSets
  | 0, f => f
  | fuel + 1, f =>
    let next := g.productions.foldl (addProduction g) f
    -- sets only grow, so a round that adds nothing is the last
    if next == f then f else close g fuel next

/-- The first sets of a grammar.  Every round but the last adds a terminal or an empty rule. -/
def ofGrammar (g : FlatGrammar) : FirstSets :=
  let n := g.symbols.size
  close g (n * (n + 1) + 1) ⟨Array.replicate n false, Array.replicate n .empty⟩

end FirstSets

end IncrementalParsing
