/-!
# Sets of symbols

A `SymbolSet` is a finite set of symbol numbers, kept as the number whose binary digits say which
symbols are in it.
-/

namespace IncrementalParsing

/-- A finite set of symbols. -/
structure SymbolSet where
  bits : Nat
deriving DecidableEq, Inhabited

namespace SymbolSet

def empty : SymbolSet := ⟨0⟩

def singleton (s : Nat) : SymbolSet := ⟨1 <<< s⟩

def mem (set : SymbolSet) (s : Nat) : Bool := set.bits.testBit s

def union (a b : SymbolSet) : SymbolSet := ⟨a.bits ||| b.bits⟩

/-- The members below a bound, in ascending order. -/
def toList (set : SymbolSet) (bound : Nat) : List Nat := (List.range bound).filter set.mem

/-- A set with the members of a list. -/
def ofList (symbols : List Nat) : SymbolSet :=
  symbols.foldl (fun set s => set.union (singleton s)) empty

@[simp] theorem mem_union (a b : SymbolSet) (s : Nat) :
    (a.union b).mem s = (a.mem s || b.mem s) := by
  simp [union, mem]

@[simp] theorem mem_empty (s : Nat) : empty.mem s = false := by
  simp [empty, mem]

@[simp] theorem mem_singleton (a s : Nat) : (singleton a).mem s = decide (a = s) := by
  simp [singleton, mem, Nat.shiftLeft_eq, Nat.testBit_two_pow]

end SymbolSet

end IncrementalParsing
