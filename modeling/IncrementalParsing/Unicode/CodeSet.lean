/-!
# Sets of characters

A `CodeSet` is a set of Unicode scalar values, given by its ranges in ascending order with a gap
between any two.  `CodeSet.ofRanges` brings any list of ranges into that form; union, complement and
the other operations keep it.
-/

namespace IncrementalParsing.Unicode

/-- A set of scalar values as ascending ranges, both ends included. -/
structure CodeSet where
  ranges : List (Nat × Nat)
deriving DecidableEq, Inhabited

namespace CodeSet

/-- No character. -/
def empty : CodeSet := ⟨[]⟩

/-- Every character: all code points but the surrogates. -/
def univ : CodeSet := ⟨[(0, 0xD7FF), (0xE000, 0x10FFFF)]⟩

/-- Joins ranges that touch or overlap, given in ascending order of their starts; `lo` to `hi` is
the range being built. -/
def joinRanges (lo hi : Nat) : List (Nat × Nat) → List (Nat × Nat)
  | [] => [(lo, hi)]
  | (a, b) :: rest =>
    if a ≤ hi + 1 then joinRanges lo (max hi b) rest else (lo, hi) :: joinRanges a b rest

/-- The part of a range inside another one. -/
def clip (lo hi : Nat) (r : Nat × Nat) : Option (Nat × Nat) :=
  let a := max lo r.1
  let b := min hi r.2
  if a ≤ b then some (a, b) else none

/-- The characters in one of the ranges. -/
def ofRanges (ranges : List (Nat × Nat)) : CodeSet :=
  let scalars := ranges.flatMap fun r =>
    (clip 0 0xD7FF r).toList ++ (clip 0xE000 0x10FFFF r).toList
  match scalars.mergeSort (fun a b => a.1 ≤ b.1) with
  | [] => empty
  | (a, b) :: rest => ⟨joinRanges a b rest⟩

/-- A range. -/
def range (lo hi : Nat) : CodeSet := ofRanges [(lo, hi)]

/-- A single character. -/
def singleton (c : Char) : CodeSet := ⟨[(c.toNat, c.toNat)]⟩

/-- Membership by code point. -/
def mem (s : CodeSet) (c : Nat) : Bool := s.ranges.any fun r => r.1 ≤ c && c ≤ r.2

def isEmpty (s : CodeSet) : Bool := s.ranges.isEmpty

def union (s t : CodeSet) : CodeSet := ofRanges (s.ranges ++ t.ranges)

/-- The union of a list of sets. -/
def unions (sets : List CodeSet) : CodeSet := ofRanges (sets.flatMap ranges)

/-- The gaps between ascending ranges from `next` on, up to the last code point. -/
def gaps (next : Nat) : List (Nat × Nat) → List (Nat × Nat)
  | [] => if next ≤ 0x10FFFF then [(next, 0x10FFFF)] else []
  | (a, b) :: rest => if next < a then (next, a - 1) :: gaps (b + 1) rest else gaps (b + 1) rest

/-- All other characters. -/
def compl (s : CodeSet) : CodeSet := ofRanges (gaps 0 s.ranges)

def inter (s t : CodeSet) : CodeSet := (s.compl.union t.compl).compl

def diff (s t : CodeSet) : CodeSet := (s.compl.union t).compl

/-- The characters in exactly one of the sets. -/
def symmDiff (s t : CodeSet) : CodeSet := (s.diff t).union (t.diff s)

/-- The first character. -/
def first? (s : CodeSet) : Option Nat := s.ranges.head?.map (·.1)

/-- The last character. -/
def last? (s : CodeSet) : Option Nat := s.ranges.getLast?.map (·.2)

/-- Whether every character is below `0x80`. -/
def isAscii (s : CodeSet) : Bool := s.ranges.all (·.2 < 0x80)

/-- The only character of a set of one. -/
def single? (s : CodeSet) : Option Nat :=
  match s.ranges with
  | [(a, b)] => if a = b then some a else none
  | _ => none

/-- Ranges from gaps: each pair skips some code points and takes one more than its second number. -/
def ofGaps (next : Nat) : List (Nat × Nat) → List (Nat × Nat)
  | [] => []
  | (skip, more) :: rest =>
    (next + skip, next + skip + more) :: ofGaps (next + skip + more + 1) rest

/-- The code points of one class in a list of runs, each one longer than its first number. -/
def ofRuns (wanted : Nat → Bool) (next : Nat) : List (Nat × Nat) → List (Nat × Nat)
  | [] => []
  | (more, cls) :: rest =>
    let tail := ofRuns wanted (next + more + 1) rest
    if wanted cls then (next, next + more) :: tail else tail

end CodeSet

end IncrementalParsing.Unicode
