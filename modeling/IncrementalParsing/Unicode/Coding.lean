/-!
# Numbers written in letters

The tables of character properties are long lists of small numbers.  They are written in base
sixteen with the letters `a` to `p` for the digits, the last digit of each number in capitals, so
that no separator is needed: `decode ["bCD"]` is `[18, 3]`.
-/

namespace IncrementalParsing.Unicode

/-- The state while reading digits: the number begun, and the finished ones in reverse. -/
def decodeStep (state : Nat × List Nat) (c : Char) : Nat × List Nat :=
  if 'a' ≤ c && c ≤ 'p' then (state.1 * 16 + (c.toNat - 97), state.2)
  else if 'A' ≤ c && c ≤ 'P' then (0, (state.1 * 16 + (c.toNat - 65)) :: state.2)
  else state

/-- The numbers written in the lines, which are read as one text. -/
def decode (lines : List String) : List Nat :=
  (lines.foldl (fun state line => line.foldl decodeStep state) (0, [])).2.reverse

/-- Takes a list two by two. -/
def pairUp : List Nat → List (Nat × Nat)
  | a :: b :: rest => (a, b) :: pairUp rest
  | _ => []

/-- The numbers written in the lines, two by two. -/
def decodePairs (lines : List String) : List (Nat × Nat) := pairUp (decode lines)

end IncrementalParsing.Unicode
