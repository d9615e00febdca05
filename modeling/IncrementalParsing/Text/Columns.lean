import IncrementalParsing.Sum
import IncrementalParsing.Unicode.Data.Widths
import IncrementalParsing.Unicode.Latest

/-!
# Columns

How text lies in the columns of a terminal.  `Columns.shown` replaces what a terminal would not show
as it is, `Columns.ofChars` counts the columns, and `Columns.drop` and `Columns.take` split a text
at a column.
-/

namespace IncrementalParsing.Columns

/-- The characters that take two columns. -/
def wide : Unicode.CodeSet := .ofRanges (Unicode.CodeSet.ofGaps 0 Unicode.wideRanges)

/-- The characters that take no column of their own: marks, what is not shown, the later parts of
syllables, and a few signs that are drawn over or under what follows. -/
def zeroWidth : Unicode.CodeSet :=
  (Unicode.CodeSet.unions [Unicode.Latest.attached, Unicode.defaultIgnorable,
    .ofRanges [(0x605, 0x605), (0x70F, 0x70F), (0x890, 0x891), (0x8E2, 0x8E2), (0x1160, 0x11FF),
      (0xA8FA, 0xA8FA), (0xD7B0, 0xD7C6), (0xD7CB, 0xD7FB)]]).diff (.range 0x115F 0x115F)

/-- Whether a character steers the direction of writing. -/
def isDirection (c : Char) : Bool :=
  (0x202A ≤ c.toNat && c.toNat ≤ 0x202E) || (0x2066 ≤ c.toNat && c.toNat ≤ 0x2069)

/-- The columns that a character takes. -/
def ofChar (c : Char) : Nat :=
  if c == '\t' then 4
  else if c.toNat < 0xA0 || isDirection c then 1
  else if zeroWidth.mem c.toNat then 0
  else if wide.mem c.toNat then 2
  else 1

/-- The columns that characters take. -/
def ofChars (cs : List Char) : Nat := sumOf ofChar cs

/-- A character as it is shown: a tab as blanks, other control characters as their pictures, and
the marks of direction as a replacement.  A joiner is left out. -/
def shownChar (c : Char) : List Char :=
  if c == '\t' then List.replicate 4 ' '
  else if c.toNat < 0x20 then [Char.ofNat (0x2400 + c.toNat)]
  else if c.toNat == 0x7F then ['\u2421']
  else if c.toNat == 0x200D then []
  else if isDirection c then ['\ufffd']
  else [c]

/-- A text as it is shown. -/
def shown (cs : List Char) : List Char := cs.flatMap shownChar

/-- What is left of a text from a column on, and how many columns are dropped.  These are more than
asked for if a wide character lies across the cut. -/
def drop : (count : Nat) → List Char → Nat × List Char
  | 0, cs => (0, cs)
  | _ + 1, [] => (0, [])
  | count + 1, c :: cs =>
    let (dropped, rest) := drop (count + 1 - ofChar c) cs
    (ofChar c + dropped, rest)

/-- What lies in the first columns of a text. -/
def take : (count : Nat) → List Char → List Char
  | _, [] => []
  | count, c :: cs => if ofChar c ≤ count then c :: take (count - ofChar c) cs else []

end IncrementalParsing.Columns
