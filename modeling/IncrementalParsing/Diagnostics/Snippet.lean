import IncrementalParsing.Sum
import IncrementalParsing.Text.Blank
import IncrementalParsing.Text.Columns
import IncrementalParsing.Text.Utf8

/-!
# Marked excerpts of a text

`Snippet.render` shows the lines of a text that a range of bytes touches, with line numbers in front,
a line of carets under the range, and a label behind them.

A range within one line is marked from its first to its last column.  One over several lines is marked
at its ends, which a bar to the left of the lines joins; of a long one only the beginning and the end
are shown.  Lines are cut to a `Window` where they are wider than the terminal, and of a range that
is much wider the middle is left out.
-/

namespace IncrementalParsing

/-- A line of a text. -/
structure TextLine where
  /-- Counted from one. -/
  number : Nat
  /-- Where the line begins. -/
  start : Nat
  /-- The line without its line break. -/
  content : List Char
  /-- Where the next line begins. -/
  next : Nat
deriving DecidableEq, Inhabited

/-- A place in a line. -/
structure LinePlace where
  line : TextLine
  /-- The characters before it. -/
  chars : Nat
  /-- The columns before it. -/
  column : Nat
deriving DecidableEq, Inhabited

namespace TextLine

/-- The line without a carriage return at its end. -/
def withoutReturn (cs : List Char) : List Char :=
  match cs.reverse with
  | '\r' :: rest => rest.reverse
  | _ => cs

/-- The lines of a text from a place on; `current` are the characters of the line begun, latest first.
Where a line has neither a character nor a line break there is none. -/
def split (number start place : Nat) (current : List Char) : List Char → List TextLine
  | [] => if current.isEmpty then [] else [⟨number, start, current.reverse, place⟩]
  | '\n' :: rest =>
    ⟨number, start, withoutReturn current.reverse, place + 1⟩
      :: split (number + 1) (place + 1) (place + 1) [] rest
  | c :: rest => split number start (place + c.utf8Size) (c :: current) rest

/-- The lines of a text.  A line break ends its line and begins no other by itself; a text without
any character is one empty line. -/
def ofText (text : String) : List TextLine :=
  if text.isEmpty then [⟨1, 0, [], 0⟩] else split 1 0 0 [] text.toList

/-- The blanks that a line begins with. -/
def indentation (l : TextLine) : Nat :=
  sumOf (fun c => if c == '\t' then 4 else 1) (l.content.takeWhile isBlank)

/-- The columns of a line. -/
def columns (l : TextLine) : Nat := Columns.ofChars l.content

def isEmpty (l : TextLine) : Bool := l.content.all isBlank

/-- The characters in the first `size` bytes. -/
def charsWithin : (size : Nat) → List Char → List Char
  | _, [] => []
  | size, c :: rest => if c.utf8Size ≤ size then c :: charsWithin (size - c.utf8Size) rest else []

/-- The number of bytes without the line break. -/
def size (l : TextLine) : Nat := sumOf Char.utf8Size l.content

/-- Whether a line says little: it is blank, a comment, or a single bracket. -/
def isBare (l : TextLine) : Bool :=
  let text := trim (String.ofList l.content)
  (text.startsWith "//" && !text.startsWith "///" && !text.startsWith "//!")
    || ["", "\x7b", "\x7d", "(", ")", "[", "]"].contains text

/-- The line in which a place lies; past the end it is the last. -/
def find (lines : List TextLine) (place : Nat) : TextLine :=
  ((lines.find? fun l => decide (l.start ≤ place) && decide (place < l.next)).or
    lines.getLast?).getD default

/-- A place in its line. -/
def locate (lines : List TextLine) (place : Nat) : LinePlace :=
  let line := find lines place
  let before := charsWithin (place - line.start) line.content
  ⟨line, before.length, Columns.ofChars before⟩

end TextLine

/-- The columns of long lines that are shown. -/
structure Window where
  left : Nat
  right : Nat
  /-- The columns there are. -/
  width : Nat
deriving DecidableEq, Inhabited

namespace Window

/-- The window for lines that are `longest` columns long and begin with `blank` blanks, in which the
columns from `left` to `right` are marked; the labels end at `labelRight`.  Blanks go first, but none
that are marked, and then what is far from the marks. -/
def around (blank left right labelRight longest width : Nat) : Window :=
  let blank := min blank left - 6
  let left := left - 6
  let right := right + 6
  let labelRight := labelRight + 6
  let first := if 20 < blank then blank - 16 else 0
  let last := max longest first
  let sized (first : Nat) : Window := ⟨first, first + width, width⟩
  if last - first ≤ width then ⟨first, last, width⟩
  else if labelRight - blank ≤ width then sized blank
  else if labelRight - left ≤ width then sized (left - (width - (labelRight - left)) / 2)
  else if right - left ≤ width then sized (left - (width - (right - left)) / 5 * 2)
  else ⟨left, right, width⟩

/-- The end of what is shown of a line of some length. -/
def rightOf (w : Window) (length : Nat) : Nat :=
  if length - w.left ≤ w.width then length else min length w.right

end Window

/-- The mark for what is left out. -/
def ellipsis : List Char := ['.', '.', '.']

/-- A row of a snippet. -/
abbrev SnippetRow := List Char

namespace SnippetRow

/-- Writes over a row from a place on. -/
def put (row : SnippetRow) (place : Nat) (text : List Char) : SnippetRow :=
  row.take place ++ List.replicate (place - row.length) ' ' ++ text
    ++ row.drop (place + text.length)

/-- Leaves out a part of a row. -/
def shorten (row : SnippetRow) (first last : Nat) : SnippetRow :=
  if row.length < last then row else row.take first ++ ellipsis ++ row.drop last

end SnippetRow

/-- What a window shows of a line, and the column at which that begins. -/
structure ShownLine where
  code : List Char
  left : Nat
deriving DecidableEq, Inhabited

/-- What is shown of a line; dots stand where it is cut. -/
def Window.cut (w : Window) (line : List Char) : ShownLine :=
  let length := Columns.ofChars line
  let left := min w.left length
  let right := w.rightOf length
  let (dropped, rest) := Columns.drop left line
  let code := Columns.take (right - left) rest
  let begun : ShownLine :=
    if w.left = 0 then ⟨code, left⟩
    else
      let (covered, rest) := Columns.drop ellipsis.length code
      ⟨SnippetRow.put ellipsis covered rest, max left dropped - (covered - ellipsis.length)⟩
  if right < length then
    let covered := code.length - (Columns.drop ellipsis.length code.reverse).2.length
    { begun with code := SnippetRow.put begun.code (begun.code.length - covered) ellipsis }
  else begun

/-- How a line is marked; columns are counted from zero. -/
inductive LineMark where
  /-- The whole range. -/
  | whole (start finish : Nat)
  /-- Where a range over several lines begins; `first` if only blanks stand before it. -/
  | opening (start : Nat) (first : Bool)
  | inside
  /-- Where a range over several lines ends. -/
  | closing (finish : Nat)
deriving DecidableEq, Inhabited

namespace LineMark

/-- The columns that a mark reaches from and to. -/
def extent : LineMark → Nat × Nat
  | .whole start finish => (start, finish)
  | .opening start _ => (start, start + 1)
  | .inside => (0, 0)
  | .closing finish => (finish - 1, finish)

/-- Whether the label stands at the mark. -/
def hasLabel : LineMark → Bool
  | .whole .. | .closing _ => true
  | _ => false

end LineMark

/-- A text in which a range is marked. -/
structure Snippet where
  lines : List TextLine
  label : String
  start : LinePlace
  finish : LinePlace
  /-- The columns that the numbers of lines take. -/
  numberWidth : Nat
deriving Inhabited

namespace Snippet

/-- The columns of a terminal. -/
def terminalWidth : Nat := 140

/-- A snippet for a range of a text. -/
def ofRange (text : String) (start finish : Nat) (label : String) : Snippet :=
  let lines := TextLine.ofText text
  let first := TextLine.locate lines start
  let last := if start = finish then first else TextLine.locate lines finish
  -- A place inside a line break lies after the last character.
  let first :=
    if first.line.size < start - first.line.start then { first with chars := first.chars + 1 }
    else first
  let several := first.line.number ≠ last.line.number
  let last :=
    if several ∧ last.line.size < finish - last.line.start then
      { last with chars := last.chars + 1, column := last.column + 1 }
    else last
  let last :=
    if ¬several ∧ first.column = last.column then
      { last with chars := last.chars + 1, column := last.column + 1 }
    else last
  ⟨lines, label, first, last, (Nat.toDigits 10 last.line.number).length⟩

/-- Whether the range lies in one line. -/
def isSingleLine (s : Snippet) : Bool := s.start.line.number == s.finish.line.number

/-- The line of a number. -/
def line (s : Snippet) (number : Nat) : TextLine := (s.lines[number - 1]?).getD default

/-- The numbers of the lines marked on their whole length: up to three after the first, without bare
ones at their end, and the last but one if lines are left out before it. -/
def insideNumbers (s : Snippet) : List Nat :=
  let first := s.start.line.number
  let last := s.finish.line.number
  let middle := min (first + 4) last
  let head := (List.range' first (middle - first)).reverse.dropWhile fun n => (s.line n).isBare
  let head := head.reverse.drop 1
  head ++ if middle < last - 1 ∧ !(s.line (last - 1)).isBare then [last - 1] else []

/-- The lines that are marked, in order. -/
def markedLines (s : Snippet) : List (TextLine × LineMark) :=
  if s.isSingleLine then [(s.start.line, .whole s.start.column s.finish.column)]
  else
    let first := (s.start.line.content.take s.start.chars).all isBlank
    (s.start.line, .opening s.start.column first)
      :: s.insideNumbers.map (fun n => (s.line n, .inside))
      ++ [(s.finish.line, .closing s.finish.column)]

/-- Where the numbers of lines are followed by a bar. -/
def separatorColumn (s : Snippet) : Nat := s.numberWidth + 1

/-- Where the bar of a range over several lines stands. -/
def barColumn (s : Snippet) : Nat := s.numberWidth + 3

/-- Where the text of the lines begins. -/
def codeColumn (s : Snippet) : Nat := if s.isSingleLine then s.numberWidth + 3 else s.numberWidth + 5

/-- The columns of the lines that are shown. -/
def window (s : Snippet) : Window :=
  let marked := s.markedLines
  let least (ns : List Nat) : Nat := (ns.min?).getD 0
  let most (ns : List Nat) : Nat := (ns.max?).getD 0
  let blank := least (marked.filterMap fun (l, _) => if l.isEmpty then none else some l.indentation)
  let labelWidth (m : LineMark) : Nat :=
    if m.hasLabel then Columns.ofChars s.label.toList + 1 else 0
  .around blank (least (marked.map fun (_, m) => m.extent.1))
    (most (marked.map fun (_, m) => m.extent.2))
    (most (marked.map fun (_, m) => m.extent.2 + labelWidth m))
    (most (marked.map fun (l, _) => l.columns))
    (terminalWidth - s.codeColumn)

/-- A row without a number. -/
def plainRow (s : Snippet) : SnippetRow := SnippetRow.put [] s.separatorColumn ['|']

/-- What is shown of a line. -/
def shownLine (s : Snippet) (l : TextLine) : ShownLine := s.window.cut (Columns.shown l.content)

/-- A row with a line of the text. -/
def codeRow (s : Snippet) (l : TextLine) : SnippetRow :=
  let code := (s.shownLine l).code
  let number := (toString l.number).toList
  let row := (s.plainRow).put (s.numberWidth - number.length) number
  if code.isEmpty then row else row.put s.codeColumn code

/-- A row with the bar of a range over several lines. -/
def withBar (s : Snippet) (row : SnippetRow) : SnippetRow := row.put s.barColumn ['|']

/-- A row with carets from one column to another, and the label behind them. -/
def caretRow (s : Snippet) (row : SnippetRow) (shift start finish : Nat) (label : String) :
    SnippetRow :=
  let carets := List.replicate (max 1 (finish - start)) '^'
  let marked := row.put (s.codeColumn + start - shift) carets
  if label.isEmpty then marked
  else marked.put (s.codeColumn + (max finish 1) + 1 - shift) label.toList

/-- The rows of a marked line. -/
def markedRows (s : Snippet) (l : TextLine) (m : LineMark) : List SnippetRow :=
  let code := s.codeRow l
  let shift := (s.shownLine l).left
  let stroke (row : SnippetRow) (column : Nat) : SnippetRow :=
    row.put (s.barColumn + 1) (List.replicate (s.codeColumn + column - shift - (s.barColumn + 1)) '_')
  match m with
  | .whole start finish =>
    let rows := [code, s.caretRow s.plainRow shift start finish s.label]
    let width := s.window.width
    if 2 * width < finish - start && 10 < finish - start then
      let kept := max (width / 3) 5
      rows.map (·.shorten (s.codeColumn + start + kept - shift) (s.codeColumn + finish - kept - shift))
    else rows
  | .opening _ true => [code.put s.barColumn ['/']]
  | .opening start false => [code, s.caretRow (stroke s.plainRow start) shift start (start + 1) ""]
  | .inside => [s.withBar code]
  | .closing finish =>
    [s.withBar code,
     s.caretRow (stroke (s.withBar s.plainRow) (finish - 1)) shift (finish - 1) finish s.label]

/-- The rows between two marked lines: a single line is shown, more are left out. -/
def rowsBetween (s : Snippet) (before after : Nat) : List SnippetRow :=
  if after = before + 2 then [s.withBar (s.codeRow (s.line (before + 1)))]
  else if before + 2 < after then [s.withBar ['.', '.', '.']]
  else []

/-- The rows of marked lines and of what lies between them. -/
def rowsOf (s : Snippet) : List (TextLine × LineMark) → List SnippetRow
  | [] => []
  | [(l, m)] => s.markedRows l m
  | (l, m) :: (l', m') :: rest =>
    s.markedRows l m ++ s.rowsBetween l.number l'.number ++ rowsOf s ((l', m') :: rest)

/-- The snippet under a title, with the path of the text and where the range begins. -/
def render (s : Snippet) (title path : String) : String :=
  let place := String.ofList (List.replicate s.numberWidth ' ') ++ "--> " ++ path
    ++ s!":{s.start.line.number}:{s.start.chars + 1}"
  String.intercalate "\n" ([title, place] ++ (s.plainRow :: s.rowsOf s.markedLines).map String.ofList)

end Snippet

end IncrementalParsing
