/-!
# Colours of terminal output

A `Palette` holds the control sequences for names, literal tokens, errors and structure; the plain
one holds none.
-/

namespace IncrementalParsing

/-- What switches a colour on, and what switches it off. -/
structure Palette where
  /-- Names of symbols and rules. -/
  blue : String
  /-- Literal tokens. -/
  green : String
  /-- Errors. -/
  red : String
  /-- Numbers, offsets and structure. -/
  dim : String
  reset : String
deriving DecidableEq, Inhabited

namespace Palette

/-- No colours. -/
def plain : Palette := ⟨"", "", "", "", ""⟩

/-- The standard terminal colours. -/
def ansi : Palette :=
  ⟨"\x1b[34m", "\x1b[32m", "\x1b[31m", "\x1b[2m", "\x1b[0m"⟩

/-- Colours if asked for. -/
def ofBool (colored : Bool) : Palette := if colored then ansi else plain

/-- A text in one colour. -/
def paint (p : Palette) (color text : String) : String := color ++ text ++ p.reset

end Palette

end IncrementalParsing
