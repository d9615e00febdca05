import IncrementalParsing.Unicode.Data.Additions
import IncrementalParsing.Unicode.Property

/-!
# Properties by version 17

Patterns ask for the properties of version 16.  Names and quoted text follow version 17, whose sets
are those of version 16 with what it adds: `Latest.letter` and `Latest.number` are what names are
made of, `Latest.visible` is what can be seen where it stands in a text.
-/

namespace IncrementalParsing.Unicode.Latest

/-- Letters, letter numbers and what else is written like them. -/
def letter : CodeSet := alphabetic.union (.ofRanges (addedLetters ++ addedVowelMarks))

/-- Digits and other numbers. -/
def number : CodeSet := (categories ["nd", "nl", "no"]).union (.ofRanges addedDigits)

/-- The characters that have a shape: assigned, and neither a control, format or private character
nor a blank other than the space. -/
def shaped : CodeSet :=
  .unions [(CodeSet.unions [unassigned, categories ["cc", "cf", "co", "zs", "zl", "zp"]]).compl,
    .singleton ' ', .ofRanges addedLetters, .ofRanges addedVowelMarks, .ofRanges addedMarks,
    .ofRanges addedDigits, .ofRanges addedSymbols]

/-- The marks that are drawn onto the character before them.  The modifier letters that extend it
too have an extent of their own. -/
def attached : CodeSet :=
  (graphemeExtend.diff (category "lm")).union (.ofRanges (addedVowelMarks ++ addedMarks))

/-- The characters that can be seen on their own: shaped, not drawn onto another one, and none of
the fillers that are left blank. -/
def visible : CodeSet := (shaped.diff attached).diff defaultIgnorable

end IncrementalParsing.Unicode.Latest
