import IncrementalParsing.Unicode.Property

/-!
# Blanks

Blanks are the characters with Unicode's property of white space.  `trim` takes them off both ends of
a text.
-/

namespace IncrementalParsing

def isBlank (c : Char) : Bool := Unicode.whiteSpace.mem c.toNat

/-- A list of characters without the blanks at its ends. -/
def trimChars (cs : List Char) : List Char :=
  ((cs.dropWhile isBlank).reverse.dropWhile isBlank).reverse

/-- A text without the blanks at its ends. -/
def trim (s : String) : String := String.ofList (trimChars s.toList)

end IncrementalParsing
