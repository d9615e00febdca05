import IncrementalParsing.Text.Hex
import IncrementalParsing.Unicode.Latest

/-!
# Quoted text

`quoted` writes a text between double quotes so that every character can be seen: quotes and
backslashes are escaped, the usual controls have letters of their own, and what cannot be seen on
its own is written by its code point.
-/

namespace IncrementalParsing

/-- A character as it stands in quoted text. -/
def quotedChar (c : Char) : String :=
  if c == '"' then "\\\""
  else if c == '\\' then "\\\\"
  else if c == '\n' then "\\n"
  else if c == '\r' then "\\r"
  else if c == '\t' then "\\t"
  else if c.toNat == 0 then "\\0"
  else if Unicode.Latest.visible.mem c.toNat then c.toString
  else "\\u\x7b" ++ hexDigits c.toNat ++ "\x7d"

/-- A text between quotes. -/
def quoted (s : String) : String := "\"" ++ String.join (s.toList.map quotedChar) ++ "\""

end IncrementalParsing
