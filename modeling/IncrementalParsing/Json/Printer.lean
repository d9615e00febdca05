import IncrementalParsing.Json.Basic

/-!
# Writing JSON

`Json.compact` writes a value without blanks, `Json.pretty` with one part a line and two blanks for
each level.  Quotes, backslashes and control characters are escaped and all else is written as it is.
-/

namespace IncrementalParsing.Json

/-- A hexadecimal digit below sixteen. -/
def digitChar (n : Nat) : Char := Nat.digitChar n

/-- A character as it stands in a string literal. -/
def escapeChar (c : Char) : String :=
  if c == '"' then "\\\""
  else if c == '\\' then "\\\\"
  else if c == '\n' then "\\n"
  else if c == '\r' then "\\r"
  else if c == '\t' then "\\t"
  else if c.toNat == 8 then "\\b"
  else if c.toNat == 12 then "\\f"
  else if c.toNat < 0x20 then
    "\\u00" ++ String.ofList [digitChar (c.toNat / 16), digitChar (c.toNat % 16)]
  else c.toString

/-- A string literal. -/
def quote (s : String) : String :=
  "\"" ++ s.foldl (fun out c => out ++ escapeChar c) "" ++ "\""

/-- A number; decimals keep their digits. -/
def numberText : Number → String
  | .integer n => toString n
  | .decimal m e => s!"{m}e{e}"

mutual

/-- A value without blanks. -/
def compact : Json → String
  | .null => "null"
  | .bool b => if b then "true" else "false"
  | .number n => numberText n
  | .string s => quote s
  | .unpaired => "\"\""
  | .array elements => "[" ++ String.intercalate "," (compactElements elements) ++ "]"
  | .object members => "\x7b" ++ String.intercalate "," (compactMembers members) ++ "\x7d"

def compactElements : List Json → List String
  | [] => []
  | v :: rest => compact v :: compactElements rest

def compactMembers : List (Option String × Json) → List String
  | [] => []
  | (name, v) :: rest => (quote (name.getD "") ++ ":" ++ compact v) :: compactMembers rest

end

/-- The start of a line at a level. -/
def indent (level : Nat) : String := String.ofList (List.replicate (2 * level) ' ')

/-- Parts between brackets, one a line. -/
def block (level : Nat) (opening closing : String) (parts : List String) : String :=
  if parts.isEmpty then opening ++ closing
  else
    opening ++ "\n" ++ String.intercalate ",\n" (parts.map (indent (level + 1) ++ ·)) ++ "\n"
      ++ indent level ++ closing

mutual

/-- A value with its parts on lines of their own, inside `level` others. -/
def prettyAt (level : Nat) : Json → String
  | .array elements => block level "[" "]" (prettyElements (level + 1) elements)
  | .object members => block level "\x7b" "\x7d" (prettyMembers (level + 1) members)
  | .null => "null"
  | .bool b => if b then "true" else "false"
  | .number n => numberText n
  | .string s => quote s
  | .unpaired => "\"\""

def prettyElements (level : Nat) : List Json → List String
  | [] => []
  | v :: rest => prettyAt level v :: prettyElements level rest

def prettyMembers (level : Nat) : List (Option String × Json) → List String
  | [] => []
  | (name, v) :: rest =>
    (quote (name.getD "") ++ ": " ++ prettyAt level v) :: prettyMembers level rest

end

/-- A value with its parts on lines of their own. -/
def pretty (v : Json) : String := prettyAt 0 v

end IncrementalParsing.Json
