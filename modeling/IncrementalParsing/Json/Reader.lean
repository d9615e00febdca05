import IncrementalParsing.Json.Basic
import IncrementalParsing.Text.Hex

/-!
# Reading JSON

`Json.parse?` reads a text that holds one value with nothing but blanks around it.  The readers of
the parts take the characters left and give back those that they did not use; the fuel that bounds
the nested ones is the number of characters.
-/

namespace IncrementalParsing.Json

/-- The characters that may stand between any two parts of a value. -/
def isBlank (c : Char) : Bool := c == ' ' || c == '\n' || c == '\t' || c == '\r'

def skipBlanks : List Char → List Char
  | [] => []
  | c :: cs => if isBlank c then skipBlanks cs else c :: cs

/-- The number written by the next four hexadecimal digits. -/
def hexQuad? : List Char → Option (Nat × List Char)
  | a :: b :: c :: d :: rest => do
    let a ← hexDigit? a
    let b ← hexDigit? b
    let c ← hexDigit? c
    let d ← hexDigit? d
    return (((a * 16 + b) * 16 + c) * 16 + d, rest)
  | _ => none

/-- The character of a short escape. -/
def shortEscape? (c : Char) : Option Char :=
  match c with
  | '"' => some '"'
  | '\\' => some '\\'
  | '/' => some '/'
  | 'b' => some '\x08'
  | 'f' => some '\x0c'
  | 'n' => some '\n'
  | 'r' => some '\r'
  | 't' => some '\t'
  | _ => none

/-- The second half of a surrogate pair, if it is written next. -/
def lowHalf? : List Char → Option (Nat × List Char)
  | '\\' :: 'u' :: rest =>
    match hexQuad? rest with
    | some (n, rest) => if 0xDC00 ≤ n && n ≤ 0xDFFF then some (n, rest) else none
    | none => none
  | _ => none

/-- Reads the rest of a string literal; `acc` holds its characters in reverse, and nothing once half
of a surrogate pair was met. -/
def stringTail (fuel : Nat) (acc : Option (List Char)) (cs : List Char) :
    Option (Option String × List Char) :=
  match fuel, cs with
  | fuel + 1, '"' :: rest => let _ := fuel; some (acc.map fun r => String.ofList r.reverse, rest)
  | fuel + 1, '\\' :: 'u' :: rest =>
    match hexQuad? rest with
    | none => none
    | some (n, rest) =>
      if 0xD800 ≤ n && n ≤ 0xDBFF then
        match lowHalf? rest with
        | some (low, rest) =>
          let code := 0x10000 + (n - 0xD800) * 0x400 + (low - 0xDC00)
          stringTail fuel (acc.map (Char.ofNat code :: ·)) rest
        | none => stringTail fuel none rest
      else if 0xDC00 ≤ n && n ≤ 0xDFFF then stringTail fuel none rest
      else stringTail fuel (acc.map (Char.ofNat n :: ·)) rest
  | fuel + 1, '\\' :: c :: rest =>
    match shortEscape? c with
    | some c => stringTail fuel (acc.map (c :: ·)) rest
    | none => none
  | fuel + 1, c :: rest =>
    if c.toNat < 0x20 || c == '\\' then none else stringTail fuel (acc.map (c :: ·)) rest
  | _, _ => none

/-- The value of a decimal digit. -/
def digitValue (c : Char) : Nat := c.toNat - 48

/-- The number written by digits, after those that make `acc`. -/
def numeral (acc : Nat) (digits : List Char) : Nat :=
  digits.foldl (fun n c => n * 10 + digitValue c) acc

/-- As many of the digits, after those that make `acc`, as fit into 64 bits, and how many do not. -/
def leading (acc : Nat) : (digits : List Char) → Nat × Nat
  | [] => (acc, 0)
  | c :: cs =>
    let next := acc * 10 + digitValue c
    if next < 0x10000000000000000 then leading next cs else (acc, cs.length + 1)

/-- The digits of a fraction; none where there is no point. -/
def fraction? : List Char → Option (List Char × List Char)
  | '.' :: cs =>
    let digits := cs.takeWhile Char.isDigit
    if digits.isEmpty then none else some (digits, cs.dropWhile Char.isDigit)
  | cs => some ([], cs)

/-- The exponent; nothing where none is written. -/
def exponent? (cs : List Char) : Option (Option Int × List Char) :=
  match cs with
  | e :: rest =>
    if e == 'e' || e == 'E' then
      let (negative, rest) := match rest with
        | '-' :: rest => (true, rest)
        | '+' :: rest => (false, rest)
        | rest => (false, rest)
      let digits := rest.takeWhile Char.isDigit
      let n : Int := numeral 0 digits
      if digits.isEmpty then none
      else some (some (if negative then -n else n), rest.dropWhile Char.isDigit)
    else some (none, cs)
  | [] => some (none, [])

/-- A number after its sign. -/
def unsigned? (negative : Bool) (cs : List Char) : Option (Number × List Char) := do
  let whole := cs.takeWhile Char.isDigit
  if whole.isEmpty || (1 < whole.length && whole.head? == some '0') then none
  let (places, rest) ← fraction? (cs.dropWhile Char.isDigit)
  let (exponent, rest) ← exponent? rest
  let n := numeral 0 whole
  let inRange := if negative then n ≤ 0x8000000000000000 && n ≠ 0 else n < 0x10000000000000000
  if places.isEmpty && exponent.isNone && inRange then
    return (.integer (if negative then -(n : Int) else n), rest)
  else
    let (front, more) := leading 0 whole
    let (significand, unused) := leading front places
    let shift : Int := more - (places.length - unused : Nat)
    return (.decimal significand (exponent.getD 0 + shift), rest)

/-- A number. -/
def number? : List Char → Option (Number × List Char)
  | '-' :: cs => unsigned? true cs
  | cs => unsigned? false cs

/-- What is left after a given word. -/
def afterWord? : (word cs : List Char) → Option (List Char)
  | [], cs => some cs
  | w :: ws, c :: cs => if w = c then afterWord? ws cs else none
  | _ :: _, [] => none

mutual

/-- Reads a value that starts at the first character. -/
def value? : Nat → List Char → Option (Json × List Char)
  | 0, _ => none
  | fuel + 1, cs =>
    match cs with
    | [] => none
    | '"' :: rest => (stringTail (rest.length + 1) (some []) rest).map fun (s, rest) =>
      (match s with | some s => .string s | none => .unpaired, rest)
    | '[' :: rest =>
      match skipBlanks rest with
      | ']' :: rest => some (.array [], rest)
      | rest => elements? fuel [] rest
    | '\x7b' :: rest =>
      match skipBlanks rest with
      | '\x7d' :: rest => some (.object [], rest)
      | rest => members? fuel [] rest
    | 'n' :: rest => (afterWord? ['u', 'l', 'l'] rest).map fun rest => (.null, rest)
    | 't' :: rest => (afterWord? ['r', 'u', 'e'] rest).map fun rest => (.bool true, rest)
    | 'f' :: rest => (afterWord? ['a', 'l', 's', 'e'] rest).map fun rest => (.bool false, rest)
    | cs => (number? cs).map fun (n, rest) => (.number n, rest)

/-- Reads the elements of an array up to its end; `acc` holds those before in reverse. -/
def elements? : Nat → List Json → List Char → Option (Json × List Char)
  | 0, _, _ => none
  | fuel + 1, acc, cs =>
    match value? fuel (skipBlanks cs) with
    | none => none
    | some (v, rest) =>
      match skipBlanks rest with
      | ',' :: rest => elements? fuel (v :: acc) rest
      | ']' :: rest => some (.array (v :: acc).reverse, rest)
      | _ => none

/-- Reads the members of an object up to its end; `acc` holds those before in reverse. -/
def members? : Nat → List (Option String × Json) → List Char → Option (Json × List Char)
  | 0, _, _ => none
  | fuel + 1, acc, cs =>
    match skipBlanks cs with
    | '"' :: rest =>
      match stringTail (rest.length + 1) (some []) rest with
      | none => none
      | some (name, rest) =>
        match skipBlanks rest with
        | ':' :: rest =>
          match value? fuel (skipBlanks rest) with
          | none => none
          | some (v, rest) =>
            match skipBlanks rest with
            | ',' :: rest => members? fuel ((name, v) :: acc) rest
            | '\x7d' :: rest => some (.object ((name, v) :: acc).reverse, rest)
            | _ => none
        | _ => none
    | _ => none

end

/-- The value that a text holds. -/
def parse? (text : String) : Option Json :=
  let cs := text.toList
  match value? (cs.length + 1) (skipBlanks cs) with
  | some (v, rest) => if (skipBlanks rest).isEmpty then some v else none
  | none => none

end IncrementalParsing.Json
