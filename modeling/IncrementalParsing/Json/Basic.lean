/-!
# JSON values

A `Json` keeps what a reader of grammars has to see: the members of an object in the order in which
they were written, repeated ones included, and whether a number was written as an integer.

* `Number.integer` is a number without fraction and exponent in the range of 64 bits;
  every other one, `-0` included, is a `Number.decimal`;
* `Json.unpaired` is a string literal that holds half of a surrogate pair and so stands for no text;
  a member with such a name has no name.
-/

namespace IncrementalParsing

/-- A number as it was written. -/
inductive Number where
  | integer (value : Int)
  /-- As many of the digits as fit into 64 bits, and the power of ten that they count. -/
  | decimal (significand : Nat) (exponent : Int)
deriving DecidableEq, Inhabited

/-- A JSON value. -/
inductive Json where
  | null
  | bool (value : Bool)
  | number (value : Number)
  | string (value : String)
  | unpaired
  | array (elements : List Json)
  | object (members : List (Option String × Json))
deriving Inhabited

namespace Number

/-- The number of 53 binary digits, followed by zeros, that is nearest; of two, the even one. -/
def rounded (n : Nat) : Nat :=
  if n < 0x20000000000000 then n
  else
    let unit := Nat.pow 2 (n.log2 - 52)
    let q := n / unit
    let r := n % unit
    if 2 * r < unit || (2 * r == unit && q % 2 == 0) then q * unit else (q + 1) * unit

/-- Whether the number is too large for a floating-point number of 64 bits.  The significand and the
power of ten are each rounded before they are multiplied, so that the last digits may matter. -/
def isTooLarge : Number → Bool
  | .integer _ => false
  | .decimal _ (.negSucc _) => false
  | .decimal m (.ofNat e) =>
    m ≠ 0 && (308 < e
      || Nat.pow 2 1024 - Nat.pow 2 970 ≤ rounded m * rounded (Nat.pow 10 e))

end Number

namespace Json

def ofNat (n : Nat) : Json := .number (.integer n)
def ofInt (n : Int) : Json := .number (.integer n)

/-- An object without repeated or unnamed members. -/
def ofMembers (members : List (String × Json)) : Json :=
  .object (members.map fun m => (some m.1, m.2))

/-- The value of the last member of a name. -/
def member? (name : String) : Json → Option Json
  | .object members => (members.reverse.find? (·.1 == some name)).map (·.2)
  | _ => none

end Json

end IncrementalParsing
