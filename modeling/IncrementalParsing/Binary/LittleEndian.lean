import IncrementalParsing.Text.Length

/-!
# Numbers in bytes

Numbers are written with their lowest byte first.  `littleEndian` writes one in a given number of
bytes, `takeNumber?` reads one off the front of a list of bytes, and `numberAt?` reads one inside
a byte array.
-/

namespace IncrementalParsing

/-- A number in `width` bytes, the lowest first; higher digits are dropped. -/
def littleEndian : (width n : Nat) → List UInt8
  | 0, _ => []
  | width + 1, n => UInt8.ofNat (n % 256) :: littleEndian width (n / 256)

/-- Reads a number of `width` bytes off the front. -/
def takeNumber? : (width : Nat) → List UInt8 → Option (Nat × List UInt8)
  | 0, bytes => some (0, bytes)
  | _ + 1, [] => none
  | width + 1, b :: rest => do
    let (n, rest) ← takeNumber? width rest
    return (b.toNat + 256 * n, rest)

/-- The number in the `width` bytes from `offset` on, if they are there. -/
def numberAt? (bytes : ByteArray) (width offset : Nat) : Option Nat :=
  match width with
  | 0 => some 0
  | width + 1 => do
    let b ← byteAt? bytes offset
    let rest ← numberAt? bytes width (offset + 1)
    return b.toNat + 256 * rest

/-- Bytes as an array. -/
def ofBytes (bytes : List UInt8) : ByteArray := ⟨bytes.toArray⟩

/-- A number of 16 bits as the signed number that it stands for. -/
def signed16 (n : Nat) : Int := Int.bmod n 65536

/-- A signed number of 16 bits as an unsigned one. -/
def unsigned16 (n : Int) : Nat := (n % 65536).toNat

end IncrementalParsing
