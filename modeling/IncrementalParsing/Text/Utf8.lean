import IncrementalParsing.Text.Length

/-!
# Decoding UTF-8

`Utf8.decode` turns bytes into text, or says where they first stop being UTF-8: a `Fault` names the
index of the sequence at fault and how many bytes of it are wrong, which is unknown where the bytes
end inside a character.
-/

namespace IncrementalParsing.Utf8

/-- Where bytes stop being UTF-8. -/
structure Fault where
  index : Nat
  length : Option Nat
deriving DecidableEq, Inhabited

namespace Fault

/-- The wording of a fault. -/
def message (f : Fault) : String :=
  match f.length with
  | some n => s!"invalid utf-8 sequence of {n} bytes from index {f.index}"
  | none => s!"incomplete utf-8 byte sequence from index {f.index}"

end Fault

/-- How many bytes follow a lead byte, with the range of the first of them; nothing for a byte that
leads no character. -/
def tailShape? (lead : UInt8) : Option (Nat × UInt8 × UInt8) :=
  if lead < 0x80 then some (0, 0x80, 0xBF)
  else if 0xC2 ≤ lead && lead ≤ 0xDF then some (1, 0x80, 0xBF)
  else if lead == 0xE0 then some (2, 0xA0, 0xBF)
  else if lead == 0xED then some (2, 0x80, 0x9F)
  else if 0xE1 ≤ lead && lead ≤ 0xEF then some (2, 0x80, 0xBF)
  else if lead == 0xF0 then some (3, 0x90, 0xBF)
  else if 0xF1 ≤ lead && lead ≤ 0xF3 then some (3, 0x80, 0xBF)
  else if lead == 0xF4 then some (3, 0x80, 0x8F)
  else none

/-- Checks the `owed` bytes that follow the first `done` ones of the character at `start`; the next
one lies between `lo` and `hi`. -/
def checkTail (bytes : ByteArray) (start : Nat) :
    (owed done : Nat) → (lo hi : UInt8) → Except Fault Unit
  | 0, _, _, _ => .ok ()
  | owed + 1, done, lo, hi =>
    match byteAt? bytes (start + done) with
    | none => .error ⟨start, none⟩
    | some b =>
      if lo ≤ b && b ≤ hi then checkTail bytes start owed (done + 1) 0x80 0xBF
      else .error ⟨start, some done⟩

/-- Checks the characters from `i` on, at most `fuel` of them. -/
def check (bytes : ByteArray) : (fuel i : Nat) → Except Fault Unit
  | 0, _ => .ok ()
  | fuel + 1, i =>
    match byteAt? bytes i with
    | none => .ok ()
    | some lead =>
      match tailShape? lead with
      | none => .error ⟨i, some 1⟩
      | some (owed, lo, hi) =>
        match checkTail bytes i owed 1 lo hi with
        | .error fault => .error fault
        | .ok () => check bytes fuel (i + owed + 1)

/-- The first fault, if any. -/
def fault? (bytes : ByteArray) : Option Fault :=
  match check bytes bytes.size 0 with
  | .ok () => none
  | .error fault => some fault

/-- The text that the bytes encode. -/
def decode (bytes : ByteArray) : Except Fault String :=
  match String.fromUTF8? bytes with
  | some text => .ok text
  | none => .error ((fault? bytes).getD ⟨0, some 1⟩)

/-- The text of a range that is made of whole characters of a text. -/
def slice? (text : ByteArray) (start finish : Nat) : Option String :=
  if start ≤ finish && isBoundary text start && isBoundary text finish then
    String.fromUTF8? (text.extract start finish)
  else none

end IncrementalParsing.Utf8
