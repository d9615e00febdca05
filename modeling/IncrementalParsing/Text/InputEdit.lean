import IncrementalParsing.Text.Edit

/-!
# Edits in 32 bits

The places that an edit names are handed over as numbers of 32 bits.  `Length32` and `InputEdit` are
`Length` and `Edit` in this width: a number of bytes is cut to 32 bits, while rows and columns are
counted in them and begin again at zero behind the last number.

Texts of no more than `maxTextSize` bytes are described as they are.  Longer ones are not parsed.
-/

namespace IncrementalParsing

/-- The most bytes that a text may have: as many as a number of 32 bits counts. -/
def maxTextSize : Nat := 0xFFFFFFFF

/-- Zero-based row and byte column, in 32 bits. -/
structure Point32 where
  row : UInt32
  column : UInt32
deriving DecidableEq, Inhabited

namespace Point32

/-- The point after one more byte: a line break starts the next row. -/
def push (p : Point32) (byte : UInt8) : Point32 :=
  if byte = 10 then ⟨p.row + 1, 0⟩ else ⟨p.row, p.column + 1⟩

/-- The point reached by going on from `p` over a piece that reaches `q` by itself. -/
def append (p q : Point32) : Point32 :=
  if 0 < q.row then ⟨p.row + q.row, q.column⟩ else ⟨p.row, p.column + q.column⟩

def toPoint (p : Point32) : Point := ⟨p.row.toNat, p.column.toNat⟩

end Point32

/-- A number of bytes and the point they reach, in 32 bits. -/
structure Length32 where
  bytes : UInt32
  extent : Point32
deriving DecidableEq, Inhabited

namespace Length32

instance : Add Length32 := ⟨fun a b => ⟨a.bytes + b.bytes, a.extent.append b.extent⟩⟩

/-- The length of a piece of text. -/
def of (text : ByteArray) : Length32 :=
  ⟨UInt32.ofNat text.size, text.data.foldl Point32.push ⟨0, 0⟩⟩

/-- The place of byte `i` in `text`, moved back to the end of the text and to a boundary. -/
def place (text : ByteArray) (i : Nat) : Length32 :=
  of (text.extract 0 (floorBoundary text (min i text.size)))

end Length32

/-- An edit as it is handed over. -/
structure InputEdit where
  startByte : UInt32
  oldEndByte : UInt32
  newEndByte : UInt32
  startPosition : Point32
  oldEndPosition : Point32
  newEndPosition : Point32
deriving DecidableEq, Inhabited

namespace InputEdit

/-- The edit between three places. -/
def ofLengths (start oldEnd newEnd : Length32) : InputEdit :=
  ⟨start.bytes, oldEnd.bytes, newEnd.bytes, start.extent, oldEnd.extent, newEnd.extent⟩

/-- Replaces `start` to `stop` of `text`, as `Edit.splice` does. -/
def splice (text : ByteArray) (start stop : Nat) (replacement : ByteArray) : InputEdit :=
  let start' := Length32.place text start
  let stop' := Length32.place text (max stop start)
  -- where the replacement ends is added up, and not measured in the new text
  ofLengths start' stop' (start' + Length32.of replacement)

/-- The smallest edit that turns `old` into `new`, as `Edit.diff` finds it. -/
def diff (old new : ByteArray) : InputEdit :=
  ofLengths (Length32.place old (Edit.head old new))
    (Length32.place old (old.size - Edit.tail old new))
    (Length32.place new (new.size - Edit.tail old new))

/-- The numbers of an edit, without their width. -/
def toEdit (e : InputEdit) : Edit :=
  ⟨e.startByte.toNat, e.oldEndByte.toNat, e.newEndByte.toNat, e.startPosition.toPoint,
    e.oldEndPosition.toPoint, e.newEndPosition.toPoint⟩

end InputEdit

end IncrementalParsing
