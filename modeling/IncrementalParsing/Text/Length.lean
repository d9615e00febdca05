/-!
# Positions and lengths in a text

A `Point` is a row with a byte column, both from zero.  A `Length` pairs a number of bytes with the
`Point` they reach; it measures a piece of text, or a place in a text counted from its start.
Lengths add up by concatenation: a summand that holds a line break restarts the column.

Numbers of bytes, rows and columns have no bound here.  A parser refuses texts of more than
`maxTextSize` bytes, so whatever it measures fits into 32 bits; `Length32` is a length that is kept in
them whatever it measures.

* `Length.of` measures bytes, `Length.place` a place inside them, `Length.span` a slice;
* `isBoundary` and `floorBoundary` find the places between characters of UTF-8 text.
-/

namespace IncrementalParsing

/-- Zero-based row and byte column. -/
structure Point where
  row : Nat
  column : Nat
deriving DecidableEq, Inhabited

namespace Point

/-- The start of a text. -/
def zero : Point := ⟨0, 0⟩

/-- The point after one more byte: a line break starts the next row. -/
def push (p : Point) (byte : UInt8) : Point :=
  if byte = 10 then ⟨p.row + 1, 0⟩ else ⟨p.row, p.column + 1⟩

/-- The point reached by going on from `p` over a piece that reaches `q` by itself. -/
def append (p q : Point) : Point :=
  if 0 < q.row then ⟨p.row + q.row, q.column⟩ else ⟨p.row, p.column + q.column⟩

/-- What is left of `p` after a piece that reaches `q`; zero where `q` is further than `p`. -/
def drop (p q : Point) : Point :=
  if q.row < p.row then ⟨p.row - q.row, p.column⟩ else ⟨0, p.column - q.column⟩

@[simp] theorem append_zero (p : Point) : p.append .zero = p := by
  cases p; simp [append, zero]

@[simp] theorem zero_append (p : Point) : zero.append p = p := by
  cases p with
  | mk row column =>
    simp only [append, zero]
    split
    · simp
    · simp; omega

/-- Going on piece by piece is going on over the pieces together. -/
theorem append_assoc (p q r : Point) : (p.append q).append r = p.append (q.append r) := by
  by_cases hq : 0 < q.row <;> by_cases hr : 0 < r.row
  · have : 0 < q.row + r.row := by omega
    simp [append, hq, hr, this, Nat.add_assoc]
  · simp [append, hq, hr]
  · have h0 : q.row = 0 := by omega
    simp [append, h0, hr]
  · simp [append, hq, hr, Nat.add_assoc]

/-- One more byte after a piece. -/
theorem append_push (p q : Point) (byte : UInt8) :
    p.append (q.push byte) = (p.append q).push byte := by
  by_cases hb : byte = 10
  · by_cases hq : 0 < q.row
    · simp [append, push, hb, hq, Nat.add_assoc]
    · have h0 : q.row = 0 := by omega
      simp [append, push, hb, h0]
  · by_cases hq : 0 < q.row <;> simp [append, push, hb, hq, Nat.add_assoc]

/-- Points in reading order. -/
def compare (p q : Point) : Ordering :=
  (Ord.compare p.row q.row).then (Ord.compare p.column q.column)

/-- Written `row:column`. -/
def render (p : Point) : String := s!"{p.row}:{p.column}"

end Point

/-- A number of bytes and the point they reach. -/
structure Length where
  bytes : Nat
  extent : Point
deriving DecidableEq, Inhabited

namespace Length

/-- Nothing. -/
def zero : Length := ⟨0, .zero⟩

/-- The length after one more byte. -/
def push (l : Length) (byte : UInt8) : Length := ⟨l.bytes + 1, l.extent.push byte⟩

instance : Add Length := ⟨fun a b => ⟨a.bytes + b.bytes, a.extent.append b.extent⟩⟩

/-- Takes `b` off the front of `a`; what would be negative is zero. -/
instance : Sub Length := ⟨fun a b => ⟨a.bytes - b.bytes, a.extent.drop b.extent⟩⟩

/-- The sum of a list of lengths, in order. -/
def sum (ls : List Length) : Length := ls.foldl (· + ·) zero

/-- The length of a piece of text. -/
def of (text : ByteArray) : Length := text.data.foldl push zero

theorem add_def (a b : Length) : a + b = ⟨a.bytes + b.bytes, a.extent.append b.extent⟩ := rfl

theorem sub_def (a b : Length) : a - b = ⟨a.bytes - b.bytes, a.extent.drop b.extent⟩ := rfl

@[simp] theorem bytes_add (a b : Length) : (a + b).bytes = a.bytes + b.bytes := rfl

@[simp] theorem bytes_sub (a b : Length) : (a - b).bytes = a.bytes - b.bytes := rfl

@[simp] theorem add_zero (a : Length) : a + zero = a := by
  cases a; simp [add_def, zero]

@[simp] theorem zero_add (a : Length) : zero + a = a := by
  cases a; simp [add_def, zero]

theorem add_assoc (a b c : Length) : a + b + c = a + (b + c) := by
  simp [add_def, Point.append_assoc, Nat.add_assoc]

/-- One more byte after a piece. -/
theorem add_push (a b : Length) (byte : UInt8) : a + b.push byte = (a + b).push byte := by
  simp [add_def, push, Point.append_push, Nat.add_assoc]

/-- Measuring can be interrupted anywhere. -/
theorem foldl_push (bytes : List UInt8) (a b : Length) :
    bytes.foldl push (a + b) = a + bytes.foldl push b := by
  induction bytes generalizing b with
  | nil => rfl
  | cons byte rest ih => simp only [List.foldl_cons, ← add_push, ih]

/-- The length of a text is the sum of the lengths of its pieces. -/
theorem of_append (a b : ByteArray) : of (a ++ b) = of a + of b := by
  have h := foldl_push b.data.toList (of a) zero
  simp only [add_zero] at h
  simp only [of, ByteArray.data_append, ← Array.foldl_toList, Array.toList_append,
    List.foldl_append] at h ⊢
  exact h

end Length

/-- The bytes `0x80` to `0xBF`, which go on with a character begun before. -/
def isContinuation (byte : UInt8) : Bool := byte &&& 0xC0 == 0x80

/-- Whether `i` lies between two characters of `text`, or at one of its ends. -/
def isBoundary (text : ByteArray) (i : Nat) : Bool :=
  if h : i < text.size then i == 0 || !isContinuation text[i] else i == text.size

/-- The last boundary at or before `i`. -/
def floorBoundary (text : ByteArray) : Nat → Nat
  | 0 => 0
  -- no byte but the first of a character is a boundary
  | i + 1 => if isBoundary text (i + 1) then i + 1 else floorBoundary text i

/-- The byte at `i` of a text of which `i` need not be a place. -/
def byteAt? (text : ByteArray) (i : Nat) : Option UInt8 :=
  if h : i < text.size then some text[i] else none

namespace Length

/-- The place of byte `i` in `text`, moved back to the end of the text and to a boundary. -/
def place (text : ByteArray) (i : Nat) : Length :=
  of (text.extract 0 (floorBoundary text (min i text.size)))

/-- The length of `text` from `start` to `stop`.  A range that is not made of whole characters of
the text counts its bytes as columns of one row. -/
def span (text : ByteArray) (start stop : Nat) : Length :=
  if start ≤ stop && isBoundary text start && isBoundary text stop then
    of (text.extract start stop)
  else
    ⟨stop - start, ⟨0, stop - start⟩⟩

end Length

end IncrementalParsing
