import IncrementalParsing.Text.Length

/-!
# Edits of a text

An `Edit` says that the bytes `startByte` to `oldEndByte` of a text were replaced and that the
replacement ends at `newEndByte`, with the same three places as points.

An edit has numbers without a bound.  `InputEdit` is the one that a caller hands in or gets, with 32 bits
for each; for texts of up to `maxTextSize` bytes the two say the same.

* `Edit.splice` describes a replacement, `Edit.diff` the smallest one between two texts;
* `Edit.apply` performs it;
* `Edit.map` moves a place of the old text to the new one;
* `Edit.affects` says whether a span, together with the bytes looked at after it, is touched.
-/

namespace IncrementalParsing

/-- A replacement of the bytes `startByte` to `oldEndByte`, ending at `newEndByte` afterwards. -/
structure Edit where
  startByte : Nat
  oldEndByte : Nat
  newEndByte : Nat
  startPosition : Point
  oldEndPosition : Point
  newEndPosition : Point
deriving DecidableEq, Inhabited

namespace Edit

/-- The edit between three places. -/
def ofLengths (start oldEnd newEnd : Length) : Edit :=
  ⟨start.bytes, oldEnd.bytes, newEnd.bytes, start.extent, oldEnd.extent, newEnd.extent⟩

/-- Where the replaced text began. -/
def start (e : Edit) : Length := ⟨e.startByte, e.startPosition⟩

/-- Where the replaced text ended. -/
def oldEnd (e : Edit) : Length := ⟨e.oldEndByte, e.oldEndPosition⟩

/-- Where the replacement ends. -/
def newEnd (e : Edit) : Length := ⟨e.newEndByte, e.newEndPosition⟩

/-- Replaces `start` to `stop` of `text`, moved back into the text and to boundaries of characters;
a range that ends before it starts is empty.  `InputEdit.splice` is this one in 32 bits. -/
def splice (text : ByteArray) (start stop : Nat) (replacement : ByteArray) : Edit :=
  let start' := Length.place text start
  -- the end is moved back by itself, and never to before the start
  let stop' := Length.place text (max stop start)
  ofLengths start' stop' (start' + Length.of replacement)

/-- How many bytes from `i` on agree in both texts. -/
def commonPrefix (a b : ByteArray) : (fuel i : Nat) → Nat
  | 0, i => i
  | fuel + 1, i =>
    match byteAt? a i, byteAt? b i with
    | some x, some y => if x = y then commonPrefix a b fuel (i + 1) else i
    | _, _ => i

/-- How many bytes from the end agree in both texts, at most `limit` of them; `n` are known to. -/
def commonSuffix (a b : ByteArray) : (limit n : Nat) → Nat
  | 0, n => n
  | limit + 1, n =>
    match byteAt? a (a.size - 1 - n), byteAt? b (b.size - 1 - n) with
    | some x, some y => if x = y then commonSuffix a b limit (n + 1) else n
    | _, _ => n

/-- The largest number up to `n` that leaves a boundary of both texts when taken off their ends. -/
def floorSuffix (a b : ByteArray) : (n : Nat) → Nat
  | 0 => 0
  | n + 1 =>
    if isBoundary a (a.size - (n + 1)) && isBoundary b (b.size - (n + 1)) then n + 1
    else floorSuffix a b n

/-- How many bytes a difference leaves alone at the beginning of the texts: their common beginning, cut
back to a boundary. -/
def head (old new : ByteArray) : Nat :=
  floorBoundary old (commonPrefix old new (min old.size new.size) 0)

/-- How many bytes a difference leaves alone at the end of the texts: their common end behind that,
cut back to boundaries. -/
def tail (old new : ByteArray) : Nat :=
  floorSuffix old new (commonSuffix old new (min old.size new.size - head old new) 0)

/-- The smallest edit that turns `old` into `new`: all but their common beginning and, of the rest,
their common end, cut at boundaries of characters.  `InputEdit.diff` is this one in 32 bits. -/
def diff (old new : ByteArray) : Edit :=
  ofLengths (Length.place old (head old new)) (Length.place old (old.size - tail old new))
    (Length.place new (new.size - tail old new))

/-- The text with the edit's range replaced. -/
def apply (e : Edit) (text replacement : ByteArray) : ByteArray :=
  text.extract 0 e.startByte ++ replacement ++ text.extract e.oldEndByte text.size

/-- Where a place of the old text lies afterwards; a place inside the replaced range moves to the
end of the replacement. -/
def map (e : Edit) (position : Length) : Length :=
  -- what ends where the edit begins stays, so an insertion there comes after it
  if position.bytes ≤ e.startByte then position
  else if e.oldEndByte ≤ position.bytes then e.newEnd + (position - e.oldEnd)
  else e.newEnd

/-- Whether the span from `start` to `stop`, or one of the `lookahead` bytes after it, is touched. -/
def affects (e : Edit) (start stop : Length) (lookahead : Nat) : Bool :=
  -- a span that begins where the edit ended is touched, one that ends where it begins is not
  decide (e.startByte < stop.bytes + lookahead) && decide (start.bytes ≤ e.oldEndByte)

end Edit

end IncrementalParsing
