import IncrementalParsing.Automaton.Encoding
import Mathlib.Algebra.Group.Nat.Defs

/-!
# Reading automata from the front

What reads an automaton takes it off the front of some bytes and does not look at the rest, so the zeros
that fill up a table do no harm.

## Key results

- `decode?_append`: an automaton is found in front of other bytes
-/

namespace IncrementalParsing

/-- Reading takes something off the front, whatever comes after it. -/
def Frontal {α : Type} (take? : List UInt8 → Option (α × List UInt8)) : Prop :=
  ∀ bytes x rest more, take? bytes = some (x, rest) → take? (bytes ++ more) = some (x, rest ++ more)

theorem frontal_takeNumber? (width : Nat) : Frontal (takeNumber? width) := by
  -- the induction is on the number of bytes, of which the first is the lowest
  induction width with
  | zero =>
    intro bytes x rest more h
    cases h
    rfl
  | succ width ih =>
    intro bytes x rest more h
    cases bytes with
    | nil => cases h
    | cons b bytes =>
      obtain ⟨⟨n, rest'⟩, htake, hsome⟩ := Option.bind_eq_some_iff.mp h
      cases hsome
      rw [List.cons_append, takeNumber?, ih bytes n rest more htake]
      rfl

namespace Automaton

theorem frontal_takeState? (count : Nat) : Frontal (takeState? count) := by
  intro bytes x rest more h
  obtain ⟨⟨i, rest'⟩, htake, hsome⟩ := Option.bind_eq_some_iff.mp h
  dsimp only at hsome
  split at hsome
  · rename_i hlt
    cases hsome
    rw [takeState?, frontal_takeNumber? 4 bytes x rest more htake]
    exact if_pos hlt
  · cases hsome

theorem frontal_takeMany? {α : Type} {take? : List UInt8 → Option (α × List UInt8)}
    (htake : Frontal take?) (count : Nat) : Frontal (takeMany? take? count) := by
  induction count with
  | zero =>
    intro bytes xs rest more h
    cases h
    rfl
  | succ count ih =>
    intro bytes xs rest more h
    obtain ⟨⟨x, rest₁⟩, hx, h⟩ := Option.bind_eq_some_iff.mp h
    obtain ⟨⟨ys, rest₂⟩, hys, h⟩ := Option.bind_eq_some_iff.mp h
    cases h
    rw [takeMany?, htake bytes x rest₁ more hx]
    dsimp only [Option.bind_eq_bind, Option.bind_some]
    rw [ih rest₁ ys rest more hys]
    rfl

theorem frontal_takeMove? (count : Nat) : Frontal (takeMove? count) := by
  intro bytes x rest more h
  match bytes, h with
  | first :: last :: bytes, h =>
    obtain ⟨⟨target, rest'⟩, htake, hsome⟩ := Option.bind_eq_some_iff.mp h
    cases hsome
    rw [List.cons_append, List.cons_append, takeMove?,
      frontal_takeState? count bytes target rest more htake]
    rfl

theorem frontal_takeFullState? (count : Nat) : Frontal (takeFullState? count) := by
  intro bytes x rest more h
  cases bytes with
  | nil => cases h
  | cons flags bytes =>
    rw [takeFullState?] at h
    rw [List.cons_append, takeFullState?]
    split at h
    · cases h
    -- a byte with other flags is refused, whatever follows
    · rename_i hflags
      obtain ⟨⟨n, rest₁⟩, hn, h⟩ := Option.bind_eq_some_iff.mp h
      obtain ⟨⟨moves, rest₂⟩, hmoves, h⟩ := Option.bind_eq_some_iff.mp h
      cases h
      rw [if_neg hflags, frontal_takeNumber? 2 bytes n rest₁ more hn]
      dsimp only [Option.bind_eq_bind, Option.bind_some]
      rw [frontal_takeMany? (frontal_takeMove? count) n rest₁ moves rest more hmoves]
      rfl

/-- An automaton is found in front of other bytes. -/
theorem decode?_append {bytes : List UInt8} {a : Automaton} (h : decode? bytes = some a)
    (more : List UInt8) : decode? (bytes ++ more) = some a := by
  -- `decode?` reads a mark, a count, the starts and the states; each reader leaves `more` at the end
  rw [decode?] at h ⊢
  split at h
  · cases h
  · rename_i hmark
    obtain ⟨⟨count, rest₁⟩, hcount, h⟩ := Option.bind_eq_some_iff.mp h
    obtain ⟨⟨starts, rest₂⟩, hstarts, h⟩ := Option.bind_eq_some_iff.mp h
    obtain ⟨⟨states, rest₃⟩, hstates, h⟩ := Option.bind_eq_some_iff.mp h
    cases h
    -- the mark is still in front
    have hprefix : mark <+: bytes := by simpa using hmark
    have hmark' : ¬(!mark.isPrefixOf (bytes ++ more)) = true := by
      simpa using hprefix.trans (List.prefix_append bytes more)
    rw [if_neg hmark', List.drop_append_of_le_length hprefix.length_le,
      frontal_takeNumber? 4 _ count rest₁ more hcount]
    dsimp only [Option.bind_eq_bind, Option.bind_some]
    rw [frontal_takeMany? (frontal_takeState? count) 5 rest₁ starts rest₂ more hstarts]
    dsimp only [Option.bind_some]
    rw [frontal_takeMany? (frontal_takeFullState? count) count rest₂ states rest₃ more hstates]
    rfl

/-- What `decode?` reads back from its own bytes it reads back in front of others. -/
theorem Codec.readsBack_plain {a : Automaton} (h : Automaton.decode? a.encode = some a) :
    plain.ReadsBack a :=
  decode?_append h

/-! ## Reading back what is written -/

/-- A number is read back from bytes that it fits into. -/
theorem takeNumber?_littleEndian {width n : Nat} (h : n < 256 ^ width) (rest : List UInt8) :
    takeNumber? width (littleEndian width n ++ rest) = some (n, rest) := by
  induction width generalizing n with
  | zero =>
    have hzero : n = 0 := by simpa using h
    rw [hzero]
    rfl
  | succ width ih =>
    -- what is above the lowest byte fits into the others
    have hdiv : n / 256 < 256 ^ width := Nat.div_lt_of_lt_mul (by rwa [Nat.pow_succ, Nat.mul_comm] at h)
    rw [littleEndian, List.cons_append, takeNumber?, ih hdiv]
    have hbyte : (UInt8.ofNat (n % 256)).toNat = n % 256 :=
      UInt8.toNat_ofNat_of_lt' (Nat.mod_lt n (by decide))
    show some ((UInt8.ofNat (n % 256)).toNat + 256 * (n / 256), rest) = _
    rw [hbyte, Nat.mod_add_div]

theorem takeMany?_flatMap {α : Type} {take? : List UInt8 → Option (α × List UInt8)}
    {write : α → List UInt8} (xs : List α)
    (h : ∀ x ∈ xs, ∀ rest, take? (write x ++ rest) = some (x, rest)) (rest : List UInt8) :
    takeMany? take? xs.length (xs.flatMap write ++ rest) = some (xs, rest) := by
  induction xs with
  | nil => rfl
  | cons x xs ih =>
    rw [List.length_cons, List.flatMap_cons, List.append_assoc, takeMany?, h x List.mem_cons_self]
    dsimp only [Option.bind_eq_bind, Option.bind_some]
    rw [ih fun y hy => h y (List.mem_cons_of_mem x hy)]
    rfl

/-- A state and its moves can be written, where there are so many states. -/
structure State.Fits (count : Nat) (s : State) : Prop where
  length : s.moves.length < 256 ^ 2
  first : ∀ m ∈ s.moves, m.first < 256
  last : ∀ m ∈ s.moves, m.last < 256
  target : ∀ m ∈ s.moves, m.target < count

/-- An automaton can be written. -/
structure Fits (a : Automaton) : Prop where
  size : a.states.size < 256 ^ 4
  length : a.starts.length = 5
  starts : ∀ i ∈ a.starts, i < a.states.size
  states : ∀ s ∈ a.states, s.Fits a.states.size

variable {count : Nat}

theorem takeState?_littleEndian (hcount : count < 256 ^ 4) {i : Nat} (hi : i < count)
    (rest : List UInt8) : takeState? count (littleEndian 4 i ++ rest) = some (i, rest) := by
  rw [takeState?, takeNumber?_littleEndian (Nat.lt_trans hi hcount)]
  exact if_pos hi

theorem takeMove?_encode (hcount : count < 256 ^ 4) {m : Move} (hfirst : m.first < 256)
    (hlast : m.last < 256) (htarget : m.target < count) (rest : List UInt8) :
    takeMove? count (m.encode ++ rest) = some (m, rest) := by
  rw [Move.encode, List.cons_append, List.cons_append, takeMove?,
    takeState?_littleEndian hcount htarget]
  show some ((⟨(UInt8.ofNat m.first).toNat, (UInt8.ofNat m.last).toNat, m.target⟩ : Move), rest) = _
  rw [UInt8.toNat_ofNat_of_lt' hfirst, UInt8.toNat_ofNat_of_lt' hlast]

theorem takeFullState?_encode (hcount : count < 256 ^ 4) {s : State} (h : s.Fits count)
    (rest : List UInt8) : takeFullState? count (s.encode ++ rest) = some (s, rest) := by
  have hmoves := takeMany?_flatMap s.moves (fun m hm => takeMove?_encode hcount (h.first m hm)
    (h.last m hm) (h.target m hm)) rest
  obtain ⟨matched, final, moves⟩ := s
  -- the two flags are the two lowest bits, and no other bit is set
  have hflags : ∀ b c : Bool,
      ¬(4 : UInt8) ≤ UInt8.ofNat ((if b then 1 else 0) + (if c then 2 else 0)) ∧
      ((UInt8.ofNat ((if b then 1 else 0) + (if c then 2 else 0)) &&& 1 == 1) = b) ∧
      ((UInt8.ofNat ((if b then 1 else 0) + (if c then 2 else 0)) &&& 2 == 2) = c) := by decide
  obtain ⟨hlt, hmatched, hfinal⟩ := hflags matched final
  rw [State.encode, List.cons_append, List.append_assoc, takeFullState?, if_neg hlt,
    takeNumber?_littleEndian h.length]
  dsimp only [Option.bind_eq_bind, Option.bind_some]
  rw [hmoves, hmatched, hfinal]
  rfl

/-- An automaton is read back from its bytes. -/
theorem decode?_encode {a : Automaton} (h : a.Fits) : decode? a.encode = some a := by
  have hstarts := takeMany?_flatMap a.starts
    (fun i hi => takeState?_littleEndian h.size (h.starts i hi)) (a.states.toList.flatMap State.encode)
  have hstates := takeMany?_flatMap a.states.toList
    (fun s hs => takeFullState?_encode h.size (h.states s (Array.mem_toList_iff.mp hs))) []
  rw [h.length] at hstarts
  rw [List.append_nil, Array.length_toList] at hstates
  -- the mark in front is the one that is looked for
  have hmark : ¬(!mark.isPrefixOf a.encode) = true := by
    simp [encode]
  rw [decode?, if_neg hmark, encode, List.append_assoc, List.append_assoc, List.drop_left,
    takeNumber?_littleEndian h.size]
  dsimp only [Option.bind_eq_bind, Option.bind_some]
  rw [hstarts]
  dsimp only [Option.bind_some]
  rw [hstates]
  rfl

end Automaton

end IncrementalParsing
