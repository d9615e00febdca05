import IncrementalParsing.Automaton.Network
import IncrementalParsing.Proofs.Binary.Numbers
import IncrementalParsing.Proofs.Text.Characters

/-!
# Networks of whole characters

A network reads bytes, but it is laid out of characters.  So each of its nodes stands at some place in a
character: a number says how many bytes of the character are owed there.  Only nodes where none is owed
end a match or lead on without reading, and from such a node a lead byte goes to one that owes the rest
of its character.

## Key results

- `lays_setNode`: the node for a set of characters reads whole characters
- `Network.exists_owing`: so does the network of every expression
-/

namespace IncrementalParsing

open Unicode (CodeSet)

/-! ## What is owed -/

/-- So many bytes of a character are owed at a node. -/
def Owes (owed : List Nat) (i k : Nat) : Prop := owed[i]? = some k

/-- What a node owes stays owed as more nodes are laid, -/
theorem Owes.mono {owed owed' : List Nat} {i k : Nat} (hgrows : owed <+: owed') (h : Owes owed i k) :
    Owes owed' i k := by
  obtain ⟨more, rfl⟩ := hgrows
  exact (List.getElem?_append_left (List.getElem?_eq_some_iff.mp h).1).trans h

/-- and is one number. -/
theorem Owes.unique {owed : List Nat} {i k k' : Nat} (h : Owes owed i k) (h' : Owes owed i k') :
    k = k' :=
  Option.some.inj (h.symm.trans h')

/-- A node at which so many bytes are owed leads to nodes at which fewer are, or what a lead byte asks
for. -/
def Junction.Keeps (owed : List Nat) : (k : Nat) → Junction → Prop
  | k, .accept => k = 0
  | k, .split next => k = 0 ∧ ∀ i ∈ next, Owes owed i 0
  | k, .look _ next => k = 0 ∧ Owes owed next 0
  | 0, .bytes moves => ∀ m ∈ moves, ∃ tail, Owes owed m.2.2 tail ∧
      ∀ b, m.1 ≤ b → b ≤ m.2.1 → Leads (UInt8.ofNat b) (tail + 1)
  | k + 1, .bytes moves => ∀ m ∈ moves, Owes owed m.2.2 k

/-- A node that keeps what is owed keeps it as more nodes are laid. -/
theorem Junction.Keeps.mono {owed owed' : List Nat} {k : Nat} {node : Junction}
    (hgrows : owed <+: owed') (h : node.Keeps owed k) : node.Keeps owed' k := by
  cases node with
  | accept => exact h
  | split next => exact ⟨h.1, fun i hi => (h.2 i hi).mono hgrows⟩
  | look kind next => exact ⟨h.1, h.2.mono hgrows⟩
  | bytes moves =>
    cases k with
    | zero =>
      intro m hm
      obtain ⟨tail, htail, hleads⟩ := h m hm
      exact ⟨tail, htail.mono hgrows, hleads⟩
    | succ k => exact fun m hm => (h m hm).mono hgrows

namespace Network

/-- It is known of each node how much is owed there. -/
structure Owing (nodes : Array Junction) (owed : List Nat) : Prop where
  size : nodes.size = owed.length
  keeps : ∀ i node k, nodes[i]? = some node → Owes owed i k → node.Keeps owed k

/-- A node that keeps what is owed may be laid. -/
theorem Owing.push {nodes : Array Junction} {owed : List Nat} {k : Nat} {node : Junction}
    (h : Owing nodes owed) (hnode : node.Keeps owed k) :
    Owing (nodes.push node) (owed ++ [k]) := by
  have hgrows : owed <+: owed ++ [k] := List.prefix_append owed [k]
  constructor
  · rw [Array.size_push, h.size, List.length_append]
    rfl
  · intro i node' k' hi hk
    rw [Array.getElem?_push] at hi
    split at hi
    -- the node that is laid
    · rename_i heq
      cases hi
      rw [heq, h.size, Owes, List.getElem?_concat_length] at hk
      cases hk
      exact hnode.mono hgrows
    -- a node that was there
    · rename_i hne
      have hlt : i < owed.length := by
        rw [← h.size]
        exact (Array.getElem?_eq_some_iff.mp hi).1
      rw [Owes, List.getElem?_append_left hlt] at hk
      exact (h.keeps i node' k' hi hk).mono hgrows

/-- A node may be replaced by one at which as much is owed. -/
theorem Owing.set {nodes : Array Junction} {owed : List Nat} {i k : Nat} {node : Junction}
    (h : Owing nodes owed) (hi : Owes owed i k) (hnode : node.Keeps owed k) :
    Owing (nodes.setIfInBounds i node) owed := by
  refine ⟨(Array.size_setIfInBounds ..).trans h.size, ?_⟩
  intro j node' k' hj hk
  rw [Array.getElem?_setIfInBounds] at hj
  -- the node that is put there keeps what is owed there, and the others are as they were
  split at hj
  · rename_i heq
    subst heq
    split at hj
    · cases hj
      cases hi.unique hk
      exact hnode
    · cases hj
  · exact h.keeps j node' k' hj hk

/-! ## Laying out -/

variable {α β : Type}

/-- Whatever has been laid out so far, laying something out keeps what is owed there, and what comes of
it is so. -/
def Lays (owed : List Nat) (m : Layout α) (post : List Nat → α → Prop) : Prop :=
  ∀ nodes, Owing nodes owed →
    ∃ owed', owed <+: owed' ∧ Owing (m nodes).2 owed' ∧ post owed' (m nodes).1

variable {owed : List Nat} {m : Layout α} {f : α → Layout β} {p : List Nat → α → Prop}
  {q : List Nat → β → Prop}

/-- Nothing is laid by `pure`. -/
theorem Lays.pure {x : α} (h : p owed x) : Lays owed (Pure.pure x) p :=
  fun _ hnodes => ⟨owed, List.prefix_rfl, hnodes, h⟩

/-- One layout after another, the second of which may rely on the first. -/
theorem Lays.bind (h : Lays owed m p)
    (hf : ∀ owed' x, owed <+: owed' → p owed' x → Lays owed' (f x) q) : Lays owed (m >>= f) q := by
  intro nodes hnodes
  obtain ⟨owed', hgrows, hnodes', hx⟩ := h nodes hnodes
  obtain ⟨owed'', hgrows', hnodes'', hy⟩ := hf owed' _ hgrows hx _ hnodes'
  exact ⟨owed'', hgrows.trans hgrows', hnodes'', hy⟩

/-- `add` lays one node, which owes as much as it keeps. -/
theorem lays_add {k : Nat} {node : Junction} (hnode : node.Keeps owed k) :
    Lays owed (add node) fun owed' i => Owes owed' i k := by
  intro nodes hnodes
  refine ⟨owed ++ [k], List.prefix_append owed [k], hnodes.push hnode, ?_⟩
  show (owed ++ [k])[nodes.size]? = some k
  rw [hnodes.size, List.getElem?_concat_length]

/-- `put` replaces a node by one that keeps the same. -/
theorem lays_put {i k : Nat} {node : Junction} (hi : Owes owed i k) (hnode : node.Keeps owed k) :
    Lays owed (put i node) fun _ _ => True :=
  fun _ hnodes => ⟨owed, List.prefix_rfl, hnodes.set hi hnode, trivial⟩

/-! ## Sets of characters -/

/-- The pieces of a range have first digits between those of its ends. -/
theorem digits_of_mem_splitRange {unit : Nat} {range : Nat × Nat} (hrange : range.1 ≤ range.2)
    {piece : Piece} (h : piece ∈ splitRange unit range) :
    range.1 / unit ≤ piece.1 ∧ piece.2.1 ≤ range.2 / unit := by
  have hle : range.1 / unit ≤ range.2 / unit := Nat.div_le_div_right hrange
  unfold splitRange at h
  dsimp only at h
  split at h
  -- the range lies in one unit, so the piece is all of it
  · rename_i hsame
    rw [List.mem_singleton.mp h]
    exact ⟨Nat.le_refl _, Nat.le_of_eq hsame⟩
  · -- the piece is the first, one of the whole ones in the middle, or the last
    rw [List.mem_append, List.mem_append] at h
    obtain (hfirst | hmiddle) | hlast := h
    · obtain ⟨-, hfirst⟩ := List.mem_ite_nil_left.mp hfirst
      rw [List.mem_singleton.mp hfirst]
      exact ⟨Nat.le_refl _, hle⟩
    · obtain ⟨-, hmiddle⟩ := List.mem_ite_nil_right.mp hmiddle
      rw [List.mem_singleton.mp hmiddle]
      constructor
      · show _ ≤ ite _ _ _
        split
        · exact Nat.le_refl _
        · exact Nat.le_succ _
      · show ite _ _ _ ≤ _
        split
        · exact Nat.le_refl _
        · exact Nat.sub_le _ _
    · obtain ⟨-, hlast⟩ := List.mem_ite_nil_left.mp hlast
      rw [List.mem_singleton.mp hlast]
      exact ⟨hle, Nat.le_refl _⟩

/-- Pieces that are joined keep their digits. -/
theorem exists_of_mem_joinPieces {pieces : List Piece} {piece : Piece}
    (h : piece ∈ joinPieces pieces) :
    ∃ piece' ∈ pieces, piece'.1 = piece.1 ∧ piece'.2.1 = piece.2.1 := by
  induction pieces with
  | nil => cases h
  | cons first rest ih =>
    obtain ⟨a, b, r⟩ := first
    -- `first` is joined to the piece that the rest begins with, or put in front of it; a joined piece
    -- keeps the digits of `first`
    rw [joinPieces] at h
    split at h
    · rename_i a' b' r' more hrest
      split at h
      · obtain rfl | hmem := List.mem_cons.mp h
        · exact ⟨_, List.mem_cons_self, rfl, rfl⟩
        · obtain ⟨piece', hpiece, hsame⟩ := ih (hrest ▸ List.mem_cons_of_mem _ hmem)
          exact ⟨piece', List.mem_cons_of_mem _ hpiece, hsame⟩
      · obtain rfl | hmem := List.mem_cons.mp h
        · exact ⟨_, List.mem_cons_self, rfl, rfl⟩
        · obtain ⟨piece', hpiece, hsame⟩ := ih (hrest ▸ hmem)
          exact ⟨piece', List.mem_cons_of_mem _ hpiece, hsame⟩
    · rw [List.mem_singleton.mp h]
      exact ⟨_, List.mem_cons_self, rfl, rfl⟩

/-- It is known of the nodes laid out for parts of characters how much is owed there. -/
def Known.Keeps (owed : List Nat) (known : Known) : Prop :=
  ∀ k ranges i, known.lookup (k + 0x80, ranges) = some i → Owes owed i k

/-- What is known stays true as more nodes are laid. -/
theorem Known.Keeps.mono {owed owed' : List Nat} {known : Known} (hgrows : owed <+: owed')
    (h : known.Keeps owed) : known.Keeps owed' :=
  fun k ranges i hi => (h k ranges i hi).mono hgrows

/-- Moves that lead where so much is owed, over the first digits of pieces. -/
def MovesOver (pieces : List Piece) (base k : Nat) (owed : List Nat)
    (moves : List (Nat × Nat × Nat)) : Prop :=
  ∀ m ∈ moves, Owes owed m.2.2 k ∧ ∃ piece ∈ pieces, m.1 = piece.1 + base ∧ m.2.1 = piece.2.1 + base

variable {next : Nat}

/-- The moves over pieces, where the nodes of the digits after them are laid well. -/
theorem lays_pieceMoves_of {count : Nat}
    (hdigits : ∀ owed ranges known, Owes owed next 0 → Known.Keeps owed known →
      Lays owed (digitsNode next count 0x80 ranges known) fun owed' r =>
        Owes owed' r.1 count ∧ Known.Keeps owed' r.2)
    (base : Nat) (pieces : List Piece) {owed : List Nat} {known : Known} (hnext : Owes owed next 0)
    (hknown : known.Keeps owed) :
    Lays owed (pieceMoves next count base pieces known) fun owed' r =>
      MovesOver pieces base count owed' r.1 ∧ Known.Keeps owed' r.2 := by
  -- the nodes that are known are shared, so each piece is laid over what those before it have left
  induction pieces generalizing owed known with
  | nil =>
    rw [pieceMoves]
    exact .pure ⟨fun _ hm => absurd hm List.not_mem_nil, hknown⟩
  | cons piece pieces ih =>
    obtain ⟨a, b, rest⟩ := piece
    rw [pieceMoves]
    refine (hdigits owed rest known hnext hknown).bind ?_
    rintro owed₁ ⟨target, known₁⟩ hgrows ⟨htarget, hknown₁⟩
    refine (ih (hnext.mono hgrows) hknown₁).bind ?_
    rintro owed₂ ⟨moves, known₂⟩ hgrows₂ ⟨hmoves, hknown₂⟩
    refine .pure ⟨?_, hknown₂⟩
    -- the first move leads to the node just laid, the others to what `ih` has laid
    intro m hm
    obtain rfl | hm := List.mem_cons.mp hm
    · exact ⟨htarget.mono hgrows₂, _, List.mem_cons_self, rfl, rfl⟩
    · obtain ⟨hm, piece, hpiece, hdigits⟩ := hmoves m hm
      exact ⟨hm, piece, List.mem_cons_of_mem _ hpiece, hdigits⟩

/-- A node for the digits that follow owes as many bytes as there are. -/
theorem lays_digitsNode (count : Nat) : ∀ owed ranges known, Owes owed next 0 →
    Known.Keeps owed known → Lays owed (digitsNode next count 0x80 ranges known) fun owed' r =>
      Owes owed' r.1 count ∧ Known.Keeps owed' r.2 := by
  induction count with
  | zero =>
    intro owed ranges known hnext hknown
    rw [digitsNode]
    exact .pure ⟨hnext, hknown⟩
  | succ count ih =>
    intro owed ranges known hnext hknown
    rw [digitsNode]
    split
    -- the node is known already, and is shared
    · rename_i i hi
      exact .pure ⟨hknown _ _ _ hi, hknown⟩
    · refine (lays_pieceMoves_of ih 0x80 _ hnext hknown).bind ?_
      rintro owed₁ ⟨moves, known₁⟩ hgrows ⟨hmoves, hknown₁⟩
      -- its moves lead to nodes that owe one byte less
      have hnode : Junction.Keeps owed₁ (count + 1) (.bytes moves) := fun m hm => (hmoves m hm).1
      refine (lays_add hnode).bind ?_
      intro owed₂ i hgrows₂ hi
      refine .pure ⟨hi, ?_⟩
      intro k ranges' j hj
      -- what is known now is the new node or what was known before
      rw [List.lookup_cons] at hj
      split at hj
      · rename_i hsame
        cases hj
        obtain ⟨hk, -⟩ := Prod.mk.injEq .. ▸ eq_of_beq hsame
        have hk' : k = count + 1 := by omega
        exact hk' ▸ hi
      · exact (hknown₁.mono hgrows₂) k ranges' j hj

/-- Moves over the first digits of pieces lead where the bytes after them are owed. -/
theorem lays_pieceMoves (count base : Nat) (pieces : List Piece) {known : Known}
    (hnext : Owes owed next 0) (hknown : known.Keeps owed) :
    Lays owed (pieceMoves next count base pieces known) fun owed' r =>
      MovesOver pieces base count owed' r.1 ∧ Known.Keeps owed' r.2 :=
  lays_pieceMoves_of (lays_digitsNode count) base pieces hnext hknown

/-- The first bytes of the characters of a form, of which so many are continued by `count` bytes. -/
theorem leads_of_forms {count base lo hi : Nat} (h : (count, base, lo, hi) ∈ forms) {digit : Nat}
    (hlo : lo / Nat.pow 64 count ≤ digit) (hhi : digit ≤ hi / Nat.pow 64 count) :
    Leads (UInt8.ofNat (digit + base)) (count + 1) := by
  simp only [forms, List.mem_cons, List.not_mem_nil, or_false, Prod.mk.injEq] at h
  obtain ⟨rfl, rfl, rfl, rfl⟩ | ⟨rfl, rfl, rfl, rfl⟩ | ⟨rfl, rfl, rfl, rfl⟩ | ⟨rfl, rfl, rfl, rfl⟩ := h
  · exact leads_one (by simpa using hhi)
  · exact leads_two (Nat.lt_succ_of_le hhi) hlo
  · exact leads_three (Nat.lt_succ_of_le hhi)
  · exact leads_four (Nat.lt_succ_of_le hhi)

/-- The pieces of the characters of one form lie between its first digits. -/
theorem digits_of_form {chars : CodeSet} {count lo hi : Nat} {piece : Piece}
    (h : piece ∈ joinPieces
      ((chars.ranges.filterMap (CodeSet.clip lo hi)).flatMap (splitRange (Nat.pow 64 count)))) :
    lo / Nat.pow 64 count ≤ piece.1 ∧ piece.2.1 ≤ hi / Nat.pow 64 count := by
  obtain ⟨piece', hmem, hfirst, hlast⟩ := exists_of_mem_joinPieces h
  obtain ⟨range, hrange, hmem⟩ := List.mem_flatMap.mp hmem
  obtain ⟨whole, -, hclip⟩ := List.mem_filterMap.mp hrange
  unfold CodeSet.clip at hclip
  dsimp only at hclip
  -- a range that is cut off keeps within the bounds, and so do its pieces
  split at hclip
  · rename_i hle
    cases hclip
    obtain ⟨hlo, hhi⟩ := digits_of_mem_splitRange hle hmem
    rw [← hfirst, ← hlast]
    exact ⟨Nat.le_trans (Nat.div_le_div_right (Nat.le_max_left ..)) hlo,
      Nat.le_trans hhi (Nat.div_le_div_right (Nat.min_le_left ..))⟩
  · cases hclip

/-- Moves on first bytes lead where the rest of a character is owed. -/
theorem lays_setMoves (chars : CodeSet) (rest : List (Nat × Nat × Nat × Nat)) (hrest : rest ⊆ forms)
    {known : Known} (hnext : Owes owed next 0) (hknown : known.Keeps owed) :
    Lays owed (setMoves next chars rest known) fun owed' moves =>
      (Junction.bytes moves).Keeps owed' 0 := by
  -- on the forms of lead bytes that are left
  induction rest generalizing owed known with
  | nil =>
    rw [setMoves]
    exact .pure fun _ hm => absurd hm List.not_mem_nil
  | cons form rest ih =>
    obtain ⟨count, base, lo, hi⟩ := form
    have hform : (count, base, lo, hi) ∈ forms := hrest List.mem_cons_self
    rw [setMoves]
    refine (lays_pieceMoves count base _ hnext hknown).bind ?_
    rintro owed₁ ⟨moves, known₁⟩ hgrows ⟨hmoves, hknown₁⟩
    refine (ih (fun _ h => hrest (List.mem_cons_of_mem _ h)) (hnext.mono hgrows) hknown₁).bind ?_
    intro owed₂ more hgrows₂ hmore
    refine .pure fun m hm => ?_
    obtain hm | hm := List.mem_append.mp hm
    · obtain ⟨howes, piece, hpiece, hfirst, hlast⟩ := hmoves m hm
      -- a lead byte of this form asks for `count` more bytes, and that much is owed at the target
      obtain ⟨hlo, hhi⟩ := digits_of_form hpiece
      refine ⟨count, howes.mono hgrows₂, fun b hb hb' => ?_⟩
      obtain ⟨digit, rfl⟩ := Nat.exists_eq_add_of_le' (show base ≤ b by omega)
      exact leads_of_forms hform (by omega) (by omega)
    · exact hmore m hm

/-- The node for a set of characters reads one of them. -/
theorem lays_setNode (chars : CodeSet) (hnext : Owes owed next 0) :
    Lays owed (setNode chars next) fun owed' i => Owes owed' i 0 := by
  have hknown : Known.Keeps owed [] := fun _ _ _ h => by cases h
  refine (lays_setMoves chars forms (List.Subset.refl _) hnext hknown).bind ?_
  exact fun _ _ _ hmoves => lays_add hmoves

/-! ## Expressions -/

/-- Bytes that continue a character, laid out in front of what comes after it. -/
theorem lays_tail (tail : List UInt8) {rest : Layout Nat}
    (h : Lays owed rest fun owed' i => Owes owed' i 0) :
    Lays owed (tail.foldr (fun b rest => do add (.bytes [(b.toNat, b.toNat, ← rest)])) rest)
      fun owed' i => Owes owed' i tail.length := by
  -- the nodes are laid from the last byte to the first
  induction tail with
  | nil => exact h
  | cons b tail ih =>
    refine ih.bind fun owed' i _ hi => ?_
    have hnode : Junction.Keeps owed' (tail.length + 1) (.bytes [(b.toNat, b.toNat, i)]) := by
      intro m hm
      rw [List.mem_singleton.mp hm]
      exact hi
    exact lays_add hnode

/-- A row of characters is laid out byte by byte. -/
theorem lays_bytesNode (text : List Char) (hnext : Owes owed next 0) :
    Lays owed (bytesNode (text.flatMap String.utf8EncodeChar) next) fun owed' i => Owes owed' i 0 := by
  unfold bytesNode
  -- the characters are laid from the last to the first, each of them in front of the others
  induction text with
  | nil => exact .pure hnext
  | cons c text ih =>
    obtain ⟨lead, tail, hc, hlead, -⟩ := utf8EncodeChar_cases c
    rw [List.flatMap_cons, hc, List.foldr_append, List.foldr_cons]
    refine (lays_tail tail ih).bind fun owed' i _ hi => ?_
    have hnode : Junction.Keeps owed' 0 (.bytes [(lead.toNat, lead.toNat, i)]) := by
      intro m hm
      rw [List.mem_singleton.mp hm]
      refine ⟨tail.length, hi, fun b hb hb' => ?_⟩
      rw [Nat.le_antisymm hb' hb, UInt8.ofNat_toNat]
      exact hlead
    exact lays_add hnode

/-- Something reads whole characters: from a node where none is owed it leads to another one. -/
def Whole (place : Nat → Layout Nat) : Prop :=
  ∀ owed next, Owes owed next 0 → Lays owed (place next) fun owed' i => Owes owed' i 0

/-- Optional repetitions owe what comes after them, -/
theorem lays_optionally {place : Nat → Layout Nat} (h : Whole place) (count : Nat)
    (hnext : Owes owed next 0) :
    Lays owed (optionally place next count) fun owed' i => Owes owed' i 0 := by
  induction count with
  | zero => exact .pure hnext
  | succ count ih =>
    refine ih.bind fun owed₁ rest hgrows hrest => ?_
    refine (h owed₁ rest hrest).bind fun owed₂ first hgrows₂ hfirst => ?_
    -- each time the text may be left out, so there is a way past it
    have hnode : Junction.Keeps owed₂ 0 (.split [first, next]) := by
      refine ⟨rfl, fun i hi => ?_⟩
      obtain rfl | hi := List.mem_cons.mp hi
      · exact hfirst
      · rw [List.mem_singleton.mp hi]
        exact (hnext.mono hgrows).mono hgrows₂
    exact lays_add hnode

/-- so do repetitions of a fixed number, -/
theorem lays_times {place : Nat → Layout Nat} (h : Whole place) (count : Nat)
    (hnext : Owes owed next 0) :
    Lays owed (times place next count) fun owed' i => Owes owed' i 0 := by
  induction count with
  | zero => exact .pure hnext
  | succ count ih => exact ih.bind fun owed' rest _ hrest => h owed' rest hrest

/-- and so do loops. -/
theorem lays_loop {place : Nat → Layout Nat} (h : Whole place) (hnext : Owes owed next 0) :
    Lays owed (loop place next) fun owed' i => Owes owed' i 0 := by
  -- the node that is come back to is laid first, and its ways are put in at the end
  have hempty : Junction.Keeps owed 0 (.split []) := ⟨rfl, fun _ hi => absurd hi List.not_mem_nil⟩
  refine (lays_add hempty).bind fun owed₁ i hgrows hi => ?_
  refine (h owed₁ i hi).bind fun owed₂ first hgrows₂ hfirst => ?_
  have hnode : Junction.Keeps owed₂ 0 (.split [first, next]) := by
    refine ⟨rfl, fun j hj => ?_⟩
    obtain rfl | hj := List.mem_cons.mp hj
    · exact hfirst
    · rw [List.mem_singleton.mp hj]
      exact (hnext.mono hgrows).mono hgrows₂
  refine (lays_put (hi.mono hgrows₂) hnode).bind fun owed₃ _ hgrows₃ _ => ?_
  exact .pure ((hi.mono hgrows₂).mono hgrows₃)

mutual

/-- Every expression reads whole characters. -/
theorem lays_layout : ∀ e : Expression, Whole (layout e)
  | .empty, _, _, hnext => .pure hnext
  -- a literal is laid byte by byte, in its UTF-8 form
  | .literal text, _, _, hnext => by
    have hbytes : (text.flatMap String.utf8EncodeChar).toByteArray =
        ofBytes (text.flatMap String.utf8EncodeChar) :=
      ByteArray.ext (List.data_toByteArray ..)
    rw [layout, toUTF8_eq, String.toList_ofList, hbytes, toList_ofBytes]
    exact lays_bytesNode text hnext
  | .set chars _, _, _, hnext => lays_setNode chars hnext
  | .look _, _, _, hnext => lays_add ⟨rfl, hnext⟩
  | .repetition least most _ content, _, _, hnext => by
    have hcontent := lays_layout content
    cases most with
    -- what is required stands before what is optional, and is laid after it
    | some most =>
      rw [layout]
      exact (lays_optionally hcontent (most - least) hnext).bind fun _ _ _ hrest =>
        lays_times hcontent least hrest
    | none =>
      rw [layout]
      exact (lays_loop hcontent hnext).bind fun _ _ _ hrest =>
        lays_times hcontent least hrest
  | .capture _ content, owed, next, hnext => lays_layout content owed next hnext
  | .concat parts, owed, next, hnext => lays_layoutSequence parts owed next hnext
  | .alternation branches, _, _, hnext => by
    rw [layout]
    exact (lays_layoutBranches branches hnext).bind fun _ _ _ hnodes =>
      lays_add ⟨rfl, hnodes⟩

/-- A sequence is laid from the back, each part before what follows it. -/
theorem lays_layoutSequence : ∀ parts : List Expression, Whole (layoutSequence parts)
  | [], _, _, hnext => .pure hnext
  | e :: rest, owed, next, hnext =>
    (lays_layoutSequence rest owed next hnext).bind fun owed' i _ hi => lays_layout e owed' i hi

/-- Every branch owes what comes after the choice. -/
theorem lays_layoutBranches : ∀ (branches : List Expression) {owed : List Nat} {next : Nat},
    Owes owed next 0 → Lays owed (layoutBranches branches next) fun owed' nodes =>
      ∀ i ∈ nodes, Owes owed' i 0
  | [], _, _, _ => .pure fun _ hi => absurd hi List.not_mem_nil
  | e :: rest, owed, next, hnext =>
    (lays_layout e owed next hnext).bind fun owed₁ first hgrows hfirst =>
      (lays_layoutBranches rest (hnext.mono hgrows)).bind fun owed₂ nodes hgrows₂ hnodes =>
        .pure fun i hi => by
          obtain rfl | hi := List.mem_cons.mp hi
          · exact hfirst.mono hgrows₂
          · exact hnodes i hi

end

/-- What is owed at the nodes of a network, at which nothing is to begin with. -/
structure Keeps (n : Network) (owed : List Nat) : Prop where
  nodes : Owing n.nodes owed
  start : Owes owed n.start 0

/-- The network of an expression reads whole characters. -/
theorem exists_keeps (e : Expression) : ∃ owed, (ofExpression e).Keeps owed := by
  have haccept : Junction.Keeps [] 0 .accept := rfl
  have hempty : Owing #[] [] := ⟨rfl, fun _ _ _ h => by cases h⟩
  obtain ⟨owed, -, hnodes, hstart⟩ :=
    (lays_add haccept).bind (fun owed i _ hi => lays_layout e owed i hi) #[] hempty
  exact ⟨owed, hnodes, hstart⟩

end Network

end IncrementalParsing
