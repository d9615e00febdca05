import IncrementalParsing.Proofs.Text.Edits
import IncrementalParsing.Tree.Subtree

/-!
# Parts that fit a text

A part does not know where it stands.  `Fits` says that it can stand at a place of a text: padding and
size are those of the bytes there, its children cover the same bytes, and all of them begin and end
between characters.  `FitAll` says the same of parts that follow each other.

## Key results

- `Subtree.induction`: what holds of a part if it holds of its children
- `fitAll_append`: parts that follow each other can be taken apart anywhere
- `fits_edit`: an edited part fits the edited text
-/

namespace IncrementalParsing

namespace Subtree

/-! ## Induction -/

/-- A child has at most as many nodes as all children. -/
theorem count_le_of_mem {children : List (Subtree × Option FieldId)} {c : Subtree × Option FieldId}
    (h : c ∈ children) : c.1.count ≤ countAll children := by
  induction children with
  | nil => cases h
  | cons d rest ih =>
    rw [countAll]
    cases h with
    | head => omega
    | tail _ h =>
      have := ih h
      omega

/-- What holds of every part whose children it holds of holds of all parts. -/
theorem induction {P : Subtree → Prop} (step : ∀ n, (∀ c ∈ n.children, P c.1) → P n) (n : Subtree) :
    P n := by
  generalize hsize : n.count = size
  induction size using Nat.strongRecOn generalizing n with
  | _ size ih =>
    refine step n fun c hc => ih c.1.count ?_ c.1 rfl
    have hle := count_le_of_mem hc
    cases n
    rw [count] at hsize
    dsimp only at hle
    omega

/-! ## Parts at a place -/

/-- A node takes its padding and its own bytes. -/
theorem bytes_total (n : Subtree) : n.total.bytes = n.padding.bytes + n.size.bytes := rfl

/-- A part stands after `i` bytes of a text, between characters. -/
structure Stands (text : ByteArray) (i : Nat) (n : Subtree) : Prop where
  start : isBoundary text i = true
  content : isBoundary text (i + n.padding.bytes) = true
  finish : isBoundary text (i + n.total.bytes) = true
  padding : n.padding = .of (text.extract i (i + n.padding.bytes))
  size : n.size = .of (text.extract (i + n.padding.bytes) (i + n.total.bytes))

mutual

/-- A part that is not the end of the text stands after `i` bytes, and so do its children, which
cover it.  Tokens need no children. -/
def Fits (t : Table) (text : ByteArray) (i : Nat) : Subtree → Prop
  | ⟨symbol, padding, size, children, parseState, first, trailing, lookahead, extra, hasError,
      changed⟩ =>
    let n : Subtree := ⟨symbol, padding, size, children, parseState, first, trailing, lookahead,
      extra, hasError, changed⟩
    symbol ≠ Symbol.finish ∧ Stands text i n ∧
      (children ≠ [] ∨ t.isTerminal symbol = false →
        FitAll t text i (i + n.total.bytes) children) ∧
      ∀ c ∈ children.head?, padding.bytes ≤ c.1.padding.bytes

/-- Parts that follow each other stand between `i` and `k`. -/
def FitAll (t : Table) (text : ByteArray) (i k : Nat) : List (Subtree × Option FieldId) → Prop
  | [] => i = k
  | (n, _) :: rest => Fits t text i n ∧ FitAll t text (i + n.total.bytes) k rest

end

variable {t : Table} {text text' : ByteArray} {e : Edit} {i j k : Nat}

/-- What it means for a part to fit. -/
theorem fits_iff {n : Subtree} :
    Fits t text i n ↔ n.symbol ≠ Symbol.finish ∧ Stands text i n ∧
      (n.children ≠ [] ∨ t.isTerminal n.symbol = false →
        FitAll t text i (i + n.total.bytes) n.children) ∧
      ∀ c ∈ n.children.head?, n.padding.bytes ≤ c.1.padding.bytes := by
  cases n
  rw [Fits]

/-- Children fit one behind the other. -/
theorem fitAll_cons {n : Subtree} {field : Option FieldId} {rest : List (Subtree × Option FieldId)} :
    FitAll t text i k ((n, field) :: rest) ↔
      Fits t text i n ∧ FitAll t text (i + n.total.bytes) k rest := by
  rw [FitAll]

/-- Without children nothing is covered. -/
@[simp] theorem fitAll_nil : FitAll t text i k [] ↔ i = k := by
  rw [FitAll]

/-- Parts that follow each other can be taken apart anywhere. -/
theorem fitAll_append {a b : List (Subtree × Option FieldId)} :
    FitAll t text i k (a ++ b) ↔ ∃ j, FitAll t text i j a ∧ FitAll t text j k b := by
  induction a generalizing i with
  | nil => simp
  | cons c rest ih =>
    obtain ⟨n, field⟩ := c
    simp only [List.cons_append, fitAll_cons, ih, exists_and_left, and_assoc]

/-- What a node takes is measured in the text where it stands, -/
theorem Stands.total {n : Subtree} (h : Stands text i n) :
    n.total = .of (text.extract i (i + n.total.bytes)) := by
  have htotal : n.total.bytes = n.padding.bytes + n.size.bytes := rfl
  rw [← Length.of_extract_add text (Nat.le_add_right i n.padding.bytes) (by omega), ← h.padding,
    ← h.size]
  rfl

/-- and ends in the text. -/
theorem Stands.le_size {n : Subtree} (h : Stands text i n) : i + n.total.bytes ≤ text.size :=
  le_size_of_isBoundary h.finish

/-- Where a part stands decides where it ends. -/
theorem Stands.before_add {n : Subtree} (h : Stands text i n) :
    Length.before text i + n.total = .before text (i + n.total.bytes) := by
  conv => lhs; rw [h.total]
  exact Length.before_add text (Nat.le_add_right _ _)

/-- A node that fits stands there. -/
theorem Fits.stands {n : Subtree} (h : Fits t text i n) : Stands text i n := (fits_iff.mp h).2.1

/-- A part whose padding and size are those of the bytes between three places stands there. -/
theorem stands_of_slices {n : Subtree} {c : Nat} (hic : i ≤ c) (hck : c ≤ k)
    (hi : isBoundary text i = true) (hc : isBoundary text c = true) (hk : isBoundary text k = true)
    (hpadding : n.padding = .of (text.extract i c)) (hsize : n.size = .of (text.extract c k)) :
    Stands text i n ∧ i + n.padding.bytes = c ∧ i + n.total.bytes = k := by
  -- the padding is as long as the text in front of the content
  have hpad : i + n.padding.bytes = c := by
    rw [hpadding, Length.bytes_of_extract (le_size_of_isBoundary hc)]
    omega
  have htotal : i + n.total.bytes = k := by
    change i + (n.padding.bytes + n.size.bytes) = k
    rw [← Nat.add_assoc, hpad, hsize, Length.bytes_of_extract (le_size_of_isBoundary hk)]
    omega
  exact ⟨⟨hi, hpad ▸ hc, htotal ▸ hk, hpad ▸ hpadding, by rw [hpad, htotal, hsize]⟩, hpad, htotal⟩

/-- Children that fit end at a boundary, behind their start. -/
theorem fitAll_bounds {children : List (Subtree × Option FieldId)}
    (h : FitAll t text i k children) (hi : isBoundary text i = true) :
    i ≤ k ∧ isBoundary text k = true := by
  induction children generalizing i with
  | nil =>
    rw [fitAll_nil] at h
    exact h ▸ ⟨Nat.le_refl _, hi⟩
  | cons c rest ih =>
    obtain ⟨n, field⟩ := c
    rw [fitAll_cons] at h
    -- the next child starts where this one has ended, on a boundary
    have := ih h.2 h.1.stands.finish
    exact ⟨by omega, this.2⟩

/-- Marks and fields do not matter for where a part fits. -/
theorem fits_withExtra {n : Subtree} {extra : Bool} (h : Fits t text i n) :
    Fits t text i (n.withExtra extra) := by
  rw [fits_iff] at h ⊢
  obtain ⟨hf, hs, hc, hp⟩ := h
  exact ⟨hf, ⟨hs.start, hs.content, hs.finish, hs.padding, hs.size⟩, hc, hp⟩

/-- Errors that are joined are tokens, without anything between them. -/
theorem spec_of_joinErrors {a b joined : Subtree} (h : a.joinErrors? b = some joined) :
    a.symbol = Symbol.error ∧ a.children = [] ∧ b.padding.bytes = 0 ∧
      joined = { a with size := a.size + b.size, lookahead := b.lookahead } := by
  unfold joinErrors? at h
  split at h
  · rename_i hcond
    simp only [Bool.and_eq_true, beq_iff_eq, isError, isLeaf, List.isEmpty_iff] at hcond
    obtain ⟨⟨⟨⟨herror, -⟩, hleaf⟩, -⟩, hpadding⟩ := hcond
    cases h
    exact ⟨herror, hleaf, hpadding, rfl⟩
  · cases h

/-- Joined errors are the first of them, with the bytes of both. -/
theorem eq_of_joinErrors {a b joined : Subtree} (h : a.joinErrors? b = some joined) :
    joined = { a with size := a.size + b.size, lookahead := b.lookahead } :=
  (spec_of_joinErrors h).2.2.2

/-- Two errors joined fit where they fit one after the other. -/
theorem fits_joinErrors {a b joined : Subtree} (ht : t.isTerminal Symbol.error = true)
    (h : a.joinErrors? b = some joined)
    (ha : Fits t text i a) (hb : Fits t text (i + a.total.bytes) b) :
    Fits t text i joined ∧ joined.total.bytes = a.total.bytes + b.total.bytes := by
  obtain ⟨herror, hleaf, hpadding, rfl⟩ := spec_of_joinErrors h
  -- the second error has no padding, so that its bytes follow those of the first
  have hatotal : a.total.bytes = a.padding.bytes + a.size.bytes := rfl
  have hbtotal : b.total.bytes = b.padding.bytes + b.size.bytes := rfl
  have htotal : a.padding.bytes + (a.size.bytes + b.size.bytes) =
      a.total.bytes + b.total.bytes := by omega
  rw [fits_iff] at ha hb
  obtain ⟨haf, has, -, -⟩ := ha
  obtain ⟨-, hbs, -, -⟩ := hb
  refine ⟨fits_iff.mpr ⟨haf, ⟨has.start, has.content, ?_, has.padding, ?_⟩, ?_, by simp [hleaf]⟩,
    htotal⟩
  · change isBoundary text (i + (a.padding.bytes + (a.size.bytes + b.size.bytes))) = true
    rw [htotal, ← Nat.add_assoc]
    exact hbs.finish
  · change a.size + b.size = .of (text.extract (i + a.padding.bytes)
      (i + (a.padding.bytes + (a.size.bytes + b.size.bytes))))
    rw [htotal, ← Nat.add_assoc, ← Length.of_extract_add text
      (show i + a.padding.bytes ≤ i + a.total.bytes by omega) (by omega), ← has.size]
    have hbsize := hbs.size
    rw [hpadding, Nat.add_zero] at hbsize
    rw [← hbsize]
  · rintro (hne | hrule)
    · exact absurd hleaf hne
    · change t.isTerminal a.symbol = false at hrule
      rw [herror, ht] at hrule
      cases hrule

/-! ## Parts of an edited text -/

/-- The `len` bytes from `i` on are there in the other text too, from `i'` on. -/
structure Same (text text' : ByteArray) (i i' len : Nat) : Prop where
  boundary : ∀ j, i ≤ j → j ≤ i + len → isBoundary text j = true →
    isBoundary text' (i' + (j - i)) = true
  bytes : ∀ j k, i ≤ j → j ≤ k → k ≤ i + len →
    text'.extract (i' + (j - i)) (i' + (k - i)) = text.extract j k

/-- Texts that are the same over a stretch are so over each part of it. -/
theorem Same.restrict {i' len len' : Nat} (h : Same text text' i i' len) (hij : i ≤ j)
    (hj : j + len' ≤ i + len) : Same text text' j (i' + (j - i)) len' := by
  constructor
  · intro k hk hlen hb
    have := h.boundary k (by omega) (by omega) hb
    rwa [show i' + (j - i) + (k - j) = i' + (k - i) by omega]
  · intro k l hk hkl hl
    rw [← h.bytes k l (by omega) hkl (by omega)]
    congr 1 <;> omega

/-- Children that fit in a text fit where another text is the same, if each of them does. -/
theorem fitAll_same_of {i' len : Nat} (hsame : Same text text' i i' len)
    {children : List (Subtree × Option FieldId)} (hall : ∀ c ∈ children, ∀ {j j' : Nat},
      Same text text' j j' c.1.total.bytes → Fits t text j c.1 → Fits t text' j' c.1)
    (hi : isBoundary text i = true) (h : FitAll t text i k children) (hk : k ≤ i + len) :
    FitAll t text' i' (i' + (k - i)) children := by
  -- the induction is on the children, each of which takes its share of the common bytes
  induction children generalizing i i' len with
  | nil =>
    rw [fitAll_nil] at h ⊢
    omega
  | cons c rest ih =>
    obtain ⟨n, field⟩ := c
    rw [fitAll_cons] at h ⊢
    have hnext := h.1.stands.finish
    have hbounds := (fitAll_bounds h.2 hnext).1
    have hfirst : Same text text' i i' n.total.bytes := by
      simpa using hsame.restrict (Nat.le_refl i) (show i + n.total.bytes ≤ i + len by omega)
    have hrest : Same text text' (i + n.total.bytes) (i' + n.total.bytes) (len - n.total.bytes) := by
      simpa using hsame.restrict (Nat.le_add_right i n.total.bytes)
        (show i + n.total.bytes + (len - n.total.bytes) ≤ i + len by omega)
    refine ⟨hall _ (List.mem_cons_self ..) hfirst h.1, ?_⟩
    have := ih hrest (fun c hc => hall c (List.mem_cons_of_mem _ hc)) hnext h.2 (by omega)
    rwa [show i' + n.total.bytes + (k - (i + n.total.bytes)) = i' + (k - i) by omega] at this

/-- What fits a text fits wherever the same bytes are. -/
theorem fits_same (n : Subtree) : ∀ {i i' : Nat}, Same text text' i i' n.total.bytes →
    Fits t text i n → Fits t text' i' n := by
  -- the induction is on the node, as its children lie within its bytes
  induction n using Subtree.induction with
  | step n ih =>
    intro i i' hsame h
    have htotal : n.total.bytes = n.padding.bytes + n.size.bytes := rfl
    rw [fits_iff] at h ⊢
    obtain ⟨hf, hs, hc, hp⟩ := h
    refine ⟨hf, ⟨?_, ?_, ?_, ?_, ?_⟩, fun hinner => ?_, hp⟩
    · simpa using hsame.boundary i (Nat.le_refl _) (by omega) hs.start
    · have := hsame.boundary _ (Nat.le_add_right i n.padding.bytes) (by omega) hs.content
      rwa [Nat.add_sub_cancel_left] at this
    · have := hsame.boundary _ (Nat.le_add_right i n.total.bytes) (by omega) hs.finish
      rwa [Nat.add_sub_cancel_left] at this
    · have := hsame.bytes i (i + n.padding.bytes) (Nat.le_refl _) (by omega) (by omega)
      rw [Nat.sub_self, Nat.add_zero, Nat.add_sub_cancel_left] at this
      rw [this]
      exact hs.padding
    · have := hsame.bytes (i + n.padding.bytes) (i + n.total.bytes) (by omega) (by omega) (by omega)
      rw [Nat.add_sub_cancel_left, Nat.add_sub_cancel_left] at this
      rw [this]
      exact hs.size
    · have := fitAll_same_of hsame (fun c hc => ih c hc) hs.start (hc hinner) (Nat.le_refl _)
      rwa [Nat.add_sub_cancel_left] at this

/-- Parts that fit a text fit wherever the same bytes are. -/
theorem fitAll_same {i' len : Nat} (hsame : Same text text' i i' len)
    {children : List (Subtree × Option FieldId)} (hi : isBoundary text i = true)
    (h : FitAll t text i k children) (hk : k ≤ i + len) :
    FitAll t text' i' (i' + (k - i)) children :=
  fitAll_same_of hsame (fun c _ => fits_same c.1) hi h hk

/-- A part that an edit does not touch has the same bytes afterwards. -/
theorem same_of_not_affects (he : e.Replaces text text') {n : Subtree} (hs : Stands text i n)
    (h : e.affects (.before text i) (.before text i + n.total) n.lookahead = false) :
    Same text text' i (e.move i) n.total.bytes ∧
      ∀ j ≤ n.total.bytes, e.move i + j = e.move (i + j) := by
  have hsize := hs.le_size
  have hi := le_size_of_isBoundary hs.start
  simp only [Edit.affects, Length.bytes_add, Length.bytes_before hi, Bool.and_eq_false_iff,
    decide_eq_false_iff_not, Nat.not_lt, Nat.not_le] at h
  -- the part lies before the change or behind it, and is moved as one
  have hmove : ∀ j, i ≤ j → j ≤ i + n.total.bytes → e.move j = e.move i + (j - i) := by
    intro j hij hj
    obtain h | h := h
    · rw [Edit.move_of_le (by omega), Edit.move_of_le (by omega)]
      omega
    · have := he.start_le
      rw [Edit.move_of_ge (by omega) (by omega), Edit.move_of_ge (by omega) (by omega)]
      omega
  refine ⟨⟨fun j hij hj hb => ?_, fun j k hij hjk hk => ?_⟩, fun j hj => ?_⟩
  · rw [← hmove j hij hj]
    exact he.isBoundary_move hb
  -- the bytes before the change and those behind it are in the new text
  · rw [← hmove j hij (by omega), ← hmove k (by omega) hk]
    obtain h | h := h
    · rw [Edit.move_of_le (by omega), Edit.move_of_le (by omega)]
      exact he.extract_before (by omega)
    · have := he.start_le
      rw [Edit.move_of_ge (by omega) (by omega), Edit.move_of_ge (by omega) (by omega)]
      exact he.extract_after (by omega) hjk (by omega)
  · rw [hmove (i + j) (by omega) (by omega)]
    omega

/-- What is between two places afterwards. -/
theorem map_sub_map (he : e.Replaces text text') (hij : i ≤ j) (hj : j ≤ text.size) :
    e.map (.before text j) - e.map (.before text i) =
      .of (text'.extract (e.move i) (e.move j)) := by
  rw [he.map_before hj, he.map_before (Nat.le_trans hij hj), Length.before_sub _ (he.move_mono hij)]

/-- Children are edited one by one, each at its own position. -/
theorem editAll_cons (position : Length) (n : Subtree) (field : Option FieldId)
    (rest : List (Subtree × Option FieldId)) :
    editAll e position ((n, field) :: rest) =
      (n.edit e position, field) :: editAll e (position + n.total) rest := by
  rw [editAll]

/-- An edited part, where it is touched. -/
theorem edit_of_affects {n : Subtree} {position : Length}
    (h : e.affects position (position + n.total) n.lookahead = true) :
    n.edit e position = { n with
      padding := e.map (position + n.padding) - e.map position
      size := e.map (position + n.total) - e.map (position + n.padding)
      children := editAll e position n.children
      changed := true } := by
  cases n
  rw [edit]
  exact if_pos h

/-- An edited part, where it is not touched. -/
theorem edit_of_not_affects {n : Subtree} {position : Length}
    (h : e.affects position (position + n.total) n.lookahead = false) : n.edit e position = n := by
  cases n
  rw [edit]
  exact if_neg (by simpa [total] using h)

/-- The paddings of the first parts grow alike. -/
theorem head?_editAll (position : Length) (children : List (Subtree × Option FieldId)) :
    (editAll e position children).head? =
      children.head?.map fun c => (c.1.edit e position, c.2) := by
  cases children with
  | nil => rw [editAll]; rfl
  | cons c rest =>
    obtain ⟨n, field⟩ := c
    rw [editAll_cons]
    rfl

/-- An edited part fits the edited text, and its padding and its end are where they were moved to. -/
structure EditFits (t : Table) (e : Edit) (text text' : ByteArray) (i : Nat) (n : Subtree) : Prop where
  fits : Fits t text' (e.move i) (n.edit e (.before text i))
  content : e.move i + (n.edit e (.before text i)).padding.bytes = e.move (i + n.padding.bytes)
  finish : e.move i + (n.edit e (.before text i)).total.bytes = e.move (i + n.total.bytes)

/-- Children that fit still fit after an edit, if each of them does. -/
theorem fitAll_editAll {children : List (Subtree × Option FieldId)}
    (hall : ∀ c ∈ children, ∀ i, Fits t text i c.1 → EditFits t e text text' i c.1)
    (h : FitAll t text i k children) :
    FitAll t text' (e.move i) (e.move k) (editAll e (.before text i) children) := by
  induction children generalizing i with
  | nil =>
    rw [fitAll_nil] at h
    rw [editAll, fitAll_nil, h]
  | cons c rest ih =>
    obtain ⟨n, field⟩ := c
    rw [fitAll_cons] at h
    -- each child moves as the edit says, so the next one is found behind it
    have hn := hall _ (List.mem_cons_self ..) i h.1
    rw [editAll_cons, fitAll_cons, hn.finish, h.1.stands.before_add]
    exact ⟨hn.fits, ih (fun c hc => hall c (List.mem_cons_of_mem _ hc)) h.2⟩

/-- An edited part fits the edited text where it was moved to. -/
theorem fits_edit (he : e.Replaces text text') (n : Subtree) :
    ∀ i, Fits t text i n → EditFits t e text text' i n := by
  induction n using Subtree.induction with
  | step n ih =>
    intro i h
    have hs := h.stands
    have hsize := hs.le_size
    have htotal : n.total.bytes = n.padding.bytes + n.size.bytes := rfl
    -- a part that the edit does not reach stays as it is, and is only moved
    cases haffects : e.affects (.before text i) (.before text i + n.total) n.lookahead with
    | false =>
      obtain ⟨hsame, hmove⟩ := same_of_not_affects he hs haffects
      constructor
      · rw [edit_of_not_affects haffects]
        exact fits_same n hsame h
      · rw [edit_of_not_affects haffects]
        exact hmove _ (by omega)
      · rw [edit_of_not_affects haffects]
        exact hmove _ (Nat.le_refl _)
    | true =>
      have hcontent : Length.before text i + n.padding = .before text (i + n.padding.bytes) := by
        conv => lhs; rw [hs.padding]
        exact Length.before_add text (Nat.le_add_right _ _)
      -- the ends of an edited part are the moved ends of the part
      have hmono := he.move_mono (Nat.le_add_right i n.padding.bytes)
      have hmono' := he.move_mono (show i + n.padding.bytes ≤ i + n.total.bytes by omega)
      have hedited := edit_of_affects haffects
      rw [hcontent, hs.before_add, map_sub_map he (Nat.le_add_right _ _) (by omega),
        map_sub_map he (by omega) hsize] at hedited
      generalize hname : n.edit e (.before text i) = edited at hedited
      have hpad : edited.padding.bytes = e.move (i + n.padding.bytes) - e.move i := by
        rw [hedited]
        exact Length.bytes_of_extract (he.move_le_size (by omega))
      have hsz : edited.size.bytes = e.move (i + n.total.bytes) - e.move (i + n.padding.bytes) := by
        rw [hedited]
        exact Length.bytes_of_extract (he.move_le_size hsize)
      have htotal' : edited.total.bytes = edited.padding.bytes + edited.size.bytes := rfl
      have hmid : e.move i + edited.padding.bytes = e.move (i + n.padding.bytes) := by omega
      have hend : e.move i + edited.total.bytes = e.move (i + n.total.bytes) := by omega
      have hchildren : edited.children = editAll e (.before text i) n.children := by rw [hedited]
      have hsymbol : edited.symbol = n.symbol := by rw [hedited]
      have hfit : Fits t text' (e.move i) edited := by
        rw [fits_iff] at h ⊢
        obtain ⟨hf, -, hc, hp⟩ := h
        refine ⟨hsymbol ▸ hf, ⟨he.isBoundary_move hs.start, hmid ▸ he.isBoundary_move hs.content,
          hend ▸ he.isBoundary_move hs.finish, ?_, ?_⟩, fun hinner => ?_, fun c hc' => ?_⟩
        · rw [hmid, hedited]
        · rw [hmid, hend, hedited]
        · rw [hend, hchildren]
          refine fitAll_editAll ih (hc ?_)
          rw [hchildren, hsymbol] at hinner
          refine hinner.imp_left fun hne hnil => hne ?_
          rw [hnil, editAll]
        · -- the first child begins where the part does
          rw [hchildren, head?_editAll, Option.mem_def, Option.map_eq_some_iff] at hc'
          obtain ⟨d, hd, rfl⟩ := hc'
          have hne : n.children ≠ [] := fun hnil => by rw [hnil] at hd; cases hd
          have hfirst : Fits t text i d.1 := by
            have hall := hc (.inl hne)
            match hcs : n.children with
            | [] => exact absurd hcs hne
            | (m, field) :: rest =>
              rw [hcs] at hd hall
              cases hd
              exact (fitAll_cons.mp hall).1
          have hmove := (ih d (List.mem_of_mem_head? hd) i hfirst).content
          have hle := he.move_mono (Nat.add_le_add_left (hp d hd) i)
          change edited.padding.bytes ≤ (d.1.edit e (.before text i)).padding.bytes
          omega
      exact ⟨hname ▸ hfit, hname ▸ hmid, hname ▸ hend⟩

end Subtree

end IncrementalParsing
