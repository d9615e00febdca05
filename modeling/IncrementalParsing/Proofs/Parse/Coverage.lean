import IncrementalParsing.Parse.Parser
import IncrementalParsing.Proofs.Parse.Lexing
import IncrementalParsing.Proofs.Parse.Moves
import IncrementalParsing.Proofs.Table.Loading
import IncrementalParsing.Proofs.Tree.Extents

/-!
# What a parse covers

The entries of the stack stand one after the other from the start of the text to the place the parse
has got to, and each fits the text there.  `Covers` says this of where a parse stands; every step
keeps it, so the root that a parse ends with covers the text up to the trivia at its end.

## Key results

- `next_spec`: a token found in the text fits it
- `row_buildNode`: what is built of entries that follow each other fits where they stood
- `covers_of_moves`: a step keeps what a parse covers
-/

namespace IncrementalParsing

open Subtree (Fits FitAll Stands fits_iff fitAll_cons fitAll_nil fitAll_append)

variable {t : Table} {text : ByteArray}

/-! ## Tokens -/

/-- Tokens end between characters if they begin there. -/
def Table.KeepsCharacters (t : Table) : Prop :=
  ∀ (s : String) symbol lexeme start stop, t.lexeme? symbol = some lexeme →
    isBoundary s.toUTF8 start = true →
    (lexeme.automaton.scan s.toUTF8 start).1 = some stop → isBoundary s.toUTF8 stop = true

/-- The end of the text is not a token that is looked for, and never taken off the text. -/
structure Table.KeepsFinish (t : Table) : Prop where
  lexeme : t.lexeme? Symbol.finish = none
  shift : ∀ s target, t.action? s Symbol.finish ≠ some (.shift target)

namespace Lexer

/-- From one place to another there are only hidden extras. -/
inductive Trivia (t : Table) (text : ByteArray) : (start stop : Nat) → Prop
  | nil {i : Nat} : Trivia t text i i
  | cons {i j k : Nat} {symbol : Symbol} {lexeme : Lexeme} (ht : t.isTrivia symbol = true)
      (hl : t.lexeme? symbol = some lexeme) (hm : (lexeme.automaton.scan text i).1 = some j)
      (h : Trivia t text j k) : Trivia t text i k

/-- A token between two places of a text. -/
theorem stands_token {p s f : Nat} {symbol : Symbol} {examined : Nat} {mode : LexMode}
    {state : StateId} {extra : Bool} (hps : p ≤ s) (hsf : s ≤ f) (hp : isBoundary text p = true)
    (hs : isBoundary text s = true) (hf : isBoundary text f = true) :
    Stands text p (.leaf (token text symbol (.before text p) (.before text s) f examined mode) state
      extra) := by
  have hsize := le_size_of_isBoundary hs
  have hpadding : Length.before text s - Length.before text p = .of (text.extract p s) :=
    Length.before_sub text hps
  have hspan : Length.span text (Length.before text s).bytes f = .of (text.extract s f) := by
    rw [Length.bytes_before hsize, Length.span_of_isBoundary hsf hs hf]
  exact (Subtree.stands_of_slices hps hsf hp hs hf hpadding hspan).1

/-- A token found between characters stands there; where it is the end only trivia is left. -/
theorem spec_of_finds {s : String} (ht : t.Checked) (hk : t.KeepsCharacters) (hf : t.KeepsFinish)
    {mode : LexMode} {position start : Length} {examined : Nat} {found : Token}
    (h : Finds t s.toUTF8 mode position start examined found) :
    ∀ {p i : Nat}, position = .before s.toUTF8 p → start = .before s.toUTF8 i → p ≤ i →
      isBoundary s.toUTF8 p = true → isBoundary s.toUTF8 i = true →
      (found.symbol = Symbol.finish → Trivia t s.toUTF8 i s.toUTF8.size) ∧
        (found.symbol ≠ Symbol.finish → ∀ state extra,
          Fits t s.toUTF8 p (.leaf found state extra)) := by
  induction h with
  -- the place only moves on over trivia, so the two places belong to one text throughout
  | @finish start examined hend =>
    intro p i hposition hstart hpi hp hi
    have hsize := le_size_of_isBoundary hi
    rw [hstart, Length.bytes_before hsize] at hend
    obtain rfl : i = s.toUTF8.size := by omega
    exact ⟨fun _ => .nil, fun hne => absurd rfl hne⟩
  | @trivia start examined c found hlt hbest htrivia _ ih =>
    intro p i hposition hstart hpi hp hi
    have hsize := le_size_of_isBoundary hi
    have hmatch := longestMatch_spec hbest
    have hbounds := bounds_of_isMatch (Nat.le_of_lt hlt) hmatch
    obtain ⟨-, lexeme, hlexeme, hscan⟩ := hmatch
    rw [hstart, Length.bytes_before hsize] at hscan hbounds
    -- what is matched ends between characters, so the next search begins there
    have hfinish := hk s _ _ _ _ hlexeme hi hscan
    have hnext : start + .span s.toUTF8 start.bytes c.finish = .before s.toUTF8 c.finish := by
      rw [hstart, Length.bytes_before hsize, Length.span_of_isBoundary (by omega) hi hfinish,
        Length.before_add _ (by omega)]
    obtain ⟨hend, htoken⟩ := ih hposition hnext (by omega) hp hfinish
    exact ⟨fun h => .cons htrivia hlexeme hscan (hend h), htoken⟩
  | @found start examined c hlt hbest htrivia =>
    intro p i hposition hstart hpi hp hi
    have hsize := le_size_of_isBoundary hi
    have hmatch := longestMatch_spec hbest
    have hbounds := bounds_of_isMatch (Nat.le_of_lt hlt) hmatch
    obtain ⟨hmem, lexeme, hlexeme, hscan⟩ := hmatch
    rw [hstart, Length.bytes_before hsize] at hscan hbounds
    have hfinish := hk s _ _ _ _ hlexeme hi hscan
    have hne : c.symbol ≠ Symbol.finish := by
      intro heq
      rw [heq, hf.lexeme] at hlexeme
      cases hlexeme
    refine ⟨fun heq => absurd heq hne, fun _ state extra => fits_iff.mpr ⟨hne, ?_, ?_, by
      rintro d ⟨⟩⟩⟩
    · rw [hposition, hstart]
      exact stands_token hpi (by omega) hp hi hfinish
    · rintro (hnil | hrule)
      · exact absurd rfl hnil
      · change t.isTerminal c.symbol = false at hrule
        rw [ht.mode_terminal _ _ hmem] at hrule
        cases hrule
  | @unmatched start examined hlt hbest =>
    intro p i hposition hstart hpi hp hi
    have hsize := le_size_of_isBoundary hi
    rw [hstart, Length.bytes_before hsize] at hlt
    refine ⟨fun heq => (by cases heq), fun hne state extra => fits_iff.mpr ⟨hne, ?_, ?_, by
      rintro d ⟨⟩⟩⟩
    · rw [hposition, hstart]
      refine stands_token hpi ?_ hp hi ?_
      · rw [Length.bytes_before hsize]
        exact Nat.le_add_right _ _
      · rw [Length.bytes_before hsize]
        exact isBoundary_add_charWidth hi hlt
    · rintro (hnil | hrule)
      · exact absurd rfl hnil
      · change t.isTerminal Symbol.error = false at hrule
        rw [ht.error_terminal] at hrule
        cases hrule

end Lexer

/-! ## Building nodes -/

/-- Entries that follow each other stand between `i` and `k`. -/
def Row (t : Table) (text : ByteArray) (i k : Nat) : List Entry → Prop
  | [] => i = k
  | e :: rest => e.position = .before text i ∧ Fits t text i e.node ∧
      Row t text (i + e.node.total.bytes) k rest

/-- Entries that follow each other can be taken apart anywhere. -/
theorem row_append {i k : Nat} {a b : List Entry} :
    Row t text i k (a ++ b) ↔ ∃ j, Row t text i j a ∧ Row t text j k b := by
  induction a generalizing i with
  | nil => simp [Row]
  | cons e rest ih => simp only [List.cons_append, Row, ih, exists_and_left, and_assoc]

/-- The states of entries do not matter for where they stand. -/
theorem row_map_state {i k : Nat} {entries : List Entry} (state : StateId)
    (h : Row t text i k entries) :
    Row t text i k (entries.map fun e => { e with state }) := by
  induction entries generalizing i with
  | nil => exact h
  | cons e rest ih => exact ⟨h.1, h.2.1, ih h.2.2⟩

/-- A row ends at a boundary, behind its start. -/
theorem row_bounds {i k : Nat} {entries : List Entry} (h : Row t text i k entries)
    (hi : isBoundary text i = true) : i ≤ k ∧ isBoundary text k = true := by
  induction entries generalizing i with
  | nil => exact (show i = k from h) ▸ ⟨Nat.le_refl _, hi⟩
  | cons e rest ih =>
    have := ih h.2.2 h.2.1.stands.finish
    exact ⟨by omega, this.2⟩

/-- Entries that follow each other begin no later than what they consist of. -/
theorem begins_of_row {i k : Nat} {entries : List Entry} (h : Row t text i k entries) :
    ∀ e ∈ entries, ∀ c ∈ e.node.children.head?, e.node.padding.bytes ≤ c.1.padding.bytes := by
  induction entries generalizing i with
  | nil => exact fun _ he => by cases he
  | cons e rest ih =>
    obtain ⟨-, hfits, hrest⟩ := h
    exact List.forall_mem_cons.mpr ⟨(fits_iff.mp hfits).2.2.2, ih hrest⟩

/-- Where a row of entries ends. -/
theorem finish_of_row {i k : Nat} {entries : List Entry} {last : Entry}
    (h : Row t text i k entries) (hlast : entries.getLast? = some last) :
    last.finish = .before text k := by
  obtain ⟨front, rfl⟩ := List.getLast?_eq_some_iff.mp hlast
  obtain ⟨j, -, hposition, hfits, rfl⟩ := row_append.mp h
  rw [Entry.finish, hposition, hfits.stands.before_add]

namespace Build

/-- Fields do not matter to where children stand. -/
theorem fitAll_map {i k : Nat} {children : List (Subtree × Option FieldId)}
    (f : Option FieldId → Option FieldId) (h : FitAll t text i k children) :
    FitAll t text i k (children.map fun (c, inner) => (c, f inner)) := by
  induction children generalizing i with
  | nil => exact h
  | cons c rest ih =>
    obtain ⟨n, field⟩ := c
    rw [fitAll_cons] at h
    exact fitAll_cons.mpr ⟨h.1, ih h.2⟩

/-- Only a node with children is spliced. -/
theorem ne_nil_of_isSpliced {parent : Symbol} {n : Subtree} (h : isSpliced t parent n = true) :
    n.children ≠ [] := by
  simp only [isSpliced, Subtree.isLeaf, Bool.and_eq_true, Bool.not_eq_true',
    List.isEmpty_eq_false_iff] at h
  exact h.1

/-- An entry that is kept is its only piece, and one that is spliced has its children as pieces. -/
theorem pieces_cases (parent : Symbol) (entry : Entry × Option FieldId) :
    (isSpliced t parent entry.1.node = false ∧ pieces t parent entry = [(entry.1.node, entry.2)]) ∨
      (isSpliced t parent entry.1.node = true ∧ pieces t parent entry =
        entry.1.node.children.map fun (c, inner) => (c, inner.or entry.2)) := by
  unfold pieces
  dsimp only
  split
  · rename_i hspliced
    exact .inr ⟨hspliced, rfl⟩
  · rename_i hkept
    exact .inl ⟨by simpa using hkept, rfl⟩

/-- The children that an entry stands for cover it. -/
theorem fitAll_pieces {i : Nat} (parent : Symbol) (entry : Entry × Option FieldId)
    (h : Fits t text i entry.1.node) :
    FitAll t text i (i + entry.1.node.total.bytes) (pieces t parent entry) := by
  obtain ⟨-, hpieces⟩ | ⟨hspliced, hpieces⟩ := pieces_cases (t := t) parent entry
  · rw [hpieces]
    exact fitAll_cons.mpr ⟨h, fitAll_nil.mpr rfl⟩
  · obtain ⟨-, -, hall, -⟩ := fits_iff.mp h
    rw [hpieces]
    exact fitAll_map (·.or entry.2) (hall (.inl (ne_nil_of_isSpliced hspliced)))

/-- Fields are given to the entries as they stand. -/
theorem map_fst_withFields (entries : List Entry) (fields : List (Option FieldId)) :
    (withFields entries fields).map Prod.fst = entries := by
  induction entries generalizing fields with
  | nil => rfl
  | cons e rest ih =>
    rw [withFields]
    split <;> simp [ih]

/-- The pieces of entries that follow each other cover them. -/
theorem fitAll_flatMap_pieces {i k : Nat} {parent : Symbol}
    {entries : List (Entry × Option FieldId)} (h : Row t text i k (entries.map Prod.fst)) :
    FitAll t text i k (entries.flatMap (pieces t parent)) := by
  induction entries generalizing i with
  | nil => exact fitAll_nil.mpr h
  | cons entry rest ih =>
    rw [List.flatMap_cons, fitAll_append]
    exact ⟨_, fitAll_pieces parent entry h.2.1, ih h.2.2⟩

/-- A child is added to those before it, or is joined with the last of them. -/
theorem addChild_cases (parent : Symbol) (before : List (Subtree × Option FieldId))
    (child : Subtree × Option FieldId) :
    addChild parent before child = child :: before ∨
      ∃ last field rest joined, before = (last, field) :: rest ∧ parent = Symbol.error ∧
        last.joinErrors? child.1 = some joined ∧
        addChild parent before child = (joined, field) :: rest := by
  unfold addChild
  split
  · exact .inl rfl
  -- only in an error, and only where both are errors, are two children joined
  · rename_i last field rest
    split
    · rename_i herror
      split
      · rename_i joined hjoined
        exact .inr ⟨last, field, rest, joined, rfl,
          beq_iff_eq.mp (Bool.and_eq_true_iff.mp herror).1, hjoined, rfl⟩
      · exact .inl rfl
    · exact .inl rfl

/-- Adding a child keeps the children in a row, also where it is joined to the one before. -/
theorem fitAll_addChild (ht : t.isTerminal Symbol.error = true) (parent : Symbol) {i j : Nat}
    {before : List (Subtree × Option FieldId)} (child : Subtree × Option FieldId)
    (hbefore : FitAll t text i j before.reverse) (hchild : Fits t text j child.1) :
    FitAll t text i (j + child.1.total.bytes) (addChild parent before child).reverse := by
  obtain hadded | ⟨last, field, rest, joined, rfl, -, hjoined, hadded⟩ :=
    addChild_cases parent before child
  · rw [hadded, List.reverse_cons, fitAll_append]
    exact ⟨j, hbefore, fitAll_cons.mpr ⟨hchild, fitAll_nil.mpr rfl⟩⟩
  · rw [List.reverse_cons, fitAll_append] at hbefore
    obtain ⟨l, hrest, hlast⟩ := hbefore
    obtain ⟨hlast, hj⟩ := fitAll_cons.mp hlast
    rw [fitAll_nil] at hj
    -- two neighbouring errors become one that covers both
    obtain ⟨hfits, htotal⟩ := Subtree.fits_joinErrors ht hjoined hlast (hj ▸ hchild)
    rw [hadded, List.reverse_cons, fitAll_append]
    exact ⟨l, hrest, fitAll_cons.mpr ⟨hfits, fitAll_nil.mpr (by omega)⟩⟩

/-- Children that are added one by one stand where they stood before. -/
theorem fitAll_foldl_addChild (ht : t.isTerminal Symbol.error = true) (parent : Symbol) {i j k : Nat}
    (before : List (Subtree × Option FieldId)) {added : List (Subtree × Option FieldId)}
    (hbefore : FitAll t text i j before.reverse) (hadded : FitAll t text j k added) :
    FitAll t text i k (added.foldl (addChild parent) before).reverse := by
  -- the children so far stand in reverse, so each is added at the front of the list and behind in the
  -- text
  induction added generalizing before j with
  | nil => exact fitAll_nil.mp hadded ▸ hbefore
  | cons child rest ih =>
    obtain ⟨n, field⟩ := child
    rw [fitAll_cons] at hadded
    exact ih _ (fitAll_addChild ht parent (n, field) hbefore hadded.1) hadded.2

/-- The children of a node cover its entries. -/
theorem fitAll_children (ht : t.isTerminal Symbol.error = true) (parent : Symbol) {i k : Nat}
    {entries : List Entry} (fields : List (Option FieldId)) (h : Row t text i k entries) :
    FitAll t text i k (children t parent entries fields) :=
  fitAll_foldl_addChild ht parent [] (fitAll_nil.mpr rfl)
    (fitAll_flatMap_pieces (by rw [map_fst_withFields]; exact h))

/-- Every entry is at least one piece. -/
theorem pieces_ne_nil (parent : Symbol) (entry : Entry × Option FieldId) :
    pieces t parent entry ≠ [] := by
  obtain ⟨-, hpieces⟩ | ⟨hspliced, hpieces⟩ := pieces_cases (t := t) parent entry
  · rw [hpieces]
    exact List.cons_ne_nil _ _
  · simpa [hpieces] using ne_nil_of_isSpliced hspliced

/-- The first piece of entries is that of the first entry. -/
theorem head?_flatMap_pieces (parent : Symbol) (entries : List (Entry × Option FieldId)) :
    (entries.flatMap (pieces t parent)).head? =
      entries.head?.bind fun entry => (pieces t parent entry).head? := by
  cases entries with
  | nil => rfl
  | cons entry rest =>
    rw [List.flatMap_cons, List.head?_append_of_ne_nil _ (pieces_ne_nil parent entry)]
    rfl

/-- What joining errors leaves as it is in the first of them is the same for the first child and for the
first piece. -/
theorem map_head?_addChild {α : Type} {f : Subtree × Option FieldId → α}
    (hf : ∀ a b joined field, a.joinErrors? b = some joined → f (joined, field) = f (a, field))
    (parent : Symbol) (before : List (Subtree × Option FieldId)) (child : Subtree × Option FieldId) :
    (addChild parent before child).reverse.head?.map f =
      (before.reverse ++ [child]).head?.map f := by
  obtain hadded | ⟨last, field, rest, joined, rfl, -, hjoined, hadded⟩ :=
    addChild_cases parent before child
  · rw [hadded, List.reverse_cons]
  · rw [hadded, List.reverse_cons, List.reverse_cons, List.append_assoc, List.head?_append,
      List.head?_append]
    cases rest.reverse.head? with
    | none => exact congrArg some (hf _ _ _ field hjoined)
    | some _ => rfl

/-- What errors that are joined have in common with the first of them is read off the first piece. -/
theorem map_head?_children {α : Type} {f : Subtree × Option FieldId → α}
    (hf : ∀ a b joined field, a.joinErrors? b = some joined → f (joined, field) = f (a, field))
    (parent : Symbol) (entries : List Entry) (fields : List (Option FieldId)) :
    (children t parent entries fields).head?.map f =
      ((withFields entries fields).flatMap (pieces t parent)).head?.map f := by
  -- joining changes the first child only in what `f` does not see
  have hfold : ∀ added before : List (Subtree × Option FieldId),
      (added.foldl (addChild parent) before).reverse.head?.map f =
        (before.reverse ++ added).head?.map f := by
    intro added
    induction added with
    | nil => exact fun before => by rw [List.append_nil]; rfl
    | cons child rest ih =>
      intro before
      have hadd := map_head?_addChild hf parent before child
      rw [List.head?_append, Option.map_or] at hadd
      rw [List.foldl_cons, ih, List.head?_append, Option.map_or, hadd, List.head?_append,
        Option.map_or]
      cases before.reverse.head? <;> rfl
  exact hfold _ []

/-- The first child comes from the first entry. -/
theorem exists_piece_of_head? {α : Type} {f : Subtree × Option FieldId → α}
    (hf : ∀ a b joined field, a.joinErrors? b = some joined → f (joined, field) = f (a, field))
    {parent : Symbol} {entries : List Entry} {fields : List (Option FieldId)}
    {c : Subtree × Option FieldId} (hc : c ∈ (children t parent entries fields).head?) :
    ∃ entry ∈ (withFields entries fields).head?, ∃ d ∈ (pieces t parent entry).head?, f c = f d := by
  have hmap := map_head?_children (t := t) hf parent entries fields
  rw [Option.mem_def.mp hc, head?_flatMap_pieces] at hmap
  obtain ⟨d, hd, heq⟩ := Option.map_eq_some_iff.mp hmap.symm
  obtain ⟨entry, hentry, hd⟩ := Option.bind_eq_some_iff.mp hd
  exact ⟨entry, hentry, d, hd, heq.symm⟩

/-- A node begins no later than its first child, if no entry begins later than what it consists of. -/
theorem begins_children (parent : Symbol) {entries : List Entry} (fields : List (Option FieldId))
    (h : ∀ e ∈ entries, ∀ c ∈ e.node.children.head?, e.node.padding.bytes ≤ c.1.padding.bytes) :
    ∀ c ∈ (children t parent entries fields).head?,
      (((entries.head?).map (·.node.padding)).getD Length.zero).bytes ≤ c.1.padding.bytes := by
  intro c hc
  obtain ⟨entry, hentry, d, hd, hpadding⟩ := exists_piece_of_head?
    (f := fun c => c.1.padding) (fun a b joined _ hj => by rw [Subtree.eq_of_joinErrors hj]) hc
  have hfirst : entry.1 ∈ entries.head? := by
    rw [← map_fst_withFields entries fields, List.head?_map]
    exact Option.mem_map_of_mem _ hentry
  rw [Option.mem_def.mp hfirst, hpadding]
  -- the first piece is the first entry or its first child
  obtain ⟨-, hpieces⟩ | ⟨-, hpieces⟩ := pieces_cases (t := t) parent entry
  · rw [hpieces] at hd
    cases hd
    exact Nat.le_refl _
  · rw [hpieces, List.head?_map] at hd
    obtain ⟨first, hfirst', rfl⟩ := Option.map_eq_some_iff.mp hd
    exact h entry.1 (List.mem_of_mem_head? hfirst) first hfirst'

end Build

/-- Where a row of entries begins, where the content of the first begins, and where it ends. -/
theorem ends_of_row {entries : List Entry} {fallback : Length} {i k : Nat}
    (hi : isBoundary text i = true) (hrow : Row t text i k entries)
    (hfallback : entries = [] → fallback = .before text i) :
    ∃ c, i ≤ c ∧ c ≤ k ∧ isBoundary text c = true ∧
      ((entries.head?).map (·.position)).getD fallback = .before text i ∧
      ((entries.head?).map (·.node.padding)).getD .zero = .of (text.extract i c) ∧
      ((entries.getLast?).map Entry.finish).getD fallback = .before text k := by
  cases entries with
  | nil =>
    have hk : i = k := hrow
    refine ⟨i, Nat.le_refl _, Nat.le_of_eq hk, hi, hfallback rfl, ?_, hk ▸ hfallback rfl⟩
    rw [ByteArray.extract_same, Length.of_empty]
    rfl
  -- the node begins with its first entry, whose padding is its own
  | cons e rest =>
    have hstands := hrow.2.1.stands
    have hlast := List.getLast?_eq_some_getLast (List.cons_ne_nil e rest)
    have htotal : e.node.total.bytes = e.node.padding.bytes + e.node.size.bytes := rfl
    have hrest := (row_bounds hrow.2.2 hstands.finish).1
    refine ⟨i + e.node.padding.bytes, Nat.le_add_right _ _, by omega, hstands.content, hrow.1,
      hstands.padding, ?_⟩
    rw [hlast]
    exact finish_of_row hrow hlast

/-- What is built of entries that follow each other fits where they stood. -/
theorem row_buildNode (ht : t.isTerminal Symbol.error = true) (around : Surroundings)
    {symbol : Symbol} {entries : List Entry} (fields : List (Option FieldId)) (fallback : Length)
    (state : StateId) {i k : Nat} (hs : symbol ≠ Symbol.finish) (hi : isBoundary text i = true)
    (hrow : Row t text i k entries) (hfallback : entries = [] → fallback = .before text i) :
    (buildNode t around symbol entries fields fallback state).2 = .before text i ∧
      Fits t text i (buildNode t around symbol entries fields fallback state).1 ∧
      i + (buildNode t around symbol entries fields fallback state).1.total.bytes = k := by
  obtain ⟨c, hic, hck, hc, hposition, hpadding, hfinish⟩ := ends_of_row hi hrow hfallback
  have hk := (row_bounds hrow hi).2
  have hall := Build.fitAll_children ht symbol fields hrow
  -- the node reaches from the content of its first entry to the end of its last
  have hsize : ((entries.getLast?).map Entry.finish).getD fallback -
      (((entries.head?).map (·.position)).getD fallback +
        ((entries.head?).map (·.node.padding)).getD .zero) = .of (text.extract c k) := by
    rw [hposition, hpadding, hfinish, Length.before_add text hic, Length.before_sub text hck]
  obtain ⟨hstands, hpad, htotal⟩ := Subtree.stands_of_slices
    (n := (buildNode t around symbol entries fields fallback state).1) hic hck hi hc hk hpadding hsize
  refine ⟨hposition, fits_iff.mpr ⟨hs, hstands, fun _ => htotal ▸ hall, fun d hd => ?_⟩, htotal⟩
  have hbegins := Build.begins_children symbol fields (begins_of_row hrow) d hd
  rw [hpadding, Length.bytes_of_extract (le_size_of_isBoundary hc)] at hbegins
  omega

/-! ## Taking entries off -/

namespace Stack

/-- What is popped and what is left are the stack. -/
theorem popRegular_spec (count : Nat) (taken s : Stack) :
    (popRegular count taken s).1.reverse ++ (popRegular count taken s).2 = taken.reverse ++ s := by
  fun_induction popRegular count taken s with
  | case1 => rfl
  | case2 => simp
  | case3 count taken e s _ ih => rw [ih, List.reverse_cons, List.append_assoc]; rfl
  | case4 count taken e s _ ih => rw [ih, List.reverse_cons, List.append_assoc]; rfl

/-- The parts of a production, the extras above them and what remains make up the stack. -/
theorem popChildren_spec {count : Nat} {s : Stack} {parts trailing : List Entry} {rest : Stack}
    (h : s.popChildren count = (parts, trailing, rest)) :
    s.reverse = rest.reverse ++ parts ++ trailing := by
  -- the extras on top are set aside before the right-hand side is popped
  have hsplit := List.takeWhile_append_dropWhile (p := fun e => e.node.extra) (l := s)
  have hpop := popRegular_spec count [] (s.dropWhile fun e => e.node.extra)
  unfold popChildren at h
  generalize popRegular count [] (s.dropWhile fun e => e.node.extra) = popped at h hpop
  obtain ⟨parts', rest'⟩ := popped
  cases h
  conv => lhs; rw [← hsplit]
  rw [List.reverse_append]
  congr 1
  rw [List.reverse_nil, List.nil_append] at hpop
  rw [← hpop, List.reverse_append, List.reverse_reverse]

/-- No entry is lost where children are popped. -/
theorem mem_of_popChildren {count : Nat} {s : Stack} {parts trailing : List Entry} {rest : Stack}
    (h : s.popChildren count = (parts, trailing, rest)) {e : Entry} :
    e ∈ s ↔ e ∈ rest ∨ e ∈ parts ∨ e ∈ trailing := by
  rw [← List.mem_reverse, popChildren_spec h]
  simp only [List.mem_append, List.mem_reverse, or_assoc]

/-- The entries that are kept and those above them make up the stack. -/
theorem keep_above (s : Stack) (depth : Nat) :
    s.reverse = (s.keep depth).reverse ++ s.above depth := by
  rw [keep, above, ← List.reverse_append, List.take_append_drop]

end Stack

/-! ## What a parse covers -/

/-- What is known of the next token: it stands at the current place, or only trivia is left there. -/
def Awaits (t : Table) (text : ByteArray) (i : Nat) (token : Subtree) : Prop :=
  (token.symbol = Symbol.finish → Lexer.Trivia t text i text.size) ∧
    (token.symbol ≠ Symbol.finish → Fits t text i token)

/-- The parts of an old tree that have not been passed stand where the walker says. -/
def Walker.Stands (t : Table) (text : ByteArray) (w : Walker) : Prop :=
  ∀ p ∈ w, ∃ i, p.1 = .before text i ∧ i ≤ text.size ∧ Fits t text i p.2

/-- The stack covers the text up to the current place, and what comes next stands there. -/
structure Config.Covers (t : Table) (text : ByteArray) (c : Config) : Prop where
  boundary : isBoundary text c.position.bytes = true
  position : c.position = .before text c.position.bytes
  stack : Row t text 0 c.position.bytes c.stack.reverse
  lookahead : ∀ token, c.lookahead = some token → Awaits t text c.position.bytes token
  walker : c.walker.Stands t text

/-- The children of a part stand where they are placed. -/
theorem Walker.stands_placeAll {i k : Nat} {children : List (Subtree × Option FieldId)}
    (h : FitAll t text i k children) : Stands t text (Subtree.placeAll (.before text i) children) := by
  induction children generalizing i with
  | nil =>
    intro p hp
    cases hp
  | cons c rest ih =>
    obtain ⟨n, field⟩ := c
    rw [fitAll_cons] at h
    intro p hp
    -- what comes next starts where this child has ended
    rw [Subtree.placeAll, h.1.stands.before_add, List.mem_cons] at hp
    obtain rfl | hp := hp
    · exact ⟨i, rfl, le_size_of_isBoundary h.1.stands.start, h.1⟩
    · exact ih h.2 p hp

/-- A node that fits stands where a walker places it. -/
theorem Walker.stands_placed {n : Subtree} {i : Nat} (h : Fits t text i n) :
    Stands t text (n.placed (.before text i)) := by
  intro p hp
  have hne : n.children ≠ [] := by
    intro hnil
    rw [Subtree.placed, hnil] at hp
    cases hp
  exact stands_placeAll ((fits_iff.mp h).2.2.1 (.inl hne)) p hp

/-- A part that is offered stands at the place it was asked for. -/
theorem Walker.stands_next {state : StateId} {place : Nat} {w after : Walker}
    {found : Option Subtree} (h : next t state place w = (found, after)) (hw : w.Stands t text) :
    after.Stands t text ∧ ∀ n, found = some n → Fits t text place n := by
  obtain ⟨hafter, hfound⟩ := next_listed (fun p ⟨i, hp, _, hfits⟩ => hp ▸ stands_placed hfits) h hw
  refine ⟨hafter, fun n hn => ?_⟩
  obtain ⟨start, ⟨i, hstart, hi, hfits⟩, hplace, -⟩ := hfound n hn
  obtain rfl : i = place := by
    rw [← hplace, show start = .before text i from hstart, Length.bytes_before hi]
  exact hfits

namespace Config

/-- A node that fits at the current place may be pushed. -/
theorem stack_push {c : Config} (hc : c.Covers t text) {n : Subtree} (state : StateId)
    (hn : Fits t text c.position.bytes n) :
    Row t text 0 (c.position.bytes + n.total.bytes)
      (⟨state, n, c.position⟩ :: c.stack : Stack).reverse := by
  rw [List.reverse_cons, row_append]
  exact ⟨_, hc.stack, hc.position, hn, rfl⟩

/-- Taking something that stands at the current place goes on to where it ends. -/
theorem position_add {c : Config} (hc : c.Covers t text) {n : Subtree}
    (hn : Fits t text c.position.bytes n) :
    c.position + n.total = .before text (c.position + n.total).bytes ∧
      isBoundary text (c.position + n.total).bytes = true := by
  have hstands := hn.stands
  rw [Length.bytes_add]
  refine ⟨?_, hstands.finish⟩
  conv => lhs; rw [hc.position]
  exact hstands.before_add

/-- A token that is readied stands at the current place. -/
theorem covers_of_readies {s : String} (ht : t.Checked) (hk : t.KeepsCharacters)
    (hf : t.KeepsFinish) {c c' : Config} {token : Subtree} (hc : c.Covers t s.toUTF8)
    (h : Readies t s.toUTF8 c token c') :
    c'.Covers t s.toUTF8 ∧ Awaits t s.toUTF8 c'.position.bytes token := by
  have hnone : ∀ {token}, c.lookahead = none → ¬c.lookahead = some token := by
    intro token h
    simp [h]
  cases h with
  | waiting h => exact ⟨hc, hc.lookahead token h⟩
  | @lexed walker h hw =>
    -- a search may pass parts of the old tree before it gives up
    have hwalker : walker.Stands t s.toUTF8 := by
      obtain ⟨-, rfl⟩ | ⟨-, hnext⟩ := hw
      · exact hc.walker
      · exact (Walker.stands_next hnext hc.walker).1
    refine ⟨⟨hc.boundary, hc.position, hc.stack, fun _ h' => absurd h' (hnone h), hwalker⟩, ?_⟩
    have hfinds := Lexer.finds_next t s.toUTF8 c.position
      (if c.errorMode then allTokens else t.lexMode c.state)
    obtain ⟨hend, htoken⟩ := Lexer.spec_of_finds ht hk hf hfinds hc.position hc.position
      (Nat.le_refl _) hc.boundary hc.boundary
    exact ⟨hend, fun hne => htoken hne _ _⟩
  | @reused n walker h he hnext =>
    obtain ⟨hwalker, hn⟩ := Walker.stands_next hnext hc.walker
    have hfits := hn _ rfl
    exact ⟨⟨hc.boundary, hc.position, hc.stack, fun _ h' => absurd h' (hnone h), hwalker⟩,
      fun hf => absurd hf (fits_iff.mp hfits).1, fun _ => hfits⟩

/-- An error made of entries on top of the stack stands where they did. -/
theorem covers_errorNode (ht : t.Checked) {c : Config} (token : Subtree) {entries : List Entry}
    (state : StateId) {i : Nat} (hc : c.Covers t text) (hi : isBoundary text i = true)
    (hrow : Row t text i c.position.bytes entries) :
    (c.errorNode t token entries state).2 = .before text i ∧
      Fits t text i (c.errorNode t token entries state).1 ∧
      i + (c.errorNode t token entries state).1.total.bytes = c.position.bytes := by
  refine row_buildNode ht.error_terminal _ [] _ state (by decide) hi hrow fun hnil => ?_
  rw [hnil] at hrow
  rw [show i = c.position.bytes from hrow]
  exact hc.position

/-- What is on the stack after a reduction was there before, perhaps with another state, or is the
node that is built. -/
theorem mem_stack_reduce {c : Config} {token : Subtree} {p : Production} {parts trailing : List Entry}
    {rest : Stack} (hpop : c.stack.popChildren p.size = (parts, trailing, rest)) {e : Entry}
    (he : e ∈ (c.reduce t token p).stack) :
    (∃ e' ∈ c.stack, e.node = e'.node) ∨
      e.node = (buildNode t (c.surroundings token) p.lhs parts p.fields
        (((trailing.head?).map (·.position)).getD c.position) (Stack.state rest)).1 := by
  unfold reduce at he
  rw [hpop] at he
  obtain he | he := List.mem_append.mp he
  -- an extra that is put back is the one that was set aside
  · obtain ⟨e', he', rfl⟩ := List.mem_map.mp (List.mem_reverse.mp he)
    exact .inl ⟨e', (Stack.mem_of_popChildren hpop).mpr (.inr (.inr he')), rfl⟩
  · obtain rfl | he := List.mem_cons.mp he
    · exact .inr rfl
    · exact .inl ⟨e, (Stack.mem_of_popChildren hpop).mpr (.inl he), rfl⟩

/-- A reduction leaves what is covered as it is. -/
theorem covers_reduce (ht : t.Checked) {c : Config} {token : Subtree} {p : ProductionId}
    {production : Production} (hp : t.production? p = some production) (hc : c.Covers t text)
    (ha : Awaits t text c.position.bytes token) : (c.reduce t token production).Covers t text := by
  have hlhs : production.lhs ≠ Symbol.finish := by
    intro heq
    have := ht.lhs_rule _ _ hp
    rw [heq, ht.finish_terminal] at this
    cases this
  generalize hpop : c.stack.popChildren production.size = popped
  obtain ⟨parts, trailing, rest⟩ := popped
  have hstack := hc.stack
  rw [Stack.popChildren_spec hpop, row_append] at hstack
  obtain ⟨k, hstack, htrailing⟩ := hstack
  obtain ⟨i, hrest, hparts⟩ := row_append.mp hstack
  have hi := (row_bounds hrest (isBoundary_zero text)).2
  -- without parts the node stands where the extras above begin
  have hfallback : ((trailing.head?).map (·.position)).getD c.position = .before text k := by
    cases trailing with
    | nil => exact (show k = c.position.bytes from htrailing) ▸ hc.position
    | cons e rest => exact htrailing.1
  have hbuilt := row_buildNode ht.error_terminal (c.surroundings token) production.fields
    (((trailing.head?).map (·.position)).getD c.position) (Stack.state rest) hlhs hi hparts
    fun hnil => by
      rw [hnil] at hparts
      rw [show i = k from hparts]
      exact hfallback
  unfold reduce
  rw [hpop]
  dsimp only
  generalize buildNode t (c.surroundings token) production.lhs parts production.fields
    (((trailing.head?).map (·.position)).getD c.position) (Stack.state rest) = built at hbuilt ⊢
  obtain ⟨n, position⟩ := built
  obtain ⟨hposition, hfits, hend⟩ := hbuilt
  refine ⟨hc.boundary, hc.position, ?_, ?_, hc.walker⟩
  · change Row t text 0 c.position.bytes (_ ++ _ :: rest : List Entry).reverse
    rw [List.reverse_append, List.reverse_reverse, List.reverse_cons, List.append_assoc, row_append]
    refine ⟨i, hrest, hposition, hfits, ?_⟩
    dsimp only
    rw [hend]
    exact row_map_state _ htrailing
  · intro token' h
    cases h
    exact ha

/-- Where the stack is cut the parser covers as much as before, -/
theorem covers_cut (ht : t.Checked) {c : Config} {token : Subtree} (depth : Nat)
    (hc : c.Covers t text) (ha : Awaits t text c.position.bytes token) :
    ((c.cut t token depth).renew t).Covers t text := by
  -- the row splits at the depth, and the upper part becomes the error
  have hstack := hc.stack
  rw [Stack.keep_above c.stack depth, row_append] at hstack
  obtain ⟨i, hkept, habove⟩ := hstack
  have hi := (row_bounds hkept (isBoundary_zero text)).2
  obtain ⟨hposition, hfits, hend⟩ :=
    covers_errorNode ht token (c.stack.keep depth).state hc hi habove
  refine ⟨hc.boundary, hc.position, ?_, ?_, hc.walker⟩
  · change Row t text 0 c.position.bytes (_ :: c.stack.keep depth : List Entry).reverse
    rw [List.reverse_cons, row_append]
    exact ⟨i, hkept, hposition, Subtree.fits_withExtra hfits, hend⟩
  · intro token' h
    cases h
    exact ha

/-- The error that takes a token up covers what it was made of. -/
theorem covers_absorb (ht : t.Checked) {c : Config} {token : Subtree} (hc : c.Covers t text)
    (hn : Fits t text c.position.bytes token) :
    ∃ i, Row t text 0 i (c.absorb t token).2.2.reverse ∧
      (c.absorb t token).2.1 = .before text i ∧ Fits t text i (c.absorb t token).1 ∧
      i + (c.absorb t token).1.total.bytes = c.position.bytes + token.total.bytes := by
  -- an error made of entries that end with the token
  have herror : ∀ entries {i}, isBoundary text i = true →
      Row t text i (c.position.bytes + token.total.bytes) entries → entries ≠ [] →
      (c.errorNode t token entries c.state).2 = .before text i ∧
        Fits t text i (c.errorNode t token entries c.state).1 ∧
        i + (c.errorNode t token entries c.state).1.total.bytes =
          c.position.bytes + token.total.bytes := fun _ _ hi hrow hne =>
    row_buildNode ht.error_terminal _ [] _ c.state (by decide) hi hrow fun hnil => absurd hnil hne
  have hentry : Row t text c.position.bytes (c.position.bytes + token.total.bytes)
      [⟨c.state, token, c.position⟩] := ⟨hc.position, hn, rfl⟩
  -- an error on top of the stack stands right before the token
  have htop : ∀ {top : Entry} {rest : Stack}, c.stack = top :: rest →
      ∃ i, Row t text 0 i rest.reverse ∧ top.position = .before text i ∧ Fits t text i top.node ∧
        i + top.node.total.bytes = c.position.bytes := by
    intro top rest hstack
    have hrow := hc.stack
    rw [hstack, List.reverse_cons, row_append] at hrow
    exact hrow
  have habsorbs := absorbs t c token
  generalize c.absorb t token = absorbed at habsorbs ⊢
  cases habsorbs with
  | bare => exact ⟨_, hc.stack, hc.position, hn, rfl⟩
  | alone => exact ⟨_, hc.stack, herror _ hc.boundary hentry (List.cons_ne_nil _ _)⟩
  | joined hstack _ _ hjoined =>
    obtain ⟨i, hrest, hposition, hfits, hend⟩ := htop hstack
    obtain ⟨hfits', htotal⟩ := Subtree.fits_joinErrors ht.error_terminal hjoined hfits (hend ▸ hn)
    exact ⟨i, hrest, hposition, hfits', by dsimp only; omega⟩
  | @both top rest hstack =>
    obtain ⟨i, hrest, hposition, hfits, hend⟩ := htop hstack
    have hi := (row_bounds hrest (isBoundary_zero text)).2
    exact ⟨i, hrest, herror [top, _] hi ⟨hposition, hfits, hend ▸ hentry⟩ (List.cons_ne_nil _ _)⟩

/-- and where a token is skipped it covers that token too. -/
theorem covers_skip (ht : t.Checked) {c : Config} {token : Subtree} (hc : c.Covers t text)
    (hn : Fits t text c.position.bytes token) : ((c.skip t token).renew t).Covers t text := by
  obtain ⟨i, hbelow, hposition, hfits, hend⟩ := covers_absorb ht hc hn
  obtain ⟨hnext, hboundary⟩ := position_add hc hn
  refine ⟨hboundary, hnext, ?_, (fun _ h => by cases h), hc.walker⟩
  change Row t text 0 (c.position.bytes + token.total.bytes)
    (_ :: (c.absorb t token).2.2 : List Entry).reverse
  rw [List.reverse_cons, row_append]
  exact ⟨i, hbelow, hposition, Subtree.fits_withExtra hfits, hend⟩

/-- What is done about a token keeps what is covered. -/
theorem covers_of_continues (ht : t.Checked) (hf : t.KeepsFinish) {c c' : Config} {token : Subtree}
    (hc : c.Covers t text) (ha : Awaits t text c.position.bytes token)
    (h : Continues t c token c') : c'.Covers t text := by
  cases h with
  | @shift target h =>
    -- the end of the text is never shifted
    have hn := ha.2 fun heq => hf.shift c.state target (heq ▸ h)
    obtain ⟨hnext, hboundary⟩ := position_add hc hn
    exact ⟨hboundary, hnext, stack_push hc target (Subtree.fits_withExtra hn), (fun _ h => by cases h),
      hc.walker⟩
  | reduce _ hp _ => exact covers_reduce ht hp hc ha
  | extra _ hne _ =>
    have hn := ha.2 hne
    obtain ⟨hnext, hboundary⟩ := position_add hc hn
    exact ⟨hboundary, hnext, stack_push hc c.state (Subtree.fits_withExtra hn), (fun _ h => by cases h),
      hc.walker⟩
  | cut _ _ => exact covers_cut ht _ hc ha
  | skip hne => exact covers_skip ht hc (ha.2 hne)

/-- A step keeps what a parse covers. -/
theorem covers_of_moves {s : String} (ht : t.Checked) (hk : t.KeepsCharacters) (hf : t.KeepsFinish)
    {c c' : Config} (hc : c.Covers t s.toUTF8) (h : Moves t s.toUTF8 c c') :
    c'.Covers t s.toUTF8 := by
  obtain ⟨token, ready, hready, hgoes⟩ | ⟨n, ready, hready, -, hn, rfl⟩ := moves_cases h
  · obtain ⟨hcovers, hawaits⟩ := covers_of_readies ht hk hf hc hready
    exact covers_of_continues ht hf hcovers hawaits hgoes
  · obtain ⟨hcovers, hawaits⟩ := covers_of_readies ht hk hf hc hready
    -- an old node with an inner rule is not the end of the text
    have hfits := hawaits.2 fun heq => by
      rw [heq, ht.finish_terminal] at hn
      cases hn
    obtain ⟨hnext, hboundary⟩ := position_add hcovers hfits
    exact ⟨hboundary, hnext, stack_push hcovers _ hfits, (fun _ h => by cases h), hcovers.walker⟩

end Config

/-! ## The root -/

/-- A root covers a text up to the trivia at its end. -/
structure RootCovers (t : Table) (text : ByteArray) (root : Subtree) : Prop where
  padding : root.padding = .zero
  size : root.size = .of text
  children : ∃ k, isBoundary text k = true ∧ FitAll t text 0 k root.children ∧
    Lexer.Trivia t text k text.size

namespace Config

/-- What the root of an accepted stack consists of covers the stack. -/
theorem fitAll_accepted (ht : t.Checked) {i k : Nat} {entries : List Entry}
    (h : Row t text i k entries) :
    FitAll t text i k (entries.flatMap fun e =>
      if !e.node.extra && e.node.symbol == t.start then e.node.children else [(e.node, none)]) := by
  induction entries generalizing i with
  | nil => exact fitAll_nil.mpr h
  | cons e rest ih =>
    rw [List.flatMap_cons, fitAll_append]
    refine ⟨_, ?_, ih h.2.2⟩
    split
    -- the start's own node is replaced by its children, which cover the same
    · rename_i hstart
      simp only [Bool.and_eq_true, beq_iff_eq] at hstart
      refine (fits_iff.mp h.2.1).2.2.1 (.inr ?_)
      rw [hstart.2]
      exact ht.start_rule
    · exact fitAll_cons.mpr ⟨h.2.1, fitAll_nil.mpr rfl⟩

/-- The root that a parse ends with covers the text. -/
theorem rootCovers_of_done {s : String} (ht : t.Checked) (hk : t.KeepsCharacters)
    (hf : t.KeepsFinish) {c : Config} {root : Subtree} {events : List Event}
    (hc : c.Covers t s.toUTF8) (h : c.step t s.toUTF8 = .done root events) :
    RootCovers t s.toUTF8 root := by
  obtain ⟨token, ready, hready, hstops⟩ := done_cases h
  obtain ⟨hcovers, hawaits⟩ := covers_of_readies ht hk hf hc hready
  -- the run ends where the table accepts, or where recovery has reached the end
  cases hstops with
  | accept ha =>
    exact ⟨rfl, rfl, _, hcovers.boundary, fitAll_accepted ht hcovers.stack,
      hawaits.1 (ht.accept_finish _ _ ha)⟩
  | wrap hfinish =>
    obtain ⟨-, hfits, hend⟩ := covers_errorNode ht token 0 hcovers (isBoundary_zero _) hcovers.stack
    exact ⟨rfl, rfl, _, hcovers.boundary, fitAll_cons.mpr ⟨hfits, fitAll_nil.mpr hend⟩,
      hawaits.1 hfinish⟩

end Config

end IncrementalParsing
