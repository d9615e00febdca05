import IncrementalParsing.Parse.Parser
import IncrementalParsing.Proofs.Binary.Checksum
import IncrementalParsing.Proofs.Parse.Lexing
import IncrementalParsing.Proofs.Parse.Moves
import IncrementalParsing.Proofs.Table.Loading
import IncrementalParsing.Proofs.Tree.Extents

/-!
# When a parse ends

Each step leaves less to do: it takes something from the text or the old tree, cuts the stack deeper
at one place, or uses up one of the reductions allowed there.  `Config.Less` measures that.  The one
exception is to shift the end of the text, which is there again afterwards; a table may ask for it.

## Key results

- `less_of_moves`: a step leaves less to do unless it shifts the end of the text
- `ends_iff`: a parse ends exactly when it shifts the end of the text finitely often
- `parse_ends`: what that says about loaded tables
- `restless_parse`: a table that is loaded and whose parse of the empty text goes on forever
-/

namespace IncrementalParsing

namespace Walker

/-- Looking for a part passes others; one that is found is passed and is not empty. -/
theorem next_spec {t : Table} {state : StateId} {place : Nat} {w after : Walker}
    {found : Option Subtree} (h : next t state place w = (found, after)) :
    weight after ≤ weight w ∧
      ∀ n, found = some n → weight after < weight w ∧ n.total.bytes ≠ 0 := by
  -- a part that is opened up weighs more than what it consists of
  fun_induction next t state place w with
  | case1 => cases h; simp
  | case2 start n rest _ _ ih =>
    have := ih h
    have := weight_placed n start
    simp only [weight_cons, weight_append] at *
    exact ⟨by omega, fun m hm => ⟨by have := (ih h).2 m hm; omega, ((ih h).2 m hm).2⟩⟩
  | case3 start n rest _ _ ih =>
    simp only [weight_cons]
    exact ⟨by have := ih h; omega, fun m hm => ⟨by have := (ih h).2 m hm; omega, ((ih h).2 m hm).2⟩⟩
  | case4 start n rest _ _ ih =>
    simp only [weight_cons]
    exact ⟨by have := ih h; omega, fun m hm => ⟨by have := (ih h).2 m hm; omega, ((ih h).2 m hm).2⟩⟩
  -- nothing more lies at this place
  | case5 => cases h; simp
  -- the walker gives a node away, which is not empty
  | case6 start n rest _ hne _ _ =>
    cases h
    have := weight_placed n start
    simp only [weight_cons]
    exact ⟨by omega, fun m hm => by cases hm; exact ⟨by omega, hne⟩⟩
  | case7 start n rest _ _ _ _ ih =>
    have := ih h
    have := weight_placed n start
    simp only [weight_cons, weight_append] at *
    exact ⟨by omega, fun m hm => ⟨by have := (ih h).2 m hm; omega, ((ih h).2 m hm).2⟩⟩

end Walker

/-- What is found in the text is a token. -/
theorem Lexer.terminal_next {t : Table} (ht : t.Checked) {text : ByteArray} {position : Length}
    {mode : LexMode} : t.isTerminal (next t text position mode).symbol = true := by
  obtain hsym | hsym | hsym := symbol_of_finds (finds_next t text position mode)
  · rw [hsym, ht.finish_terminal]
  · rw [hsym, ht.error_terminal]
  · exact ht.mode_terminal _ _ hsym

namespace Config

variable {t : Table} {text : ByteArray}

/-! ## What is left to do -/

/-- What a token that waits adds to what is left: one from an old tree can be waiting where the text
has no bytes left. -/
def waitingCost (text : ByteArray) (c : Config) (token : Subtree) : Nat :=
  if token.symbol ≠ Symbol.finish ∧ text.size ≤ c.position.bytes then 2 else 0

/-- What is left of the text and the old tree. -/
def unread (text : ByteArray) (c : Config) : Nat :=
  3 * (c.walker.weight + (text.size - c.position.bytes))

/-- What is left to take from the text and the old tree, with the token that waits. -/
def toTake (text : ByteArray) (c : Config) : Nat :=
  c.unread text + match c.lookahead with
    | none => 1
    | some token => c.waitingCost text token

/-- Whether the stack can be cut anew at the current place, and else the depth that the next cut has
to stay below. -/
def cutsLeft (c : Config) : Nat × Nat :=
  match c.lastRecovery with
  | some (place, depth) => if place = c.position.bytes then (0, depth) else (1, 0)
  | none => (1, 0)

/-- What is left to do, in order of importance. -/
def toDo (text : ByteArray) (c : Config) : Nat × (Nat × Nat) × Nat :=
  (c.toTake text, c.cutsLeft, c.reductions)

/-- Less is left to do. -/
def Less (text : ByteArray) (c c' : Config) : Prop :=
  Prod.Lex (· < ·) (Prod.Lex (Prod.Lex (· < ·) (· < ·)) (· < ·)) (c.toDo text) (c'.toDo text)

theorem wellFounded_less (text : ByteArray) : WellFounded (Less text) :=
  InvImage.wf _ ((Prod.lex ⟨_, Nat.lt_wfRel.wf⟩ (Prod.lex (Prod.lex ⟨_, Nat.lt_wfRel.wf⟩
    ⟨_, Nat.lt_wfRel.wf⟩) ⟨_, Nat.lt_wfRel.wf⟩)).wf)

/-- The step is to shift the end of the text. -/
def ShiftsFinish (t : Table) (text : ByteArray) (c : Config) : Prop :=
  ∃ token c' target, Readies t text c token c' ∧ token.symbol = Symbol.finish ∧
    t.action? c'.state token.symbol = some (.shift target)

/-- A token that waits takes bytes unless it is the end of the text. -/
def WaitsWell (c : Config) : Prop :=
  ∀ token, c.lookahead = some token → token.symbol ≠ Symbol.finish → 0 < token.total.bytes

/-! ## Each step leaves less -/

/-- A token that is readied takes bytes unless it is the end of the text. -/
theorem pos_of_readies {c c' : Config} {token : Subtree} (hw : c.WaitsWell)
    (h : Readies t text c token c') (hf : token.symbol ≠ Symbol.finish) :
    0 < token.total.bytes := by
  cases h with
  | waiting h => exact hw token h hf
  | lexed =>
    have := (Lexer.next_progress hf).2
    simp only [lex, Subtree.leaf, Subtree.bytes_total] at this ⊢
    omega
  -- an old node of no width is not offered
  | reused _ _ hn =>
    have := ((Walker.next_spec hn).2 _ rfl).2
    omega

/-- The configuration in which a token is readied, apart from the walker and the events. -/
theorem readies_frame {c c' : Config} {token : Subtree} (h : Readies t text c token c') :
    c'.stack = c.stack ∧ c'.position = c.position ∧ c'.lastRecovery = c.lastRecovery ∧
      c'.reductions = c.reductions ∧ c'.lookahead = c.lookahead ∧ c'.errorMode = c.errorMode := by
  cases h <;> exact ⟨rfl, rfl, rfl, rfl, rfl, rfl⟩

/-- Readying a token that does not wait yet takes something. -/
theorem unread_of_readies {c c' : Config} {token : Subtree} (h : Readies t text c token c') :
    (c.lookahead = some token ∧ c' = c) ∨
      (c.lookahead = none ∧ c'.unread text + c'.waitingCost text token < c.toTake text) := by
  -- what is read moves the parser on, and what is taken over is off the walker
  cases h with
  | waiting h => exact .inl ⟨h, rfl⟩
  | @lexed walker h hw =>
    refine .inr ⟨h, ?_⟩
    have hweight : Walker.weight walker ≤ Walker.weight c.walker := by
      obtain ⟨-, rfl⟩ | ⟨-, hn⟩ := hw
      · exact Nat.le_refl _
      · exact (Walker.next_spec hn).1
    -- a token that was just found takes bytes, so waiting with it costs nothing more
    have hcost : waitingCost text ({ c with walker }.lex t text).2 ({ c with walker }.lex t text).1
        = 0 := by
      refine if_neg ?_
      rintro ⟨hf, hsize⟩
      have := (Lexer.next_progress hf).1
      exact absurd hsize (by simpa [lex, record] using this)
    rw [hcost]
    simp only [toTake, unread, lex, record, h]
    omega
  | reused h _ hn =>
    refine .inr ⟨h, ?_⟩
    have hweight := ((Walker.next_spec hn).2 _ rfl).1
    simp only [toTake, unread, waitingCost, record, h]
    split <;> omega

/-- What takes a token's bytes leaves less. -/
theorem toTake_of_consumed {c c' : Config} {token : Subtree} (hw : c'.walker = c.walker)
    (hp : c'.position = c.position + token.total) (hl : c'.lookahead = none)
    (hpos : 0 < token.total.bytes) (hf : token.symbol ≠ Symbol.finish) :
    c'.toTake text < c.unread text + c.waitingCost text token := by
  simp only [toTake, unread, waitingCost, hw, hp, hl, Length.bytes_add]
  by_cases hsize : text.size ≤ c.position.bytes
  · rw [if_pos ⟨hf, hsize⟩]
    omega
  · rw [if_neg (by simp [hsize])]
    omega

/-- What can be done about a token leaves less than there was with the token waiting. -/
theorem less_of_continues (text : ByteArray) {c c' : Config} {token : Subtree} (h : Continues t c token c')
    (hpos : token.symbol ≠ Symbol.finish → 0 < token.total.bytes)
    (hs : token.symbol = Symbol.finish → ∀ target,
      t.action? c.state token.symbol ≠ some (.shift target)) :
    c'.toTake text < c.unread text + c.waitingCost text token ∨
      (c'.toTake text = c.unread text + c.waitingCost text token ∧
        Prod.Lex (Prod.Lex (· < ·) (· < ·)) (· < ·) (c'.cutsLeft, c'.reductions)
          (c.cutsLeft, c.reductions)) := by
  -- a reduction uses up the allowance, a cut the depth, and all else takes bytes
  cases h with
  | @shift target ha =>
    have hf : token.symbol ≠ Symbol.finish := fun hf => hs hf target ha
    exact .inl (toTake_of_consumed rfl rfl rfl (hpos hf) hf)
  | @reduce p production _ _ hr =>
    refine .inr ⟨rfl, Prod.Lex.right _ ?_⟩
    change c.reductions - 1 < c.reductions
    omega
  | extra _ hf _ => exact .inl (toTake_of_consumed rfl rfl rfl (hpos hf) hf)
  | @cut depth hd _ =>
    -- a second cut at the same place goes deeper, and one at another place is the first there
    refine .inr ⟨rfl, Prod.Lex.left _ _ ?_⟩
    have hcuts : cutsLeft ((c.cut t token depth).renew t) = (0, depth) := if_pos rfl
    rw [hcuts]
    unfold cutsLeft
    unfold cutLimit at hd
    split
    · rename_i place limit hlast
      simp only [hlast] at hd
      split
      · rename_i hplace
        rw [if_pos hplace] at hd
        exact Prod.Lex.right _ (by omega)
      · exact Prod.Lex.left _ _ (by omega)
    · exact Prod.Lex.left _ _ (by omega)
  | skip hf => exact .inl (toTake_of_consumed rfl rfl rfl (hpos hf) hf)

/-- Parts taken over are no tokens, so they come from the old tree. -/
theorem takeOver_reused (ht : t.Checked) {c c' : Config} {n : Subtree}
    (h : Readies t text c n c') (hl : c.lookahead = none) (hn : t.isTerminal n.symbol = false) :
    ∃ walker, Walker.next t c.state c.position.bytes c.walker = (some n, walker) ∧
      c.errorMode = false ∧ c'.walker = walker ∧ c'.position = c.position ∧ c'.stack = c.stack := by
  cases h with
  | waiting h => rw [hl] at h; cases h
  -- what the lexer gives is always a token
  | lexed =>
    exfalso
    change t.isTerminal (Lexer.next t text c.position _).symbol = false at hn
    rw [Lexer.terminal_next ht] at hn
    cases hn
  | reused _ he hw => exact ⟨_, hw, he, rfl, rfl, rfl⟩

/-- A token still waits well after a step. -/
theorem waitsWell_of_moves {c c' : Config} (hw : c.WaitsWell) (h : Moves t text c c') :
    c'.WaitsWell := by
  obtain ⟨token, ready, hready, hgoes⟩ | ⟨n, ready, -, -, -, rfl⟩ := moves_cases h
  · intro token' hl hf
    cases hgoes <;> cases hl <;> exact pos_of_readies hw hready hf
  · intro token hl
    cases hl

/-- A step leaves less to do unless it shifts the end of the text. -/
theorem less_of_moves (ht : t.Checked) {c c' : Config} (hw : c.WaitsWell) (h : Moves t text c c')
    (hs : ¬c.ShiftsFinish t text) : Less text c' c := by
  obtain ⟨token, ready, hready, hgoes⟩ | ⟨n, ready, hready, hl, hn, rfl⟩ := moves_cases h
  -- making a token ready leaves the depth and the allowance as they are
  · obtain ⟨hstack, hposition, hlast, hreductions, -, -⟩ := readies_frame hready
    have hless := less_of_continues text hgoes (pos_of_readies hw hready)
      (fun hf target ha => hs ⟨token, ready, target, hready, hf, ha⟩)
    have hcuts : ready.cutsLeft = c.cutsLeft := by simp only [cutsLeft, hlast, hposition]
    rw [hcuts, hreductions] at hless
    obtain ⟨hwait, rfl⟩ | ⟨-, htake⟩ := unread_of_readies hready
    · have htake : ready.toTake text = ready.unread text + ready.waitingCost text token := by
        simp only [toTake, hwait]
      rw [← htake] at hless
      obtain hlt | ⟨heq, hlt⟩ := hless
      · exact Prod.Lex.left _ _ hlt
      · unfold Less toDo
        rw [heq]
        exact Prod.Lex.right _ hlt
    · exact Prod.Lex.left _ _ (by obtain hlt | ⟨heq, -⟩ := hless <;> omega)
  · -- the part comes off the walker
    obtain ⟨walker, hnext, -, hwalker, hposition, -⟩ := takeOver_reused ht hready hl hn
    have hweight := ((Walker.next_spec hnext).2 _ rfl).1
    refine Prod.Lex.left _ _ ?_
    simp only [toTake, unread, takeOver, push, renew, hl, hwalker, hposition, Length.bytes_add]
    omega

/-! ## Runs that end -/

theorem after_succ (c : Config) (n : Nat) :
    c.after t text (n + 1) = (c.after t text n).bind fun c' =>
      match c'.step t text with | .next c'' => some c'' | .done _ _ => none := by
  induction n generalizing c with
  | zero => cases hstep : c.step t text <;> simp [after, hstep]
  | succ n ih =>
    rw [after]
    split
    · rename_i c' hstep
      rw [ih c']
      simp only [after, hstep]
    · rename_i hstep
      simp [after, hstep]

/-- The configurations after some number of steps are those that are reached. -/
theorem reaches_iff_after {c c' : Config} :
    Reaches t text c c' ↔ ∃ n, c.after t text n = some c' := by
  constructor
  · intro h
    induction h with
    | refl => exact ⟨0, rfl⟩
    | @tail b d _ hm ih =>
      obtain ⟨n, hn⟩ := ih
      refine ⟨n + 1, ?_⟩
      rw [after_succ, hn, Option.bind_some, hm]
  -- the induction is on the number of steps, from the first one on
  · rintro ⟨n, h⟩
    induction n generalizing c with
    | zero => cases h; exact .refl
    | succ n ih =>
      simp only [after] at h
      split at h
      · rename_i c₁ hstep
        exact .head hstep (ih h)
      · cases h

/-- From where the end of the text is shifted no more, a parse ends. -/
theorem ends_of_not_shiftsFinish (ht : t.Checked) {c : Config} (hw : c.WaitsWell)
    (hs : ∀ c', Reaches t text c c' → ¬c'.ShiftsFinish t text) : Ends t text c := by
  induction c using (wellFounded_less text).induction with
  | _ c ih =>
    match hstep : c.step t text with
    | .done root events => exact ⟨c, root, events, .refl, hstep⟩
    | .next c' =>
      have hless := less_of_moves ht hw hstep (hs c .refl)
      obtain ⟨last, root, events, hreach, hdone⟩ := ih c' hless (waitsWell_of_moves hw hstep)
        (fun d hd => hs d (.head hstep hd))
      exact ⟨last, root, events, .head hstep hreach, hdone⟩

theorem waitsWell_start (t : Table) (old : Option Subtree) : (start t old).WaitsWell := by
  intro token h
  cases h

theorem waitsWell_of_reaches {c c' : Config} (hw : c.WaitsWell) (h : Reaches t text c c') :
    c'.WaitsWell :=
  invariant_of_reaches h hw fun _ _ => waitsWell_of_moves

/-- With a table that never asks to shift the end of the text every parse ends. -/
theorem ends_of_table (ht : t.Checked)
    (hs : ∀ s target, t.action? s Symbol.finish ≠ some (.shift target)) (old : Option Subtree) :
    Ends t text (start t old) := by
  refine ends_of_not_shiftsFinish ht (waitsWell_start t old) ?_
  rintro c - ⟨token, c', target, -, hf, ha⟩
  exact hs c'.state target (hf ▸ ha)

theorem after_isSome_of_le {c : Config} {m n : Nat} (hmn : m ≤ n)
    (h : (c.after t text n).isSome = true) : (c.after t text m).isSome = true := by
  induction n with
  | zero => rwa [Nat.le_zero.mp hmn]
  | succ n ih =>
    obtain rfl | hlt := Nat.eq_or_lt_of_le hmn
    · exact h
    · refine ih (Nat.le_of_lt_succ hlt) ?_
      rw [after_succ] at h
      cases hn : c.after t text n with
      | none => simp [hn] at h
      | some d => rfl

/-- A parse that ends has no steps after some number of them. -/
theorem after_eq_none_of_ends {c : Config} (h : Ends t text c) :
    ∃ bound, ∀ n, bound < n → c.after t text n = none := by
  obtain ⟨last, root, events, hreach, hdone⟩ := h
  obtain ⟨bound, hbound⟩ := reaches_iff_after.mp hreach
  refine ⟨bound, fun n hn => ?_⟩
  -- behind the last step there is none
  have hnone : c.after t text (bound + 1) = none := by
    rw [after_succ, hbound, Option.bind_some, hdone]
  cases hafter : c.after t text n with
  | none => rfl
  | some d =>
    have := after_isSome_of_le (Nat.succ_le_of_lt hn) (by rw [hafter]; rfl)
    rw [hnone] at this
    cases this

theorem after_add {c d : Config} {m : Nat} (h : c.after t text m = some d) (n : Nat) :
    c.after t text (m + n) = d.after t text n := by
  -- the induction is on the steps that come first
  induction m generalizing c with
  | zero => cases h; rw [Nat.zero_add]
  | succ m ih =>
    rw [Nat.add_right_comm, after]
    simp only [after] at h
    split
    · rename_i c' hstep
      simp only [hstep] at h
      exact ih h
    · rename_i hstep
      simp [hstep] at h

/-- A parse ends exactly when it shifts the end of the text finitely often. -/
theorem ends_iff (ht : t.Checked) (old : Option Subtree) :
    Ends t text (start t old) ↔ ∃ bound, ∀ n c, (start t old).after t text n = some c →
      c.ShiftsFinish t text → n ≤ bound := by
  constructor
  · intro h
    obtain ⟨bound, hbound⟩ := after_eq_none_of_ends h
    refine ⟨bound, fun n c hc _ => Nat.le_of_not_lt fun hlt => ?_⟩
    rw [hbound n hlt] at hc
    cases hc
  -- past the last shift of the end there is nothing left that could go on for ever
  · rintro ⟨bound, hbound⟩
    cases hafter : (start t old).after t text (bound + 1) with
    | none =>
      by_contra hends
      -- without a last step there would be steps of any number
      have hall : ∀ n, ((start t old).after t text n).isSome = true := by
        intro n
        induction n with
        | zero => rfl
        | succ n ih =>
          obtain ⟨c, hc⟩ := Option.isSome_iff_exists.mp ih
          rw [after_succ, hc, Option.bind_some]
          split
          · rfl
          · rename_i root events hdone
            exact absurd ⟨c, root, events, reaches_iff_after.mpr ⟨n, hc⟩, hdone⟩ hends
      have := hall (bound + 1)
      rw [hafter] at this
      cases this
    | some c =>
      have hreach := reaches_iff_after.mpr ⟨_, hafter⟩
      obtain ⟨last, root, events, hlast, hdone⟩ := ends_of_not_shiftsFinish ht
        (waitsWell_of_reaches (waitsWell_start t old) hreach) (fun d hd hshift => by
          obtain ⟨n, hn⟩ := reaches_iff_after.mp hd
          have := hbound (bound + 1 + n) d (by rw [after_add hafter, hn]) hshift
          omega)
      exact ⟨last, root, events, hreach.trans hlast, hdone⟩

end Config

/-! ## Loaded tables -/

theorem Language.parse_isSome (l : Language) (text : String) (old : Option Tree) :
    (l.parse text old).isSome = true ↔
      Config.Ends l.table text.toUTF8 (.start l.table (l.usable? old)) := by
  rw [← Config.run_isSome_iff, parse, Option.isSome_map]

/-- With a table that is loaded, a parse gives a result exactly when it shifts the end of the text
finitely often, so always where the table never asks for that. -/
theorem Language.parse_ends {bytes : ByteArray} {l : Language} (h : Table.load bytes = .ok l.table)
    (text : String) (old : Option Tree) :
    ((∀ s target, l.table.action? s Symbol.finish ≠ some (.shift target)) →
        (l.parse text old).isSome = true) ∧
      ((l.parse text old).isSome = true ↔ ∃ bound, ∀ n c,
        (Config.start l.table (l.usable? old)).after l.table text.toUTF8 n = some c →
          c.ShiftsFinish l.table text.toUTF8 → n ≤ bound) := by
  have ht := Table.checked_of_load h
  rw [parse_isSome]
  exact ⟨fun hs => Config.ends_of_table ht hs _, Config.ends_iff ht _⟩

/-! ## A table that never lets a parse end -/

namespace Restless

/-- A section that fits between two multiples of the header's size. -/
def fill (bytes : List UInt8) : List UInt8 := bytes ++ List.replicate (64 - bytes.length) 0

/-- A table of one hidden rule of two parts, in which the end of the text is shifted in the first
state and again after the rule. -/
def bytes : ByteArray := ofBytes ([
  -- the header
  [83, 89, 76, 84, 1, 0, 0, 0, 70, 48, 254, 216, 64, 2, 0, 0, 0, 0, 0, 0, 0, 0, 0, 0,
    4, 0, 0, 0, 2, 0, 0, 0, 0, 0, 0, 0, 1, 0, 1, 0, 3, 0, 0, 0, 1, 0, 3, 0, 1, 0, 0, 0, 2],
  -- one empty string, no pattern
  [], [],
  -- the symbols, of which the first two are tokens
  [0, 0, 1, 0, 0, 0, 0, 0, 0, 0, 1],
  -- the production
  [2, 0, 2], [],
  -- the states and their actions
  [0, 0, 0, 0, 2, 0, 0, 0, 2, 0, 0, 0, 1, 0, 0, 0, 3, 0, 0, 0, 1],
  [0, 0, 1, 0, 1, 0, 0, 0, 2, 0, 4, 0, 2, 0, 0, 0, 0, 0, 2, 0, 0, 0, 0, 0, 0, 0, 1, 0, 1],
  -- one lex mode without tokens
  []].flatMap fill)

/-- What is known about the symbols. -/
def symbol (terminal : Bool) : SymbolInfo :=
  ⟨"", terminal, false, false, false, false, false, none, 0⟩

/-- The table that is read from the bytes. -/
def table : Table where
  version := 1
  name := ""
  start := 2
  symbols := #[symbol true, symbol true, symbol false]
  fields := #[]
  productions := #[⟨2, [none, none]⟩]
  states := #[⟨[(0, .shift 1), (2, .goto 2)], 0⟩, ⟨[(0, .reduce 0)], 0⟩, ⟨[(0, .shift 1)], 0⟩]
  lexModes := #[[]]
  lexemes := #[none]

theorem load_bytes : Table.load bytes = .ok table := by
  apply Except.eq_ok_of_toOption
  unfold Table.load Table.loadWith Table.loadHeader
  rw [checksum_extract]
  decide +kernel

/-- An entry of the rule or of the end of the text. -/
def Plain (e : Entry) (state : StateId) : Prop := e.state = state ∧ e.node.extra = false

/-- Where the parse of the empty text stands: before the end of the text, after it was shifted, and
after the rule was built with the end of the text still there. -/
inductive Stands (c : Config) : Prop
  | before (hl : c.lookahead = none) (he : c.errorMode = false) (hw : c.walker = [])
      (hs : c.stack = [] ∨ ∃ e, c.stack = [e] ∧ Plain e 2)
  | shifted (hl : c.lookahead = none) (he : c.errorMode = false) (hw : c.walker = [])
      (hr : c.reductions ≠ 0)
      (hs : ∃ top below, c.stack = top :: below ∧ Plain top 1 ∧
        (below = [] ∨ ∃ e, below = [e] ∧ Plain e 2))
  | built (hl : ∃ token, c.lookahead = some token ∧ token.symbol = Symbol.finish)
      (hw : c.walker = []) (hs : ∃ e, c.stack = [e] ∧ Plain e 2)

/-- At the end of the text the next token is the end. -/
theorem fetch_finish {c : Config} (he : c.errorMode = false) (hw : c.walker = []) :
    ∃ token c', c.fetch table ByteArray.empty = (token, c') ∧ token.symbol = Symbol.finish ∧
      c'.stack = c.stack ∧ c'.walker = [] ∧ c'.errorMode = false ∧ c'.reductions = c.reductions := by
  have hfetch : c.fetch table ByteArray.empty = ({ c with walker := [] }.lex table .empty) := by
    rw [Config.fetch, if_neg (by simp [he]), hw, Walker.next]
  refine ⟨_, _, hfetch, ?_, rfl, rfl, he, rfl⟩
  by_contra hf
  exact absurd (Lexer.next_progress hf).1 (Nat.not_lt_zero _)

/-- From each place the parse goes on to the next. -/
theorem stands_step {c : Config} (h : Stands c) :
    ∃ c', c.step table ByteArray.empty = .next c' ∧ Stands c' := by
  -- there are three places to stand: before the end, behind it, and after the reduction
  cases h with
  | before hl he hw hs =>
    obtain ⟨token, c', hfetch, hf, hstack, hwalker, -, -⟩ := fetch_finish he hw
    have hstate : table.action? c'.state token.symbol = some (.shift 1) := by
      rw [hf, Config.state, hstack]
      obtain hs | ⟨e, hs, hstate, -⟩ := hs
      · rw [hs]; rfl
      · rw [hs, Stack.state, hstate]; rfl
    have hterminal : table.isTerminal token.symbol = true := by rw [hf]; rfl
    refine ⟨c'.shift table token 1, ?_, .shifted rfl rfl hwalker ?_ ⟨_, _, rfl, ⟨rfl, rfl⟩, ?_⟩⟩
    · simp only [Config.step, hl, hfetch, hterminal, if_true, Config.act, hstate]
    · exact Nat.mul_ne_zero (Nat.succ_ne_zero _) (Nat.succ_ne_zero _)
    · exact hstack ▸ hs
  | shifted hl he hw hr hs =>
    obtain ⟨token, c', hfetch, hf, hstack, hwalker, -, hreductions⟩ := fetch_finish he hw
    obtain ⟨top, below, hs, ⟨htop, hextra⟩, hbelow⟩ := hs
    have hstate : table.action? c'.state token.symbol = some (.reduce 0) := by
      rw [hf, Config.state, hstack, hs, Stack.state, htop]
      rfl
    have hterminal : table.isTerminal token.symbol = true := by rw [hf]; rfl
    -- both parts are taken off, or the only one there is
    have hpop : ∃ parts, c'.stack.popChildren 2 = (parts, [], []) := by
      rw [hstack, hs]
      obtain rfl | ⟨e, rfl, -, he⟩ := hbelow
      · exact ⟨[top], by simp [Stack.popChildren, Stack.popRegular, hextra]⟩
      · exact ⟨[e, top], by simp [Stack.popChildren, Stack.popRegular, hextra, he]⟩
    obtain ⟨parts, hpop⟩ := hpop
    have hproduction : table.production? 0 = some ⟨2, [none, none]⟩ := rfl
    have hleft : c'.reductions ≠ 0 := hreductions ▸ hr
    refine ⟨c'.reduce table token ⟨2, [none, none]⟩, ?_, .built ⟨token, rfl, hf⟩ hwalker ?_⟩
    · simp only [Config.step, hl, hfetch, hterminal, if_true, Config.act, hstate, hproduction, hleft,
        if_false]
    · simp only [Config.reduce, Config.record, Production.size, List.length_cons, List.length_nil,
        hpop, List.map_nil, List.reverse_nil, List.nil_append]
      exact ⟨_, rfl, rfl, rfl⟩
  | built hl hw hs =>
    obtain ⟨token, hl, hf⟩ := hl
    obtain ⟨e, hs, hstate, hextra⟩ := hs
    have haction : table.action? c.state token.symbol = some (.shift 1) := by
      rw [hf, Config.state, hs, Stack.state, hstate]
      rfl
    refine ⟨c.shift table token 1, ?_, .shifted rfl rfl hw ?_ ⟨_, _, rfl, ⟨rfl, rfl⟩, ?_⟩⟩
    · simp only [Config.step, hl, Config.act, haction]
    · exact Nat.mul_ne_zero (Nat.succ_ne_zero _) (Nat.succ_ne_zero _)
    · exact .inr ⟨e, hs, hstate, hextra⟩

theorem not_ends : ¬Config.Ends table ByteArray.empty (.start table none) := by
  rintro ⟨c, root, events, hreach, hdone⟩
  have hstands : Stands c := Config.invariant_of_reaches hreach (.before rfl rfl rfl (.inl rfl))
    fun c c' h hm => by
      obtain ⟨d, hd, hstands⟩ := stands_step h
      rw [Config.Moves, hd] at hm
      cases hm
      exact hstands
  obtain ⟨d, hd, -⟩ := stands_step hstands
  rw [hdone] at hd
  cases hd

/-- The parse of the empty text with the table gives no result. -/
theorem parse_restless : Table.load bytes = .ok table ∧ Language.parse ⟨0, table⟩ "" none = none := by
  refine ⟨load_bytes, ?_⟩
  rw [← Option.not_isSome_iff_eq_none, Language.parse_isSome]
  exact not_ends

/-- The end of the text is shifted without bound there. -/
theorem shifts_restless : Table.load bytes = .ok table ∧ ∀ bound, ∃ n c, bound < n ∧
    (Config.start table none).after table ByteArray.empty n = some c ∧
      c.ShiftsFinish table ByteArray.empty := by
  have hiff := (Language.parse_ends (l := ⟨0, table⟩) load_bytes "" none).2
  rw [Language.parse_isSome] at hiff
  refine ⟨load_bytes, fun bound => ?_⟩
  by_contra hbound
  refine not_ends (hiff.mpr ⟨bound, ?_⟩)
  intro n c hc hs
  exact Nat.le_of_not_lt fun hlt => hbound ⟨n, c, hlt, hc, hs⟩

end Restless

end IncrementalParsing
