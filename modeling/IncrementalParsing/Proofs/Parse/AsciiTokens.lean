import IncrementalParsing.Proofs.Parse.Coverage

/-!
# Tokens of single-byte characters

A token whose automaton goes on only over bytes below `0x80` ends between characters.  The automaton
sees one byte more than it takes: that byte may be any, if it leads nowhere else.

## Key results

- `keepsCharacters_of_ascii`: a table of such tokens keeps characters whole
-/

namespace IncrementalParsing

/-- After a byte below `0x80` there is a boundary. -/
theorem isBoundary_succ_of_ascii {s : String} {i : Nat} {b : UInt8} (h : isBoundary s.toUTF8 i = true)
    (hb : byteAt? s.toUTF8 i = some b) (hlt : b.toNat < 0x80) : isBoundary s.toUTF8 (i + 1) = true := by
  have hi : i < s.toUTF8.size := by
    unfold byteAt? at hb
    split at hb
    · assumption
    · cases hb
  have hlead := leads_one (Nat.le_of_lt_succ hlt)
  rw [UInt8.ofNat_toNat] at hlead
  -- a byte below 0x80 is a character of its own
  have hwidth : Lexer.charWidth s.toUTF8 i = 1 := by
    unfold Lexer.charWidth
    simp only [hb, hlead.begins]
    have howes := hlead.owes
    cases hshape : Utf8.tailShape? b with
    | none => simp [hshape] at howes
    | some shape =>
      obtain ⟨owed, lo, hi⟩ := shape
      simpa [hshape] using howes
  have := isBoundary_add_charWidth h hi
  rwa [hwidth] at this

namespace Automaton

/-- Whether a state ends every way on. -/
def State.isDead (s : State) : Bool := s.moves.isEmpty && !s.final

/-- Whether all bytes of what is matched are below `0x80`. -/
def readsAscii (a : Automaton) : Bool :=
  a.states.all fun s => s.moves.all fun m => m.last < 0x80 || (a.state m.target).isDead

theorem moves_of_readsAscii {a : Automaton} (ha : a.readsAscii = true) (i : Nat) :
    ∀ m ∈ (a.state i).moves, m.last < 0x80 ∨ (a.state m.target).isDead = true := by
  intro m hm
  unfold state Array.getD at hm
  split at hm
  · rename_i hi
    have hall := Array.all_eq_true.mp ha i hi
    have := List.all_eq_true.mp hall m hm
    simpa using this
  · cases hm

/-- A match of such an automaton ends at a boundary, whether it is the longest so far or comes
later. -/
theorem isBoundary_of_scanFrom {a : Automaton} (ha : a.readsAscii = true) {s : String}
    {start left place i : Nat} {longest : Option Nat} {stop : Nat}
    (hplace : isBoundary s.toUTF8 place = true ∨ (a.state i).isDead = true)
    (hlongest : ∀ j, longest = some j → isBoundary s.toUTF8 j = true)
    (h : (scanFrom a s.toUTF8 start left place (a.state i) longest).1 = some stop) :
    isBoundary s.toUTF8 stop = true := by
  -- on the bytes that are left, with a place between characters unless the state is dead
  induction left generalizing place i longest with
  | zero =>
    simp only [scanFrom] at h
    split at h
    · rename_i hfinal
      cases h
      refine hplace.resolve_right fun hdead => ?_
      simp only [State.isDead, Bool.and_eq_true, Bool.not_eq_true'] at hdead hfinal
      rw [hdead.2] at hfinal
      cases hfinal.1
    · exact hlongest stop h
  | succ left ih =>
    simp only [scanFrom] at h
    split at h
    · exact hlongest stop h
    · rename_i byte hbyte
      split at h
      · exact hlongest stop h
      · rename_i target htarget
        unfold State.next? at htarget
        obtain ⟨m, hm, rfl⟩ := Option.map_eq_some_iff.mp htarget
        have hmem := List.mem_of_find?_eq_some hm
        have hrange := List.find?_some hm
        simp only [Bool.and_eq_true, decide_eq_true_eq] at hrange
        -- a state that can go on was reached over whole characters
        have hhere : isBoundary s.toUTF8 place = true := by
          refine hplace.resolve_right fun hdead => ?_
          simp only [State.isDead, Bool.and_eq_true, List.isEmpty_iff] at hdead
          rw [hdead.1] at hmem
          cases hmem
        refine ih ?_ (fun j hj => ?_) h
        · refine (moves_of_readsAscii ha i m hmem).imp_left fun hlt => ?_
          exact isBoundary_succ_of_ascii hhere hbyte (by omega)
        · split at hj
          · cases hj
            exact hhere
          · exact hlongest j hj

end Automaton

/-- A table whose tokens are matched over bytes below `0x80` keeps characters whole. -/
theorem Table.keepsCharacters_of_ascii {t : Table}
    (h : (t.lexemes.all fun l => l.all fun lexeme => lexeme.automaton.readsAscii) = true) :
    t.KeepsCharacters := by
  intro s symbol lexeme start stop hlexeme hstart hscan
  -- a lexeme that is found is one of those the condition is about
  have hascii : lexeme.automaton.readsAscii = true := by
    simp only [Table.lexeme?, Option.bind_eq_bind, Option.bind_eq_some_iff] at hlexeme
    obtain ⟨info, -, i, -, found, hfound, rfl⟩ := hlexeme
    obtain ⟨hi, hget⟩ := Array.getElem?_eq_some_iff.mp hfound
    have := Array.all_eq_true.mp h i hi
    rw [hget] at this
    exact this
  exact Automaton.isBoundary_of_scanFrom hascii (.inl hstart) (by simp) hscan

end IncrementalParsing
