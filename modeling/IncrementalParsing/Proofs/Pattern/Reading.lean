import IncrementalParsing.Pattern.Reader

/-!
# What follows a pattern

A pattern that is put in a group is read as it is read alone: a closing parenthesis ends it where it
would end by itself, whatever follows.  This holds of every reader of a part of a pattern.  There is one
exception: in free spacing a comment goes on to the end of the line, and one that is not over when the
pattern is goes on behind it and hides the parenthesis.

## Key results

- `skipFree_stays`: what is skipped
- `escape?_stays`: escapes
- `classBody?_append`: classes, which end with their bracket
- `counted?_append`: the bounds of repetitions, which end with their brace
-/

namespace IncrementalParsing.Pattern

/-- What a reader gives does not change if a closing parenthesis follows, and leaves that and all behind
it.  Otherwise it comes to the end of the text in a comment, which then hides the parenthesis as well. -/
def Stays {α : Type} (read : List Char → Option (α × List Char)) (cs : List Char) (x : α)
    (rest : List Char) : Prop :=
  (∀ k, read (cs ++ ')' :: k) = some (x, rest ++ ')' :: k)) ∨
    (rest = [] ∧ read (cs ++ [')']) = some (x, []))

/-! ## Blanks and comments -/

/-- Where the ranges of white space are kept. -/
theorem find_whiteSpace :
    (Unicode.binaryPropertyRanges.find? fun entry => (Unicode.namesOf entry.1).contains "whitespace") =
      some ("whitespace space wspace", ["JEbCAgEAbKAbfnPAjhPKbNBFAcPApkAA"]) := by
  decide +kernel

/-- Which characters are white space, decoded from the gaps between them. -/
theorem ofGaps_whiteSpace :
    Unicode.CodeSet.ofGaps 0 (Unicode.decodePairs ["JEbCAgEAbKAbfnPAjhPKbNBFAcPApkAA"]) =
      [(9, 13), (32, 32), (0x85, 0x85), (0xA0, 0xA0), (0x1680, 0x1680), (0x2000, 0x200A),
        (0x2028, 0x2029), (0x202F, 0x202F), (0x205F, 0x205F), (0x3000, 0x3000)] := by
  rw [Unicode.decodePairs, Unicode.decode, List.foldl_cons, List.foldl_nil,
    String.foldl_eq_foldl_toList]
  decide +kernel

/-- The blanks: tab, line breaks and spaces of all kinds. -/
theorem whiteSpace_eq : Unicode.whiteSpace = ⟨[(9, 13), (32, 32), (0x85, 0x85), (0xA0, 0xA0),
    (0x1680, 0x1680), (0x2000, 0x200A), (0x2028, 0x2029), (0x202F, 0x202F), (0x205F, 0x205F),
    (0x3000, 0x3000)]⟩ := by
  rw [Unicode.whiteSpace, Unicode.tabulated, Unicode.tabulated?, find_whiteSpace, Option.map_some,
    Option.getD_some, ofGaps_whiteSpace, Unicode.CodeSet.ofRanges]
  -- the table has the ranges in ascending order, so sorting changes nothing
  rw [List.mergeSort_of_pairwise (by decide)]
  rfl

/-- What has a meaning of its own in free spacing is no blank. -/
theorem isBlank_eq_false {c : Char} (h : c = ')' ∨ c = ']' ∨ c = '-') : isBlank c = false := by
  rw [isBlank, whiteSpace_eq]
  rcases h with rfl | rfl | rfl <;> rfl

/-- A character is skipped, whatever follows, or it is where skipping ends. -/
theorem skipComments_cons (inComment : Bool) (c : Char) :
    (∃ next, ∀ cs, skipComments inComment (c :: cs) = skipComments next cs) ∨
      ∀ cs, skipComments inComment (c :: cs) = c :: cs := by
  -- in a comment all is passed over, and the end of the line ends it
  cases inComment with
  | true => exact .inl ⟨c != '\n', fun _ => rfl⟩
  | false =>
    by_cases hblank : isBlank c = true
    · exact .inl ⟨false, fun _ => by rw [skipComments, if_neg Bool.false_ne_true, if_pos hblank]⟩
    · by_cases hmark : (c == '#') = true
      · exact .inl ⟨true, fun _ => by
          rw [skipComments, if_neg Bool.false_ne_true, if_neg hblank, if_pos hmark]⟩
      · exact .inr fun _ => by
          rw [skipComments, if_neg Bool.false_ne_true, if_neg hblank, if_neg hmark]

/-- Skipping stops at the same character, whatever follows. -/
theorem skipComments_append {c : Char} {rest : List Char} (k : List Char) {cs : List Char} :
    ∀ {inComment : Bool}, skipComments inComment cs = c :: rest →
      skipComments inComment (cs ++ k) = c :: rest ++ k := by
  induction cs with
  | nil => exact fun h => by cases h
  | cons d cs ih =>
    intro inComment h
    -- the character is passed over, or ends what is passed over
    obtain ⟨next, hnext⟩ | hstop := skipComments_cons inComment d
    · rw [hnext] at h
      rw [List.cons_append, hnext, ih h]
    · rw [hstop] at h
      rw [List.cons_append, hstop, ← h, List.cons_append]

/-- Where everything is skipped, skipping ends at a parenthesis that follows, or a comment is open. -/
theorem skipComments_nil {cs : List Char} : ∀ {inComment : Bool}, skipComments inComment cs = [] →
    (∀ k, skipComments inComment (cs ++ ')' :: k) = ')' :: k) ∨
      skipComments inComment (cs ++ [')']) = [] := by
  -- the induction is on the characters, in a comment or not
  induction cs with
  | nil =>
    intro inComment _
    cases inComment with
    | true => exact .inr rfl
    | false =>
      refine .inl fun k => ?_
      rw [List.nil_append, skipComments, if_neg Bool.false_ne_true, isBlank_eq_false (.inl rfl)]
      rfl
  | cons d cs ih =>
    intro inComment h
    obtain ⟨next, hnext⟩ | hstop := skipComments_cons inComment d
    · rw [hnext] at h
      simpa only [List.cons_append, hnext] using ih h
    · rw [hstop] at h
      cases h

variable {free : Bool}

/-- Skipping stops at the same place. -/
theorem skipFree_append {c : Char} {rest cs : List Char} (h : skipFree free cs = c :: rest)
    (k : List Char) : skipFree free (cs ++ k) = c :: (rest ++ k) := by
  cases free with
  | true => exact skipComments_append k h
  | false => exact congrArg (· ++ k) h

/-- So does `skipFree`, where it stops before the end. -/
theorem skipFree_append_of_ne {cs : List Char} (h : skipFree free cs ≠ []) (k : List Char) :
    skipFree free (cs ++ k) = skipFree free cs ++ k := by
  obtain ⟨c, rest, hrest⟩ := List.exists_cons_of_ne_nil h
  rw [skipFree_append hrest, hrest, List.cons_append]

/-- With a bracket behind, skipping stops where it did, or at the end inside a comment that takes the
bracket in. -/
theorem skipFree_stays (free : Bool) (cs : List Char) :
    (∀ k, skipFree free (cs ++ ')' :: k) = skipFree free cs ++ ')' :: k) ∨
      (skipFree free cs = [] ∧ skipFree free (cs ++ [')']) = []) := by
  cases hrest : skipFree free cs with
  | cons c rest => exact .inl fun k => skipFree_append hrest _
  | nil =>
    cases free with
    | true => exact (skipComments_nil hrest).imp_right fun h => ⟨rfl, h⟩
    | false =>
      cases (show cs = [] from hrest)
      exact .inl fun _ => rfl

/-- Nothing is skipped of no text. -/
theorem skipFree_nil (free : Bool) : skipFree free [] = [] := by
  cases free <;> rfl

/-- Skipping leaves no more than there was. -/
theorem length_skipFree_le (free : Bool) (cs : List Char) : (skipFree free cs).length ≤ cs.length := by
  cases free with
  | false => exact Nat.le_refl _
  | true =>
    -- the fact is stated inside and outside a comment
    suffices h : ∀ inComment, (skipComments inComment cs).length ≤ cs.length from h false
    induction cs with
    | nil => exact fun _ => Nat.le_refl _
    | cons c cs ih =>
      intro inComment
      obtain ⟨next, hnext⟩ | hstop := skipComments_cons inComment c
      · rw [hnext]
        exact Nat.le_succ_of_le (ih next)
      · exact Nat.le_of_eq (congrArg List.length (hstop cs))

/-- Looking past blanks finds a character, whatever follows, or there is nothing but blanks and a mark of
a comment. -/
theorem look_cases (l : List Char) : ∀ inComment : Bool,
    (∃ c, ∀ cs k, peekFree.look cs inComment (l ++ k) = some c) ∨
      ((∀ cs, peekFree.look cs inComment l = cs.head?) ∧ (∀ b, skipComments b l = []) ∧
        ∀ c ∈ l, isBlank c = true ∨ c = '#') := by
  induction l with
  | nil => exact fun _ => .inr ⟨fun _ => rfl, fun _ => rfl, fun _ h => by cases h⟩
  | cons c l ih =>
    intro inComment
    -- what is looked past is skipped, in a comment or not
    have hpast : ∀ next, (isBlank c = true ∨ c = '#') →
        (∀ cs l, peekFree.look cs inComment (c :: l) = peekFree.look cs next l) →
        (∃ d, ∀ cs k, peekFree.look cs inComment (c :: l ++ k) = some d) ∨
          ((∀ cs, peekFree.look cs inComment (c :: l) = cs.head?) ∧ (∀ b, skipComments b (c :: l) = []) ∧
            ∀ d ∈ c :: l, isBlank d = true ∨ d = '#') := by
      intro next hc hlook
      obtain ⟨d, hd⟩ | ⟨hend, hskip, hall⟩ := ih next
      · exact .inl ⟨d, fun cs k => by rw [List.cons_append, hlook, hd]⟩
      · refine .inr ⟨fun cs => (hlook cs l).trans (hend cs), fun b => ?_,
          List.forall_mem_cons.mpr ⟨hc, hall⟩⟩
        rw [skipComments, hskip, hskip, hskip]
        split
        · rfl
        · split
          · rfl
          · rename_i hblank
            rw [if_pos (beq_iff_eq.mpr (hc.resolve_left hblank))]
    by_cases hblank : isBlank c = true
    · exact hpast inComment (.inl hblank) fun cs l => by rw [peekFree.look, if_pos hblank]
    -- a comment is looked past too, from its mark on
    · by_cases hmark : (!inComment && c == '#') = true
      · have hc : c = '#' := by simpa using (Bool.and_eq_true_iff.mp hmark).2
        exact hpast true (.inr hc) fun cs l => by rw [peekFree.look, if_neg hblank, if_pos hmark]
      · exact .inl ⟨c, fun cs k => by
          rw [List.cons_append, peekFree.look, if_neg hblank, if_neg hmark]⟩

/-- What decides about a hyphen is seen before the text ends. -/
theorem peekFree_append {cs : List Char}
    (h : skipFree free cs ≠ [] ∨ peekFree free cs = some ']' ∨ peekFree free cs = some '-')
    (k : List Char) : peekFree free (cs ++ k) = peekFree free cs := by
  cases free with
  | false =>
    cases cs with
    | nil => simp [skipFree, peekFree] at h
    | cons c cs => rfl
  | true =>
    -- what is seen is there already, whatever is put at the end
    obtain ⟨c, hc⟩ | ⟨hend, hskip, hall⟩ := look_cases cs false
    · have hsame : peekFree true cs = some c := by
        have := hc cs []
        rwa [List.append_nil] at this
      rw [hsame]
      exact hc (cs ++ k) k
    · -- only a blank or the mark of a comment could be seen
      have hne : ∀ c, c = ']' ∨ c = '-' → peekFree true cs ≠ some c := by
        intro c hc heq
        obtain hblank | rfl := hall c (List.mem_of_head? ((hend cs).symm.trans heq))
        · rw [isBlank_eq_false (.inr hc)] at hblank
          cases hblank
        · rcases hc with hc | hc <;> cases hc
      obtain h | h | h := h
      · exact absurd (hskip false) h
      · exact absurd h (hne _ (.inl rfl))
      · exact absurd h (hne _ (.inr rfl))

/-! ## Parts of escapes -/

section

variable {α β : Type} {read : List Char → Option (α × List Char)} {cs rest : List Char} {x : α}

/-- What is read alike whatever follows stays. -/
theorem stays_of_append (h : ∀ k, read (cs ++ k) = some (x, rest ++ k)) : Stays read cs x rest :=
  .inl fun _ => h _

/-- Skipping after a part keeps how it is read. -/
theorem stays_of_skip (h : ∀ k, read (cs ++ k) = some (x, skipFree free (rest ++ k))) :
    Stays read cs x (skipFree free rest) := by
  obtain hskip | ⟨hnil, hskip⟩ := skipFree_stays free rest
  · exact .inl fun k => by rw [h, hskip]
  · exact .inr ⟨hnil, by rw [h, hskip]⟩

/-- A reader that does what another one does with some text. -/
theorem Stays.of_eq (h : Stays read cs x rest) {read' : List Char → Option (α × List Char)}
    {cs' : List Char} (hread : ∀ k, read' (cs' ++ k) = read (cs ++ k)) : Stays read' cs' x rest := by
  obtain h | ⟨hnil, h⟩ := h
  · exact .inl fun k => (hread _).trans (h k)
  · exact .inr ⟨hnil, (hread _).trans h⟩

/-- A reader that looks at one character first. -/
theorem Stays.after (h : Stays read cs x rest) {read' : List Char → Option (β × List Char)} {c : Char}
    {f : α → β} (hread : ∀ cs, read' (c :: cs) = (read cs).map fun r => (f r.1, r.2)) :
    Stays read' (c :: cs) (f x) rest := by
  obtain h | ⟨hnil, h⟩ := h
  · exact .inl fun k => by rw [List.cons_append, hread, h, Option.map_some]
  · exact .inr ⟨hnil, by rw [List.cons_append, hread, h, Option.map_some]⟩

end

/-- Digits of a fixed number are read alike before a bracket. -/
theorem fixedCode?_stays {count : Nat} : ∀ {code : Nat} {cs : List Char} {n : Nat} {rest : List Char},
    fixedCode? free count code cs = some (n, rest) → Stays (fixedCode? free count code) cs n rest := by
  -- the induction is on the number of digits that are missing
  induction count with
  | zero =>
    intro code cs n rest h
    cases h
    exact .inl fun _ => rfl
  | succ count ih =>
    intro code cs n rest h
    cases cs with
    | nil => cases h
    | cons c cs =>
      rw [fixedCode?] at h
      split at h
      · rename_i d hd
        have hstep : ∀ cs, fixedCode? free (count + 1) code (c :: cs) =
            fixedCode? free count (code * 16 + d) (skipFree free cs) := fun cs => by
          rw [fixedCode?, hd]
        obtain hskip | ⟨hnil, hskip⟩ := skipFree_stays free cs
        · obtain h | ⟨hnil, h⟩ := ih h
          · exact .inl fun k => by rw [List.cons_append, hstep, hskip, h]
          · exact .inr ⟨hnil, by rw [List.cons_append, hstep, hskip, h]⟩
        · -- nothing is left, so no digits are missing
          rw [hnil] at h
          cases count with
          | zero =>
            cases h
            exact .inr ⟨rfl, by rw [List.cons_append, hstep, hskip]; rfl⟩
          | succ => cases h
      · cases h

/-- What is in braces ends with the brace. -/
theorem braced?_append {fuel : Nat} : ∀ {fuel' : Nat} {acc cs name rest : List Char},
    braced? free fuel acc cs = some (name, rest) → fuel ≤ fuel' → ∀ k,
      braced? free fuel' acc (cs ++ k) = some (name, rest ++ k) := by
  -- the induction is on the fuel, of which there may be more than is needed
  induction fuel with
  | zero => exact fun h => by cases h
  | succ fuel ih =>
    intro fuel' acc cs name rest h hle k
    obtain ⟨fuel', rfl⟩ := Nat.exists_eq_add_of_le' (Nat.le_trans (Nat.le_add_left 1 fuel) hle)
    rw [braced?] at h ⊢
    split at h
    · cases h
    · rename_i hskip
      cases h
      rw [skipFree_append hskip]
      rfl
    -- the brace is still to come, so there is something left to be read
    · rename_i c cs' hne hskip
      rw [skipFree_append hskip]
      have hrec := ih h (Nat.le_of_succ_le_succ hle) k
      split
      · rename_i heq
        cases heq
      · rename_i heq
        exact absurd (List.cons.inj heq).1 hne
      · rename_i heq
        obtain ⟨rfl, rfl⟩ := List.cons.inj heq
        exact hrec

/-- So is a character written by its code, with or without braces. -/
theorem hexLiteral?_stays {count : Nat} (hcount : count ≠ 0) {cs rest : List Char} {l : Literal}
    (h : hexLiteral? free count cs = some (l, rest)) : Stays (hexLiteral? free count) cs l rest := by
  unfold hexLiteral? at h
  split at h
  · rename_i inner hskip
    simp only [Option.bind_eq_bind, Option.bind_eq_some_iff] at h
    obtain ⟨⟨inside, after⟩, hbraced, h⟩ := h
    dsimp only at h
    split at h
    · cases h
    · rename_i hinside
      simp only [Option.bind_eq_some_iff, Option.pure_def, Option.some.injEq, Prod.mk.injEq] at h
      obtain ⟨digits, hdigits, c, hc, rfl, rfl⟩ := h
      refine stays_of_skip fun k => ?_
      have hbraced' := braced?_append hbraced
        (show inner.length + 1 ≤ (inner ++ k).length + 1 by simp) k
      unfold hexLiteral?
      rw [skipFree_append hskip]
      simp only [hbraced', hinside, hdigits, hc, Option.bind_eq_bind, Option.bind_some,
        Option.pure_def, Bool.false_eq_true, if_false]
  · rename_i hne
    simp only [Option.bind_eq_bind, Option.bind_eq_some_iff, Option.pure_def, Option.some.injEq,
      Prod.mk.injEq] at h
    obtain ⟨⟨code, after⟩, hcode, c, hc, rfl, rfl⟩ := h
    -- there is a digit, and it is no brace
    obtain ⟨d, digits, hskip⟩ : ∃ d digits, skipFree free cs = d :: digits := by
      cases hskip : skipFree free cs with
      | nil =>
        rw [hskip] at hcode
        cases count with
        | zero => exact absurd rfl hcount
        | succ => cases hcode
      | cons d digits => exact ⟨d, digits, rfl⟩
    have hd : d ≠ '\x7b' := fun hd => hne digits (hd ▸ hskip)
    have hread : ∀ k, hexLiteral? free count (cs ++ k) =
        (fixedCode? free count 0 (skipFree free cs ++ k)).bind fun r =>
          (charOf? r.1).bind fun c => some (⟨c, count == 2⟩, r.2) := by
      intro k
      unfold hexLiteral?
      rw [skipFree_append hskip, hskip]
      split
      · rename_i heq
        exact absurd (List.cons.inj heq).1 hd
      · rfl
    obtain h | ⟨hnil, h⟩ := fixedCode?_stays hcode
    · refine .inl fun k => ?_
      rw [hread, h, Option.bind_some, hc]
      rfl
    · refine .inr ⟨hnil, ?_⟩
      rw [hread, h, Option.bind_some, hc]
      rfl

/-- So is a class written by the name of a property. -/
theorem propertyClass?_stays {negated : Bool} {cs rest : List Char} {tree : ClassTree}
    (h : propertyClass? free negated cs = some (tree, rest)) :
    Stays (propertyClass? free negated) cs tree rest := by
  unfold propertyClass? at h
  split at h
  · cases h
  · rename_i inner hskip
    obtain ⟨⟨name, after⟩, hbraced, h⟩ := Option.map_eq_some_iff.mp h
    cases h
    refine stays_of_append fun k => ?_
    unfold propertyClass?
    rw [skipFree_append hskip]
    exact Option.map_eq_some_iff.mpr ⟨_, braced?_append hbraced (by simp) k, rfl⟩
  · cases h
  -- without braces a single letter is the name
  · rename_i c cs' hne hne' hskip
    cases h
    refine stays_of_skip fun k => ?_
    unfold propertyClass?
    rw [skipFree_append hskip]
    split
    · rename_i heq
      cases heq
    · rename_i heq
      exact absurd (List.cons.inj heq).1 hne
    · rename_i heq
      exact absurd (List.cons.inj heq).1 hne'
    · rename_i heq
      obtain ⟨rfl, rfl⟩ := List.cons.inj heq
      rfl

/-- The name of a kind of boundary ends with the brace. -/
theorem wordMarks_append {fuel : Nat} : ∀ {fuel' : Nat} {acc cs name rest : List Char},
    wordMarks free fuel acc cs = (name, '\x7d' :: rest) → fuel ≤ fuel' → ∀ k,
      wordMarks free fuel' acc (cs ++ k) = (name, '\x7d' :: rest ++ k) := by
  have hstop : ∀ (fuel : Nat) (acc cs : List Char),
      wordMarks free fuel acc ('\x7d' :: cs) = (acc.reverse, '\x7d' :: cs) := by
    intro fuel acc cs
    cases fuel <;> rfl
  -- the induction is on the fuel, of which there may be more than is needed
  induction fuel with
  | zero =>
    intro fuel' acc cs name rest h hle k
    cases h
    exact hstop ..
  | succ fuel ih =>
    intro fuel' acc cs name rest h hle k
    obtain ⟨fuel', rfl⟩ := Nat.exists_eq_add_of_le' (Nat.le_trans (Nat.le_add_left 1 fuel) hle)
    cases cs with
    | nil => cases h
    | cons c cs =>
      rw [wordMarks] at h
      rw [List.cons_append, wordMarks]
      split at h
      · rename_i hc
        rw [if_pos hc]
        -- the brace is still to come, so there is something behind the character
        have hskip : ∃ d more, skipFree free cs = d :: more := by
          cases hskip : skipFree free cs with
          | nil =>
            rw [hskip] at h
            cases fuel <;> cases h
          | cons d more => exact ⟨d, more, rfl⟩
        obtain ⟨d, more, hskip⟩ := hskip
        rw [skipFree_append hskip]
        rw [hskip] at h
        exact ih h (Nat.le_of_succ_le_succ hle) k
      · rename_i hc
        rw [if_neg hc]
        cases h
        rfl

/-- What the name of a kind of boundary stands for, with the brace behind it. -/
def boundaryName? (free : Bool) (cs : List Char) : Option (Atom × List Char) :=
  match wordMarks free cs.length [] cs with
  | (name, '\x7d' :: rest) => (namedBoundary? (String.ofList name)).map fun kind => (.anchor kind, rest)
  | _ => none

/-- The name of a word boundary ends with its brace. -/
theorem boundaryName?_append {cs rest : List Char} {atom : Atom}
    (h : boundaryName? free cs = some (atom, rest)) (k : List Char) :
    boundaryName? free (cs ++ k) = some (atom, rest ++ k) := by
  unfold boundaryName? at h
  split at h
  · rename_i name after hmarks
    obtain ⟨kind, hkind, heq⟩ := Option.map_eq_some_iff.mp h
    cases heq
    rw [boundaryName?, wordMarks_append hmarks (by simp) k]
    exact Option.map_eq_some_iff.mpr ⟨kind, hkind, rfl⟩
  · cases h

/-- A brace after `\b` begins a name only before a mark of one. -/
theorem wordBoundary?_brace {cs rest : List Char} {c : Char} (hskip : skipFree free cs = c :: rest) :
    wordBoundary? free ('\x7b' :: cs) =
      if isWordMark c then boundaryName? free (c :: rest)
      else some (.anchor .wordBoundary, '\x7b' :: cs) := by
  rw [wordBoundary?, hskip]
  rfl

/-- A word boundary is read alike before a bracket, with a name or without. -/
theorem wordBoundary?_stays {cs rest : List Char} {atom : Atom}
    (h : wordBoundary? free cs = some (atom, rest)) : Stays (wordBoundary? free) cs atom rest := by
  -- only a brace right behind the letter begins a name
  by_cases hbrace : ∃ inner, cs = '\x7b' :: inner
  · obtain ⟨inner, rfl⟩ := hbrace
    cases hskip : skipFree free inner with
    | nil =>
      rw [wordBoundary?, hskip] at h
      cases h
    | cons c more =>
      rw [wordBoundary?_brace hskip] at h
      refine stays_of_append fun k => ?_
      rw [List.cons_append, wordBoundary?_brace (skipFree_append hskip k)]
      split at h
      · rename_i hc
        rw [if_pos hc]
        exact boundaryName?_append h k
      · rename_i hc
        cases h
        exact if_neg hc
  · have hplain : ∀ cs, (∀ inner, cs ≠ '\x7b' :: inner) →
        wordBoundary? free cs = some (.anchor .wordBoundary, cs) := by
      intro cs hcs
      rw [wordBoundary?]
      exact hcs
    rw [hplain cs (not_exists.mp hbrace)] at h
    cases h
    refine .inl fun k => hplain _ fun inner heq => ?_
    cases cs with
    | nil => cases heq
    | cons c cs => exact hbrace ⟨cs, (List.cons.inj heq).1 ▸ rfl⟩

/-- So is an escape with a code, -/
theorem hexEscape_stays {count : Nat} (hcount : count ≠ 0) {letter : Char}
    (hletter : ∀ cs, escape? free (letter :: cs) =
      (hexLiteral? free count cs).map fun r => (.literal r.1, r.2))
    {cs rest : List Char} {atom : Atom} (h : escape? free (letter :: cs) = some (atom, rest)) :
    Stays (escape? free) (letter :: cs) atom rest := by
  rw [hletter] at h
  obtain ⟨⟨l, after⟩, hl, heq⟩ := Option.map_eq_some_iff.mp h
  cases heq
  exact (hexLiteral?_stays hcount hl).after hletter

/-- and one with a property. -/
theorem propertyEscape_stays {negated : Bool} {letter : Char}
    (hletter : ∀ cs, escape? free (letter :: cs) =
      (propertyClass? free negated cs).map fun r => (.cls r.1, r.2))
    {cs rest : List Char} {atom : Atom} (h : escape? free (letter :: cs) = some (atom, rest)) :
    Stays (escape? free) (letter :: cs) atom rest := by
  rw [hletter] at h
  obtain ⟨⟨tree, after⟩, htree, heq⟩ := Option.map_eq_some_iff.mp h
  cases heq
  exact (propertyClass?_stays htree).after hletter

/-- An escape is read by its letter: some letters take a reader for what follows, the others are all that
there is. -/
theorem escape?_stays {cs rest : List Char} {atom : Atom} (h : escape? free cs = some (atom, rest)) :
    Stays (escape? free) cs atom rest := by
  have hescape := h
  unfold escape? at h
  dsimp only at h
  split at h
  case h_1 => cases h
  case h_2 | h_3 | h_4 => exact hexEscape_stays (by decide) (fun _ => rfl) hescape
  case h_5 | h_6 => exact propertyEscape_stays (fun _ => rfl) hescape
  case h_21 =>
    exact (wordBoundary?_stays h).of_eq fun _ => rfl
  -- any other escape is of a single character
  case h_25 =>
    split at h
    · cases h
      refine .inl fun k => ?_
      rw [List.cons_append, escape?]
      · rename_i hescapable
        exact if_pos hescapable
      all_goals assumption
    · cases h
  all_goals
    cases h
    exact .inl fun _ => rfl

/-! ## Classes -/

/-- No class has a bracket in its name. -/
theorem posixClass?_none {name : String} (h : ')' ∈ name.toList) : posixClass? name = none := by
  unfold posixClass?
  split
  case h_15 => rfl
  all_goals exact absurd h (by simp)

/-- What the name of a class and its closing bracket stand for. -/
def posixName? (negated : Bool) (cs : List Char) : Option (ClassTree × List Char) :=
  match cs.dropWhile (· != ':') with
  | ':' :: ']' :: after =>
    (posixClass? (String.ofList (cs.takeWhile (· != ':')))).map fun ranges =>
      (.posix ranges negated, after)
  | _ => none

/-- The name of a class between colons ends with the colon. -/
theorem posixName?_append {negated : Bool} {cs rest : List Char} {tree : ClassTree}
    (h : posixName? negated cs = some (tree, rest)) (k : List Char) :
    posixName? negated (cs ++ k) = some (tree, rest ++ k) := by
  unfold posixName? at h
  split at h
  · rename_i after hdrop
    obtain ⟨ranges, hranges, heq⟩ := Option.map_eq_some_iff.mp h
    cases heq
    -- the colon that ends the name was already there
    have hlt : (cs.takeWhile (· != ':')).length ≠ cs.length := fun hlength => by
      have := List.takeWhile_append_dropWhile (p := (· != ':')) (l := cs)
      rw [hdrop] at this
      have := congrArg List.length this
      simp only [List.length_append, List.length_cons] at this
      omega
    rw [posixName?, List.dropWhile_append, hdrop, List.takeWhile_append, if_neg hlt]
    simp [hranges]
  · cases h

/-- No class has a name with a parenthesis. -/
theorem posixName?_none {negated : Bool} {cs : List Char} (h : posixName? negated cs = none)
    (k : List Char) : posixName? negated (cs ++ ')' :: k) = none := by
  unfold posixName?
  split
  · rename_i after hdrop
    rw [Option.map_eq_none_iff]
    cases hcs : cs.dropWhile (· != ':') with
    | nil =>
      -- the name goes on over the parenthesis
      refine posixClass?_none ?_
      have htake : cs.takeWhile (· != ':') = cs := by
        have := List.takeWhile_append_dropWhile (p := (· != ':')) (l := cs)
        rwa [hcs, List.append_nil] at this
      rw [String.toList_ofList, List.takeWhile_append, htake, if_pos rfl]
      simp
    | cons c more =>
      have hlt : (cs.takeWhile (· != ':')).length ≠ cs.length := fun hlength => by
        have := List.takeWhile_append_dropWhile (p := (· != ':')) (l := cs)
        rw [hcs] at this
        have := congrArg List.length this
        simp only [List.length_append, List.length_cons] at this
        omega
      rw [List.dropWhile_append, hcs] at hdrop
      rw [List.takeWhile_append, if_neg hlt]
      cases more with
      | nil => cases hdrop
      | cons d more =>
        simp only [List.isEmpty_cons, Bool.false_eq_true, if_false, List.cons_append,
          List.cons.injEq] at hdrop
        obtain ⟨rfl, rfl, -⟩ := hdrop
        rw [posixName?, hcs] at h
        exact Option.map_eq_none_iff.mp h
  -- without a colon and a bracket there is no name on either side
  · rfl

/-- A colon begins a name, which is negated behind a circumflex. -/
theorem posix?_cases (cs : List Char) : (posix? cs = none ∧ ∀ k, posix? (cs ++ ')' :: k) = none) ∨
    ∃ negated inner, posix? cs = posixName? negated inner ∧
      ∀ k, posix? (cs ++ ')' :: k) = posixName? negated (inner ++ ')' :: k) := by
  cases cs with
  | nil => exact .inl ⟨rfl, fun _ => rfl⟩
  | cons c cs =>
    -- a class has a colon first, and then perhaps the mark that negates it
    by_cases hc : c = ':'
    · subst hc
      cases cs with
      | nil => exact .inr ⟨false, [], rfl, fun _ => rfl⟩
      | cons d inner =>
        by_cases hd : d = '^'
        · subst hd
          exact .inr ⟨true, inner, rfl, fun _ => rfl⟩
        · have hplain : ∀ cs, posix? (':' :: d :: cs) = posixName? false (d :: cs) := by
            intro cs
            rw [posix?]
            · rfl
            · exact fun _ heq => hd (List.cons.inj heq).1
          exact .inr ⟨false, d :: inner, hplain inner, fun _ => hplain _⟩
    · have hnone : ∀ cs, posix? (c :: cs) = none := by
        intro cs
        unfold posix?
        split
        · rename_i heq
          exact absurd (List.cons.inj heq).1 hc
        · rfl
      exact .inl ⟨hnone cs, fun _ => hnone _⟩

/-- Such a class is read alike before a bracket, -/
theorem posix?_append {cs rest : List Char} {tree : ClassTree} (h : posix? cs = some (tree, rest))
    (k : List Char) : posix? (cs ++ ')' :: k) = some (tree, rest ++ ')' :: k) := by
  obtain ⟨hnone, -⟩ | ⟨negated, inner, hcs, happend⟩ := posix?_cases cs
  · rw [hnone] at h
    cases h
  · rw [happend]
    exact posixName?_append (hcs ▸ h) _

/-- and where there is none, there is none with a bracket behind either. -/
theorem posix?_none {cs : List Char} (h : posix? cs = none) (k : List Char) :
    posix? (cs ++ ')' :: k) = none := by
  obtain ⟨-, hnone⟩ | ⟨negated, inner, hcs, happend⟩ := posix?_cases cs
  · exact hnone k
  · rw [happend]
    exact posixName?_none (hcs ▸ h) k

/-- Where something follows in the class, it does so whatever follows the class. -/
theorem Stays.append {α : Type} {read : List Char → Option (α × List Char)} {cs rest : List Char} {x : α}
    (h : Stays read cs x rest) (hrest : rest ≠ []) (k : List Char) :
    read (cs ++ ')' :: k) = some (x, rest ++ ')' :: k) := by
  obtain h | ⟨hnil, -⟩ := h
  · exact h k
  · exact absurd hnil hrest

/-- A character or a class inside brackets is read alike. -/
theorem classAtom?_stays {cs rest : List Char} {atom : Atom}
    (h : classAtom? free cs = some (atom, rest)) : Stays (classAtom? free) cs atom rest := by
  unfold classAtom? at h
  split at h
  · cases h
  · exact (escape?_stays h).of_eq fun _ => rfl
  · rename_i c cs' hne
    cases h
    refine .inl fun k => ?_
    rw [List.cons_append, classAtom?]
    exact hne

/-- A part of a class with something behind it. -/
theorem classRange?_append {cs rest : List Char} {tree : ClassTree}
    (h : classRange? free cs = some (tree, rest)) (hrest : rest ≠ []) (k : List Char) :
    classRange? free (cs ++ ')' :: k) = some (tree, rest ++ ')' :: k) := by
  unfold classRange? at h
  simp only [Option.bind_eq_bind, Option.bind_eq_some_iff] at h
  obtain ⟨⟨first, after⟩, hfirst, h⟩ := h
  dsimp only at h
  have hafter : skipFree free after ≠ [] := fun hnil => by
    rw [hnil] at h
    cases h
  have hfirst' := (classAtom?_stays hfirst).append
    (fun hnil => hafter (by rw [hnil, skipFree_nil])) k
  unfold classRange?
  simp only [hfirst', Option.bind_eq_bind, Option.bind_some]
  split at h
  · cases h
  · rename_i after' hskip
    rw [skipFree_append hskip]
    change (if (peekFree free (after' ++ ')' :: k) == some ']' ||
      peekFree free (after' ++ ')' :: k) == some '-') = true then _
      else (classAtom? free (skipFree free (after' ++ ')' :: k))).bind _) = _
    split at h
    · rename_i hpeek
      -- a hyphen in front of a bracket or of another hyphen makes no range
      have hseen : peekFree free after' = some ']' ∨ peekFree free after' = some '-' := by
        simpa using hpeek
      rw [peekFree_append (.inr hseen), if_pos hpeek]
      obtain ⟨part, hpart, heq⟩ := Option.bind_eq_some_iff.mp h
      cases heq
      rw [hpart]
      rfl
    · rename_i hpeek
      obtain ⟨⟨second, after''⟩, hsecond, h⟩ := Option.bind_eq_some_iff.mp h
      have hsome : skipFree free after' ≠ [] := fun hnil => by
        rw [hnil] at hsecond
        cases hsecond
      rw [peekFree_append (.inl hsome), if_neg hpeek, skipFree_append_of_ne hsome]
      split at h
      · rename_i heq _
        cases heq
        split at h
        · rename_i hle
          cases h
          rw [(classAtom?_stays hsecond).append hrest k, Option.bind_some]
          exact if_pos hle
        · cases h
      · cases h
  -- no hyphen follows, so the character stands alone
  · rename_i hne
    obtain ⟨part, hpart, heq⟩ := Option.bind_eq_some_iff.mp h
    cases heq
    obtain ⟨c, more, hskip⟩ := List.exists_cons_of_ne_nil hafter
    rw [skipFree_append hskip, hskip]
    split
    · rename_i heq
      cases heq
    · rename_i heq
      exact absurd ((List.cons.inj heq).1 ▸ hskip) (hne more)
    · rw [hpart]
      rfl

/-- Hyphens in front with something behind them. -/
theorem leadingHyphens_append {fuel : Nat} : ∀ {fuel' : Nat} {acc parts : List ClassTree}
    {cs rest : List Char}, leadingHyphens free fuel acc cs = (parts, rest) → cs.length < fuel →
      fuel ≤ fuel' → rest ≠ [] → ∀ k, leadingHyphens free fuel' acc (cs ++ k) = (parts, rest ++ k) := by
  -- the induction is on the fuel, of which there is more than there are hyphens
  induction fuel with
  | zero => exact fun _ hlength => absurd hlength (Nat.not_lt_zero _)
  | succ fuel ih =>
    intro fuel' acc parts cs rest h hlength hle hrest k
    obtain ⟨fuel', rfl⟩ := Nat.exists_eq_add_of_le' (Nat.le_trans (Nat.le_add_left 1 fuel) hle)
    cases cs with
    | nil =>
      cases h
      exact absurd rfl hrest
    | cons c cs =>
      by_cases hc : c = '-'
      · subst hc
        have hskip : skipFree free cs ≠ [] := fun hnil => by
          rw [leadingHyphens, hnil] at h
          have hnone : ∀ fuel acc, leadingHyphens free fuel acc [] = (acc, []) := by
            intro fuel acc
            cases fuel <;> rfl
          rw [hnone] at h
          cases h
          exact hrest rfl
        rw [leadingHyphens] at h
        rw [List.cons_append, leadingHyphens, skipFree_append_of_ne hskip]
        exact ih h (Nat.lt_of_le_of_lt (length_skipFree_le ..) (Nat.lt_of_succ_lt_succ hlength))
          (Nat.le_of_succ_le_succ hle) hrest k
      · rw [leadingHyphens] at h
        · cases h
          rw [List.cons_append, leadingHyphens]
          exact fun _ heq => hc (List.cons.inj heq).1
        · exact fun _ heq => hc (List.cons.inj heq).1

/-- The parts at the start of a class that stand for themselves only there. -/
def classLiterals (free negated : Bool) (cs : List Char) : Bool × List ClassTree × List Char :=
  match leadingHyphens free (cs.length + 1) [] cs with
  | ([], ']' :: rest) => (negated, [.literal ⟨']', false⟩], skipFree free rest)
  | (parts, rest) => (negated, parts, rest)

/-- The marks that stand for themselves at the beginning of a class are the same, whatever follows. -/
theorem classLiterals_append {negated negated' : Bool} {cs rest : List Char} {parts : List ClassTree}
    (h : classLiterals free negated cs = (negated', parts, rest)) (hrest : rest ≠ []) (k : List Char) :
    classLiterals free negated (cs ++ k) = (negated', parts, rest ++ k) := by
  have hhyphens : ∀ parts rest, leadingHyphens free (cs.length + 1) [] cs = (parts, rest) → rest ≠ [] →
      leadingHyphens free ((cs ++ k).length + 1) [] (cs ++ k) = (parts, rest ++ k) :=
    fun _ _ h hrest => leadingHyphens_append h (Nat.lt_succ_self _) (by simp) hrest k
  unfold classLiterals at h ⊢
  -- a bracket that comes first belongs to the class, unless a hyphen stands before it
  split at h
  · rename_i rest' hrest'
    cases h
    rw [hhyphens _ _ hrest' (List.cons_ne_nil ']' rest')]
    change (_, _, skipFree free (rest' ++ k)) = _
    rw [skipFree_append_of_ne hrest]
  · rename_i hne hrest'
    cases h
    rw [hhyphens _ _ hrest' hrest]
    split
    · rename_i hparts
      obtain ⟨rfl, heq⟩ := Prod.mk.inj hparts
      obtain ⟨c, more, rfl⟩ := List.exists_cons_of_ne_nil hrest
      obtain ⟨rfl, -⟩ := List.cons.inj heq
      exact (hne more rfl rfl).elim
    · rename_i heq
      cases heq
      rfl

/-- The start of a class with something behind it. -/
theorem classOpening_append {cs rest : List Char} {negated : Bool} {parts : List ClassTree}
    (h : classOpening free cs = (negated, parts, rest)) (hrest : rest ≠ []) (k : List Char) :
    classOpening free (cs ++ k) = (negated, parts, rest ++ k) := by
  have hplain : ∀ c cs l, c ≠ '^' → skipFree free cs = c :: l →
      classOpening free cs = classLiterals free false (c :: l) := by
    intro c cs l hc hskip
    unfold classOpening
    rw [hskip]
    split
    rename_i heq
    split at heq
    · rename_i heq'
      exact absurd (List.cons.inj heq').1 hc
    · cases heq
      rfl
  have hnegated : ∀ cs l, skipFree free cs = '^' :: l →
      classOpening free cs = classLiterals free true (skipFree free l) := by
    intro cs l hskip
    unfold classOpening
    rw [hskip]
    rfl
  -- only the mark that negates the class is read here
  cases hskip : skipFree free cs with
  | nil =>
    rw [classOpening, hskip] at h
    cases h
    exact absurd rfl hrest
  | cons c l =>
    by_cases hc : c = '^'
    · subst hc
      rw [hnegated cs l hskip] at h
      have hsome : skipFree free l ≠ [] := fun hnil => by
        rw [hnil] at h
        cases h
        exact hrest rfl
      rw [hnegated (cs ++ k) (l ++ k) (skipFree_append hskip k), skipFree_append_of_ne hsome]
      exact classLiterals_append h hrest k
    · rw [hplain c cs l hc hskip] at h
      rw [hplain c (cs ++ k) (l ++ k) hc (skipFree_append hskip k)]
      exact classLiterals_append h hrest k

/-- Where a bracket opens in a class, it is a class between colons, or a class of its own. -/
theorem classBody?_bracket {cs rest : List Char} (hskip : skipFree free cs = '[' :: rest) (fuel : Nat)
    (waiting : Option (SetOperation × ClassTree)) (parts : List ClassTree) :
    classBody? free (fuel + 1) waiting parts cs =
      match posix? rest with
      | some (part, rest) => classBody? free fuel waiting (part :: parts) rest
      | none =>
        match classBody? free fuel none (classOpening free rest).2.1 (classOpening free rest).2.2 with
        | some (body, rest') =>
          classBody? free fuel waiting (.bracketed (classOpening free rest).1 body :: parts) rest'
        | none => none := by
  rw [classBody?, hskip]
  rfl

/-- What neither ends a class nor nests another one or begins an operation is a part of it. -/
theorem classBody?_range {cs rest : List Char} {c : Char} (hskip : skipFree free cs = c :: rest)
    (hclose : c ≠ ']') (hopen : c ≠ '[') (hoperation : ∀ d ∈ ['&', '-', '~'], c = d → rest.head? ≠ some d)
    (fuel : Nat) (waiting : Option (SetOperation × ClassTree)) (parts : List ClassTree) :
    classBody? free (fuel + 1) waiting parts cs =
      match classRange? free (c :: rest) with
      | some (part, rest) => classBody? free fuel waiting (part :: parts) rest
      | none => none := by
  rw [classBody?, hskip]
  dsimp only
  -- what begins with another character is a range or a single character
  split
  · rename_i heq
    cases heq
  · rename_i heq
    exact absurd (List.cons.inj heq).1 hclose
  · rename_i heq
    exact absurd (List.cons.inj heq).1 hopen
  · rename_i heq
    cases heq
    exact absurd rfl (hoperation _ (by decide) rfl)
  · rename_i heq
    cases heq
    exact absurd rfl (hoperation _ (by decide) rfl)
  · rename_i heq
    cases heq
    exact absurd rfl (hoperation _ (by decide) rfl)
  · rfl

/-- A class ends with its bracket. -/
theorem classBody?_append {fuel : Nat} : ∀ {fuel' : Nat} {waiting : Option (SetOperation × ClassTree)}
    {parts : List ClassTree} {cs rest : List Char} {tree : ClassTree},
    classBody? free fuel waiting parts cs = some (tree, rest) → fuel ≤ fuel' → ∀ k,
      classBody? free fuel' waiting parts (cs ++ ')' :: k) = some (tree, rest ++ ')' :: k) := by
  have hnil : ∀ {fuel waiting parts rest tree},
      classBody? free fuel waiting parts rest = some tree → rest ≠ [] := by
    rintro fuel waiting parts rest tree h rfl
    cases fuel with
    | zero => cases h
    | succ fuel =>
      rw [classBody?, skipFree_nil] at h
      cases h
  -- on the fuel, of which each part takes some: a body that is read ends with its bracket, so nothing
  -- behind that matters
  induction fuel with
  | zero => exact fun h => by cases h
  | succ fuel ih =>
    intro fuel' waiting parts cs rest tree h hle k
    obtain ⟨fuel', rfl⟩ := Nat.exists_eq_add_of_le' (Nat.le_trans (Nat.le_add_left 1 fuel) hle)
    have ih := fun {waiting parts cs rest tree} h =>
      @ih fuel' waiting parts cs rest tree h (Nat.le_of_succ_le_succ hle) k
    rw [classBody?] at h
    dsimp only at h
    split at h
    case h_1 => cases h
    case h_2 rest' hskip =>
      cases h
      rw [classBody?, skipFree_append hskip]
      rfl
    case h_3 rest' hskip =>
      rw [classBody?_bracket (skipFree_append hskip _)]
      split at h
      · rename_i part rest'' hposix
        rw [posix?_append hposix]
        exact ih h
      · rename_i hposix
        generalize hopening : classOpening free rest' = opening at h
        obtain ⟨negated, literals, inner⟩ := opening
        split at h
        · rename_i body rest'' hinner
          rw [posix?_none hposix, classOpening_append hopening (hnil hinner)]
          dsimp only
          rw [ih hinner]
          exact ih h
        · cases h
    case h_4 rest' hskip | h_5 rest' hskip | h_6 rest' hskip =>
      rw [classBody?, skipFree_append hskip]
      exact ih h
    case h_7 hskip hclose hopen hand hminus htilde =>
      cases hcs : skipFree free cs with
      | nil => exact absurd hcs hskip
      | cons c l =>
        rw [hcs] at h
        rw [classBody?_range (skipFree_append hcs _) (fun hc => hclose l (hc ▸ hcs))
          (fun hc => hopen l (hc ▸ hcs)) ?_]
        · split at h
          · rename_i part rest'' hrange
            rw [← List.cons_append, classRange?_append hrange (hnil h)]
            exact ih h
          · cases h
        · -- what follows begins no operation
          intro d hd hc hhead
          subst hc
          cases l with
          | nil =>
            cases hhead
            simp at hd
          | cons d l =>
            cases hhead
            simp only [List.mem_cons, List.not_mem_nil, or_false] at hd
            obtain rfl | rfl | rfl := hd
            · exact hand l hcs
            · exact hminus l hcs
            · exact htilde l hcs

/-! ## Repetitions -/

/-- Dropping stops at the same place if it stops before the end. -/
theorem dropWhile_append_of_ne {p : Char → Bool} {cs : List Char} (h : cs.dropWhile p ≠ [])
    (k : List Char) : (cs ++ k).dropWhile p = cs.dropWhile p ++ k := by
  rw [List.dropWhile_append, if_neg (by rwa [List.isEmpty_iff])]

/-- Digits end where something else comes, however much fuel is left. -/
theorem digits_append {fuel : Nat} : ∀ {fuel' : Nat} {value value' : Option Nat} {cs rest : List Char},
    count?.digits free fuel value cs = (value', rest) → cs.length < fuel → fuel ≤ fuel' → rest ≠ [] →
      ∀ k, count?.digits free fuel' value (cs ++ k) = (value', rest ++ k) := by
  induction fuel with
  | zero => exact fun _ hlength => absurd hlength (Nat.not_lt_zero _)
  | succ fuel ih =>
    intro fuel' value value' cs rest h hlength hle hrest k
    obtain ⟨fuel', rfl⟩ := Nat.exists_eq_add_of_le' (Nat.le_trans (Nat.le_add_left 1 fuel) hle)
    cases cs with
    | nil =>
      cases h
      exact absurd rfl hrest
    | cons c cs =>
      rw [count?.digits] at h
      rw [List.cons_append, count?.digits]
      split at h
      · rename_i hdigit
        -- a digit is not the last character, as something is left behind the number
        have hskip : skipFree free cs ≠ [] := fun hnil => by
          rw [hnil] at h
          cases fuel <;> cases h <;> exact hrest rfl
        rw [if_pos hdigit, skipFree_append_of_ne hskip]
        exact ih h (Nat.lt_of_le_of_lt (length_skipFree_le ..) (Nat.lt_of_succ_lt_succ hlength))
          (Nat.le_of_succ_le_succ hle) hrest k
      · rename_i hdigit
        rw [if_neg hdigit]
        cases h
        rfl

/-- So does a number. -/
theorem count?_append {cs rest : List Char} {n : Nat} (h : count? free cs = some (n, rest))
    (hrest : rest ≠ []) (k : List Char) : count? free (cs ++ k) = some (n, rest ++ k) := by
  unfold count? at h
  dsimp only at h
  split at h
  · rename_i n' after hdigits
    split at h
    · rename_i hsmall
      cases h
      -- something is left behind the blanks, so there is something behind the digits
      have hdrop : after.dropWhile isBlank ≠ [] := fun hnil => by
        rw [hnil, skipFree_nil] at hrest
        exact hrest rfl
      have hafter : after ≠ [] := by
        rintro rfl
        exact hdrop rfl
      have hstart : cs.dropWhile isBlank ≠ [] := fun hnil => by
        rw [hnil] at hdigits
        cases hdigits
      have hfuel : (cs.dropWhile isBlank).length + 1 ≤ (cs.dropWhile isBlank ++ k).length + 1 := by simp
      have hdigits' := digits_append hdigits (Nat.lt_succ_self _) hfuel hafter k
      unfold count?
      dsimp only
      rw [dropWhile_append_of_ne hstart, hdigits']
      dsimp only
      rw [if_pos hsmall, dropWhile_append_of_ne hdrop, skipFree_append_of_ne hrest]
    · cases h
  · cases h

/-- What stands behind the comma of a number of repetitions. -/
def greatest? (free : Bool) (least : Nat) (cs : List Char) : Option (Nat × Option Nat × List Char) :=
  match skipFree free cs with
  | '\x7d' :: rest => some (least, none, rest)
  | rest => (count? free rest).bind fun r =>
    match r with
    | (most, '\x7d' :: rest) => if least ≤ most then some (least, some most, rest) else none
    | _ => none

/-- The bounds of a repetition are read alike, and the greater one is not less. -/
theorem greatest?_append {cs rest : List Char} {least least' : Nat} {most : Option Nat}
    (h : greatest? free least cs = some (least', most, rest)) :
    (∀ m ∈ most, least' ≤ m) ∧ ∀ k, greatest? free least (cs ++ k) = some (least', most, rest ++ k) := by
  unfold greatest? at h
  split at h
  · rename_i hskip
    cases h
    refine ⟨fun _ hm => (Option.not_mem_none _ hm).elim, fun k => ?_⟩
    unfold greatest?
    rw [skipFree_append hskip]
    rfl
  -- a second number has to follow, which is not less than the first
  · rename_i hne
    obtain ⟨⟨n, after⟩, hcount, h⟩ := Option.bind_eq_some_iff.mp h
    split at h
    · rename_i heq
      obtain ⟨hle, h⟩ := Option.ite_none_right_eq_some.mp h
      cases heq
      cases h
      refine ⟨fun m hm => Option.some.inj hm ▸ hle, fun k => ?_⟩
      have hcount' := count?_append hcount (List.cons_ne_nil _ _) k
      cases hskip : skipFree free cs with
      | nil =>
        rw [hskip] at hcount
        cases hcount
      | cons c l =>
        rw [hskip] at hcount'
        unfold greatest?
        rw [skipFree_append hskip]
        split
        · rename_i heq
          exact absurd ((List.cons.inj heq).1 ▸ hskip) (hne l)
        · rw [← List.cons_append, hcount', Option.bind_some]
          exact if_pos hle
    · cases h

/-- How often something is repeated is in order, and ends with the brace. -/
theorem counted?_append {cs rest : List Char} {least : Nat} {most : Option Nat}
    (h : counted? free cs = some (least, most, rest)) :
    (∀ m ∈ most, least ≤ m) ∧ ∀ k, counted? free (cs ++ k) = some (least, most, rest ++ k) := by
  unfold counted? at h
  simp only [Option.bind_eq_bind, Option.bind_eq_some_iff] at h
  obtain ⟨⟨n, after⟩, hcount, h⟩ := h
  dsimp only at h
  have hstart : skipFree free cs ≠ [] := fun hnil => by
    rw [hnil] at hcount
    cases hcount
  have hafter : after ≠ [] := by
    rintro rfl
    cases h
  have hcount' : ∀ k, count? free (skipFree free (cs ++ k)) = some (n, after ++ k) := fun k => by
    rw [skipFree_append_of_ne hstart, count?_append hcount hafter]
  -- the brace is closed, or a comma stands before the second number
  split at h
  · cases h
    refine ⟨fun m hm => Nat.le_of_eq (Option.some.inj hm), fun k => ?_⟩
    unfold counted?
    rw [hcount']
    rfl
  · rename_i after'
    have hmost : greatest? free n after' = some (least, most, rest) := h
    obtain ⟨hordered, hgreatest⟩ := greatest?_append hmost
    refine ⟨hordered, fun k => ?_⟩
    unfold counted?
    rw [hcount']
    exact hgreatest k
  · cases h

end IncrementalParsing.Pattern
