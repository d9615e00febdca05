import IncrementalParsing.Grammar.TokenPattern
import IncrementalParsing.Proofs.Except
import Mathlib.Algebra.BigOperators.Group.List.Basic

/-!
# Texts as patterns

A token that is written as a string becomes the pattern of its escaped text.  Whatever the text is, this
is a pattern, and it stands for the text itself: so no text is refused but the empty one, and different
texts have different patterns.

## Key results

- `parse?_escaped`: the pattern of an escaped text
- `expression?_escaped`: what that pattern stands for
- `token_string`: the token of a string
- `escaped_injective`: different texts have different patterns
-/

namespace IncrementalParsing

open Pattern (Literal metaCharacters)

/-- The characters that a character is escaped to. -/
def Rule.escapedChar (c : Char) : List Char := if metaCharacters.contains c then ['\\', c] else [c]

theorem Rule.toList_escaped (s : String) : (Rule.escaped s).toList = s.toList.flatMap Rule.escapedChar := by
  rw [escaped, String.toList_join, List.flatMap_map]
  congr 1
  funext c
  unfold escapedChar
  split <;> simp

namespace Pattern

/-- The pattern of a character that stands for itself. -/
def ofChar (c : Char) : Pattern := .literal ⟨c, false⟩

/-! ## Reading an escaped text -/

/-- A character with a meaning of its own is escaped to stand for itself. -/
theorem escape?_meta {c : Char} (h : c ∈ metaCharacters) (rest : List Char) :
    escape? false (c :: rest) = some (.literal ⟨c, false⟩, rest) := by
  simp only [metaCharacters, List.mem_cons, List.not_mem_nil, or_false] at h
  rcases h with rfl | rfl | rfl | rfl | rfl | rfl | rfl | rfl | rfl | rfl | rfl | rfl | rfl | rfl |
    rfl | rfl | rfl | rfl <;> rfl

/-- One character of a text is read. -/
theorem body?_escapedChar (fuel : Nat) (branches parts : List Pattern) (c : Char) (rest : List Char)
    (captures : Nat) (names : List String) :
    body? (fuel + 1) branches parts ⟨Rule.escapedChar c ++ rest, false, captures, names⟩ =
      body? fuel branches (ofChar c :: parts) ⟨rest, false, captures, names⟩ := by
  unfold Rule.escapedChar
  split
  · rename_i hmeta
    have hescape := escape?_meta (List.contains_iff_mem.mp hmeta) rest
    rw [body?]
    simp only [skipFree, List.cons_append, List.nil_append, Bool.false_eq_true, if_false, hescape]
    rfl
  -- a character that stands for itself is read by none of the other cases
  · rename_i hplain
    have hne : ∀ d ∈ metaCharacters, c ≠ d := fun d hd heq =>
      hplain (List.contains_iff_mem.mpr (heq ▸ hd))
    simp only [metaCharacters, List.forall_mem_cons] at hne
    obtain ⟨h1, h2, h3, h4, h5, h6, h7, h8, h9, h10, h11, -, h13, h14, -⟩ := hne
    rw [body?]
    simp only [skipFree, List.cons_append, List.nil_append, Bool.false_eq_true, if_false]
    rfl

theorem body?_escaped (cs : List Char) (fuel : Nat) (parts : List Pattern) (captures : Nat)
    (names : List String) (h : cs.length < fuel) :
    body? fuel [] parts ⟨cs.flatMap Rule.escapedChar, false, captures, names⟩ =
      some (concatOf ((cs.map ofChar).reverse ++ parts), ⟨[], false, captures, names⟩) := by
  induction cs generalizing fuel parts with
  | nil =>
    obtain ⟨fuel, rfl⟩ := Nat.exists_eq_succ_of_ne_zero (Nat.ne_of_gt h)
    rfl
  | cons c rest ih =>
    obtain ⟨fuel, rfl⟩ := Nat.exists_eq_succ_of_ne_zero (Nat.ne_of_gt (Nat.zero_lt_of_lt h))
    -- one character is read in one round
    rw [List.flatMap_cons, body?_escapedChar, ih fuel (ofChar c :: parts) (Nat.lt_of_succ_lt_succ h),
      List.map_cons, List.reverse_cons, List.append_assoc]
    rfl

theorem depths_map_ofChar (cs : List Char) : depths (cs.map ofChar) = 0 := by
  induction cs with
  | nil => rfl
  | cons c rest ih => rw [List.map_cons, depths, ih]; rfl

theorem depth_concatOf (cs : List Char) : (concatOf (cs.map ofChar).reverse).depth ≤ 1 := by
  rw [← List.map_reverse]
  match cs.reverse with
  | [] => exact Nat.zero_le _
  | [c] => exact Nat.zero_le _
  | c :: c' :: rest =>
    have hdepths : depths ((c :: c' :: rest).map ofChar).reverse = 0 := by
      rw [← List.map_reverse, depths_map_ofChar]
    exact Nat.le_of_eq (congrArg (· + 1) hdepths)

/-- The pattern of an escaped text. -/
theorem parse?_escaped (s : String) :
    parse? (Rule.escaped s) = some (concatOf (s.toList.map ofChar).reverse) := by
  -- every character is written with one or two
  have hlength : s.toList.length ≤ (s.toList.flatMap Rule.escapedChar).length := by
    rw [List.length_flatMap]
    refine le_of_eq_of_le ?_ (List.length_le_sum_of_one_le _ fun n hn => ?_)
    · rw [List.length_map]
    · obtain ⟨c, -, rfl⟩ := List.mem_map.mp hn
      unfold Rule.escapedChar
      split <;> simp
  unfold parse?
  rw [Rule.toList_escaped]
  dsimp only
  rw [body?_escaped _ _ _ _ _ (Nat.lt_succ_of_le hlength), List.append_nil]
  have hdepth := depth_concatOf s.toList
  exact if_pos (Bool.and_eq_true_iff.mpr ⟨rfl, decide_eq_true (Nat.le_trans hdepth (by decide))⟩)

/-! ## What it stands for -/

theorem expressionsIn?_map_ofChar (cs : List Char) :
    expressionsIn? .standard (cs.map ofChar) = some (cs.map fun c => .literal [c], .standard) := by
  induction cs with
  | nil => rfl
  | cons c rest ih =>
    have hc : expressionIn? .standard (ofChar c) = some (.literal [c], .standard) := rfl
    rw [List.map_cons, expressionsIn?, hc]
    simp only [Option.bind_eq_bind, Option.bind_some, ih]
    rfl

theorem joinLiterals_map (c : Char) (cs : List Char) :
    Expression.joinLiterals ((c :: cs).map fun c => .literal [c]) = [.literal (c :: cs)] := by
  induction cs generalizing c with
  | nil => rfl
  | cons d rest ih =>
    rw [List.map_cons, Expression.joinLiterals.eq_def]
    dsimp only
    rw [ih d]
    rfl

theorem sequence_map (c : Char) (cs : List Char) :
    Expression.sequence ((c :: cs).map fun c => .literal [c]) = .literal (c :: cs) := by
  have hparts : ((c :: cs).map fun c => Expression.literal [c]).flatMap Expression.sequenceParts =
      (c :: cs).map fun c => .literal [c] := by
    rw [List.flatMap_map]
    exact List.flatMap_pure_eq_map _ _
  rw [Expression.sequence, hparts, joinLiterals_map]

/-- Several parts in a row. -/
theorem concatOf_reverse {ps : List Pattern} (h : 2 ≤ ps.length) : concatOf ps.reverse = .concat ps := by
  rw [← List.length_reverse] at h
  match hps : ps.reverse, h with
  | p :: q :: rest, _ =>
    show Pattern.concat (p :: q :: rest).reverse = _
    rw [← hps, List.reverse_reverse]

/-- The pattern of a text that is not empty stands for the text. -/
theorem expression?_concatOf {cs : List Char} (h : cs ≠ []) :
    expression? (concatOf (cs.map ofChar).reverse) = some (.literal cs) := by
  match cs, h with
  | [c], _ => rfl
  | c :: d :: rest, _ =>
    rw [concatOf_reverse (by simp), expression?, expressionIn?, expressionsIn?_map_ofChar]
    show some (Expression.sequence ((c :: d :: rest).map fun c => .literal [c])) = _
    rw [sequence_map]

/-- What the pattern of an escaped text stands for. -/
theorem expression?_escaped (s : String) :
    (parse? (Rule.escaped s)).bind expression? = some (if s = "" then .empty else .literal s.toList) := by
  rw [parse?_escaped, Option.bind_some]
  split
  · rename_i h
    rw [h]
    rfl
  · rename_i h
    exact expression?_concatOf fun hnil => h (String.toList_eq_nil_iff.mp hnil)

end Pattern

/-- Different texts have different patterns. -/
theorem Rule.escaped_injective {s t : String} (h : Rule.escaped s = Rule.escaped t) : s = t := by
  have hs := Pattern.expression?_escaped s
  rw [h, Pattern.expression?_escaped t, Option.some.injEq] at hs
  split at hs <;> split at hs
  · simp_all
  · cases hs
  · cases hs
  · exact (String.toList_inj.mp (Expression.literal.inj hs)).symm

namespace Grammar

/-- A text that is not empty is no empty token. -/
theorem checkPattern_escaped (owner : String) {s : String} (h : s ≠ "") :
    checkPattern owner (Rule.escaped s) = .ok () := by
  unfold checkPattern
  rw [Pattern.expression?_escaped, if_neg h]
  refine if_neg fun hzero => ?_
  have hsize : Expression.textSize s.toList = 0 := Option.some.inj (beq_iff_eq.mp hzero)
  -- a text that is not empty has a first character, of one byte at least
  match hs : s.toList with
  | [] => exact h (String.toList_eq_nil_iff.mp hs)
  | c :: rest =>
    rw [hs, Expression.textSize, sumOf_cons] at hsize
    have hpos : 0 < Expression.codeSize c.toNat := by
      unfold Expression.codeSize
      split_ifs <;> decide
    omega

/-- The token of a string. -/
theorem token_string (g : Grammar) (owner : String) {s : String} (h : s ≠ "") :
    g.token owner (.string s) = .ok ⟨Rule.escaped s, true, false, 0⟩ := by
  have hpattern : g.tokenPattern owner (g.rules.length + 1) [] (.string s) = .ok (Rule.escaped s) := rfl
  unfold token
  simp only [lexicalPrecedence, tokenBody, Except.bind_eq_ok, Except.pure_eq_ok]
  refine ⟨_, rfl, _, rfl, _, hpattern, (), checkPattern_escaped owner h, ?_⟩
  rfl

end Grammar

end IncrementalParsing
