import IncrementalParsing.Proofs.Grammar.Numbering

/-!
# The language of a flattened grammar

A grammar and its flat form have the same sentences.  Rules are expanded one after the other: what
one of them is expanded to is kept while the others are, and a rule that waits gets its productions in
its turn, so that in the end every rule that is numbered has just the productions of its rows.

## Key results

- `Flatten.expanded_expand`: the alternatives of a rule are its rows
- `Flatten.settled_addAll`: every rule has just the productions of its rows
- `Grammar.sentences_flatten`: the sentences of the start symbol are those of the start rule
-/

namespace IncrementalParsing

namespace Alternative

/-- The symbols of an alternative. -/
def row (a : Alternative) : List Nat := a.parts.map (·.1)

/-- The production of an alternative. -/
def production (lhs : Nat) (a : Alternative) : FlatProduction := ⟨lhs, a.parts, a.binding⟩

/-- The rows of alternatives. -/
def rows (as : List Alternative) : Set (List Nat) := {row | ∃ a ∈ as, a.row = row}

/-- The rows of two alternatives stand one after the other. -/
theorem row_append (a b : Alternative) : (a.append b).row = a.row ++ b.row := List.map_append

/-- A field does not change the row, -/
theorem row_withField (field : Nat) (a : Alternative) : (a.withField field).row = a.row := by
  simp [row, withField, Function.comp_def]

/-- and neither does a binding. -/
theorem row_withBinding (binding : Binding) (a : Alternative) :
    (a.withBinding binding).row = a.row := rfl

/-- An alternative without parts has the empty row. -/
theorem row_eq_nil {a : Alternative} : a.row = [] ↔ a.parts.isEmpty = true := by
  simp [row]

/-- What a repetition keeps of its content. -/
theorem mem_body {a : Alternative} {content : List Alternative} :
    (a ∈ content.filter fun a => !a.parts.isEmpty) ↔ a ∈ content ∧ a.row ≠ [] := by
  rw [List.mem_filter, ne_eq, row_eq_nil, Bool.not_eq_true, Bool.not_eq_true']

/-- The rows of the empty alternative. -/
@[simp] theorem rows_empty : rows [empty] = {[]} := by
  ext row
  simp [rows, empty, Alternative.row, eq_comm]

/-- The rows of a single symbol. -/
@[simp] theorem rows_single (i : Nat) : rows [single i] = {[i]} := by
  ext row
  simp [rows, single, Alternative.row, eq_comm]

/-- Without alternatives there are no rows. -/
@[simp] theorem rows_nil : rows [] = ∅ := by
  ext row
  simp [rows]

/-- Alternatives listed together have their rows together. -/
@[simp] theorem rows_append (as bs : List Alternative) : rows (as ++ bs) = rows as ∪ rows bs := by
  ext row
  simp [rows, or_and_right, exists_or]

/-- What keeps the row of each alternative keeps the rows. -/
theorem rows_map {f : Alternative → Alternative} (hf : ∀ a, (f a).row = a.row)
    (as : List Alternative) : rows (as.map f) = rows as := by
  ext row
  simp [rows, hf]

/-- Every alternative after every other. -/
theorem rows_flatMap (heads tails : List Alternative) :
    rows (heads.flatMap fun a => tails.map a.append) =
      Set.image2 (· ++ ·) (rows heads) (rows tails) := by
  -- every head is put before every tail
  ext row
  constructor
  · rintro ⟨_, hmem, rfl⟩
    obtain ⟨a, ha, hmem⟩ := List.mem_flatMap.mp hmem
    obtain ⟨b, hb, rfl⟩ := List.mem_map.mp hmem
    rw [row_append]
    exact Set.mem_image2_of_mem ⟨a, ha, rfl⟩ ⟨b, hb, rfl⟩
  · rintro ⟨_, ⟨a, ha, rfl⟩, _, ⟨b, hb, rfl⟩, rfl⟩
    exact ⟨a.append b, List.mem_flatMap.mpr ⟨a, ha, List.mem_map_of_mem hb⟩, row_append a b⟩

/-- Alternatives that occur twice are not missed. -/
theorem rows_distinct (as : List Alternative) : rows (distinct as) = rows as := by
  ext row
  simp [rows, Flatten.mem_distinct]

end Alternative

namespace Flattening

variable {g : Grammar} {start : String} {s s' : Flattening}

/-- Rows stay what they are where the symbols do, and the productions of what has any. -/
theorem Expanded.keeps {rule : Rule} {R : Set (List Nat)} (h : Expanded g s rule R)
    (hrules : ∀ name i, s.rules.lookup name = some i → s'.rules.lookup name = some i)
    (hanonymous : ∀ key i, s.anonymous.lookup key = some i → s'.anonymous.lookup key = some i)
    (hrows : ∀ i row, s.HasRow i row → s'.isTerminal i = s.isTerminal i ∧
      ∀ row, s'.HasRow i row ↔ s.HasRow i row) : Expanded g s' rule R := by
  induction h with
  | blank => exact .blank
  | token hrule htoken hi => exact .token hrule htoken (hanonymous _ _ hi)
  | symbol hi => exact .symbol (hrules _ _ hi)
  | seqNil => exact .seqNil
  | seqCons _ _ ih ihrest => exact .seqCons ih ihrest
  | choiceNil => exact .choiceNil
  | choiceCons _ _ ih ihrest => exact .choiceCons ih ihrest
  | zeroOrMore _ ih => exact .zeroOrMore ih
  -- only the rows of lists have to be kept, since other rows name no symbols that were added
  | oneOrMore _ hrepeats ih =>
    cases hrepeats with
    | nothing hnone => exact .oneOrMore ih (.nothing hnone)
    | @list i a ha hne hterminal hlist =>
      obtain ⟨hsame, hkept⟩ := hrows i a ((hlist a).mpr ⟨a, ha, hne, .inl rfl⟩)
      exact .oneOrMore ih (.list ha hne (hsame.trans hterminal) fun row =>
        (hkept row).trans (hlist row))
  | field _ ih => exact .field ih
  | prec _ ih => exact .prec ih
  | precDynamic _ ih => exact .precDynamic ih
  | reserved _ ih => exact .reserved ih

/-- What a rule is expanded to stays so when more is added. -/
theorem Expanded.extends {rule : Rule} {R : Set (List Nat)} (h : Expanded g s rule R)
    (hs : s.Keyed g start) (hext : Extends g start s s') : Expanded g s' rule R :=
  h.keeps hext.grows.rules hext.anonymous fun i _ hrow =>
    have hlt := hs.lt_of_hasRow hrow
    ⟨hext.grows.terminal i hlt, hext.rows i hlt⟩

end Flattening

namespace Flatten

open Flattening StateT
open IncrementalParsing.Alternative

variable {g : Grammar} {start owner : String} {s s' : Flattening}

/-! ## Repetitions -/

/-- Going over alternatives adds the productions of each. -/
theorem forIn_run_productions {f : Alternative → Flatten (ForInStep PUnit)}
    (qs : Alternative → List FlatProduction) {as : List Alternative} {u : PUnit}
    (hstep : ∀ a s r s', (f a).run s = .ok (r, s') → r = .yield PUnit.unit ∧
      s' = { s with productions := s.productions ++ (qs a).toArray })
    (h : (forIn as PUnit.unit fun a _ => f a).run s = .ok (u, s')) :
    s' = { s with productions := s.productions ++ (as.flatMap qs).toArray } := by
  -- the induction is on the alternatives, whose productions are added one by one
  induction as generalizing s with
  | nil =>
    rw [List.forIn_nil, pure_run_ok] at h
    simp [h.2]
  | cons a rest ih =>
    rw [List.forIn_cons, bind_run_ok] at h
    obtain ⟨r, s₁, ha, hrest⟩ := h
    obtain ⟨rfl, rfl⟩ := hstep a s r s₁ ha
    rw [ih hrest]
    simp [Array.append_assoc]

/-- `repetitionSymbol` adds a rule with the next number. -/
theorem repetitionSymbol_cases {i : Nat} (h : (repetitionSymbol owner).run s = .ok (i, s')) :
    i = s.symbols.size ∧ ∃ info repetitions, info.terminal = false ∧
      s' = { s with symbols := s.symbols.push info, repetitions := repetitions } := by
  unfold repetitionSymbol at h
  simp only [bind_run_ok, get_run_ok, modify_run_ok, addSymbol_run_ok] at h
  obtain ⟨_, _, ⟨rfl, rfl⟩, _, _, rfl, -, rfl, rfl⟩ := h
  exact ⟨rfl, _, _, rfl, rfl⟩

/-- `addProduction` adds nothing else. -/
theorem addProduction_run_ok {lhs : Nat} {a : Alternative} {u : Unit} :
    (addProduction lhs a).run s = .ok (u, s') ↔
      s' = { s with productions := s.productions.push (a.production lhs) } := by
  unfold addProduction
  rw [modify_run_ok]
  exact eq_comm

/-- A repetition is expanded to a list of its content. -/
theorem repeats_repetition {content alternatives : List Alternative} (hs : s.Keyed g start)
    (hcontent : ∀ a ∈ content, s.Holds a.parts)
    (h : (repetition owner content).run s = .ok (alternatives, s')) :
    s'.Keyed g start ∧ Extends g start s s' ∧ s'.Repeats (rows content) (rows alternatives) := by
  obtain ⟨hsound, hgrows, -⟩ := sound_repetition hs.sound hcontent h
  unfold repetition at h
  dsimp only at h
  split at h
  · rename_i hempty
    obtain ⟨rfl, rfl⟩ := pure_run_ok.mp h
    rw [rows_empty]
    refine ⟨hs, .refl _, .nothing ?_⟩
    rintro _ ⟨a, ha, rfl⟩
    by_contra hne
    have hmem := mem_body.mpr ⟨ha, hne⟩
    rw [List.isEmpty_iff.mp hempty] at hmem
    cases hmem
  · rename_i hbody
    simp only [bind_run_ok, pure_run_ok] at h
    obtain ⟨list, s₁, hlist, _, s₂, hloop, rfl, rfl⟩ := h
    obtain ⟨rfl, info, repetitions, hterminal, rfl⟩ := repetitionSymbol_cases hlist
    -- each alternative is added after the list, and alone
    have hs₂ := forIn_run_productions (fun a =>
      [((single s.symbols.size).append a).production s.symbols.size,
        a.production s.symbols.size]) (fun a r y r' hstep => by
      simp only [bind_run_ok, pure_run_ok] at hstep
      obtain ⟨_, _, hfirst, _, _, hsecond, rfl, rfl⟩ := hstep
      cases addProduction_run_ok.mp hfirst
      cases addProduction_run_ok.mp hsecond
      exact ⟨rfl, by simp [← Array.toList_inj]⟩) hloop
    obtain ⟨hkeyed, hext, hrows⟩ := keyed_addList hs hs₂ hsound hgrows fun q hq => by
      obtain ⟨a, -, hq⟩ := List.mem_flatMap.mp hq
      obtain rfl | hq := List.mem_cons.mp hq
      · rfl
      · rw [List.mem_singleton.mp hq]
        rfl
    refine ⟨hkeyed, hext, ?_⟩
    rw [rows_single]
    obtain ⟨a, ha⟩ := List.exists_mem_of_ne_nil _ fun hnil => hbody (List.isEmpty_iff.mpr hnil)
    obtain ⟨ha, hne⟩ := mem_body.mp ha
    -- the list has each alternative that is not empty, alone and behind itself
    refine .list ⟨a, ha, rfl⟩ hne ?_ fun row => ?_
    · rw [hs₂]
      simp [isTerminal, hterminal]
    · rw [hrows]
      constructor
      · rintro ⟨q, hq, rfl⟩
        obtain ⟨a, ha, hq⟩ := List.mem_flatMap.mp hq
        obtain ⟨ha, hne⟩ := mem_body.mp ha
        refine ⟨a.row, ⟨a, ha, rfl⟩, hne, ?_⟩
        obtain rfl | hq := List.mem_cons.mp hq
        · exact .inr rfl
        · rw [List.mem_singleton.mp hq]
          exact .inl rfl
      · rintro ⟨_, ⟨a, ha, rfl⟩, hne, rfl | rfl⟩
        · exact ⟨_, List.mem_flatMap.mpr ⟨a, mem_body.mpr ⟨ha, hne⟩,
            List.mem_cons_of_mem _ (List.mem_singleton_self _)⟩, rfl⟩
        · exact ⟨_, List.mem_flatMap.mpr ⟨a, mem_body.mpr ⟨ha, hne⟩, List.mem_cons_self ..⟩, rfl⟩

/-! ## Rules -/

/-- A token without a rule is expanded to its symbol. -/
theorem expanded_token {rule : Rule} {alternatives : List Alternative} (hrule : rule.isToken = true)
    (hs : s.Keyed g start) (h : ((do return [.single (← anonymousToken g owner rule)]) :
      Flatten (List Alternative)).run s = .ok (alternatives, s')) :
    s'.Keyed g start ∧ Extends g start s s' ∧ Expanded g s' rule (rows alternatives) := by
  simp only [bind_run_ok, pure_run_ok] at h
  obtain ⟨i, s₁, hi, rfl, rfl⟩ := h
  obtain ⟨hs₁, hext, token, htoken, hlookup⟩ := keyed_anonymousToken hs hi
  rw [rows_single]
  exact ⟨hs₁, hext, .token hrule htoken hlookup⟩

mutual

/-- The alternatives of a rule are its rows. -/
theorem expanded_expand (g : Grammar) (start owner : String) :
    ∀ (rule : Rule) (s : Flattening) (alternatives : List Alternative) (s' : Flattening),
      s.Keyed g start → (expand g start owner rule).run s = .ok (alternatives, s') →
      s'.Keyed g start ∧ Extends g start s s' ∧ Expanded g s' rule (rows alternatives)
  | .blank, s, alternatives, s', hs, h => by
    rw [expand, pure_run_ok] at h
    obtain ⟨rfl, rfl⟩ := h
    rw [rows_empty]
    exact ⟨hs, .refl _, .blank⟩
  | .string value, s, alternatives, s', hs, h => by
    rw [expand] at h
    exact expanded_token rfl hs h
  | .pattern value flags, s, alternatives, s', hs, h => by
    rw [expand] at h
    exact expanded_token rfl hs h
  | .token content, s, alternatives, s', hs, h => by
    rw [expand] at h
    exact expanded_token rfl hs h
  | .immediateToken content, s, alternatives, s', hs, h => by
    rw [expand] at h
    exact expanded_token rfl hs h
  | .symbol name, s, alternatives, s', hs, h => by
    rw [expand] at h
    simp only [bind_run_ok, pure_run_ok] at h
    obtain ⟨i, s₁, hi, rfl, rfl⟩ := h
    obtain ⟨hs₁, hext, hlookup⟩ := keyed_ruleSymbol hs hi
    rw [rows_single]
    exact ⟨hs₁, hext, .symbol hlookup⟩
  | .seq members, s, alternatives, s', hs, h => by
    rw [expand] at h
    obtain ⟨hs', hext, B, hB, hrows⟩ := expanded_expandSeq g start owner members s [.empty]
      alternatives s' hs h
    simp only [hrows, rows_empty, Set.image2_singleton_left, List.nil_append, Set.image_id']
    exact ⟨hs', hext, hB⟩
  | .choice members, s, alternatives, s', hs, h => by
    rw [expand] at h
    simp only [bind_run_ok, pure_run_ok] at h
    obtain ⟨as, s₁, has, _, s₂, hcount, rfl, rfl⟩ := h
    obtain rfl := checkCount_run_ok hcount
    rw [rows_distinct]
    exact expanded_expandChoice g start owner members s as s₁ hs has
  | .zeroOrMore content, s, alternatives, s', hs, h => by
    rw [expand] at h
    simp only [bind_run_ok, pure_run_ok] at h
    obtain ⟨as, s₁, has, bs, s₂, hbs, rfl, rfl⟩ := h
    obtain ⟨hs₁, hext₁, hexpanded⟩ := expanded_expand g start owner content s as s₁ hs has
    obtain ⟨-, -, hall⟩ := expands_expand g start owner content s as s₁ hs.sound has
    obtain ⟨hs₂, hext₂, hrepeats⟩ := repeats_repetition hs₁ hall hbs
    refine ⟨hs₂, hext₁.trans hext₂, ?_⟩
    -- the empty alternative is added where there is none
    have hrows : rows (if bs.contains .empty then bs else bs ++ [.empty]) = rows bs ∪ {[]} := by
      split
      · rename_i hmem
        refine (Set.union_eq_self_of_subset_right ?_).symm
        exact Set.singleton_subset_iff.mpr ⟨.empty, by simpa using hmem, rfl⟩
      · rw [rows_append, rows_empty]
    rw [hrows]
    exact .zeroOrMore (.oneOrMore (hexpanded.extends hs₁ hext₂) hrepeats)
  | .oneOrMore content, s, alternatives, s', hs, h => by
    rw [expand] at h
    simp only [bind_run_ok] at h
    obtain ⟨as, s₁, has, h⟩ := h
    obtain ⟨hs₁, hext₁, hexpanded⟩ := expanded_expand g start owner content s as s₁ hs has
    obtain ⟨-, -, hall⟩ := expands_expand g start owner content s as s₁ hs.sound has
    obtain ⟨hs₂, hext₂, hrepeats⟩ := repeats_repetition hs₁ hall h
    exact ⟨hs₂, hext₁.trans hext₂, .oneOrMore (hexpanded.extends hs₁ hext₂) hrepeats⟩
  | .field name content, s, alternatives, s', hs, h => by
    rw [expand] at h
    simp only [bind_run_ok, pure_run_ok] at h
    obtain ⟨i, s₁, hi, as, s₂, has, rfl, rfl⟩ := h
    obtain ⟨hs₁, hext₁⟩ := keyed_field hs hi
    obtain ⟨hs₂, hext₂, hexpanded⟩ := expanded_expand g start owner content s₁ as s₂ hs₁ has
    rw [rows_map (row_withField i)]
    exact ⟨hs₂, hext₁.trans hext₂, .field hexpanded⟩
  | .alias .., s, alternatives, s', hs, h => by
    rw [expand, throw_run_ok] at h
    exact h.elim
  | .prec assoc value content, s, alternatives, s', hs, h => by
    rw [expand] at h
    simp only [bind_run_ok, pure_run_ok] at h
    obtain ⟨n, s₁, hn, as, s₂, has, rfl, rfl⟩ := h
    obtain ⟨-, rfl⟩ := lift_run_ok.mp hn
    obtain ⟨hs₂, hext, hexpanded⟩ := expanded_expand g start owner content s as s₂ hs has
    rw [rows_map (row_withBinding _)]
    exact ⟨hs₂, hext, .prec hexpanded⟩
  | .precDynamic _ content, s, alternatives, s', hs, h => by
    rw [expand] at h
    obtain ⟨hs', hext, hexpanded⟩ := expanded_expand g start owner content s alternatives s' hs h
    exact ⟨hs', hext, .precDynamic hexpanded⟩
  | .reserved _ content, s, alternatives, s', hs, h => by
    rw [expand] at h
    obtain ⟨hs', hext, hexpanded⟩ := expanded_expand g start owner content s alternatives s' hs h
    exact ⟨hs', hext, .reserved hexpanded⟩

/-- The alternatives of a sequence follow those of what precedes it. -/
theorem expanded_expandSeq (g : Grammar) (start owner : String) :
    ∀ (members : List Rule) (s : Flattening) (heads alternatives : List Alternative)
      (s' : Flattening), s.Keyed g start →
      (expandSeq g start owner heads members).run s = .ok (alternatives, s') →
      s'.Keyed g start ∧ Extends g start s s' ∧ ∃ B, Expanded g s' (.seq members) B ∧
        rows alternatives = Set.image2 (· ++ ·) (rows heads) B
  | [], s, heads, alternatives, s', hs, h => by
    rw [expandSeq, pure_run_ok] at h
    obtain ⟨rfl, rfl⟩ := h
    exact ⟨hs, .refl _, {[]}, .seqNil, by simp⟩
  | r :: rest, s, heads, alternatives, s', hs, h => by
    rw [expandSeq] at h
    simp only [bind_run_ok] at h
    obtain ⟨tails, s₁, htails, _, s₂, hcount, h⟩ := h
    obtain rfl := checkCount_run_ok hcount
    obtain ⟨hs₁, hext₁, hexpanded⟩ := expanded_expand g start owner r s tails s₁ hs htails
    obtain ⟨hs₂, hext₂, B, hB, hrows⟩ := expanded_expandSeq g start owner rest s₁ _ alternatives s'
      hs₁ h
    refine ⟨hs₂, hext₁.trans hext₂, _, .seqCons (hexpanded.extends hs₁ hext₂) hB, ?_⟩
    -- the heads are put in front of what `r` gives, and both in front of the rest
    rw [hrows, rows_flatMap]
    exact Set.image2_assoc List.append_assoc

/-- The alternatives of all members are the rows of the choice. -/
theorem expanded_expandChoice (g : Grammar) (start owner : String) :
    ∀ (members : List Rule) (s : Flattening) (alternatives : List Alternative) (s' : Flattening),
      s.Keyed g start → (expandChoice g start owner members).run s = .ok (alternatives, s') →
      s'.Keyed g start ∧ Extends g start s s' ∧ Expanded g s' (.choice members) (rows alternatives)
  | [], s, alternatives, s', hs, h => by
    rw [expandChoice, pure_run_ok] at h
    obtain ⟨rfl, rfl⟩ := h
    rw [rows_nil]
    exact ⟨hs, .refl _, .choiceNil⟩
  | r :: rest, s, alternatives, s', hs, h => by
    rw [expandChoice] at h
    simp only [bind_run_ok, pure_run_ok] at h
    obtain ⟨as, s₁, has, bs, s₂, hbs, rfl, rfl⟩ := h
    obtain ⟨hs₁, hext₁, hfirst⟩ := expanded_expand g start owner r s as s₁ hs has
    -- what the first branch stands for stays as it is while the others are expanded
    obtain ⟨hs₂, hext₂, hrest⟩ := expanded_expandChoice g start owner rest s₁ bs s₂ hs₁ hbs
    rw [rows_append]
    exact ⟨hs₂, hext₁.trans hext₂, .choiceCons (hfirst.extends hs₁ hext₂) hrest⟩

end

/-! ## Productions of rules -/

/-- A rule that no longer waits is not among those that do. -/
theorem keyed_next {name : String} {rest : List String} (hs : s.Keyed g start)
    (hpending : s.pending = name :: rest) :
    Keyed g start { s with pending := rest } ∧ name ∉ rest := by
  -- the names that wait are fewer, so nothing more is asked
  have hsub : rest ⊆ s.pending := hpending ▸ List.subset_cons_self name rest
  have hnodup := hs.nodup
  rw [hpending, List.nodup_cons] at hnodup
  have hsound : Sound { s with pending := rest } :=
    ⟨hs.sound.symbols_le, hs.sound.fields_le, hs.sound.proper, hs.sound.nodup, hs.sound.builtIn,
      hs.sound.rules, hs.sound.anonymous, fun other ho => hs.sound.pending other (hsub ho),
      hs.sound.lhs, hs.sound.parts⟩
  exact ⟨⟨hsound, hs.injective, hs.anonymous, hs.rules, hs.lexical, hs.structured, hnodup.2,
    fun other ho => hs.waiting other (hsub ho)⟩, hnodup.1⟩

/-- A rule that has no productions is given those of its alternatives. -/
theorem keyed_addProductions {name : String} {i : Nat} {as : List Alternative}
    (hs : s.Keyed g start)
    (hs' : s' = { s with
      productions := s.productions ++ (as.flatMap fun a => [a.production i]).toArray })
    (hsound : s'.Sound) (hi : s.rules.lookup name = some i) (hnew : name ∉ s.pending) :
    s'.Keyed g start ∧ ∀ j row, s'.HasRow j row ↔ s.HasRow j row ∨ (j = i ∧ row ∈ rows as) := by
  -- the rows that are new are those of `as`, and all of them belong to `i`
  have hrow : ∀ j row, s'.HasRow j row ↔ s.HasRow j row ∨ (j = i ∧ row ∈ rows as) :=
      fun j row => by
    subst hs'
    unfold HasRow
    simp only [Array.mem_append, List.mem_toArray, or_and_right, exists_or]
    refine or_congr Iff.rfl ⟨?_, ?_⟩
    · rintro ⟨q, hq, rfl, rfl⟩
      obtain ⟨a, ha, hq⟩ := List.mem_flatMap.mp hq
      rw [List.mem_singleton.mp hq]
      exact ⟨rfl, a, ha, rfl⟩
    · rintro ⟨rfl, a, ha, rfl⟩
      exact ⟨a.production j, List.mem_flatMap.mpr ⟨a, ha, List.mem_singleton_self _⟩, rfl, rfl⟩
  refine ⟨?_, hrow⟩
  subst hs'
  refine ⟨hsound, hs.injective, hs.anonymous, hs.rules, hs.lexical, hs.structured, hs.nodup,
    fun other ho => ?_⟩
  obtain ⟨hkind, j, hj, hnone⟩ := hs.waiting other ho
  refine ⟨hkind, j, hj, fun row hrow' => ?_⟩
  obtain hrow' | ⟨rfl, -⟩ := (hrow j row).mp hrow'
  · exact hnone row hrow'
  -- a name that waits has another number, since `name` no longer waits
  · cases hs.injective (.rule other) (.rule name) j hj hi
    exact hnew ho

end Flatten

namespace Flattening

variable {g : Grammar} {start : String} {s s' : Flattening}

/-- Every rule waits, or has just the productions of its rows. -/
def Settled (g : Grammar) (start : String) (s : Flattening) : Prop :=
  ∀ name i rule, s.rules.lookup name = some i → g.isTokenRule start name = false →
    g.rule? name = some rule → name ∈ s.pending ∨
      ∃ R, Expanded g s rule R ∧ ∀ row, s.HasRow i row ↔ row ∈ R

/-- Rules that are settled stay so when more is added. -/
theorem Settled.extends (h : s.Settled g start) (hs : s.Keyed g start)
    (hext : Extends g start s s') : s'.Settled g start := by
  intro name i rule hi hname hrule
  obtain hi | ⟨-, hwaits⟩ := hext.fresh name i hi
  · obtain hwaits | ⟨R, hR, hrows⟩ := h name i rule hi hname hrule
    · exact .inl (hext.pending hwaits)
    · exact .inr ⟨R, hR.extends hs hext, fun row =>
        (hext.rows i (hs.sound.rules name i hi).2 row).trans (hrows row)⟩
  · exact .inl (hwaits hname)

end Flattening

namespace Flatten

open Flattening StateT
open IncrementalParsing.Alternative

variable {g : Grammar} {start owner : String} {s s' : Flattening}

/-- The rule whose turn it is gets its productions. -/
theorem settled_addRule {name : String} {rest : List String} {u : Unit} (hs : s.Keyed g start)
    (hsettled : s.Settled g start) (hpending : s.pending = name :: rest)
    (h : (addRule g start name).run { s with pending := rest } = .ok (u, s')) :
    s'.Keyed g start ∧ s'.Settled g start ∧
      s'.pending.length + (unmet g s').length < s.pending.length + (unmet g s).length := by
  obtain ⟨hs₁, hnew⟩ := keyed_next hs hpending
  obtain ⟨hname, i, hi, hnone⟩ := hs.waiting name (hpending ▸ List.mem_cons_self ..)
  obtain ⟨rule, hrule⟩ := hs.rules name i hi
  have hrulei : NamesRule { s with pending := rest } i :=
    ⟨hs.sound.rules name i hi, hs.structured name i hi hname⟩
  obtain ⟨hsound, -⟩ := sound_addRule hs₁.sound ⟨i, hi, hrulei⟩ h
  unfold addRule at h
  simp only [bind_run_ok, get_run_ok] at h
  obtain ⟨_, _, ⟨rfl, rfl⟩, h⟩ := h
  simp only [hrule, hi, bind_run_ok, pure_run_ok] at h
  obtain ⟨as, s₂, has, _, s₃, hloop, -, rfl⟩ := h
  obtain ⟨hs₂, hext, hexpanded⟩ := expanded_expand g start name rule _ as s₂ hs₁ has
  -- the alternatives are added in order, and nothing else is changed
  have hs' := forIn_run_productions (fun a => [a.production i]) (fun a r y r' hstep => by
    simp only [guard_run_ok, bind_run_ok, pure_run_ok] at hstep
    obtain ⟨-, _, _, hadd, rfl, rfl⟩ := hstep
    cases addProduction_run_ok.mp hadd
    exact ⟨rfl, by simp⟩) hloop
  -- the rule has its number already, so nothing in it makes it wait again
  have hdone : name ∉ s₂.pending := fun hmem => by
    obtain hmem | hmem := hext.waits name hmem
    · exact hnew hmem
    · rw [hi] at hmem
      cases hmem
  have hi₂ := hext.grows.rules name i hi
  obtain ⟨hs₃, hrows⟩ := keyed_addProductions hs₂ hs' hsound hi₂ hdone
  -- while it is expanded it has no rows
  have hnone₂ : ∀ row, ¬s₂.HasRow i row := fun row hrow =>
    hnone row ((hext.rows i (hs.sound.rules name i hi).2 row).mp hrow)
  have hkept : ∀ {r : Rule} {R : Set (List Nat)}, Expanded g s₂ r R → Expanded g s₃ r R :=
    fun hR => by
      refine hR.keeps (fun _ _ hj => ?_) (fun _ _ hj => ?_) fun j row hrow => ⟨?_, fun row' => ?_⟩
      · rwa [hs']
      · rwa [hs']
      · rw [hs']
        rfl
      · rw [hrows]
        exact or_iff_left fun h => hnone₂ row (h.1 ▸ hrow)
  refine ⟨hs₃, fun other j rule' hj hother hrule' => ?_, ?_⟩
  · replace hj : s₂.rules.lookup other = some j := by rwa [hs'] at hj
    by_cases heq : other = name
    · subst heq
      cases hrule'.symm.trans hrule
      cases hj.symm.trans hi₂
      refine .inr ⟨_, hkept hexpanded, fun row => ?_⟩
      rw [hrows, or_iff_right (hnone₂ row), and_iff_right rfl]
    · -- the other rules keep what they have
      have hne : j ≠ i := by
        rintro rfl
        cases hs₂.injective (.rule other) (.rule name) j hj hi₂
        exact heq rfl
      have hpending' : s₃.pending = s₂.pending := by rw [hs']
      rw [hpending']
      obtain hj | ⟨-, hwaits⟩ := hext.fresh other j hj
      · obtain hwaits | ⟨R, hR, hold⟩ := hsettled other j rule' hj hother hrule'
        · rw [hpending] at hwaits
          exact .inl (hext.pending ((List.mem_cons.mp hwaits).resolve_left heq))
        · have hR₁ : Expanded g { s with pending := rest } rule' R :=
            hR.keeps (fun _ _ h => h) (fun _ _ h => h) fun _ _ _ => ⟨rfl, fun _ => Iff.rfl⟩
          refine .inr ⟨R, hkept (hR₁.extends hs₁ hext), fun row => ?_⟩
          rw [hrows, or_iff_left fun h => hne h.1]
          exact (hext.rows j (hs.sound.rules other j hj).2 row).trans (hold row)
      · exact .inl (hwaits hother)
  -- one name less waits, and names that have come to wait have been met
  · have hload := hext.load
    have hsame : s₃.pending.length + (unmet g s₃).length =
        s₂.pending.length + (unmet g s₂).length := by
      rw [hs']
      rfl
    rw [hpending, List.length_cons]
    have hunmet : unmet g { s with pending := rest } = unmet g s := rfl
    rw [hunmet] at hload
    dsimp only at hload
    omega

/-- All rules that wait get their productions. -/
theorem settled_addPending {fuel : Nat} {u : Unit} (hs : s.Keyed g start)
    (hsettled : s.Settled g start) (hload : s.pending.length + (unmet g s).length < fuel)
    (h : (addPending g start fuel).run s = .ok (u, s')) :
    s'.Keyed g start ∧ s'.Settled g start ∧ s'.pending = [] := by
  -- on the fuel, which is more than what waits and what has not been met
  induction fuel generalizing s with
  | zero => cases hload
  | succ fuel ih =>
    rw [addPending] at h
    simp only [bind_run_ok, get_run_ok] at h
    obtain ⟨_, _, ⟨rfl, rfl⟩, h⟩ := h
    split at h
    · rename_i hpending
      obtain ⟨-, rfl⟩ := pure_run_ok.mp h
      exact ⟨hs, hsettled, hpending⟩
    · rename_i name rest hpending
      simp only [bind_run_ok, modify_run_ok] at h
      obtain ⟨_, s₁, rfl, _, s₂, hrule, h⟩ := h
      obtain ⟨hs₂, hsettled₂, hless⟩ := settled_addRule hs hsettled hpending hrule
      exact ih hs₂ hsettled₂ (by omega) h

/-- Marking an extra keeps the numbers of rules and tokens. -/
theorem keyed_markExtra {symbol : Nat} {hide : Bool} {u : Unit} (hs : s.Keyed g start)
    (hn : s.Names symbol) (h : (markExtra symbol hide).run s = .ok (u, s')) :
    s'.Keyed g start ∧ Extends g start s s' := by
  obtain ⟨hsound, hgrows⟩ := sound_markExtra hs.sound hn h
  unfold markExtra at h
  rw [modify_run_ok] at h
  subst h
  refine ⟨⟨hsound, hs.injective, fun key i hi => (hs.anonymous key i hi).modify symbol fun _ => rfl,
    hs.rules, fun name i hi hname => ?_, fun name i hi hname => ?_, hs.nodup, hs.waiting⟩,
    hgrows, fun _ _ hi => hi, fun _ _ _ => Iff.rfl, fun _ hn => hn, fun _ hn => .inl hn,
    fun _ _ hi => .inl hi, Nat.le_refl _⟩
  · obtain ⟨rule, token, hrule, htoken, hat⟩ := hs.lexical name i hi hname
    exact ⟨rule, token, hrule, htoken, hat.modify symbol fun _ => rfl⟩
  -- a mark changes no symbol from a rule to a token
  · exact (hgrows.terminal i (hs.sound.rules name i hi).2).trans (hs.structured name i hi hname)

/-- A token that may stand anywhere is numbered like any other. -/
theorem keyed_addExtra {rule : Rule} {u : Unit} (hs : s.Keyed g start)
    (h : (addExtra g start rule).run s = .ok (u, s')) :
    s'.Keyed g start ∧ Extends g start s s' := by
  unfold addExtra at h
  split at h
  · simp only [bind_run_ok, get_run_ok] at h
    obtain ⟨symbol, s₁, hsymbol, _, _, ⟨rfl, rfl⟩, h⟩ := h
    obtain ⟨hs₁, hext₁, hlookup⟩ := keyed_ruleSymbol hs hsymbol
    split at h
    · obtain ⟨hs₂, hext₂⟩ := keyed_markExtra hs₁ (hs₁.sound.rules _ _ hlookup) h
      exact ⟨hs₂, hext₁.trans hext₂⟩
    · exact (throw_run_ok.mp h).elim
  -- an extra that is no name of a rule is a token
  · simp only [guard_run_ok, bind_run_ok] at h
    obtain ⟨-, symbol, s₁, hsymbol, h⟩ := h
    obtain ⟨hs₁, hext₁, token, -, hlookup⟩ := keyed_anonymousToken hs hsymbol
    obtain ⟨hs₂, hext₂⟩ := keyed_markExtra hs₁ (hs₁.sound.anonymous _ _ hlookup) h
    exact ⟨hs₂, hext₁.trans hext₂⟩

/-- At first no rule and no token has a number. -/
theorem keyed_initial (g : Grammar) (start : String) : initial.Keyed g start where
  sound := sound_initial
  injective := fun t _ _ h => by cases t <;> cases h
  anonymous := fun _ _ h => by cases h
  rules := fun _ _ h => by cases h
  lexical := fun _ _ h => by cases h
  structured := fun _ _ h => by cases h
  nodup := List.Pairwise.nil
  waiting := fun _ h => by cases h

/-- Every rule has just the productions of its rows. -/
theorem settled_addAll {i : Nat} (h : (addAll g start).run initial = .ok (i, s)) :
    s.Keyed g start ∧ s.Settled g start ∧ s.pending = [] ∧ s.rules.lookup start = some i := by
  unfold addAll at h
  simp only [bind_run_ok, pure_run_ok] at h
  obtain ⟨symbol, s₁, hsymbol, _, s₂, hextras, _, s₃, hpending, rfl, rfl⟩ := h
  obtain ⟨hs₁, hext₁, hstart⟩ := keyed_ruleSymbol (keyed_initial g start) hsymbol
  obtain ⟨hs₂, hext₂⟩ : s₂.Keyed g start ∧ Extends g start s₁ s₂ := by
    refine forIn_run_ok (P := fun r => r.Keyed g start ∧ Extends g start s₁ r)
      (fun rule _ r y r' hr hstep => ?_) ⟨hs₁, .refl _⟩ hextras
    simp only [bind_run_ok, pure_run_ok] at hstep
    obtain ⟨_, r₁, hadd, rfl, rfl⟩ := hstep
    obtain ⟨hs₂, hext₂⟩ := keyed_addExtra hr.1 hadd
    exact ⟨rfl, hs₂, hr.2.trans hext₂⟩
  have hext := hext₁.trans hext₂
  have hsettled : initial.Settled g start := fun name i rule hi => by cases hi
  -- at the start no rule has been met, so their number bounds the rounds
  have hload : s₂.pending.length + (unmet g s₂).length < g.rules.length + 1 := by
    refine Nat.lt_succ_of_le (Nat.le_trans hext.load ?_)
    exact (Nat.zero_add _).trans_le (List.length_filter_le _ _)
  obtain ⟨hs₃, hsettled₃, hnil⟩ :=
    settled_addPending hs₂ (hsettled.extends (keyed_initial g start) hext) hload hpending
  have hgrows := (sound_addPending hs₂.sound hpending).2
  exact ⟨hs₃, hsettled₃, hnil, hgrows.rules start symbol (hext₂.grows.rules start symbol hstart)⟩

end Flatten

/-! ## Flat grammars -/

namespace Grammar

/-- Numbers of terminals: each for one terminal, with its token. -/
structure Numbers (g : Grammar) (start : String) (flat : FlatGrammar)
    (number : Terminal → Option Nat) : Prop where
  injective : ∀ t t' i, number t = some i → number t' = some i → t = t'
  rule : ∀ name i, number (.rule name) = some i → g.isTokenRule start name = true ∧
    ∃ rule token, g.rule? name = some rule ∧ g.token name rule = .ok token ∧
      TokenAt flat.symbols token.pattern token.immediate i
  anonymous : ∀ pattern immediate i, number (.anonymous pattern immediate) = some i →
    TokenAt flat.symbols pattern immediate i

/-- The sentences of the start symbol are those of the start rule, in which blanks may count or
not. -/
def SameLanguage (g : Grammar) (blanks : Bool) (flat : FlatGrammar) : Prop :=
  ∃ start rule number, g.start? = some (start, rule) ∧ g.Numbers start flat number ∧
    (∀ w ∈ g.language start blanks rule, ∃ tokens, Flattening.Spells number w tokens) ∧
    ∀ tokens, flat.Generates [flat.start] tokens ↔
      ∃ w ∈ g.language start blanks rule, Flattening.Spells number w tokens

variable {g : Grammar} {start : String} {flat : FlatGrammar}

/-- A flat grammar is what was added for the start rule. -/
theorem exists_addAll (h : g.flatten = .ok flat) :
    ∃ start rule s, g.start? = some (start, rule) ∧
      (Flatten.addAll g start).run Flatten.initial = .ok (flat.start, s) ∧
      flat.symbols = s.symbols ∧ flat.productions = s.productions := by
  unfold flatten at h
  split at h
  · cases h
  · rename_i start rule hstart
    simp only [Except.guard_eq_ok, Except.bind_eq_ok, Except.pure_eq_ok] at h
    obtain ⟨-, ⟨i, s⟩, hall, rfl⟩ := h
    exact ⟨start, rule, s, hstart, hall, rfl, rfl⟩

/-- What is flattened has just the productions of its rows. -/
theorem lowered_of_addAll {s : Flattening}
    (h : (Flatten.addAll g start).run Flatten.initial = .ok (flat.start, s))
    (hsymbols : flat.symbols = s.symbols) (hproductions : flat.productions = s.productions) :
    s.Keyed g start ∧ Flattening.Lowered g start s flat ∧ s.rules.lookup start = some flat.start := by
  obtain ⟨hs, hsettled, hnil, hi⟩ := Flatten.settled_addAll h
  refine ⟨hs, ⟨hsymbols, hproductions, fun q hq => (hs.sound.lhs q hq).2,
    fun key i hi => (hs.anonymous key i hi).isTerminal, hs.rules, fun name i hi hname => ?_,
    fun name i rule hi hname hrule => ⟨hs.structured name i hi hname, ?_⟩⟩, hi⟩
  · obtain ⟨_, _, -, -, hat⟩ := hs.lexical name i hi hname
    exact hat.isTerminal
  -- at the end no name waits, so every rule has its productions
  · refine (hsettled name i rule hi hname hrule).resolve_left fun hmem => ?_
    rw [hnil] at hmem
    cases hmem

/-- A grammar that is flattened has been lowered rule by rule, from its start rule on. -/
theorem exists_lowered (h : g.flatten = .ok flat) :
    ∃ start rule s, g.start? = some (start, rule) ∧ s.Keyed g start ∧
      Flattening.Lowered g start s flat ∧ s.rules.lookup start = some flat.start := by
  obtain ⟨start, rule, s, hstart, hall, hsymbols, hproductions⟩ := exists_addAll h
  exact ⟨start, rule, s, hstart, lowered_of_addAll hall hsymbols hproductions⟩

/-- Numbers that are given once are given to terminals once. -/
theorem numbers_of_keyed {s : Flattening} (hs : s.Keyed g start)
    (hsymbols : flat.symbols = s.symbols) :
    g.Numbers start flat (Flattening.number? g start s) := by
  -- the numbers are those that were given out, less those of structured rules
  have hsymbol : ∀ t i, Flattening.number? g start s t = some i → s.symbol? t = some i := by
    intro t i hi
    cases t with
    | rule name => exact (Flattening.number?_rule.mp hi).2
    | anonymous => exact hi
  refine ⟨fun t t' i hi hi' => hs.injective t t' i (hsymbol t i hi) (hsymbol t' i hi'),
    fun name i hi => ?_, fun pattern immediate i hi => ?_⟩
  · obtain ⟨hname, hi⟩ := Flattening.number?_rule.mp hi
    rw [hsymbols]
    exact ⟨hname, hs.lexical name i hi hname⟩
  · rw [hsymbols]
    exact hs.anonymous (pattern, immediate) i hi

/-- The start rule is no token, whatever it is. -/
theorem isTokenRule_start (g : Grammar) (start : String) : g.isTokenRule start start = false := by
  simp [isTokenRule]

/-- What is generated are the sentences in which blanks do not count. -/
theorem sameLanguage_flatten (h : g.flatten = .ok flat) : g.SameLanguage false flat := by
  obtain ⟨start, rule, s, hstart, hs, hlowered, hi⟩ := exists_lowered h
  have hrule : g.rule? start = some rule := by
    obtain ⟨rest, hrules⟩ := List.head?_eq_some_iff.mp hstart
    rw [rule?, hrules]
    exact List.lookup_cons_self
  have hexpanded : Flattening.Expanded g s (.symbol start) {[flat.start]} := .symbol hi
  -- one direction: what the rules read, the start symbol generates
  have hspelled : ∀ w ∈ g.language start false rule, ∃ tokens,
      Flattening.Spells (Flattening.number? g start s) w tokens ∧
        flat.Generates [flat.start] tokens := by
    rintro w ⟨b, hw⟩
    obtain ⟨row, rfl, -, hspells⟩ :=
      hlowered.generates (.symbol (isTokenRule_start g start) hrule hw) hexpanded
    exact hspells
  refine ⟨start, rule, _, hstart, numbers_of_keyed hs hlowered.symbols, fun w hw => ?_,
    fun tokens => ⟨fun hg => ?_, ?_⟩⟩
  · obtain ⟨tokens, hspells, -⟩ := hspelled w hw
    exact ⟨tokens, hspells⟩
  -- the other one goes by the depth of the productions
  · obtain ⟨n, hn⟩ := hg.exists_within
    obtain ⟨w, hw, hspells⟩ := hlowered.reads n hexpanded rfl hn
    refine ⟨w, ?_, hspells⟩
    cases hw with
    | token hrule => cases hrule
    | lexical hname =>
      rw [isTokenRule_start] at hname
      cases hname
    | symbol _ hrule' hw =>
      cases hrule.symm.trans hrule'
      exact ⟨_, hw⟩
  · rintro ⟨w, hw, hspells⟩
    obtain ⟨tokens', hspells', hg⟩ := hspelled w hw
    rwa [hspells.eq hspells']

/-- Where only parts are repeated it does not matter whether blanks count. -/
theorem SameLanguage.of_repeatsParts (h : g.SameLanguage false flat) (hg : g.repeatsParts = true)
    (blanks : Bool) : g.SameLanguage blanks flat := by
  obtain ⟨start, rule, number, hstart, hrest⟩ := h
  have hrule : rule.repeatsParts = true :=
    List.all_eq_true.mp hg (start, rule) (List.mem_of_head? hstart)
  rw [language_of_repeatsParts hg hrule false blanks] at hrest
  exact ⟨start, rule, number, hstart, hrest⟩

/-- A grammar and its flat form have the same sentences.  One or more of a content is any row of
those of its sentences that have a part, or no row if it is never written with parts; where all that
is repeated has parts, it is any row of its sentences. -/
theorem sentences_flatten (h : g.flatten = .ok flat) :
    g.SameLanguage false flat ∧ (g.repeatsParts = true → g.SameLanguage true flat) :=
  ⟨sameLanguage_flatten h, fun hg => (sameLanguage_flatten h).of_repeatsParts hg true⟩

/-! ## Nested lists -/

/-- The grammar of nested lists of atoms. -/
def nestedLists : Grammar where
  name := "lists"
  rules := [
    ("list", .seq [.string "(", .zeroOrMore (.choice [.symbol "atom", .symbol "list"]),
      .string ")"]),
    ("atom", .string "a")]
  extras := []
  precedences := []
  conflicts := []
  externals := []
  inlined := []
  supertypes := []
  word := none
  reserved := []

/-- The productions of nested lists. -/
def nestedListsFlat : FlatGrammar where
  name := "lists"
  symbols := #[⟨"end", none, true, false, false, false⟩, ⟨"ERROR", none, true, true, true, false⟩,
    ⟨"list", none, false, true, true, false⟩,
    ⟨"(", some ⟨"\\(", true, false, 0⟩, true, false, true, false⟩,
    ⟨"atom", some ⟨"a", true, false, 0⟩, true, true, true, false⟩,
    ⟨"list_repeat1", none, false, false, false, false⟩,
    ⟨")", some ⟨"\\)", true, false, 0⟩, true, false, true, false⟩]
  productions := #[⟨5, [(5, none), (4, none)], none⟩, ⟨5, [(4, none)], none⟩,
    ⟨5, [(5, none), (2, none)], none⟩, ⟨5, [(2, none)], none⟩,
    ⟨2, [(3, none), (5, none), (6, none)], none⟩, ⟨2, [(3, none), (6, none)], none⟩]
  fields := #[]
  start := 2

/-- Nested lists keep their sentences. -/
theorem nestedLists_sentences : nestedLists.flatten = .ok nestedListsFlat ∧
    nestedLists.repeatsParts = true ∧ nestedLists.SameLanguage false nestedListsFlat ∧
      nestedLists.SameLanguage true nestedListsFlat := by
  have hflatten : nestedLists.flatten = .ok nestedListsFlat := by decide +kernel
  have hparts : nestedLists.repeatsParts = true := by decide
  obtain ⟨hsame, hblanks⟩ := sentences_flatten hflatten
  exact ⟨hflatten, hparts, hsame, hblanks hparts⟩

/-! ## Blanks in repetitions -/

/-- A head, and one or more items that may be left out. -/
def optionalItems : Grammar where
  name := "row"
  rules := [("row", .seq [.string "x", .oneOrMore (.choice [.string "a", .blank])])]
  extras := []
  precedences := []
  conflicts := []
  externals := []
  inlined := []
  supertypes := []
  word := none
  reserved := []

/-- The productions of the row: it has an item. -/
def optionalItemsFlat : FlatGrammar where
  name := "row"
  symbols := #[⟨"end", none, true, false, false, false⟩, ⟨"ERROR", none, true, true, true, false⟩,
    ⟨"row", none, false, true, true, false⟩,
    ⟨"x", some ⟨"x", true, false, 0⟩, true, false, true, false⟩,
    ⟨"a", some ⟨"a", true, false, 0⟩, true, false, true, false⟩,
    ⟨"row_repeat1", none, false, false, false, false⟩]
  productions := #[⟨5, [(5, none), (4, none)], none⟩, ⟨5, [(4, none)], none⟩,
    ⟨2, [(3, none), (5, none)], none⟩]
  fields := #[]
  start := 2

/-- A sentence of the row has a head and an item. -/
theorem optionalItems_length {row tokens : List Nat} (h : optionalItemsFlat.Generates row tokens) :
    sumOf (fun i => if i = 2 then 2 else 1) row ≤ tokens.length := by
  -- no production makes fewer symbols out of more, the start symbol counting twice
  have hproductions : ∀ q ∈ optionalItemsFlat.productions, (if q.lhs = 2 then 2 else 1) ≤
      sumOf (fun i => if i = 2 then 2 else 1) q.rhs := by decide
  have hstart : optionalItemsFlat.isTerminal 2 = false := by decide
  induction h with
  | nil => exact Nat.le_refl _
  | @terminal i row tokens hi _ ih =>
    have hne : i ≠ 2 := by
      rintro rfl
      rw [hstart] at hi
      cases hi
    rw [sumOf_cons, List.length_cons, if_neg hne, Nat.add_comm]
    exact Nat.succ_le_succ ih
  | @rule q row inner tokens hq _ _ ihinner ih =>
    rw [sumOf_cons, List.length_append]
    exact Nat.add_le_add (Nat.le_trans (hproductions q hq) ihinner) ih

/-- Where blanks count, the head alone is a sentence as well, but it is not generated. -/
theorem optionalItems_blanks : optionalItems.flatten = .ok optionalItemsFlat ∧
    ¬optionalItems.SameLanguage true optionalItemsFlat := by
  refine ⟨by decide +kernel, ?_⟩
  rintro ⟨start, rule, number, hstart, -, hspelled, hsentences⟩
  cases hstart
  have htoken : optionalItems.token "row" (.string "x") = .ok ⟨"x", true, false, 0⟩ := by decide +kernel
  have hhead : optionalItems.Reads "row" true (.string "x") true [.anonymous "x" false] :=
    .token rfl htoken
  -- the usual reading lets `(a | ε)+` stand for nothing
  have hitems : optionalItems.Reads "row" true
      (.oneOrMore (.choice [.string "a", .blank])) false [] :=
    .once (.inl rfl) (.choice (List.mem_cons_of_mem _ (List.mem_singleton_self _)) .blank)
  have hw : [Terminal.anonymous "x" false] ∈ optionalItems.language "row" true
      (.seq [.string "x", .oneOrMore (.choice [.string "a", .blank])]) :=
    ⟨_, .seqCons hhead (.seqCons hitems .seqNil)⟩
  obtain ⟨tokens, hspells⟩ := hspelled _ hw
  -- but no sentence of the flat grammar is as short as `x` alone
  have hle := optionalItems_length ((hsentences tokens).mpr ⟨_, hw, hspells⟩)
  rw [← hspells.length_eq] at hle
  exact absurd hle (by decide)

end Grammar

end IncrementalParsing
