import IncrementalParsing.Proofs.Parse.Reuse
import IncrementalParsing.Proofs.Parse.StackStates
import IncrementalParsing.Proofs.Table.Structure
import Mathlib.Data.Finset.Prod

/-!
# When the allowance is enough

A parser counts the reductions between two tokens, and treats the next token as an error when there
were too many.  Where no rule that can be empty stands in another rule this never stops a parse that
would come to an end: reductions at one depth of the stack that find the same state on top repeat, so
that they go on forever, and depths do not grow before only rules that nothing contains are left.

Where an empty rule stands in others, entries that cover no text pile up and there can be more
reductions than are allowed.  `Crowded` is a grammar for which a text of the language is reported as
an error.

## Key results

- `forever_of_repeats`: reductions that repeat go on forever
- `forever_of_many`: more reductions than there are states for each depth go on forever
- `Language.parse_of_runFreely`: a parse that would end without counting ends the same way
- `Crowded.parse_crowded`: a text for which the allowance is not enough
-/

namespace IncrementalParsing

/-! ## Parsing without counting -/

namespace Config

variable {t : Table} {text : ByteArray}

/-- A step that is taken however many reductions there were before. -/
def stepFreely (t : Table) (text : ByteArray) (c : Config) : Step :=
  { c with reductions := 1 }.step t text

/-- Repeats such steps, not more than a number of times, until the parse is done; gives the root and the
events. -/
def runFreely (t : Table) (text : ByteArray) : (limit : Nat) → Config → Option (Subtree × List Event)
  | 0, _ => none
  | limit + 1, c =>
    match c.stepFreely t text with
    | .done root events => some (root, events.reverse)
    | .next after => runFreely t text limit after

/-- How many reductions may follow does not matter. -/
theorem runFreely_reductions (limit n : Nat) (c : Config) :
    runFreely t text limit { c with reductions := n } = runFreely t text limit c := by
  cases limit <;> rfl

end Config

/-! ## Outlines of stacks -/

/-- What reductions see of a stack: the states of the entries that are no extras, the latest first. -/
abbrev Outline := List StateId

namespace Outline

variable {t : Table} {a : Symbol} {o o' : Outline}

/-- The state on top. -/
def state (o : Outline) : StateId := o.headD 0

/-- Reduces once before a token. -/
def reduce? (t : Table) (a : Symbol) (o : Outline) : Option Outline :=
  match t.action? o.state a with
  | some (.reduce p) => (t.production? p).map fun production =>
    let rest : Outline := o.drop production.size
    (t.goto? rest.state production.lhs).getD rest.state :: rest
  | _ => none

/-- Reduces a number of times. -/
def reduceTimes? (t : Table) (a : Symbol) : Nat → Outline → Option Outline
  | 0, o => some o
  | n + 1, o => (o.reduce? t a).bind (reduceTimes? t a n)

/-- Reducing `m + n` times is reducing `m` times and then `n` times. -/
theorem reduceTimes?_add (m n : Nat) (o : Outline) :
    reduceTimes? t a (m + n) o = (reduceTimes? t a m o).bind (reduceTimes? t a n) := by
  induction m generalizing o with
  | zero => rw [Nat.zero_add]; rfl
  | succ m ih =>
    rw [Nat.succ_add, reduceTimes?, reduceTimes?, Option.bind_assoc]
    exact congrArg _ (funext ih)

/-- Reductions on an outline never come to an end. -/
def Forever (t : Table) (a : Symbol) (o : Outline) : Prop := ∀ n, (reduceTimes? t a n o).isSome = true

/-- In a state there are only reductions of empty productions before a token. -/
def Barren (t : Table) (a : Symbol) (s : StateId) : Prop :=
  ∀ p production, t.action? s a = some (.reduce p) → t.production? p = some production →
    production.size = 0

/-- What a table has to be like, so that empty productions do no harm: in the first state there is
nothing to reduce but them, and what they build is only the part of empty productions. -/
structure Tame (t : Table) (a : Symbol) : Prop where
  first : Barren t a 0
  built : ∀ s p production, t.action? s a = some (.reduce p) → t.production? p = some production →
    production.size = 0 → Barren t a ((t.goto? s production.lhs).getD s)

/-- Reductions go on forever where they come back to something that they cannot tell from where they
began. -/
theorem forever_of_repeats {R : Outline → Outline → Prop}
    (hR : ∀ x y x', R x y → x.reduce? t a = some x' → ∃ y', y.reduce? t a = some y' ∧ R x' y')
    {n : Nat} (hn : 0 < n) (hreduce : reduceTimes? t a n o = some o') (hback : R o o') :
    Forever t a o := by
  -- what can be done from one outline can be done from any that looks the same
  have hfollow : ∀ k x y, R x y → (reduceTimes? t a k x).isSome = true →
      (reduceTimes? t a k y).isSome = true := by
    intro k
    induction k with
    | zero => exact fun _ _ _ _ => rfl
    | succ k ih =>
      intro x y hxy hx
      rw [reduceTimes?] at hx
      obtain ⟨z, hz⟩ := Option.isSome_iff_exists.mp hx
      obtain ⟨x', hx', hz⟩ := Option.bind_eq_some_iff.mp hz
      obtain ⟨y', hy', hxy'⟩ := hR x y x' hxy hx'
      rw [reduceTimes?, hy']
      exact ih x' y' hxy' (by rw [hz]; rfl)
  intro k
  induction k using Nat.strong_induction_on with
  | _ k ih =>
    by_cases hk : k ≤ n
    · -- these reductions are among those that were made
      obtain ⟨d, rfl⟩ := Nat.exists_eq_add_of_le hk
      rw [reduceTimes?_add] at hreduce
      obtain ⟨x, hx, -⟩ := Option.bind_eq_some_iff.mp hreduce
      rw [hx]
      rfl
    · -- the others go on as from the beginning
      obtain ⟨d, rfl⟩ := Nat.exists_eq_add_of_le (Nat.le_of_not_le hk)
      rw [reduceTimes?_add, hreduce]
      exact hfollow d o o' hback (ih d (by omega))

/-- What can be reduced forever can be reduced forever after any number of reductions. -/
theorem forever_later {n : Nat} (h : Forever t a o) (hreduce : reduceTimes? t a n o = some o') :
    Forever t a o' := by
  intro k
  have hall := h (n + k)
  rw [reduceTimes?_add, hreduce] at hall
  exact hall

/-- A reduction as the table has it. -/
theorem reduce?_eq_some_iff : o.reduce? t a = some o' ↔
    ∃ p production, t.action? o.state a = some (.reduce p) ∧ t.production? p = some production ∧
      o' = (t.goto? (Outline.state (o.drop production.size)) production.lhs).getD
        (Outline.state (o.drop production.size)) :: o.drop production.size := by
  unfold reduce?
  constructor
  · intro h
    split at h
    · rename_i p hp
      obtain ⟨production, hproduction, rfl⟩ := Option.map_eq_some_iff.mp h
      exact ⟨p, production, hp, hproduction, rfl⟩
    · cases h
  · rintro ⟨p, production, hp, hproduction, rfl⟩
    rw [hp]
    dsimp only
    rw [hproduction]
    rfl

/-- Where there is a reduction, the state is one of the table. -/
theorem state_lt_of_reduce? (h : o.reduce? t a = some o') : o.state < t.states.size := by
  obtain ⟨p, -, hp, -⟩ := reduce?_eq_some_iff.mp h
  by_contra hle
  have hnone : t.states[o.state]? = none := Array.getElem?_eq_none (Nat.le_of_not_lt hle)
  simp [Table.action?, Table.actions, hnone] at hp

section Tame

variable (ht : Tame t a)
include ht

/-- In a barren state reductions lead to barren states. -/
theorem barren_of_barren (hb : Barren t a o.state) (h : o.reduce? t a = some o') :
    Barren t a o'.state := by
  obtain ⟨p, production, hp, hproduction, rfl⟩ := reduce?_eq_some_iff.mp h
  have hsize := hb p production hp hproduction
  have hbuilt := ht.built _ _ _ hp hproduction hsize
  rw [hsize]
  exact hbuilt

/-- Reductions from a barren state lead to barren states. -/
theorem barren_of_times {n : Nat} (hb : Barren t a o.state) (h : reduceTimes? t a n o = some o') :
    Barren t a o'.state := by
  induction n generalizing o with
  | zero =>
    cases h
    exact hb
  | succ n ih =>
    rw [reduceTimes?] at h
    obtain ⟨x, hx, h⟩ := Option.bind_eq_some_iff.mp h
    exact ih (barren_of_barren ht hb hx) h

/-- Barren states that come back do so again. -/
theorem forever_of_barren {n : Nat} (hn : 0 < n) (hreduce : reduceTimes? t a n o = some o')
    (hb : Barren t a o.state) (hstate : o.state = o'.state) : Forever t a o := by
  refine forever_of_repeats (R := fun x y => Barren t a x.state ∧ x.state = y.state)
    (fun x y x' ⟨hbarren, hxy⟩ hx => ?_) hn hreduce ⟨hb, hstate⟩
  obtain ⟨p, production, hp, hproduction, rfl⟩ := reduce?_eq_some_iff.mp hx
  have hsize := hbarren p production hp hproduction
  refine ⟨_, reduce?_eq_some_iff.mpr ⟨p, production, hxy ▸ hp, hproduction, rfl⟩,
    barren_of_barren ht hbarren hx, ?_⟩
  rw [hsize]
  show (t.goto? x.state production.lhs).getD x.state = (t.goto? y.state production.lhs).getD y.state
  rw [hxy]

/-- Where something that is not empty was reduced, the outline is not longer than before; if it is as
long, only the state on top is another. -/
theorem length_of_reduce? (h : o.reduce? t a = some o') (hb : ¬Barren t a o'.state) :
    o'.length < o.length ∨ (o'.length = o.length ∧ o'.tail = o.tail) := by
  have hbefore : ¬Barren t a o.state := fun hbarren => hb (barren_of_barren ht hbarren h)
  obtain ⟨p, production, hp, hproduction, rfl⟩ := reduce?_eq_some_iff.mp h
  -- a production without symbols leads to a barren state
  have hsize : production.size ≠ 0 := by
    intro hsize
    have hbuilt := ht.built _ _ _ hp hproduction hsize
    rw [hsize] at hb
    exact hb hbuilt
  cases o with
  | nil => exact absurd ht.first hbefore
  | cons s rest =>
    obtain ⟨d, hd⟩ := Nat.exists_eq_succ_of_ne_zero hsize
    rw [hd, List.drop_succ_cons, List.length_cons, List.length_drop, List.length_cons, List.tail_cons,
      List.tail_cons]
    -- one symbol is replaced by one, and the start stays below
    by_cases hdrop : d = 0 ∨ rest = []
    · right
      obtain rfl | rfl := hdrop
      · exact ⟨rfl, rfl⟩
      · simp
    · left
      have hpos : 0 < rest.length := List.length_pos_iff.mpr fun h => hdrop (.inr h)
      have : d ≠ 0 := fun h => hdrop (.inl h)
      omega

/-- The same over several reductions. -/
theorem length_of_reduceTimes? {n : Nat} (h : reduceTimes? t a n o = some o')
    (hb : ¬Barren t a o'.state) :
    o'.length < o.length ∨ (o'.length = o.length ∧ o'.tail = o.tail) := by
  induction n generalizing o with
  | zero =>
    cases h
    exact .inr ⟨rfl, rfl⟩
  | succ n ih =>
    rw [reduceTimes?] at h
    obtain ⟨x, hx, h⟩ := Option.bind_eq_some_iff.mp h
    -- what came before was not barren either
    have hbx : ¬Barren t a x.state := fun hbarren => hb (barren_of_times ht hbarren h)
    obtain hlt | ⟨heq, htail⟩ := ih h
    · obtain hlt' | ⟨heq', -⟩ := length_of_reduce? ht hx hbx
      · exact .inl (Nat.lt_trans hlt hlt')
      · exact .inl (heq' ▸ hlt)
    · obtain hlt' | ⟨heq', htail'⟩ := length_of_reduce? ht hx hbx
      · exact .inl (heq ▸ hlt')
      · exact .inr ⟨heq.trans heq', htail.trans htail'⟩

/-- An outline comes back to itself when it is as long as before, with the same state on top, and not
barren. -/
theorem forever_of_length {n : Nat} (hn : 0 < n) (hreduce : reduceTimes? t a n o = some o')
    (hb : ¬Barren t a o'.state) (hlength : o.length = o'.length) (hstate : o.state = o'.state) :
    Forever t a o := by
  -- at equal length the parts below the top were never touched
  have hsame : o = o' := by
    obtain hlt | ⟨-, htail⟩ := length_of_reduceTimes? ht hreduce hb
    · omega
    · cases o with
      | nil => rw [List.eq_nil_of_length_eq_zero hlength.symm]
      | cons s rest =>
        cases o' with
        | nil => cases hlength
        | cons s' rest' => exact congrArg₂ _ hstate htail.symm
  subst hsame
  exact forever_of_repeats (R := Eq) (fun x _ x' hxy hx => ⟨x', hxy ▸ hx, rfl⟩) hn hreduce rfl

/-- Of more reductions than there are states for each depth, two are made at one depth in one state,
so that they never come to an end. -/
theorem forever_of_many {k : Nat} (hk : (o.length + 1) * t.states.size < k)
    (h : reduceTimes? t a k o = some o') : Forever t a o := by
  classical
  -- what is on the stack after some of the reductions
  have hsplit : ∀ i ≤ k, ∃ x, reduceTimes? t a i o = some x ∧ reduceTimes? t a (k - i) x = some o' := by
    intro i hi
    rw [show k = i + (k - i) from by omega, reduceTimes?_add] at h
    exact Option.bind_eq_some_iff.mp h
  let depth (x : Outline) : Nat := if Barren t a x.state then 0 else x.length
  let key (i : Nat) : Nat × StateId := ((reduceTimes? t a i o).map fun x => (depth x, x.state)).getD (0, 0)
  have hkey : ∀ i ∈ Finset.range k, key i ∈ Finset.range (o.length + 1) ×ˢ Finset.range t.states.size := by
    intro i hi
    rw [Finset.mem_range] at hi
    obtain ⟨x, hx, hrest⟩ := hsplit i (Nat.le_of_lt hi)
    rw [show k - i = k - i - 1 + 1 from by omega, reduceTimes?] at hrest
    obtain ⟨y, hy, -⟩ := Option.bind_eq_some_iff.mp hrest
    have hstate := state_lt_of_reduce? hy
    have hdepth : depth x ≤ o.length := by
      by_cases hb : Barren t a x.state
      · simp only [depth, if_pos hb]
        exact Nat.zero_le _
      · simp only [depth, if_neg hb]
        obtain hlt | ⟨heq, -⟩ := length_of_reduceTimes? ht hx hb
        · exact Nat.le_of_lt hlt
        · exact Nat.le_of_eq heq
    simp only [key, hx, Option.map_some, Option.getD_some, Finset.mem_product, Finset.mem_range]
    exact ⟨Nat.lt_succ_of_le hdepth, hstate⟩
  -- there are fewer pairs of a depth and a state than reductions
  have hcard : (Finset.range (o.length + 1) ×ˢ Finset.range t.states.size).card <
      (Finset.range k).card := by
    rw [Finset.card_product, Finset.card_range, Finset.card_range, Finset.card_range]
    exact hk
  -- so two of them have the same
  obtain ⟨i, j, hlt, hj, hsame⟩ : ∃ i j, i < j ∧ j < k ∧ key i = key j := by
    obtain ⟨i, hi, j, hj, hne, hsame⟩ := Finset.exists_ne_map_eq_of_card_lt_of_maps_to hcard hkey
    rw [Finset.mem_range] at hi hj
    obtain hlt | hlt := Nat.lt_or_gt_of_ne hne
    · exact ⟨i, j, hlt, hj, hsame⟩
    · exact ⟨j, i, hlt, hi, hsame.symm⟩
  obtain ⟨x, hx, -⟩ := hsplit i (by omega)
  obtain ⟨y, hy, -⟩ := hsplit j (by omega)
  have hxy : reduceTimes? t a (j - i) x = some y := by
    rw [show j = i + (j - i) from by omega, reduceTimes?_add, hx] at hy
    exact hy
  simp only [key, hx, hy, Option.map_some, Option.getD_some, Prod.mk.injEq] at hsame
  obtain ⟨hdepth, hstate⟩ := hsame
  have hforever : Forever t a x := by
    by_cases hb : Barren t a x.state
    · exact forever_of_barren ht (by omega) hxy hb hstate
    · have hby : ¬Barren t a y.state := hstate ▸ hb
      simp only [depth, if_neg hb, if_neg hby] at hdepth
      exact forever_of_length ht (by omega) hxy hby hdepth hstate
  -- what goes on forever later does so from the beginning
  intro n
  by_cases hn : n ≤ i
  · obtain ⟨z, hz, -⟩ := hsplit n (by omega)
    rw [hz]
    rfl
  · rw [show n = i + (n - i) from by omega, reduceTimes?_add, hx]
    exact hforever _

end Tame

end Outline

/-! ## Outlines of configurations -/

namespace Stack

/-- The states of the entries that are no extras. -/
def outline (s : Stack) : Outline := (s.filter fun e => !e.node.extra).map (·.state)

variable {t : Table} {s : Stack}

/-- The state on top is that of the highest entry that is no extra. -/
theorem Linked.state_outline (h : Linked t s) : s.outline.state = s.state := by
  induction h with
  | nil => rfl
  | regular _ he _ =>
    rw [outline, List.filter_cons_of_pos (by simp [he])]
    rfl
  | extra _ he hstate ih =>
    rw [outline, List.filter_cons_of_neg (by simp [he])]
    exact ih.trans hstate.symm

/-- Extras are left out of the outline of a stack, which can only be shorter. -/
theorem length_outline_le (s : Stack) : s.outline.length ≤ s.length := by
  rw [outline, List.length_map]
  exact List.length_filter_le _ _

/-- Taking off entries that are no extras takes off their states. -/
theorem outline_popRegular (count : Nat) (taken s : Stack) :
    (popRegular count taken s).2.outline = s.outline.drop count := by
  fun_induction popRegular count taken s with
  | case1 => rfl
  | case2 => rfl
  | case3 count taken e s he ih =>
    rw [ih]
    simp only [outline]
    rw [List.filter_cons_of_neg (by simp [he])]
  | case4 count taken e s he ih =>
    rw [ih]
    simp only [outline]
    rw [List.filter_cons_of_pos (by simpa using he), List.map_cons, List.drop_succ_cons]

/-- Extras on top do not count for it. -/
theorem outline_dropWhile (s : Stack) :
    Stack.outline (s.dropWhile fun e => e.node.extra) = s.outline := by
  induction s with
  | nil => rfl
  | cons e s ih =>
    by_cases he : e.node.extra = true
    · rw [List.dropWhile_cons_of_pos (by simp [he]), ih]
      simp only [outline]
      rw [List.filter_cons_of_neg (by simp [he])]
    · rw [List.dropWhile_cons_of_neg (by simp [he])]

/-- Extras are not seen in an outline. -/
theorem outline_append_extras {extras : Stack} (h : ∀ e ∈ extras, e.node.extra = true) (s : Stack) :
    Stack.outline (extras ++ s) = s.outline := by
  rw [outline, List.filter_append, List.filter_eq_nil_iff.mpr (by simpa using h), List.nil_append]
  rfl

end Stack

namespace Config

variable {t : Table} {text : ByteArray} {c c' : Config} {g : FlatGrammar}
  {items : StateId → Item → Prop}

/-- A reduction of a configuration is one of its outline. -/
theorem outline_reduce (hs : t.Speaks g) (hg : t.Guided g items) (h : c.stack.Linked t)
    {token : Subtree} {p : ProductionId} {production : Production}
    (ha : t.action? c.state token.symbol = some (.reduce p))
    (hp : t.production? p = some production) :
    c.stack.outline.reduce? t token.symbol =
      some (c.reduce t token production).stack.outline := by
  have hrest := (Stack.supplies_of_reduce hs hg h ha hp).2
  have hoff : (c.stack.popChildren production.size).2.2.outline =
      c.stack.outline.drop production.size := by
    rw [Stack.popChildren]
    exact (Stack.outline_popRegular _ _ _).trans (by rw [Stack.outline_dropWhile])
  have hextras : ∀ e ∈ (c.stack.popChildren production.size).2.1, e.node.extra = true := by
    intro e he
    rw [Stack.popChildren, List.mem_reverse] at he
    have hextra := List.mem_takeWhile_imp he
    exact hextra
  -- the outline leaves the extras out, and what is taken off it is what comes off the stack
  refine Outline.reduce?_eq_some_iff.mpr ⟨p, production, h.state_outline ▸ ha, hp, ?_⟩
  rw [← hoff, hrest.state_outline]
  unfold reduce
  generalize c.stack.popChildren production.size = popped at hextras
  obtain ⟨parts, trailing, rest⟩ := popped
  dsimp only at hextras ⊢
  rw [record, Stack.outline_append_extras]
  · rfl
  · intro e he
    obtain ⟨e', he', rfl⟩ := List.mem_map.mp (List.mem_reverse.mp he)
    exact hextras e' he'

/-! ## Steps with and without counting -/

/-- What is found next does not depend on the count of reductions. -/
theorem fetch_reductions (c : Config) (n : Nat) :
    { c with reductions := n }.fetch t text =
      ((c.fetch t text).1, { (c.fetch t text).2 with reductions := n }) := by
  unfold fetch
  dsimp only [state]
  split
  · rfl
  · generalize Walker.next t c.stack.state c.position.bytes c.walker = found
    obtain ⟨_ | n, walker⟩ := found <;> rfl

/-- An error is repaired in the same way whatever number of reductions is left. -/
theorem recover_reductions (c : Config) (n : Nat) (token : Subtree) :
    { c with reductions := n }.recover t text token = c.recover t text token := by
  unfold recover
  simp only [show { c with reductions := n }.cutLimit = c.cutLimit from rfl]
  cases cutDepth? t c.stack token.symbol c.cutLimit with
  | some depth => rfl
  | none => cases token.symbol == Symbol.finish <;> rfl

/-- A step after which reductions are counted anew. -/
def Renews (t : Table) (step : Step) : Prop :=
  ∀ c, step = .next c → c.reductions = allowance t c.stack.length

/-- After a repair reductions are counted anew. -/
theorem renews_recover (c : Config) (token : Subtree) : Renews t (c.recover t text token) := by
  intro c' h
  unfold recover at h
  split at h
  · cases h
    rfl
  · split at h
    · cases h
    · cases h
      rfl

/-- What is done about a token is the same without counting, except that reductions always are made. -/
theorem act_freely (c : Config) (token : Subtree) :
    (∃ p production, t.action? c.state token.symbol = some (.reduce p) ∧
      t.production? p = some production ∧
      { c with reductions := 1 }.act t text token =
        .next ({ c with reductions := 1 }.reduce t token production) ∧
      (c.reductions ≠ 0 → c.act t text token = .next (c.reduce t token production))) ∨
    (c.act t text token = { c with reductions := 1 }.act t text token ∧
      Renews t (c.act t text token)) := by
  unfold act
  dsimp only [state]
  split
  · exact .inr ⟨rfl, fun c' h => by cases h; rfl⟩
  -- a reduction is made in both, unless the allowance has run out
  · rename_i p hp
    split
    · rename_i production hproduction
      exact .inl ⟨p, production, hp, hproduction, if_neg Nat.one_ne_zero, fun hr => if_neg hr⟩
    · exact .inr ⟨(recover_reductions c 1 token).symm, renews_recover c token⟩
  · exact .inr ⟨rfl, fun c' h => by cases h⟩
  · split
    · exact .inr ⟨rfl, fun c' h => by cases h; rfl⟩
    · exact .inr ⟨(recover_reductions c 1 token).symm, renews_recover c token⟩

/-- A token that waits is acted on. -/
theorem step_of_waiting {token : Subtree} (h : c.lookahead = some token) :
    c.step t text = c.act t text token := by
  rw [step, h]

/-- Otherwise something is fetched, and acted on or taken over. -/
theorem step_of_fetch (h : c.lookahead = none) :
    c.step t text = if t.isTerminal (c.fetch t text).1.symbol then
      (c.fetch t text).2.act t text (c.fetch t text).1
      else .next ((c.fetch t text).2.takeOver t (c.fetch t text).1) := by
  rw [step, h]

/-- A step is the same without counting, except that reductions always are made. -/
theorem stepFreely_cases (t : Table) (text : ByteArray) (c : Config) :
    (∃ token ready p production, Readies t text c token ready ∧
      t.action? ready.state token.symbol = some (.reduce p) ∧ t.production? p = some production ∧
      c.stepFreely t text = .next ({ ready with reductions := 1 }.reduce t token production) ∧
      (c.reductions ≠ 0 → c.step t text = .next (ready.reduce t token production))) ∨
    (c.step t text = c.stepFreely t text ∧ Renews t (c.step t text)) := by
  -- only a reduction counts, so any other act is the same step in both
  cases hl : c.lookahead with
  | some token =>
    have hfree : c.stepFreely t text = { c with reductions := 1 }.act t text token :=
      step_of_waiting hl
    rw [step_of_waiting hl, hfree]
    refine (act_freely c token).imp_left ?_
    rintro ⟨p, production, hp, hproduction, hreduce, hcount⟩
    exact ⟨token, c, p, production, .waiting hl, hp, hproduction, hreduce, hcount⟩
  | none =>
    have hfree : c.stepFreely t text = if t.isTerminal (c.fetch t text).1.symbol then
        { (c.fetch t text).2 with reductions := 1 }.act t text (c.fetch t text).1
        else .next ({ (c.fetch t text).2 with reductions := 1 }.takeOver t (c.fetch t text).1) := by
      unfold stepFreely
      rw [step_of_fetch (c := { c with reductions := 1 }) hl, fetch_reductions]
    have hready := readies_fetch t text c hl
    have hsame := (readies_frame hready).2.2.2.1
    rw [step_of_fetch hl, hfree, ← hsame]
    by_cases hterminal : t.isTerminal (c.fetch t text).1.symbol = true
    · rw [if_pos hterminal, if_pos hterminal]
      refine (act_freely _ _).imp_left ?_
      rintro ⟨p, production, hp, hproduction, hreduce, hcount⟩
      exact ⟨_, _, p, production, hready, hp, hproduction, hreduce, hcount⟩
    · rw [if_neg hterminal, if_neg hterminal]
      exact .inr ⟨rfl, fun c' h => by cases h; rfl⟩

/-! ## Reductions since they were counted anew -/

/-- What is left of the allowance and the reductions since it was given make up what is allowed on a
stack of some depth; the reductions were made before the token that waits. -/
def Tracked (t : Table) (c : Config) : Prop :=
  ∃ depth n, c.reductions + n = allowance t depth ∧
    ((n = 0 ∧ c.stack.outline.length ≤ depth) ∨ ∃ token o, c.lookahead = some token ∧
      o.length ≤ depth ∧ Outline.reduceTimes? t token.symbol n o = some c.stack.outline)

/-- The reductions before the token that is readied. -/
theorem times_of_tracked (hc : Tracked t c) {token : Subtree} {ready : Config}
    (h : Readies t text c token ready) :
    ∃ depth n o, c.reductions + n = allowance t depth ∧ o.length ≤ depth ∧
      Outline.reduceTimes? t token.symbol n o = some c.stack.outline := by
  obtain ⟨depth, n, hsum, ⟨rfl, hlength⟩ | ⟨token', o, hl, hlength, htimes⟩⟩ := hc
  · exact ⟨depth, 0, _, hsum, hlength, rfl⟩
  · have hsame : token' = token := by
      cases h with
      | waiting hl' => exact Option.some.inj (hl.symm.trans hl')
      | lexed hl' | reused hl' => rw [hl] at hl'; cases hl'
    exact ⟨depth, n, o, hsum, hlength, hsame ▸ htimes⟩

/-- A parse whose reductions never come to an end does not come to an end. -/
theorem runFreely_of_forever (hs : t.Speaks g) (hg : t.Guided g items) {token : Subtree} (limit : Nat) :
    ∀ c : Config, c.stack.Linked t → c.lookahead = some token →
      Outline.Forever t token.symbol c.stack.outline → runFreely t text limit c = none := by
  -- on the number of steps, all of which are reductions
  induction limit with
  | zero => exact fun _ _ _ _ => rfl
  | succ limit ih =>
    intro c hlinked hl hforever
    obtain ⟨o, ho⟩ := Option.isSome_iff_exists.mp (hforever 1)
    obtain ⟨o', ho', -⟩ := Option.bind_eq_some_iff.mp ho
    obtain ⟨p, production, hp, hproduction, -⟩ := Outline.reduce?_eq_some_iff.mp ho'
    rw [hlinked.state_outline] at hp
    have hstep : c.stepFreely t text = .next ({ c with reductions := 1 }.reduce t token production) := by
      have hp : t.action? { c with reductions := 1 }.state token.symbol = some (.reduce p) := hp
      rw [stepFreely, step_of_waiting (c := { c with reductions := 1 }) hl, act, hp]
      dsimp only
      rw [hproduction]
      exact if_neg Nat.one_ne_zero
    have hreduced := outline_reduce (c := { c with reductions := 1 }) hs hg hlinked hp hproduction
    rw [runFreely, hstep]
    exact ih _ (linked_reduce hs hg hlinked hp hproduction) rfl
      (Outline.forever_later hforever (n := 1) (by rw [Outline.reduceTimes?, hreduced]; rfl))

/-- A parse that comes to an end without counting has never used up its allowance, so it comes to the
same end. -/
theorem run_of_runFreely (ht : t.Checked) (hs : t.Speaks g) (hg : t.Guided g items)
    (htame : ∀ a, Outline.Tame t a) {r : Subtree × List Event} (limit : Nat) :
    ∀ c : Config, c.stack.Linked t → Tracked t c → runFreely t text limit c = some r →
      run t text c = some r := by
  induction limit with
  | zero => exact fun _ _ _ h => by cases h
  | succ limit ih =>
    intro c hlinked htracked h
    rw [runFreely] at h
    obtain ⟨token, ready, p, production, hready, hp, hproduction, hfree, hcount⟩ | ⟨hsame, hrenews⟩ :=
      stepFreely_cases t text c
    · obtain ⟨hstack, -, -, hreductions, -⟩ := readies_frame hready
      have hlinked' : ready.stack.Linked t := hstack ▸ hlinked
      have hreduced := outline_reduce hs hg hlinked' hp hproduction
      obtain ⟨depth, n, o, hsum, hlength, htimes⟩ := times_of_tracked htracked hready
      have htimes' : Outline.reduceTimes? t token.symbol (n + 1) o =
          some (ready.reduce t token production).stack.outline := by
        rw [Outline.reduceTimes?_add, htimes, Option.bind_some, ← hstack, Outline.reduceTimes?, hreduced]
        rfl
      rw [hfree] at h
      have h : runFreely t text limit (ready.reduce t token production) = some r :=
        (runFreely_reductions limit 0 (ready.reduce t token production)).symm.trans h
      -- with nothing left of the allowance the reductions would go on forever
      have hleft : c.reductions ≠ 0 := by
        intro hzero
        have hmany : (o.length + 1) * t.states.size < n + 1 := by
          rw [hzero, Nat.zero_add] at hsum
          rw [hsum, allowance]
          exact Nat.lt_succ_of_le (Nat.mul_le_mul (Nat.succ_le_succ hlength) (Nat.le_succ _))
        have hforever := Outline.forever_later (Outline.forever_of_many (htame token.symbol) hmany htimes')
          htimes'
        rw [runFreely_of_forever hs hg limit _ (linked_reduce hs hg hlinked' hp hproduction) rfl
          hforever] at h
        cases h
      have hmoves : Moves t text c (ready.reduce t token production) := hcount hleft
      rw [run_of_next hmoves]
      refine ih _ (linked_of_moves ht hs hg hlinked hmoves)
        ⟨depth, n + 1, ?_, .inr ⟨token, o, rfl, hlength, htimes'⟩⟩ h
      show ready.reductions - 1 + (n + 1) = _
      omega
    -- any other step is the same in both, and renews the allowance
    · rw [← hsame] at h
      cases hstep : c.step t text with
      | done root events =>
        rw [hstep] at h
        rw [run_of_done hstep]
        exact h
      | next c' =>
        rw [hstep] at h
        rw [run_of_next hstep]
        exact ih c' (linked_of_moves ht hs hg hlinked hstep)
          ⟨c'.stack.length, 0, hrenews c' hstep, .inl ⟨rfl, c'.stack.length_outline_le⟩⟩ h

end Config

/-- Where a rule that can be empty stands in no other, empty productions do no harm. -/
theorem Outline.tame_of_guided {t : Table} {g : FlatGrammar} {items : StateId → Item → Prop}
    (hs : t.Speaks g) (hg : t.Guided g items)
    (hempty : ∀ p ∈ g.productions, p.rhs = [] → ∀ q ∈ g.productions, p.lhs ∉ q.rhs) (a : Symbol) :
    Tame t a := by
  have hrow : ∀ {p : ProductionId} {production : Production}, t.production? p = some production →
      ∃ q, g.productions[p]? = some q ∧ production.lhs = q.lhs ∧ g.row p = q.rhs ∧
        (g.row p).length = production.size := by
    intro p production hp
    obtain ⟨q, hq, hlhs, hsize⟩ := hs.production p production hp
    have hrow := FlatGrammar.row_of_production hq
    exact ⟨q, hq, hlhs, hrow, by rw [hrow, hsize]⟩
  constructor
  · intro p production hp hproduction
    obtain ⟨-, -, -, -, hsize⟩ := hrow hproduction
    rw [← hsize]
    exact hg.first _ (hg.reduce _ _ _ hp).2
  -- two reductions in a row without symbols: the second is not of a production that begins with the
  -- first
  · intro s p production hp hproduction hzero p' production' hp' hproduction'
    obtain ⟨q, hq, hlhs, hrhs, hsize⟩ := hrow hproduction
    obtain ⟨q', hq', -, hrhs', hsize'⟩ := hrow hproduction'
    obtain ⟨hlt, hi⟩ := hg.reduce _ _ _ hp
    rw [hsize, hzero] at hi
    -- the rule leads somewhere, and back from there only to its own productions
    obtain ⟨heq, -⟩ | ⟨q'', target, hq'', htarget⟩ := hg.begins _ _ hi
    · exact absurd heq (Nat.ne_of_lt hlt)
    cases hq.symm.trans hq''
    rw [hlhs, htarget, Option.getD_some] at hp'
    by_contra hne
    obtain ⟨d, hd⟩ := Nat.exists_eq_succ_of_ne_zero hne
    have hi' := (hg.reduce _ _ _ hp').2
    rw [hsize', hd] at hi'
    obtain ⟨-, hsymbol⟩ := (hg.leads _ _ _ (.inr htarget)).2.2 p' d hi'
    rw [hrhs'] at hsymbol
    refine hempty q (Array.mem_of_getElem? hq) ?_ q' (Array.mem_of_getElem? hq')
      (List.mem_of_getElem? hsymbol)
    rw [← hrhs]
    exact List.eq_nil_of_length_eq_zero (hsize.trans hzero)

/-- Where a rule that can be empty stands in no other, a parse that comes to an end without counting its
reductions gives the same tree with the same events, whatever the text and the old tree are. -/
theorem Language.parse_of_runFreely {g : Grammar} {flat : FlatGrammar} {l : Language}
    (hflat : g.flatten = .ok flat) (h : g.table = .ok l.table)
    (hempty : ∀ p ∈ flat.productions, p.rhs = [] → ∀ q ∈ flat.productions, p.lhs ∉ q.rhs)
    (text : String) (old : Option Tree) {limit : Nat} {root : Subtree} {events : List Event}
    (hfree : Config.runFreely l.table text.toUTF8 limit (.start l.table (l.usable? old)) =
      some (root, events)) :
    l.parse text old = some ⟨⟨l, root⟩, events⟩ := by
  obtain ⟨ht, -, hs, items, hguided⟩ := Grammar.guided_table hflat h
  rw [parse, Config.run_of_runFreely ht hs hguided (Outline.tame_of_guided hs hguided hempty) limit _ .nil
    ⟨0, 0, rfl, .inl ⟨rfl, Nat.le_refl _⟩⟩ hfree]
  rfl

/-- An `a` is put behind the note of a text that was parsed before, where no rule goes on with it.  Two
parts of the old tree are taken over, a repair drops the letter, and the counter makes no difference:
the one rule that can be empty is the start rule, which stands in no other. -/
theorem Sums.parse_freely : ∃ p root events,
    Language.parse ⟨0, table⟩ "abcbb" none = some p ∧
    (∀ p ∈ flat.productions, p.rhs = [] → ∀ q ∈ flat.productions, p.lhs ∉ q.rhs) ∧
    Config.runFreely table "abcabb".toUTF8 12
      (.start table (some (p.tree.edit (.splice "abcbb".toUTF8 3 3 "a".toUTF8)).root)) =
        some (root, events) ∧
    (Stats.ofEvents events).reused = 2 ∧ (Stats.ofEvents events).recoveries = 1 ∧
    Language.parse ⟨0, table⟩ "abcabb"
      (some (p.tree.edit (.splice "abcbb".toUTF8 3 3 "a".toUTF8))) =
        some ⟨⟨⟨0, table⟩, root⟩, events⟩ := by
  -- both runs are computed, the one that does not count from the edited tree of the other
  have hrun : (((Config.start table none).doneAfter? table "abcbb".toUTF8 10).bind fun r =>
      (Config.runFreely table "abcabb".toUTF8 12
        (.start table (some (r.1.edit (.splice "abcbb".toUTF8 3 3 "a".toUTF8) .zero)))).map fun q =>
          ((Stats.ofEvents q.2).reused, (Stats.ofEvents q.2).recoveries)) = some (2, 1) := by
    cbv
  obtain ⟨r, hr, hrun⟩ := Option.bind_eq_some_iff.mp hrun
  obtain ⟨⟨root, events⟩, hfree, hrun⟩ := Option.map_eq_some_iff.mp hrun
  simp only [Prod.mk.injEq] at hrun
  have hp : Language.parse ⟨0, table⟩ "abcbb" none = some ⟨⟨⟨0, table⟩, r.1⟩, r.2⟩ := by
    rw [Language.parse, Option.map_eq_some_iff]
    exact ⟨r, Config.run_of_doneAfter? hr, rfl⟩
  -- the one rule that can be empty stands in no other rule
  have hempty : ∀ p ∈ flat.productions, p.rhs = [] → ∀ q ∈ flat.productions, p.lhs ∉ q.rhs := by
    decide
  exact ⟨_, root, events, hp, hempty, hfree, hrun.1, hrun.2, Language.parse_of_runFreely
    (l := ⟨0, table⟩) flatten_grammar table_grammar hempty "abcabb" _ hfree⟩

/-! ## An empty rule that stands in others -/

namespace Crowded

/-- A text is empty or an `x`, behind three pairs of empty texts and another one. -/
def grammar : Grammar where
  name := "g"
  rules := [("s", .choice [.blank,
      .seq [.symbol "s", .symbol "a", .symbol "a", .symbol "a", .string "x"]]),
    ("a", .prec .none (.integer 1) (.seq [.symbol "s", .symbol "s"]))]
  extras := []
  precedences := []
  conflicts := []
  externals := []
  inlined := []
  supertypes := []
  word := none
  reserved := []

/-- The two rules and the token, after the two symbols that every grammar has. -/
def flat : FlatGrammar where
  name := "g"
  symbols := #[⟨"end", none, true, false, false, false⟩, ⟨"ERROR", none, true, true, true, false⟩,
    ⟨"s", none, false, true, true, false⟩, ⟨"a", none, false, true, true, false⟩, FlatSymbol.letter "x"]
  productions := #[⟨2, [], none⟩, ⟨2, [(2, none), (3, none), (3, none), (3, none), (4, none)], none⟩,
    ⟨3, [(2, none), (2, none)], some ⟨1, .none⟩⟩]
  fields := #[]
  start := 2

/-- Its states, in one of which `s` and `a` can be empty again and again. -/
def parser : ParserTable where
  states := #[⟨[(0, .reduce 0), (2, .goto 1), (4, .reduce 0)], 0⟩,
    ⟨[(0, .accept), (2, .goto 2), (3, .goto 3), (4, .reduce 0)], 0⟩,
    ⟨[(2, .goto 4), (3, .goto 3), (4, .reduce 0)], 0⟩, ⟨[(2, .goto 2), (3, .goto 5), (4, .reduce 0)], 0⟩,
    ⟨[(2, .goto 4), (3, .goto 3), (4, .reduce 2)], 0⟩, ⟨[(2, .goto 2), (3, .goto 6), (4, .reduce 0)], 0⟩,
    ⟨[(4, .shift 7)], 0⟩, ⟨[(0, .reduce 1), (4, .reduce 1)], 0⟩]
  lexModes := #[[4]]

/-- The texts in the table, with the automaton of the token. -/
def names : Names := ⟨#["g", "end", "ERROR", "s", "a", "x"], #[⟨5, (Automaton.ofByte 120).encode⟩]⟩

/-- The entries of the symbols. -/
def entries : List (List UInt8) :=
  [[1, 0, 1, 0, 0, 0, 0, 0], [2, 0, 7, 0, 0, 0, 0, 0], [3, 0, 6, 0, 0, 0, 0, 0],
    [4, 0, 6, 0, 0, 0, 0, 0], [5, 0, 21, 0, 1, 0, 0, 0]]

/-- Everything after the header. -/
def body : List UInt8 := Header.filled (TableImage.holds flat parser names entries []) Section.all

/-- The whole table as bytes. -/
def bytes : ByteArray :=
  ofBytes ((TableImage.header flat parser names 0 3266076934 (Header.size + body.length)
    (TableImage.holds flat parser names entries [])).encode ++ body)

/-- The table that is read from the bytes. -/
def table : Table where
  version := 1
  name := "g"
  start := 2
  symbols := #[SymbolInfo.plain "end" true false false false none,
    SymbolInfo.plain "ERROR" true true true false none, SymbolInfo.plain "s" false true true false none,
    SymbolInfo.plain "a" false true true false none, SymbolInfo.plain "x" true false true true (some 1)]
  fields := #[]
  productions := #[⟨2, []⟩, ⟨2, [none, none, none, none, none]⟩, ⟨3, [none, none]⟩]
  states := parser.states
  lexModes := parser.lexModes
  lexemes := #[none, some ⟨"x", Automaton.ofByte 120⟩]

/-- The grammar is flattened as written above. -/
theorem flatten_grammar : grammar.flatten = .ok flat := by
  cbv

/-- The states are those of the flat grammar. -/
theorem ofGrammar_flat : ParserTable.ofGrammar flat = .ok parser := by
  cbv

/-- The texts are collected in the order in which they are met. -/
theorem nameAll_flat :
    (TableImage.nameAll .plain flat).run ⟨#[], #[]⟩ = .ok ((0, entries, []), names) := by
  cbv

/-- The checksum that stands in the header. -/
theorem checksum_body : checksum (ofBytes body) = 3266076934 := by
  rw [checksum_eq]
  decide +kernel

/-- The table is written as these bytes, -/
theorem write_flat : TableImage.write flat parser = .ok bytes := by
  rw [TableImage.write_of_nameAll nameAll_flat rfl (by decide) (by decide) (by decide)
    (by decide +kernel), ← body, checksum_body, bytes]

/-- and put together from its parts it is `table`, -/
theorem ofParts_flat : Table.ofParts flat parser names = table := by
  cbv

/-- which is what is loaded from them. -/
theorem load_bytes : Table.load bytes = .ok table := by
  have hsound := Grammar.sound_flatten flatten_grammar
  rw [← ofParts_flat]
  exact TableImage.load_write hsound (ParserTable.proper_of_ofGrammar hsound ofGrammar_flat)
    (by decide) nameAll_flat (by decide) (by decide +kernel) write_flat

/-- So `table` is the table of the grammar. -/
theorem table_grammar : grammar.table = .ok table :=
  Grammar.table_of_parts flatten_grammar ofGrammar_flat write_flat load_bytes

/-- The text `x` is in the language.  Without counting it is parsed without a repair, with counting the
allowance is used up in front of the `x` and the parse reports an error. -/
theorem parse_crowded : grammar.table = .ok table ∧ ∃ root events p,
    Config.runFreely table "x".toUTF8 14 (.start table none) = some (root, events) ∧
    Language.parse ⟨0, table⟩ "x" none = some p ∧ (Stats.ofEvents events).recoveries = 0 ∧
    p.stats.recoveries = 1 ∧ root.hasError = false ∧ p.tree.root.hasError = true := by
  -- one run has no bound on its reductions, the other stops where the bound is reached
  have hfree : (Config.runFreely table "x".toUTF8 14 (.start table none)).map
      (fun r => ((Stats.ofEvents r.2).recoveries, r.1.hasError)) = some (0, false) := by
    cbv
  have hcount : ((Config.start table none).doneAfter? table "x".toUTF8 14).map
      (fun r => ((Stats.ofEvents r.2).recoveries, r.1.hasError)) = some (1, true) := by
    cbv
  obtain ⟨⟨root, events⟩, hroot, hfree⟩ := Option.map_eq_some_iff.mp hfree
  obtain ⟨q, hq, hcount⟩ := Option.map_eq_some_iff.mp hcount
  rw [Prod.mk.injEq] at hfree hcount
  refine ⟨table_grammar, root, events, ⟨⟨⟨0, table⟩, q.1⟩, q.2⟩, hroot, ?_, hfree.1, hcount.1, hfree.2,
    hcount.2⟩
  rw [Language.parse, Option.map_eq_some_iff]
  exact ⟨q, Config.run_of_doneAfter? hq, rfl⟩

end Crowded

end IncrementalParsing
