import IncrementalParsing.Proofs.Lalr.Operators

/-!
# What the table of an operator grammar does

The states of an operator grammar are at known spots.  Lookaheads reach each of them: an operand can be
followed by any operator and by the end of the text.  So a state after an operand finishes it, and a
state after an operation finishes the operation or reads the next operator, as the two of them bind.

## Key results

- `Spot.At.next`: symbols lead from a spot to a spot, and what can follow is kept
- `OperatorRules.exists_chooseAction`: no state is in conflict
- `OperatorRules.exists_operates`: there is a table, and what it does
-/

namespace IncrementalParsing

open RuleBook (ofGrammar)

variable {g : FlatGrammar} {graph : StateGraph} {n : Nat} {first : Fin (n + 1)} {operand : Nat}
  {operator : Fin n → Nat} {binding : Fin n → Binding}

theorem FirstSets.mem_after_nil {set : SymbolSet} {token : Nat} (h : set.mem token = true) :
    (after g [] set).mem token = true := by
  rw [mem_after, h]
  simp [ofRow]

/-! ## States at spots -/

/-- What can follow an item: the end of the text, and any operator unless the item is the whole
text. -/
def Item.FollowedBy (operator : Fin n → Nat) (i : Item) (token : Nat) : Prop :=
  token = Symbol.finish ∨ (i.production ≤ n ∧ ∃ j, token = operator j)

/-- The production that has been read at a spot. -/
def Spot.finished? (first : Fin (n + 1)) : Spot n → Option Nat
  | .whole => some (n + 1)
  | .operand => some first
  | .operation i => some (operationAt first i)
  | .start | .operator _ => none

/-- What is chosen at a spot: to finish what has been read, where the token can follow it, and
otherwise to read the token; after an operation, how the operators bind decides which of the two it
is. -/
structure Spot.Decides (g : FlatGrammar) (first : Fin (n + 1)) (operator : Fin n → Nat)
    (binding : Fin n → Binding) (spot : Spot n) (token : Nat) (finished : List Nat) (target : Option Nat)
    (found : Option Action) : Prop where
  read : finished = [] → found = target.map .shift
  finish : ∀ p, finished = [p] → target = none → found = some ((ofGrammar g).reduction p)
  between : ∀ i j t, spot = .operation i → token = operator j → finished ≠ [] → target = some t →
    found = some (if (binding i).Precedes (binding j) then .reduce (operationAt first i) else .shift t)

/-- A state is at a spot, and what can follow the items of the spot can do so in the state. -/
structure Spot.At (g : FlatGrammar) (first : Fin (n + 1)) (operator : Fin n → Nat)
    (graph : StateGraph) (spot : Spot n) (state : StateId) : Prop where
  kernel : graph.kernels[state]? = some (spot.kernel first)
  follows : ∀ i, spot.Holds first i → ∀ token, i.FollowedBy operator token →
    ∃ set, graph.Stands g state i set ∧ set.mem token = true

namespace OperatorRules

variable (hr : OperatorRules g first operand operator binding)
include hr

/-- Before the start symbol, a state stands at the beginning of each production. -/
theorem stands_begin (hs : graph.Sound g) {state : Nat} {i : Item} {set : SymbolSet}
    (h : graph.Stands g state i set) {row : List Nat}
    (hrow : (g.row i.production).drop i.dot = g.start :: row) {p : Nat} (hp : p ≤ n) {token : Nat}
    (htoken : (FirstSets.after g row set).mem token = true) :
    ∃ set, graph.Stands g state ⟨p, 0⟩ set ∧ set.mem token = true := by
  obtain ⟨q, hq, hlhs, -⟩ := hr.exists_production hp
  obtain ⟨set', hset', hwithin⟩ := h.begin hr.sound hs hq (hlhs ▸ hrow)
  exact ⟨set', hset', hwithin token htoken⟩

/-- A state stands at what its spot holds. -/
theorem exists_stands (hs : graph.Sound g) {spot : Spot n} {state : Nat}
    (hk : graph.kernels[state]? = some (spot.kernel first)) {i : Item} (hi : spot.Holds first i) :
    ∃ set, graph.Stands g state i set := by
  have hl := StateGraph.fits_lookaheads hr.sound hs
  obtain ⟨set, hset⟩ := RuleBook.mem_closure_of_closed hr.sound (hl.below_kernel state)
    (i := i) (by
      rw [hl.map_kernel, Array.getD_eq_getD_getElem?, hk]
      exact hr.closed_iff.mpr hi)
  exact ⟨set, (Array.getElem?_eq_some_iff.mp hk).1, hset⟩

/-- What a state stands at, its spot holds. -/
theorem holds_of_mem_closure (hs : graph.Sound g) {spot : Spot n} {state : Nat}
    (hk : graph.kernels[state]? = some (spot.kernel first)) {i : Item} {set : SymbolSet}
    (h : (i, set) ∈ (ofGrammar g).closure (graph.kernel (graph.lookaheads (ofGrammar g)) state)) :
    spot.Holds first i := by
  have hclosed := RuleBook.closed_of_mem_closure h
  rw [(StateGraph.fits_lookaheads hr.sound hs).map_kernel, Array.getD_eq_getD_getElem?, hk] at hclosed
  exact hr.closed_iff.mp hclosed

/-- An operator of which the left operand comes next can follow that. -/
theorem mem_after_operator (i : Fin n) (set : SymbolSet) :
    (FirstSets.after g [operator i, g.start] set).mem (operator i) = true := by
  rw [FirstSets.mem_after, FirstSets.ofRow, if_pos (hr.operator_terminal i)]
  simp

/-- The first state is at the start. -/
theorem at_start (hs : graph.Sound g) : Spot.start.At g first operator graph 0 := by
  have hk : graph.kernels[0]? = some ((Spot.start : Spot n).kernel first) := by
    rw [hs.zero, hr.kernel_start]
  have hfirst : graph.Stands g 0 ⟨n + 1, 0⟩ (.singleton 0) :=
    hr.size ▸ hs.stands_start hr.sound
  refine ⟨hk, fun i hi token htoken => ?_⟩
  obtain hi | ⟨-, hdot, hp⟩ := hi
  · obtain rfl := List.mem_singleton.mp hi
    obtain rfl | ⟨hle, -⟩ := htoken
    · exact ⟨_, hfirst, by simp [Symbol.finish]⟩
    · exact absurd hle (Nat.not_succ_le_self n)
  -- a production that has not been begun is followed by what follows the start symbol
  · obtain ⟨p, dot⟩ := i
    subst hdot
    obtain rfl | ⟨-, j, rfl⟩ := htoken
    · exact hr.stands_begin hs hfirst (by rw [hr.row_accepting]; rfl) hp
        (FirstSets.mem_after_nil (by simp [Symbol.finish]))
    -- which is the end of the text or an operator behind the left operand
    · obtain ⟨set, hset⟩ := hr.exists_stands hs hk (i := ⟨operationAt first j, 0⟩)
        (Spot.holds_begin.mpr (.inr ⟨rfl, operationAt_le first j⟩))
      exact hr.stands_begin hs hset (by rw [hr.row_operation]; rfl) hp
        (hr.mem_after_operator j set)

/-- Symbols lead from a spot to a spot, and what can follow is kept. -/
theorem at_of_leads (hs : graph.Sound g) {spot spot' : Spot n} {state : StateId} {symbol : Nat}
    (h : spot.At g first operator graph state)
    (hleads : Spot.Leads g operand operator spot symbol spot') :
    ∃ target, graph.target? state symbol = some target ∧ spot'.At g first operator graph target := by
  obtain ⟨i, hi, hnext⟩ : ∃ i, spot.Holds first i ∧ (ofGrammar g).next? i = some symbol := by
    obtain ⟨j, hj⟩ := spot'.exists_mem_items first
    obtain ⟨i, hi, hnext, -⟩ := (hr.mem_items_of_leads hleads).mp hj
    exact ⟨i, hi, hnext⟩
  obtain ⟨set, hset⟩ := hr.exists_stands hs h.kernel hi
  obtain ⟨target, -, htarget, -⟩ := hset.next hr.sound hs hnext
  obtain ⟨items, hitems⟩ := StateGraph.exists_mem_successors hr.sound (hr.closed_iff.mpr hi) hnext
  -- the state that the symbol leads to has the items of the new spot
  have hk : graph.kernels[target]? = some (spot'.kernel first) := by
    rw [(hs.leads state _ h.kernel).exact symbol target (StateGraph.mem_of_lookup htarget) items
      hitems, hr.map_successors_of_leads hleads hitems]
  -- what has been begun is followed by what could follow it before
  have hbegun : ∀ j ∈ spot'.items first, ∀ token, j.FollowedBy operator token →
      ∃ set, graph.Stands g target j set ∧ set.mem token = true := by
    intro j hj token htoken
    obtain ⟨i, hi, hnext, rfl⟩ := (hr.mem_items_of_leads hleads).mp hj
    obtain ⟨set, hset, hmem⟩ := h.follows i hi token htoken
    obtain ⟨target', set', htarget', hset', hwithin⟩ := hset.next hr.sound hs hnext
    obtain rfl : target = target' := Option.some.inj (htarget.symm.trans htarget')
    exact ⟨set', hset', hwithin token hmem⟩
  refine ⟨target, htarget, hk, fun j hj token htoken => ?_⟩
  obtain hj | ⟨hopens, hdot, hp⟩ := hj
  · exact hbegun j hj token htoken
  · obtain ⟨p, dot⟩ := j
    subst hdot
    -- an operand that comes next is followed by what can follow the operation
    cases hleads with
    | operator _ k =>
      obtain ⟨set, hset, hmem⟩ := hbegun ⟨operationAt first k, 2⟩ (List.mem_singleton_self _) token
        (htoken.imp_right fun h => ⟨operationAt_le first k, h.2⟩)
      exact hr.stands_begin hs hset (by rw [hr.row_operation]; rfl) hp (FirstSets.mem_after_nil hmem)
    | whole | operand | operation => cases hopens

/-! ## What a state does -/

theorem finished?_of_next? {spot : Spot n} {i : Item} (h : spot.Holds first i)
    (hnext : (ofGrammar g).next? i = none) : spot.finished? first = some i.production := by
  -- an operation that goes on with its operator is not complete
  have hcontinued : ∀ j : Fin n, (ofGrammar g).next? ⟨operationAt first j, 1⟩ ≠ none := fun j hj => by
    rw [hr.next?_operation] at hj
    cases hj
  obtain hi | ⟨hopens, hdot, hp⟩ := h
  · cases spot with
    | start =>
      rw [List.mem_singleton.mp hi, hr.next?_accepting] at hnext
      cases hnext
    | operator j =>
      rw [List.mem_singleton.mp hi, hr.next?_operation] at hnext
      cases hnext
    | operand =>
      rw [List.mem_singleton.mp hi]
      rfl
    | whole | operation =>
      obtain rfl | hi := List.mem_cons.mp hi
      · rfl
      · obtain ⟨j, rfl⟩ := Spot.mem_continued.mp hi
        exact absurd hnext (hcontinued j)
  -- nor is a production that has not been begun, as none is empty
  · obtain ⟨p, dot⟩ := i
    subst hdot
    obtain ⟨q, hq, -, ⟨-, hrhs⟩ | ⟨j, -, hrhs⟩⟩ := hr.exists_production hp <;>
    · rw [RuleBook.next?_ofGrammar, FlatGrammar.row_of_production hq, hrhs] at hnext
      cases hnext

/-- A state finishes nothing, or what has been read at its spot. -/
theorem finished_cases (hs : graph.Sound g) {spot : Spot n} {state : Nat}
    (hk : graph.kernels[state]? = some (spot.kernel first)) (token : Nat) :
    (ofGrammar g).finished ((ofGrammar g).closure
        (graph.kernel (graph.lookaheads (ofGrammar g)) state)) token = [] ∨
      ∃ p, spot.finished? first = some p ∧ (ofGrammar g).finished ((ofGrammar g).closure
        (graph.kernel (graph.lookaheads (ofGrammar g)) state)) token = [p] := by
  have hnodup := StateGraph.nodup_finished hr.sound hs (Array.getElem?_eq_some_iff.mp hk).1 token
  -- all complete items are of one production
  have hall : ∀ p ∈ (ofGrammar g).finished ((ofGrammar g).closure
      (graph.kernel (graph.lookaheads (ofGrammar g)) state)) token, spot.finished? first = some p := by
    intro p hp
    obtain ⟨i, set, hi, rfl, hnext, -⟩ := RuleBook.mem_finished.mp hp
    exact hr.finished?_of_next? (hr.holds_of_mem_closure hs hk hi) hnext
  generalize (ofGrammar g).finished _ token = finished at hnodup hall
  obtain _ | ⟨p, _ | ⟨q, rest⟩⟩ := finished
  · exact .inl rfl
  · exact .inr ⟨p, hall p (List.mem_singleton_self p), rfl⟩
  · obtain rfl : p = q := Option.some.inj ((hall p (by simp)).symm.trans (hall q (by simp)))
    simp at hnodup

/-- A token leads from a state to another spot. -/
theorem leads_of_target? (hs : graph.Sound g)
    (hfamily : ∀ (state : Nat) (kernel : List Item), graph.kernels[state]? = some kernel →
      ∃ spot : Spot n, kernel = spot.kernel first) {spot : Spot n} {state symbol target : Nat}
    (hk : graph.kernels[state]? = some (spot.kernel first))
    (h : graph.target? state symbol = some target) :
    ∃ spot', Spot.Leads g operand operator spot symbol spot' := by
  obtain ⟨-, -, kernel, hkernel, hall⟩ :=
    (hs.leads state _ hk).target symbol target (StateGraph.mem_of_lookup h)
  -- every kernel of the graph is that of a spot, so the target is one
  obtain ⟨spot', rfl⟩ := hfamily target kernel hkernel
  obtain ⟨j, hj⟩ := spot'.exists_mem_items first
  obtain ⟨i, hi, hnext, -⟩ := hall j (Spot.mem_kernel.mpr hj)
  exact hr.exists_leads (hr.closed_iff.mp hi) hnext

/-- Only the whole text is accepted. -/
theorem reduction_eq {p : Nat} (hp : p ≤ n) : (ofGrammar g).reduction p = .reduce p := by
  refine RuleBook.reduction_of_lt ?_ ?_
  · rw [hr.size]
    exact hr.few
  · rw [hr.size]
    exact Nat.lt_succ_of_le hp

/-- How two operators bind decides between them. -/
theorem shiftOrReduce_operation {token target : Nat} (i j : Fin n) {shifting : List Nat}
    (hshifting : shifting ≠ []) (hall : ∀ q ∈ shifting, q = operationAt first j) :
    (ofGrammar g).shiftOrReduce token target (operationAt first i) shifting = .ok
      (if (binding i).Precedes (binding j) then .reduce (operationAt first i) else .shift target) := by
  have hbinding : ∀ k, (ofGrammar g).binding? (operationAt first k) = some (binding k) := fun k => by
    obtain ⟨q, hq, -, -, hbinding⟩ := hr.operation k
    change (g.productions[operationAt first k]?).bind (·.binding) = _
    rw [hq]
    exact hbinding
  -- all that is shifting is the same operation, so its largest precedence is its own
  have hmax : ∀ m, (List.replicate m (binding j).value).foldl max (binding j).value =
      (binding j).value := fun m => by
    induction m with
    | zero => rfl
    | succ m ih => rw [List.replicate_succ, List.foldl_cons, max_self, ih]
  have htightness : (ofGrammar g).tightness (operationAt first i) = (binding i).value := by
    rw [RuleBook.tightness, hbinding]
    rfl
  -- the list is not empty, and every entry is `operationAt first j`
  obtain ⟨m, rfl⟩ : ∃ m, shifting = List.replicate (m + 1) (operationAt first j) := by
    refine ⟨shifting.length - 1, ?_⟩
    rw [Nat.sub_add_cancel (List.length_pos_iff.mpr hshifting)]
    exact List.eq_replicate_iff.mpr ⟨rfl, hall⟩
  have hvalues : (((List.replicate (m + 1) (operationAt first j)).filterMap (ofGrammar g).binding?).map
      (·.value)) = (binding j).value :: List.replicate m (binding j).value := by
    rw [List.filterMap_replicate_of_some (hbinding j), List.map_replicate, List.replicate_succ]
  have hgrouped := hr.grouped i
  unfold RuleBook.shiftOrReduce
  rw [hvalues, hbinding, htightness, hr.reduction_eq (operationAt_le first i)]
  dsimp only
  simp only [hmax]
  generalize binding i = own at hgrouped
  obtain ⟨value, associativity⟩ := own
  dsimp only at hgrouped ⊢
  -- the one that binds tighter comes first, and among equals the one on the side they group to
  by_cases hlt : (binding j).value < value
  · rw [if_pos hlt, if_pos (show Binding.Precedes _ _ from .inl hlt)]
  · rw [if_neg hlt]
    by_cases hgt : value < (binding j).value
    · rw [if_pos hgt, if_neg fun h : Binding.Precedes _ _ =>
        h.elim hlt fun h => absurd h.1 (Int.ne_of_lt hgt)]
    · have heq : value = (binding j).value := by omega
      rw [if_neg hgt]
      cases associativity with
      | none => exact absurd rfl hgrouped
      | left => rw [if_pos (show Binding.Precedes _ _ from .inr ⟨heq, rfl⟩)]
      | right => rw [if_neg fun h : Binding.Precedes _ _ => h.elim hlt fun h => by cases h.2]

/-- Only the operator is read where an operator is to be read. -/
theorem shifting_operation (hs : graph.Sound g) {state : Nat} {i : Fin n} (j : Fin n)
    (hk : graph.kernels[state]? = some ((Spot.operation i).kernel first)) :
    (ofGrammar g).shifting ((ofGrammar g).closure
        (graph.kernel (graph.lookaheads (ofGrammar g)) state)) (operator j) ≠ [] ∧
      ∀ q ∈ (ofGrammar g).shifting ((ofGrammar g).closure
        (graph.kernel (graph.lookaheads (ofGrammar g)) state)) (operator j), q = operationAt first j := by
  constructor
  · obtain ⟨set, -, hset⟩ :=
      hr.exists_stands hs hk (i := ⟨operationAt first j, 1⟩) (Spot.holds_left.mpr rfl)
    exact List.ne_nil_of_mem
      (RuleBook.mem_shifting.mpr ⟨_, set, hset, rfl, hr.next?_operation j 1⟩)
  -- conversely the operator comes next only behind its own left operand
  · intro q hq
    obtain ⟨k, set, hset, rfl, hnext⟩ := RuleBook.mem_shifting.mp hq
    have hholds := hr.holds_of_mem_closure hs hk hset
    obtain ⟨rfl, -⟩ | ⟨-, h⟩ | ⟨k', ⟨-, h⟩ | ⟨rfl, h⟩ | ⟨-, h⟩⟩ := hr.next?_cases hnext
    · obtain ⟨h, -⟩ | ⟨h, -⟩ := Spot.holds_begin.mp hholds <;> cases h
    · exact absurd h (hr.ne_start (hr.operator_terminal j))
    · exact absurd h (hr.ne_start (hr.operator_terminal j))
    · rw [hr.injective h]
    · exact absurd h (hr.ne_start (hr.operator_terminal j))

/-- The whole text is finished at its end only. -/
theorem finished_whole (hs : graph.Sound g) {state : Nat} (j : Fin n)
    (hk : graph.kernels[state]? = some ((Spot.whole : Spot n).kernel first)) :
    (ofGrammar g).finished ((ofGrammar g).closure
      (graph.kernel (graph.lookaheads (ofGrammar g)) state)) (operator j) = [] := by
  obtain hnil | ⟨p, hp, hone⟩ := hr.finished_cases hs hk (operator j)
  · exact hnil
  · obtain ⟨i, set, hi, rfl, -, hset⟩ := RuleBook.mem_finished.mp
      (hone ▸ List.mem_singleton_self p)
    have haccepting := (StateGraph.fits_lookaheads hr.sound hs).accepting state
    -- the accepting production ends in front of the end of the text only, which is no operator
    have := RuleBook.within_of_mem_closure haccepting hi
      (by rw [hr.size]; exact (Option.some.inj hp).symm) _ hset
    rw [SymbolSet.mem_singleton, decide_eq_true_eq] at this
    exact absurd this.symm (hr.operator_ne_zero j)

/-- No state is in conflict. -/
theorem exists_decides (hs : graph.Sound g)
    (hfamily : ∀ (state : Nat) (kernel : List Item), graph.kernels[state]? = some kernel →
      ∃ spot : Spot n, kernel = spot.kernel first) {spot : Spot n} {state : Nat}
    (hk : graph.kernels[state]? = some (spot.kernel first)) {token : Nat}
    (ht : g.isTerminal token = true) :
    ∃ found, (ofGrammar g).chooseAction ((ofGrammar g).closure
        (graph.kernel (graph.lookaheads (ofGrammar g)) state)) token (graph.target? state token) =
        .ok found ∧
      spot.Decides g first operator binding token ((ofGrammar g).finished ((ofGrammar g).closure
        (graph.kernel (graph.lookaheads (ofGrammar g)) state)) token) (graph.target? state token)
        found := by
  obtain hnil | ⟨p, hp, hone⟩ := hr.finished_cases hs hk token
  · refine ⟨_, RuleBook.chooseAction_of_finished_nil hnil _, fun _ => rfl, fun p h => ?_,
      fun _ _ _ _ _ h => absurd hnil h⟩
    cases hnil.symm.trans h
  -- one production is finished, and the token may lead on as well
  · cases htarget : graph.target? state token with
    | none =>
      refine ⟨_, RuleBook.chooseAction_of_finished hone, fun h => ?_, fun q h _ => ?_,
        fun _ _ _ _ _ _ h => by cases h⟩
      · cases hone.symm.trans h
      · rw [List.singleton_inj.mp (hone.symm.trans h)]
    | some target =>
      obtain ⟨spot', hleads⟩ := hr.leads_of_target? hs hfamily hk htarget
      -- a token leads on to an operand or to an operator, and only the latter where something is
      -- finished
      cases hleads with
      | whole | operation => exact absurd rfl (hr.ne_start ht)
      | operand hopens =>
        cases spot with
        | start | operator => cases hp
        | whole | operand | operation => cases hopens
      | operator hends k =>
        cases spot with
        | start | operand | operator => cases hends
        | whole =>
          cases hone.symm.trans (hr.finished_whole hs k hk)
        | operation i =>
          -- an operation has ended in front of an operator, so the bindings decide
          obtain rfl : operationAt first i = p := Option.some.inj hp
          obtain ⟨hne, hall⟩ := hr.shifting_operation hs k hk
          refine ⟨_, RuleBook.chooseAction_of_both hone (hr.shiftOrReduce_operation i k hne hall),
            fun h => ?_, fun q _ h => (by cases h), fun i' j' t hi hj _ ht => ?_⟩
          · cases hone.symm.trans h
          · cases hi
            cases ht
            rw [hr.injective hj]

/-- What can be followed by a token is finished on it. -/
theorem finished_of_at (hs : graph.Sound g) {spot : Spot n} {state : StateId}
    (h : spot.At g first operator graph state) {i : Item} (hi : spot.Holds first i)
    (hnext : (ofGrammar g).next? i = none) {token : Nat} (htoken : i.FollowedBy operator token) :
    (ofGrammar g).finished ((ofGrammar g).closure
      (graph.kernel (graph.lookaheads (ofGrammar g)) state)) token = [i.production] := by
  obtain ⟨set, ⟨-, hset⟩, hmem⟩ := h.follows i hi token htoken
  have hfinished := RuleBook.mem_finished.mpr ⟨i, set, hset, rfl, hnext, hmem⟩
  -- at most one production ends in a state
  obtain hnil | ⟨p, -, hone⟩ := hr.finished_cases hs h.kernel token
  · rw [hnil] at hfinished
    cases hfinished
  · rw [hone] at hfinished ⊢
    rw [List.mem_singleton.mp hfinished]

/-- Before an operand, nothing is finished. -/
theorem finished_of_opens (hs : graph.Sound g) {spot : Spot n} {state : Nat}
    (hk : graph.kernels[state]? = some (spot.kernel first)) (hopens : spot.opens = true) (token : Nat) :
    (ofGrammar g).finished ((ofGrammar g).closure
      (graph.kernel (graph.lookaheads (ofGrammar g)) state)) token = [] := by
  obtain hnil | ⟨p, hp, -⟩ := hr.finished_cases hs hk token
  · exact hnil
  · cases spot with
    | start | operator => cases hp
    | whole | operand | operation => cases hopens

/-- After an operand, nothing is read. -/
theorem target?_operand (hs : graph.Sound g)
    (hfamily : ∀ (state : Nat) (kernel : List Item), graph.kernels[state]? = some kernel →
      ∃ spot : Spot n, kernel = spot.kernel first) {state : Nat}
    (hk : graph.kernels[state]? = some ((Spot.operand : Spot n).kernel first)) (symbol : Nat) :
    graph.target? state symbol = none := by
  rw [Option.eq_none_iff_forall_ne_some]
  intro target htarget
  obtain ⟨spot', hleads⟩ := hr.leads_of_target? hs hfamily hk htarget
  cases hleads with
  | operand h => cases h
  | operator h => cases h

end OperatorRules

/-- What a table does that reads operations: it has states at each spot, where it reads what comes
next and finishes what has been read. -/
structure ParserTable.Operates (p : ParserTable) (g : FlatGrammar) {n : Nat} (first : Fin (n + 1))
    (operand : Nat) (operator : Fin n → Nat) (binding : Fin n → Binding)
    (At : Spot n → StateId → Prop) : Prop where
  start : At .start 0
  reads_operand : ∀ spot state, At spot state → spot.opens = true →
    ∃ target, p.action? state operand = some (.shift target) ∧ At .operand target
  finishes_operand : ∀ state token, At .operand state →
    (token = Symbol.finish ∨ ∃ j, token = operator j) → p.action? state token = some (.reduce first)
  goto : ∀ spot spot' state, At spot state → Spot.Leads g operand operator spot g.start spot' →
    ∃ target, p.goto? state g.start = some target ∧ At spot' target
  reads_first : ∀ state j, At .whole state →
    ∃ target, p.action? state (operator j) = some (.shift target) ∧ At (.operator j) target
  accepts : ∀ state, At .whole state → p.action? state Symbol.finish = some .accept
  finishes_last : ∀ state i, At (.operation i) state →
    p.action? state Symbol.finish = some (.reduce (operationAt first i))
  finishes : ∀ state i j, At (.operation i) state → (binding i).Precedes (binding j) →
    p.action? state (operator j) = some (.reduce (operationAt first i))
  reads : ∀ state i j, At (.operation i) state → ¬(binding i).Precedes (binding j) →
    ∃ target, p.action? state (operator j) = some (.shift target) ∧ At (.operator j) target

/-- A table has no more states than there are spots. -/
theorem OperatorRules.states_le (hr : OperatorRules g first operand operator binding)
    (hn : 2 * n + 3 ≤ StateGraph.maxStates) {p : ParserTable} (hp : ParserTable.ofGrammar g = .ok p) :
    p.states.size ≤ 2 * n + 3 := by
  obtain ⟨graph, hgraph, hsize, -⟩ := hr.ofRules_ok hn
  obtain ⟨graph', hgraph', hsize', -⟩ := ParserTable.actions_of_ofGrammar hp
  cases hgraph.symm.trans hgraph'
  rwa [hsize']

/-- Operator grammars have tables, which read operations. -/
theorem OperatorRules.exists_operates (hr : OperatorRules g first operand operator binding)
    (hn : 2 * n + 3 ≤ StateGraph.maxStates) :
    ∃ p At, ParserTable.ofGrammar g = .ok p ∧ p.Operates g first operand operator binding At := by
  obtain ⟨graph, hgraph, -, hfamily⟩ := hr.ofRules_ok hn
  have hs := StateGraph.sound_ofRules hr.sound hgraph
  -- an action is chosen in every state for every token, so the table is made
  have hchoose : ∀ state token, ∃ found, state < graph.kernels.size → g.isTerminal token = true →
      (ofGrammar g).chooseAction ((ofGrammar g).closure
        (graph.kernel (graph.lookaheads (ofGrammar g)) state)) token (graph.target? state token) =
          .ok found := by
    intro state token
    by_cases h : state < graph.kernels.size ∧ g.isTerminal token = true
    · have hk := Array.getElem?_eq_getElem h.1
      obtain ⟨spot, hspot⟩ := hfamily state _ hk
      obtain ⟨found, hfound, -⟩ := hr.exists_decides hs hfamily (hspot ▸ hk) h.2
      exact ⟨found, fun _ _ => hfound⟩
    · exact ⟨none, fun hstate ht => absurd ⟨hstate, ht⟩ h⟩
  choose found hfound using hchoose
  obtain ⟨p, hp, hgives⟩ := ParserTable.gives_of_ofGrammar hr.sound hgraph
    fun state hstate token ht => hfound state token hstate ht
  -- what was chosen is what the spot decides
  have hdecides : ∀ {spot : Spot n} {state : StateId}, spot.At g first operator graph state →
      ∀ {token}, g.isTerminal token = true → spot.Decides g first operator binding token
        ((ofGrammar g).finished ((ofGrammar g).closure
          (graph.kernel (graph.lookaheads (ofGrammar g)) state)) token) (graph.target? state token)
        (found state token) := by
    intro spot state h token ht
    obtain ⟨found', hfound', hdecides⟩ := hr.exists_decides hs hfamily h.kernel ht
    have heq := hfound'.symm.trans (hfound state token (Array.getElem?_eq_some_iff.mp h.kernel).1 ht)
    rwa [Except.ok.inj heq] at hdecides
  have haction : ∀ {spot : Spot n} {state : StateId}, spot.At g first operator graph state →
      ∀ {token a}, g.isTerminal token = true → found state token = some a →
        p.action? state token = some a := fun h _ _ ht ha =>
    hgives.action _ (Array.getElem?_eq_some_iff.mp h.kernel).1 _ ht _ ha
  have hterminal := hr.operator_terminal
  -- where an operation may be finished, an operator can also go on
  have hboth : ∀ {i : Fin n} {state : StateId}, Spot.At g first operator graph (.operation i) state →
      ∀ j, (ofGrammar g).finished ((ofGrammar g).closure
        (graph.kernel (graph.lookaheads (ofGrammar g)) state)) (operator j) ≠ [] := by
    intro i state h j
    rw [hr.finished_of_at hs h (i := ⟨operationAt first i, 3⟩) (.inl (List.mem_cons_self ..))
      (hr.next?_operation i 3) (.inr ⟨operationAt_le first i, j, rfl⟩)]
    exact List.cons_ne_nil _ _
  refine ⟨p, fun spot state => spot.At g first operator graph state, hp, ?_⟩
  constructor
  case start => exact hr.at_start hs
  -- otherwise the operator is shifted
  case reads_operand =>
    intro spot state h hopens
    obtain ⟨target, htarget, hat⟩ := hr.at_of_leads hs h (.operand hopens)
    refine ⟨target, haction h hr.operand_terminal ?_, hat⟩
    rw [(hdecides h hr.operand_terminal).read (hr.finished_of_opens hs h.kernel hopens operand),
      htarget]
    rfl
  case finishes_operand =>
    intro state token h htoken
    have ht : g.isTerminal token = true := by
      obtain rfl | ⟨j, rfl⟩ := htoken
      · exact hr.sound.isTerminal_finish
      · exact hterminal j
    refine haction h ht (((hdecides h ht).finish first ?_ ?_).trans ?_)
    · exact hr.finished_of_at hs h (i := ⟨first, 1⟩) (.inl (List.mem_singleton_self _))
        hr.next?_operand_end (htoken.imp_right fun h => ⟨Nat.le_of_lt_succ first.isLt, h⟩)
    · exact hr.target?_operand hs hfamily h.kernel token
    · rw [hr.reduction_eq (Nat.le_of_lt_succ first.isLt)]
  case goto =>
    intro spot spot' state h hleads
    obtain ⟨target, htarget, hat⟩ := hr.at_of_leads hs h hleads
    exact ⟨target, hgives.goto _ (Array.getElem?_eq_some_iff.mp h.kernel).1 _ hr.sound.start.2.1
      hr.sound.start.2.2 target htarget, hat⟩
  case reads_first =>
    intro state j h
    obtain ⟨target, htarget, hat⟩ := hr.at_of_leads hs h (.operator rfl j)
    refine ⟨target, haction h (hterminal j) ?_, hat⟩
    rw [(hdecides h (hterminal j)).read (hr.finished_whole hs j h.kernel), htarget]
    rfl
  case accepts =>
    intro state h
    refine haction h hr.sound.isTerminal_finish
      (((hdecides h hr.sound.isTerminal_finish).finish (n + 1) ?_
        (hs.target?_finish hr.sound h.kernel)).trans ?_)
    · exact hr.finished_of_at hs h (i := ⟨n + 1, 1⟩) (.inl (List.mem_cons_self ..))
        hr.next?_accepting_end (.inl rfl)
    · rw [RuleBook.reduction, if_pos]
      exact hr.size.symm
  case finishes_last =>
    intro state i h
    refine haction h hr.sound.isTerminal_finish (((hdecides h hr.sound.isTerminal_finish).finish
      (operationAt first i) ?_ (hs.target?_finish hr.sound h.kernel)).trans ?_)
    · exact hr.finished_of_at hs h (i := ⟨operationAt first i, 3⟩) (.inl (List.mem_cons_self ..))
        (hr.next?_operation i 3) (.inl rfl)
    · rw [hr.reduction_eq (operationAt_le first i)]
  case finishes =>
    intro state i j h hprecedes
    obtain ⟨target, htarget, -⟩ := hr.at_of_leads hs h (.operator rfl j)
    refine haction h (hterminal j) (((hdecides h (hterminal j)).between i j target rfl rfl
      (hboth h j) htarget).trans ?_)
    rw [if_pos hprecedes]
  case reads =>
    intro state i j h hprecedes
    obtain ⟨target, htarget, hat⟩ := hr.at_of_leads hs h (.operator rfl j)
    refine ⟨target, haction h (hterminal j) (((hdecides h (hterminal j)).between i j target rfl rfl
      (hboth h j) htarget).trans ?_), hat⟩
    rw [if_neg hprecedes]

end IncrementalParsing
