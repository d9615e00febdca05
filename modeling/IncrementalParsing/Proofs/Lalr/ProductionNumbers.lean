import IncrementalParsing.Proofs.Grammar.FlatteningRuns
import IncrementalParsing.Proofs.Lalr.Choices
import IncrementalParsing.Proofs.Lalr.Families
import IncrementalParsing.Proofs.Pattern.Literals

/-!
# Productions that actions cannot tell apart

The action that finishes a production names it by 16 bits of its number.  In a grammar with more
productions than these tell apart, an action can name another production than the one that was read,
and then the parser table does not read the sentences of the grammar.  No state of it need be in
conflict: here is a grammar whose start symbol is one token and nothing else, and in which as many
productions as have numbers come before that of the start symbol.

## Key results

- `Lone.length_candidates_le`: a start symbol that is one token has no conflicts
- `Lone.not_accepts`: it is not accepted where its production is taken for one of two parts
- `Overfull.not_accepts_letter`: a grammar for which this is so
-/

namespace IncrementalParsing

open RuleBook (ofGrammar)

/-- The start symbol of a flat grammar is the token `a`, by the production `p` and no other. -/
structure Lone (g : FlatGrammar) (p a : Nat) : Prop where
  sound : g.Sound
  production : ∃ q, g.productions[p]? = some q ∧ q.lhs = g.start ∧ q.rhs = [a]
  only : ∀ n q, g.productions[n]? = some q → q.lhs = g.start → n = p
  terminal : g.isTerminal a = true

namespace Lone

variable {g : FlatGrammar} {graph : StateGraph} {p a : Nat} (h : Lone g p a)
include h

/-! ## States -/

theorem row_eq : g.row p = [a] := by
  obtain ⟨q, hq, -, hrhs⟩ := h.production
  rw [FlatGrammar.row_of_production hq, hrhs]

/-- What comes next in the items that states are made of. -/
theorem next?_eq (dot : Nat) : (ofGrammar g).next? ⟨p, dot⟩ = [a][dot]? ∧
    (ofGrammar g).next? ⟨g.productions.size, dot⟩ = [g.start][dot]? := by
  simp only [RuleBook.next?_ofGrammar, h.row_eq, g.row_accepting, and_self]

/-- The start is followed by the production of the start symbol. -/
theorem eq_of_closed_start {i : Item} (hi : (ofGrammar g).Closed [⟨g.productions.size, 0⟩] i) :
    i = ⟨g.productions.size, 0⟩ ∨ i = ⟨p, 0⟩ := by
  -- the start symbol has one production, which is `p`
  have honly : ∀ {n}, n ∈ (ofGrammar g).productionsOf g.start → n = p := fun hn => by
    obtain ⟨q, hq, hlhs⟩ := RuleBook.lhs_of_mem_productionsOf hn
    exact h.only _ q hq hlhs
  have hreach : ∀ rule, (ofGrammar g).Reachable [⟨g.productions.size, 0⟩] rule → rule = g.start := by
    intro rule hrule
    induction hrule with
    | kernel hi hnext =>
      have hnext := (Option.filter_eq_some_iff.mp hnext).1
      rw [List.mem_singleton.mp hi, (h.next?_eq 0).2] at hnext
      exact (Option.some.inj hnext).symm
    | @production rule n next _ hn hnext ih =>
      subst ih
      -- a token comes next in it, and no rule
      obtain ⟨hnext, hrule⟩ := Option.filter_eq_some_iff.mp hnext
      rw [honly hn, (h.next?_eq 0).1] at hnext
      obtain rfl : a = next := Option.some.inj hnext
      have hterminal : (ofGrammar g).grammar.isTerminal a = true := h.terminal
      rw [hterminal] at hrule
      cases hrule
  obtain hi | ⟨rule, hrule, hdot, hn⟩ := hi
  · exact .inl (List.mem_singleton.mp hi)
  · obtain ⟨n, dot⟩ := i
    obtain rfl := hreach rule hrule
    obtain rfl := honly hn
    obtain rfl : dot = 0 := hdot
    exact .inr rfl

omit h in
/-- Nothing comes after an item that has been read. -/
theorem eq_of_closed_end {i j : Item} (hj : (ofGrammar g).next? j = none)
    (hi : (ofGrammar g).Closed [j] i) : i = j := by
  -- nothing is opened behind an item that has ended
  have hreach : ∀ rule, ¬(ofGrammar g).Reachable [j] rule := by
    intro rule hrule
    induction hrule with
    | kernel hi hnext =>
      have hnext := (Option.filter_eq_some_iff.mp hnext).1
      rw [List.mem_singleton.mp hi, hj] at hnext
      cases hnext
    | production _ _ _ ih => exact ih
  obtain hi | ⟨rule, hrule, -⟩ := hi
  · exact List.mem_singleton.mp hi
  · exact absurd hrule (hreach rule)

/-- The kernels that there are: the start, the whole text, and what comes after the token. -/
def kernels (g : FlatGrammar) (p : Nat) : List (List Item) :=
  [[⟨g.productions.size, 0⟩], [⟨g.productions.size, 1⟩], [⟨p, 1⟩]]

/-- A kernel is that of the start, or of one item that has been read. -/
theorem mem_kernels {kernel : List Item} (hk : kernel ∈ kernels g p) :
    kernel = [⟨g.productions.size, 0⟩] ∨ ∃ j, kernel = [j] ∧ (ofGrammar g).next? j = none := by
  obtain rfl | hk := List.mem_cons.mp hk
  · exact .inl rfl
  · obtain rfl | hk := List.mem_cons.mp hk
    · exact .inr ⟨_, rfl, (h.next?_eq 1).2⟩
    · obtain rfl := List.mem_singleton.mp hk
      exact .inr ⟨_, rfl, (h.next?_eq 1).1⟩

/-- Symbols do not lead to other kernels. -/
theorem successors_mem_kernels {kernel : List Item} (hk : kernel ∈ kernels g p)
    {x : Nat × List (Item × SymbolSet)}
    (hx : x ∈ StateGraph.successors (ofGrammar g) (StateGraph.bare kernel)) :
    x.2.map (·.1) ∈ kernels g p := by
  obtain ⟨symbol, items⟩ := x
  have hmem := fun {j} => StateGraph.mem_of_mem_successors h.sound hx (j := j)
  obtain ⟨x, hx'⟩ := StateGraph.exists_of_mem_group hx
  obtain ⟨i, hi, hnext, -⟩ := hmem.mp (List.mem_map_of_mem hx')
  obtain rfl | ⟨j, rfl, hj⟩ := h.mem_kernels hk
  -- from the start state a symbol leads to a state of one item
  · have hnodup : (items.map (·.1)).Nodup := by
      refine StateGraph.nodup_of_mem_successors ?_ ?_ hx
      · rw [StateGraph.map_bare]
        exact List.nodup_singleton _
      · rw [StateGraph.map_bare]
        rintro i hi -
        rw [List.mem_singleton.mp hi]
    -- the two items go on with different symbols, so the symbol leads to what is after one of them
    have hne : g.start ≠ a := fun heq => by
      have hterminal := h.terminal
      rw [← heq, h.sound.start.2.2] at hterminal
      cases hterminal
    have honly : ∀ i', (ofGrammar g).Closed [⟨g.productions.size, 0⟩] i' →
        (ofGrammar g).next? i' = some symbol → i' = i := fun i' hi' hnext' => by
      have hsame := hnext.trans hnext'.symm
      obtain rfl | rfl := h.eq_of_closed_start hi <;>
        obtain rfl | rfl := h.eq_of_closed_start hi' <;>
        simp [(h.next?_eq 0).1, (h.next?_eq 0).2, hne, hne.symm] at hsame ⊢
    have hitems : items.map (·.1) = [i.advance] := by
      refine StateGraph.eq_of_sorted (StateGraph.sorted_of_mem_successors hx)
        (List.pairwise_singleton ..) hnodup (List.nodup_singleton _) fun j => ?_
      rw [hmem, List.mem_singleton]
      constructor
      · rintro ⟨i', hi', hnext', rfl⟩
        rw [honly i' hi' hnext']
      · rintro rfl
        exact ⟨i, hi, hnext, rfl⟩
    rw [hitems]
    obtain rfl | rfl := h.eq_of_closed_start hi <;> simp [kernels, Item.advance]
  · rw [eq_of_closed_end hj hi, hj] at hnext
    cases hnext

/-- The states. -/
theorem exists_ofRules : ∃ graph, StateGraph.ofRules (ofGrammar g) = .ok graph ∧
    ∀ (state : Nat) (kernel : List Item), graph.kernels[state]? = some kernel →
      kernel ∈ kernels g p := by
  obtain ⟨graph, hgraph, -, hkernels⟩ := StateGraph.ofRules_of_closed (kernels g p)
    (List.mem_cons_self ..) (show 3 ≤ 65535 by decide) fun _ hk _ hx => h.successors_mem_kernels hk hx
  exact ⟨graph, hgraph, hkernels⟩

/-! ## Actions -/

/-- No state has two candidates for a token: it reads on, or finishes the one item that it has. -/
theorem length_candidates_le (hgraph : StateGraph.ofRules (ofGrammar g) = .ok graph)
    (hkernels : ∀ (state : Nat) (kernel : List Item), graph.kernels[state]? = some kernel →
      kernel ∈ kernels g p) {state : Nat} (hstate : state < graph.kernels.size) (token : Nat) :
    (graph.candidates (ofGrammar g) state token).length ≤ 1 := by
  have hs := StateGraph.sound_ofRules h.sound hgraph
  have hk := Array.getElem?_eq_getElem hstate
  -- the closure of a state has the items that are closed over its kernel
  have hclosed : ∀ {i set}, (i, set) ∈ (ofGrammar g).closure
      (graph.kernel (graph.lookaheads (ofGrammar g)) state) →
        (ofGrammar g).Closed graph.kernels[state] i := fun hi => by
    have hi := RuleBook.closed_of_mem_closure hi
    rwa [(StateGraph.fits_lookaheads h.sound hs).map_kernel, Array.getD_eq_getD_getElem?, hk] at hi
  have hnodup := StateGraph.nodup_finished h.sound hs hstate token
  have hfinished := fun {n} => @RuleBook.mem_finished (ofGrammar g)
    ((ofGrammar g).closure (graph.kernel (graph.lookaheads (ofGrammar g)) state)) token n
  have hread := StateGraph.target?_isSome_iff h.sound hgraph hstate (a := token)
  unfold StateGraph.candidates RuleBook.candidates
  rw [List.length_append, List.length_map]
  generalize (ofGrammar g).finished _ token = finished at hnodup hfinished ⊢
  obtain hstart | ⟨j, hend, hj⟩ := h.mem_kernels (hkernels state _ hk)
  -- in the start state nothing is finished, so at most the shift is left
  · have hnone : finished = [] := by
      refine List.eq_nil_iff_forall_not_mem.mpr fun n hn => ?_
      obtain ⟨i, set, hi, rfl, hnext, -⟩ := hfinished.mp hn
      obtain rfl | rfl := h.eq_of_closed_start (hstart ▸ hclosed hi)
      · rw [(h.next?_eq 0).2] at hnext
        cases hnext
      · rw [(h.next?_eq 0).1] at hnext
        cases hnext
    rw [hnone]
    cases graph.target? state token <;> simp
  -- in the others nothing is shifted, and only one production is finished
  · have hnone : graph.target? state token = none := by
      rw [← Option.not_isSome_iff_eq_none, hread]
      rintro ⟨i, set, hi, hnext⟩
      have hi : (ofGrammar g).Closed [j] i := hend ▸ hclosed hi
      rw [eq_of_closed_end hj hi, hj] at hnext
      cases hnext
    have hall : ∀ n ∈ finished, n = j.production := fun n hn => by
      obtain ⟨i, set, hi, rfl, -⟩ := hfinished.mp hn
      have hi : (ofGrammar g).Closed [j] i := hend ▸ hclosed hi
      rw [eq_of_closed_end hj hi]
    rw [List.eq_replicate_of_mem hall, List.nodup_replicate] at hnodup
    simpa [hnone] using hnodup

/-! ## Reading -/

/-- Where the number of the production is cut to that of one of two parts or more, the table does not
accept the token: it reads it, and then there is less to be finished than the action says. -/
theorem not_accepts {q : FlatProduction}
    (hq : g.productions[p % RuleBook.productionIds]? = some q) (hparts : 2 ≤ q.parts.length)
    (hs : graph.Sound g) {table : ParserTable} (htable : table.Holds g graph) :
    ¬table.Accepts g [a] := by
  obtain ⟨own, hown, hlhs, -⟩ := h.production
  have hlt : p < g.productions.size := (Array.getElem?_eq_some_iff.mp hown).1
  have hfinish := h.sound.isTerminal_finish
  -- before the token, and after it, the end of the text follows
  have hrow : (g.row g.productions.size).drop 0 = own.lhs :: [] := by
    rw [List.drop_zero, g.row_accepting, hlhs]
  obtain ⟨set₀, hat₀, hwithin₀⟩ := (hs.stands_start h.sound).begin h.sound hs hown hrow
  obtain ⟨target, set, htarget, hat, hwithin⟩ := hat₀.next h.sound hs (h.next?_eq 0).1
  have hends : set.mem Symbol.finish = true :=
    hwithin _ (hwithin₀ _ (by simp [FirstSets.mem_after, FirstSets.ofRow, Symbol.finish]))
  -- the token is shifted, and then the production is reduced by its cut number
  have hshift : table.action? 0 a = some (.shift target) :=
    htable.action 0 hat₀.lt a h.terminal _ (StateGraph.shift_mem_candidates htarget)
  have hreduce : table.action? target Symbol.finish =
      some (.reduce (p % RuleBook.productionIds)) := by
    have hreduction : (ofGrammar g).reduction p = .reduce (p % RuleBook.productionIds) :=
      if_neg (Nat.ne_of_lt hlt)
    rw [← hreduction]
    exact htable.action target hat.lt _ hfinish _
      (hat.reduction_mem_candidates (h.next?_eq 1).1 hends)
  have hfirst : table.move g ⟨[0], [a, Symbol.finish]⟩ = .next ⟨[target, 0], [Symbol.finish]⟩ :=
    ParserTable.move_shift hshift
  -- the production of that number pops more than there is
  have hstuck : table.move g ⟨[target, 0], [Symbol.finish]⟩ = .stuck := by
    have hnone : table.finish g (p % RuleBook.productionIds) [target, 0] = none := by
      have hdrop : [target, 0].drop q.parts.length = [] := List.drop_eq_nil_of_le hparts
      simp only [ParserTable.finish, hq, hdrop, Option.bind_eq_bind, Option.bind_some,
        List.head?_nil, Option.bind_none]
    simp [ParserTable.move, hreduce, hnone]
  rintro ⟨states, hreach, haccept⟩
  -- there are no other moves
  obtain heq | ⟨r, hr, hreach⟩ := hreach.cases_head
  · cases heq
  · obtain rfl := Reading.Move.next.inj (hfirst.symm.trans hr)
    obtain heq | ⟨r, hr, -⟩ := hreach.cases_head
    · rw [← heq, hstuck] at haccept
      cases haccept
    · rw [hstuck] at hr
      cases hr

end Lone

/-! ## A grammar with more productions than numbers -/

namespace Flattening

/-- Lists are added: `count` productions of `symbols` new symbols, the first production with two parts
or more. -/
structure Lists (s s' : Flattening) (symbols count : Nat) : Prop where
  kept : ∀ (i : Nat) (info : FlatSymbol), s.symbols[i]? = some info → s'.symbols[i]? = some info
  size : s'.symbols.size = s.symbols.size + symbols
  anonymous : s'.anonymous = s.anonymous
  pending : s'.pending = s.pending
  productions : ∃ more : List FlatProduction, s'.productions = s.productions ++ more.toArray ∧
    more.length = count ∧ (∀ q ∈ more, s.symbols.size ≤ q.lhs) ∧
    ∀ q ∈ more.head?, 2 ≤ q.parts.length

theorem Lists.refl (s : Flattening) : s.Lists s 0 0 :=
  ⟨fun _ _ h => h, rfl, rfl, rfl, [], by simp⟩

theorem Lists.trans {a b c : Flattening} {m n count count' : Nat} (h : a.Lists b m count)
    (h' : b.Lists c n count') : a.Lists c (m + n) (count + count') := by
  obtain ⟨more, hmore, hlength, hlhs, hfirst⟩ := h.productions
  obtain ⟨more', hmore', hlength', hlhs', hfirst'⟩ := h'.productions
  refine ⟨fun i info hi => h'.kept i info (h.kept i info hi), by rw [h'.size, h.size, Nat.add_assoc],
    h'.anonymous.trans h.anonymous, h'.pending.trans h.pending, more ++ more', ?_, ?_,
    fun q hq => ?_, fun q hq => ?_⟩
  · rw [hmore', hmore, Array.append_assoc, ← List.append_toArray]
  · rw [List.length_append, hlength, hlength']
  · obtain hq | hq := List.mem_append.mp hq
    · exact hlhs q hq
    · have := hlhs' q hq
      have := h.size
      omega
  -- the first production is that of the first part, or of the second if that has none
  · rw [List.head?_append, Option.mem_def, Option.or_eq_some_iff] at hq
    obtain hq | ⟨-, hq⟩ := hq
    · exact hfirst q hq
    · exact hfirst' q hq

end Flattening

namespace Flatten

open Flattening StateT

variable {g : Grammar} {start owner text : String} {s : Flattening}

/-- A text, or nothing. -/
def optional (text : String) : Rule := .choice [.blank, .string text]

/-- A text up to `n` times and once more, in `2 ^ n` ways. -/
def ways (text : String) (n : Nat) : Rule :=
  .seq (List.replicate n (optional text) ++ [.string text])

/-- A token that has a symbol is expanded to it. -/
theorem run_expand_string {i : Nat} (htext : text ≠ "")
    (hfound : s.anonymous.lookup (Rule.escaped text, false) = some i) :
    (expand g start owner (.string text)).run s = .ok ([.single i], s) := by
  rw [expand]
  exact bind_run_ok.mpr ⟨i, s, run_anonymousToken (Grammar.token_string g owner htext) hfound,
    pure_run_ok.mpr ⟨rfl, rfl⟩⟩

theorem run_expand_optional {i : Nat} (htext : text ≠ "")
    (hfound : s.anonymous.lookup (Rule.escaped text, false) = some i) :
    (expand g start owner (optional text)).run s = .ok ([.empty, .single i], s) := by
  -- one alternative is empty and the other the token, so neither repeats
  have hmembers : (expandChoice g start owner [.blank, .string text]).run s =
      .ok ([.empty, .single i], s) := by
    rw [expandChoice, expand, expandChoice, expandChoice]
    refine bind_run_ok.mpr ⟨[.empty], s, pure_run_ok.mpr ⟨rfl, rfl⟩, ?_⟩
    refine bind_run_ok.mpr ⟨[.single i], s, ?_, pure_run_ok.mpr ⟨rfl, rfl⟩⟩
    refine bind_run_ok.mpr ⟨[.single i], s, run_expand_string htext hfound, ?_⟩
    exact bind_run_ok.mpr ⟨[], s, pure_run_ok.mpr ⟨rfl, rfl⟩, pure_run_ok.mpr ⟨rfl, rfl⟩⟩
  rw [optional, expand]
  refine bind_run_ok.mpr ⟨_, s, hmembers, ?_⟩
  rw [distinct_of_nodup (by simp [Alternative.empty, Alternative.single])]
  exact bind_run_ok.mpr ⟨(), s, run_checkCount (show 2 ≤ 4096 by decide), pure_run_ok.mpr ⟨rfl, rfl⟩⟩

/-- Parts that may be left out double the alternatives, one after the other. -/
theorem exists_run_optionals (g : Grammar) (start owner : String) {i : Nat} (htext : text ≠ "")
    (hfound : s.anonymous.lookup (Rule.escaped text, false) = some i) (n : Nat)
    (heads : List Alternative) (hcount : heads.length * 2 ^ n ≤ maxAlternatives) :
    ∃ heads', heads'.length = heads.length * 2 ^ n ∧ ∀ rest,
      (expandSeq g start owner heads (List.replicate n (optional text) ++ rest)).run s =
        (expandSeq g start owner heads' rest).run s := by
  -- each optional letter doubles the heads
  induction n generalizing heads with
  | zero => exact ⟨heads, by simp, fun rest => rfl⟩
  | succ n ih =>
    have hlength : (heads.flatMap fun a => [Alternative.empty, .single i].map a.append).length =
        heads.length * 2 := by
      simp [List.length_flatMap]
    obtain ⟨heads', hheads', hrun⟩ :=
      ih (heads.flatMap fun a => [Alternative.empty, .single i].map a.append) (by
        rw [hlength, Nat.mul_assoc, ← Nat.pow_succ']
        exact hcount)
    refine ⟨heads', by rw [hheads', hlength, Nat.mul_assoc, ← Nat.pow_succ'], fun rest => ?_⟩
    have hroom : heads.length * [Alternative.empty, .single i].length ≤ maxAlternatives := by
      refine Nat.le_trans ?_ hcount
      change heads.length * 2 ≤ _
      rw [Nat.pow_succ', ← Nat.mul_assoc]
      exact Nat.le_mul_of_pos_right _ (Nat.two_pow_pos n)
    rw [List.replicate_succ, List.cons_append, expandSeq,
      run_bind_of_run (run_expand_optional htext hfound), run_bind_of_run (run_checkCount hroom)]
    exact hrun rest

/-- The ways of a text have parts, all of them. -/
theorem exists_run_ways (g : Grammar) (start owner : String) {i : Nat} (htext : text ≠ "")
    (hfound : s.anonymous.lookup (Rule.escaped text, false) = some i) {n : Nat}
    (hcount : 2 ^ n ≤ maxAlternatives) :
    ∃ as, (expand g start owner (ways text n)).run s = .ok (as, s) ∧ as.length = 2 ^ n ∧
      ∀ a ∈ as, a.parts ≠ [] := by
  -- every optional token doubles the alternatives
  obtain ⟨heads, hlength, hrun⟩ := exists_run_optionals g start owner htext hfound n [.empty]
    (by simpa using hcount)
  rw [List.length_singleton, Nat.one_mul] at hlength
  refine ⟨heads.flatMap fun a => [Alternative.single i].map a.append, ?_, ?_, fun a ha => ?_⟩
  · rw [ways, expand, hrun, expandSeq, run_bind_of_run (run_expand_string htext hfound),
      run_bind_of_run (run_checkCount (by simpa [hlength] using hcount)), expandSeq]
    rfl
  · simp [List.length_flatMap, hlength]
  · obtain ⟨b, -, hb⟩ := List.mem_flatMap.mp ha
    rw [List.map_singleton, List.mem_singleton] at hb
    simp [hb, Alternative.append, Alternative.single]

/-- A repetition of what has parts adds two productions for each of its alternatives. -/
theorem exists_run_repetition (owner : String) {content : List Alternative} (hne : content ≠ [])
    (hparts : ∀ a ∈ content, a.parts ≠ []) (hroom : s.symbols.size < maxCount) :
    ∃ s', (repetition owner content).run s = .ok ([.single s.symbols.size], s') ∧
      s.Lists s' 1 (content.length * 2) := by
  -- no alternative is empty, so all of them are repeated
  have hbody : (content.filter fun a => !a.parts.isEmpty) = content :=
    List.filter_eq_self.mpr fun a ha => by simpa using hparts a ha
  -- the symbol of the repetition, and then the two productions of each alternative
  obtain ⟨s₁, info, hsymbol, hsymbols, hanonymous, hpending, hproductions⟩ : ∃ s₁ info,
      (repetitionSymbol owner).run s = .ok (s.symbols.size, s₁) ∧
      s₁.symbols = s.symbols.push info ∧ s₁.anonymous = s.anonymous ∧ s₁.pending = s.pending ∧
      s₁.productions = s.productions := by
    unfold repetitionSymbol
    simp only [bind_run_ok, get_run_ok, modify_run_ok, addSymbol_run_ok]
    exact ⟨_, _, ⟨s, s, ⟨rfl, rfl⟩, PUnit.unit, _, rfl, Nat.not_le_of_lt hroom, rfl, rfl⟩, rfl,
      rfl, rfl, rfl⟩
  -- each round of the loop adds the two productions of one alternative
  have hstep : ∀ (a : Alternative) (s₁ : Flattening), (do
      addProduction s.symbols.size ((Alternative.single s.symbols.size).append a)
      addProduction s.symbols.size a
      pure (.yield PUnit.unit) : Flatten (ForInStep PUnit)).run s₁ =
        .ok (.yield PUnit.unit, [(Alternative.single s.symbols.size).append a, a].foldl
          (withProduction s.symbols.size) s₁) := fun a s₁ => rfl
  have hloop := run_forIn hstep content s₁
  rw [← List.foldl_flatMap, foldl_withProduction] at hloop
  have hrun : (repetition owner content).run s = .ok ([.single s.symbols.size], { s₁ with
      productions := s₁.productions ++ (productionsOf s.symbols.size (content.flatMap fun a =>
        [(Alternative.single s.symbols.size).append a, a])).toArray }) := by
    unfold repetition
    simp only [hbody]
    rw [if_neg (by simpa using hne), run_bind_of_run hsymbol, run_bind_of_run hloop]
    rfl
  refine ⟨_, hrun, ⟨fun i info' hi => ?_, by simp [hsymbols], hanonymous, hpending, _,
    by rw [hproductions], ?_, fun q hq => ?_, fun q hq => ?_⟩⟩
  · obtain ⟨hlt, -⟩ := Array.getElem?_eq_some_iff.mp hi
    rw [hsymbols, Array.getElem?_push_lt hlt, ← Array.getElem?_eq_getElem, hi]
  · simp [productionsOf, List.length_flatMap]
  · obtain ⟨a, -, rfl⟩ := List.mem_map.mp hq
    exact Nat.le_refl _
  · obtain ⟨a, rest, rfl⟩ := List.exists_cons_of_ne_nil hne
    obtain rfl := Option.some.inj hq
    have := List.length_pos_iff.mpr (hparts a (List.mem_cons_self ..))
    change 2 ≤ a.parts.length + 1
    omega

/-- Repetitions of the ways of a text, one after the other, are symbols of their own, and have two
productions for each of the ways. -/
theorem exists_run_repetitions (g : Grammar) (start owner : String) {i : Nat} (htext : text ≠ "")
    (hfound : s.anonymous.lookup (Rule.escaped text, false) = some i) {n : Nat}
    (hcount : 2 ^ n ≤ maxAlternatives) (m : Nat) (head : Alternative)
    (hroom : s.symbols.size + m ≤ maxCount) :
    ∃ s' head', s.Lists s' m (m * (2 ^ n * 2)) ∧ ∀ rest,
      (expandSeq g start owner [head] (List.replicate m (.oneOrMore (ways text n)) ++ rest)).run s =
        (expandSeq g start owner [head'] rest).run s' := by
  -- each repetition has a symbol of its own and leaves one head
  induction m generalizing s head with
  | zero => exact ⟨s, head, (Nat.zero_mul _).symm ▸ .refl s, fun rest => rfl⟩
  | succ m ih =>
    obtain ⟨as, hways, hlength, hparts⟩ := exists_run_ways g start owner htext hfound hcount
    have hne : as ≠ [] := List.ne_nil_of_length_pos (hlength ▸ Nat.two_pow_pos n)
    obtain ⟨s₁, hrepetition, hs₁⟩ := exists_run_repetition owner hne hparts
      (Nat.lt_of_lt_of_le (Nat.lt_add_of_pos_right (Nat.succ_pos m)) hroom)
    have hone : (expand g start owner (.oneOrMore (ways text n))).run s =
        .ok ([.single s.symbols.size], s₁) := by
      rw [expand, run_bind_of_run hways, hrepetition]
    obtain ⟨s', head', hs', hrest⟩ := ih (s := s₁) (hs₁.anonymous ▸ hfound)
      (head.append (.single s.symbols.size)) (by
        rw [hs₁.size]
        omega)
    refine ⟨s', head', ?_, fun rest => ?_⟩
    · rw [Nat.add_comm m, Nat.add_mul, Nat.one_mul, ← hlength]
      exact hs₁.trans (hlength ▸ hs')
    · have hcheck : (checkCount ([head].length * [Alternative.single s.symbols.size].length)).run s₁ =
          .ok ((), s₁) := run_checkCount (show 1 ≤ 4096 by decide)
      rw [List.replicate_succ, List.cons_append, expandSeq, run_bind_of_run hone,
        run_bind_of_run hcheck]
      exact hrest rest

end Flatten

namespace Overfull

/-- The letter `x`, or eight repetitions of its ways and then what cannot be.  The repetitions have
two productions for each of 4096 ways, so they take all the numbers that there are. -/
def rule : Rule :=
  .choice [.string "x", .seq (List.replicate 8 (.oneOrMore (Flatten.ways "x" 12)) ++ [.choice []])]

def grammar : Grammar where
  name := "g"
  rules := [("s", rule)]
  extras := []
  precedences := []
  conflicts := []
  externals := []
  inlined := []
  supertypes := []
  word := none
  reserved := []

open Flattening Flatten StateT

/-- The productions of the repetitions come first, and then the start symbol is the letter. -/
theorem exists_flatten : ∃ (flat : FlatGrammar) (a : Nat) (lists : List FlatProduction),
    grammar.flatten = .ok flat ∧ flat.start = 2 ∧ TokenAt flat.symbols "x" false a ∧
      flat.productions = (lists ++ [FlatProduction.mk 2 [(a, none)] none]).toArray ∧ lists.length = 65536 ∧
      (∀ q ∈ lists, 3 ≤ q.lhs) ∧ ∀ q ∈ lists.head?, 2 ≤ q.parts.length := by
  have htext : "x" ≠ "" := by decide
  have hmet := ready_met grammar "s" fun _ => True
  have hready : Ready { met grammar "s" with pending := [] } grammar "s" fun _ => True :=
    ⟨hmet.own, hmet.rules, hmet.anonymous, hmet.tokens⟩
  obtain ⟨a, s₁, htoken, hs₁, hadds, hfound⟩ :=
    exists_anonymousToken hready (by decide) trivial (Grammar.token_string grammar "s" htext)
  have hletter : (expand grammar "s" "s" (.string "x")).run { met grammar "s" with pending := [] } =
      .ok ([.single a], s₁) := by
    rw [expand]
    exact bind_run_ok.mpr ⟨a, s₁, htoken, pure_run_ok.mpr ⟨rfl, rfl⟩⟩
  have hsize : s₁.symbols.size ≤ 4 := hadds.size
  -- eight repetitions of `2 ^ 12` ways each make 65536 productions
  obtain ⟨s', head, hlists, hrun⟩ := exists_run_repetitions grammar "s" "s" htext hfound
    (show 2 ^ 12 ≤ maxAlternatives by decide) 8 .empty (show _ ≤ 65535 by omega)
  -- the empty choice leaves no alternative, so the start symbol gets none of this
  have hseq : (expand grammar "s" "s"
      (.seq (List.replicate 8 (.oneOrMore (ways "x" 12)) ++ [.choice []]))).run s₁ = .ok ([], s') := by
    rw [expand, hrun, expandSeq, expand, expandChoice]
    rfl
  have hexpand : (expand grammar "s" "s" rule).run { met grammar "s" with pending := [] } =
      .ok ([.single a], s') := by
    rw [rule, expand, expandChoice, expandChoice, expandChoice]
    refine bind_run_ok.mpr ⟨[.single a], s', bind_run_ok.mpr ⟨_, s₁, hletter, ?_⟩, ?_⟩
    · exact bind_run_ok.mpr ⟨[], s', bind_run_ok.mpr ⟨[], s', hseq, rfl⟩, rfl⟩
    · exact bind_run_ok.mpr ⟨(), s', run_checkCount (show 1 ≤ 4096 by decide), rfl⟩
  obtain ⟨lists, hproductions, hlength, hlhs, hfirst⟩ := hlists.productions
  have hstart : grammar.start? = some ("s", rule) := rfl
  have hextras : (addExtras grammar "s" grammar.extras).run (met grammar "s") =
      .ok ((), met grammar "s") := rfl
  have hflatten := flatten_of_expand hstart rfl rfl hextras rfl rfl hexpand
    (hlists.pending.trans hadds.pending)
  refine ⟨_, a, lists, hflatten, rfl, ?_, ?_, hlength, fun q hq => ?_, hfirst⟩
  · have hescaped : Rule.escaped "x" = "x" := by decide +kernel
    obtain ⟨info, token, hinfo, hat⟩ := hs₁.anonymous _ _ hfound
    rw [hescaped] at hat
    exact ⟨info, token, hlists.kept a info hinfo, hat⟩
  · change s'.productions ++ _ = _
    rw [hproductions, hadds.productions]
    change #[] ++ lists.toArray ++ _ = _
    rw [Array.empty_append, List.append_toArray]
    rfl
  · have := hlhs q hq
    have := (Array.getElem?_eq_some_iff.mp (hadds.symbols 2 _ rfl)).1
    omega

/-- The letter is a sentence of the grammar, no state has two candidates for a token, and the table
does not accept it: it takes the production of the letter for the first one, of a repetition. -/
theorem not_accepts_letter : ∃ (flat : FlatGrammar) (graph : StateGraph) (p : ParserTable) (a : Nat),
    grammar.flatten = .ok flat ∧ TokenAt flat.symbols "x" false a ∧
      StateGraph.ofRules (.ofGrammar flat) = .ok graph ∧
      (∀ state < graph.kernels.size, ∀ token, flat.isTerminal token = true →
        ∀ c ∈ graph.candidates (.ofGrammar flat) state token,
          ∀ c' ∈ graph.candidates (.ofGrammar flat) state token, c = c') ∧
      flat.Generates [flat.start] [a] ∧ ParserTable.ofGrammar flat = .ok p ∧ ¬p.Accepts flat [a] := by
  obtain ⟨flat, a, lists, hflatten, hstart, htoken, hproductions, hlength, hlhs, hfirst⟩ :=
    exists_flatten
  have hg := Grammar.sound_flatten hflatten
  have hterminal := htoken.isTerminal_flat
  -- the one production of the start symbol comes behind all the others
  have hown : flat.productions[65536]? = some ⟨2, [(a, none)], none⟩ := by
    rw [hproductions, List.getElem?_toArray, List.getElem?_append_right (Nat.le_of_eq hlength),
      hlength]
    rfl
  -- which belong to other symbols
  have hlone : Lone flat 65536 a := by
    refine ⟨hg, ⟨_, hown, hstart.symm, rfl⟩, fun n q hq hq' => ?_, hterminal⟩
    rw [hproductions, List.getElem?_toArray] at hq
    obtain ⟨hlt, rfl⟩ := List.getElem?_eq_some_iff.mp hq
    rw [List.length_append, hlength, List.length_singleton] at hlt
    refine Nat.le_antisymm (Nat.le_of_lt_succ hlt) (Nat.le_of_not_lt fun hn => ?_)
    have hn : n < lists.length := hlength ▸ hn
    rw [List.getElem_append_left hn, hstart] at hq'
    have := hlhs _ (List.getElem_mem hn)
    omega
  obtain ⟨q, rest, rfl⟩ := List.exists_cons_of_length_pos (l := lists) (by omega)
  obtain ⟨graph, hgraph, hkernels⟩ := hlone.exists_ofRules
  have hone : ∀ {state}, state < graph.kernels.size → ∀ token,
      (graph.candidates (.ofGrammar flat) state token).length ≤ 1 :=
    fun hstate token => hlone.length_candidates_le hgraph hkernels hstate token
  obtain ⟨p, hp, hholds⟩ := ParserTable.holds_of_ofGrammar hg hgraph fun state hstate token _ =>
    hone hstate token
  refine ⟨flat, graph, p, a, hflatten, htoken, hgraph, fun state hstate token _ c hc c' hc' => ?_,
    ?_, hp, ?_⟩
  · exact eq_of_length_le_one (hone hstate token) hc hc'
  · rw [hstart]
    exact .of_production (Array.mem_of_getElem? hown) (.terminal hterminal .nil)
  · -- the number of the production is cut to that of the first
    refine hlone.not_accepts (q := q) ?_ (hfirst q rfl) (StateGraph.sound_ofRules hg hgraph) hholds
    rw [hproductions]
    rfl

end Overfull

end IncrementalParsing
