import IncrementalParsing.Proofs.Parse.StackStates
import IncrementalParsing.Proofs.Parse.WholeText
import IncrementalParsing.Proofs.Tree.Derivations

/-!
# Trees are derivations

With the table of a grammar a parse builds nothing but lawful parts: what a reduction takes off the
stack are the parts of its production, errors are marked, and what is taken over from an old tree was
lawful there.  So every node of a tree that is no error stands for a production of its symbol, however
many errors the text has.

## Key results

- `lawful_buildNode`: the node of a production is lawful
- `lawful_of_moves`: a step keeps everything that a parse holds lawful
- `Language.parse_derived`: what is known of the trees of a parse with the table of a grammar
-/

namespace IncrementalParsing

variable {t : Table} {g : FlatGrammar} {text : ByteArray}

open Subtree (Lawful mem_regular)

/-! ## The children of a node -/

namespace Build

/-- A piece is an entry's node or one of its children. -/
theorem mem_pieces {parent : Symbol} {entry : Entry × Option FieldId}
    {c : Subtree × Option FieldId} (h : c ∈ pieces t parent entry) :
    c.1 = entry.1.node ∨ ∃ field, (c.1, field) ∈ entry.1.node.children := by
  obtain ⟨-, hpieces⟩ | ⟨-, hpieces⟩ := pieces_cases (t := t) parent entry
  · rw [hpieces] at h
    rw [List.mem_singleton.mp h]
    exact .inl rfl
  · rw [hpieces] at h
    obtain ⟨⟨n, field⟩, hmem, rfl⟩ := List.mem_map.mp h
    exact .inr ⟨field, hmem⟩

/-- What holds of all pieces of entries with their fields, and is kept when errors are joined, holds of
the children that the entries leave. -/
theorem forall_mem_children {P : Subtree × Option FieldId → Prop} {parent : Symbol}
    {entries : List Entry} {fields : List (Option FieldId)}
    (hjoin : ∀ a b joined field, P (a, field) → a.joinErrors? b = some joined → P (joined, field))
    (hpieces : ∀ entry ∈ withFields entries fields, ∀ c ∈ pieces t parent entry, P c) :
    ∀ c ∈ children t parent entries fields, P c := by
  -- children are added one by one, to those before them in reverse
  have hadd : ∀ (cs before : List (Subtree × Option FieldId)), (∀ c ∈ before, P c) →
      (∀ c ∈ cs, P c) → ∀ c ∈ cs.foldl (addChild parent) before, P c := by
    intro cs
    induction cs with
    | nil => exact fun _ hbefore _ => hbefore
    | cons c rest ih =>
      intro before hbefore hcs
      refine ih _ (fun d hd => ?_) fun d hd => hcs d (List.mem_cons_of_mem _ hd)
      have hc := hcs c (List.mem_cons_self ..)
      obtain hadded | ⟨last, field, rest, joined, rfl, -, hjoined, hadded⟩ :=
        addChild_cases parent before c
      · rw [hadded] at hd
        exact (List.mem_cons.mp hd).elim (fun h => h ▸ hc) (hbefore d)
      · rw [hadded] at hd
        obtain rfl | hd := List.mem_cons.mp hd
        · exact hjoin last c.1 joined field (hbefore _ (List.mem_cons_self ..)) hjoined
        · exact hbefore d (List.mem_cons_of_mem _ hd)
  intro c hc
  rw [children, List.mem_reverse] at hc
  refine hadd _ [] (fun _ h => by cases h) (fun d hd => ?_) c hc
  obtain ⟨entry, hentry, hd⟩ := List.mem_flatMap.mp hd
  exact hpieces entry hentry d hd

/-- What holds of the nodes of entries and of what is in them, and is kept when errors are joined, holds
of the children that the entries leave. -/
theorem forall_children {P : Subtree → Prop} {parent : Symbol} {entries : List Entry}
    {fields : List (Option FieldId)}
    (hjoin : ∀ a b joined, P a → a.joinErrors? b = some joined → P joined)
    (hentries : ∀ e ∈ entries, P e.node ∧ ∀ c ∈ e.node.children, P c.1) :
    ∀ c ∈ children t parent entries fields, P c.1 := by
  refine forall_mem_children (P := fun c => P c.1) (fun a b joined _ => hjoin a b joined) ?_
  intro entry hentry c hc
  have hmem := List.mem_map_of_mem (f := Prod.fst) hentry
  rw [map_fst_withFields] at hmem
  -- a spliced entry contributes its children, any other itself
  obtain hsame | ⟨field, hchild⟩ := mem_pieces hc
  · exact hsame ▸ (hentries _ hmem).1
  · exact (hentries _ hmem).2 (c.1, field) hchild

/-- Outside of errors nothing is joined. -/
theorem children_of_ne_error {parent : Symbol} (hp : parent ≠ Symbol.error) (entries : List Entry)
    (fields : List (Option FieldId)) :
    children t parent entries fields = (withFields entries fields).flatMap (pieces t parent) := by
  -- children are joined in errors only, so that here each one is added as it is
  have hadd : ∀ before child, addChild parent before child = child :: before := by
    intro before child
    obtain hadded | ⟨_, _, _, _, -, herror, -⟩ := addChild_cases parent before child
    · exact hadded
    · exact absurd herror hp
  have hfold : ∀ cs before : List (Subtree × Option FieldId),
      cs.foldl (addChild parent) before = cs.reverse ++ before := by
    intro cs
    induction cs with
    | nil => exact fun _ => rfl
    | cons c rest ih =>
      intro before
      rw [List.foldl_cons, ih, hadd, List.reverse_cons, List.append_assoc]
      rfl
  rw [children, hfold, List.append_nil, List.reverse_reverse]

/-- What entries leave in the node of a rule stands for their symbols. -/
theorem yields_pieces (hs : t.Speaks g) {parent : Symbol} (hp : parent ≠ Symbol.error)
    {entries : List (Entry × Option FieldId)} (hl : ∀ x ∈ entries, x.1.node.Lawful g) :
    g.Yields (regularSymbols (entries.map Prod.fst))
      (((entries.flatMap (pieces t parent)).map Prod.fst).filter fun c => !c.extra) := by
  have hparent : (parent == Symbol.error) = false := by simpa using hp
  -- the induction is on the entries, each of which stands for one symbol or for none
  induction entries with
  | nil => exact .nil
  | cons x rest ih =>
    obtain ⟨e, field⟩ := x
    have hrest := ih fun y hy => hl y (List.mem_cons_of_mem _ hy)
    have he := hl _ (List.mem_cons_self ..)
    dsimp only at he
    rw [List.flatMap_cons, List.map_append, List.filter_append, List.map_cons]
    cases hextra : e.node.extra with
    | true =>
      -- an extra stays as it is, and is not counted
      have hkept : isSpliced t parent e.node = false := by simp [isSpliced, hextra, hparent]
      have hpieces : pieces t parent (e, field) = [(e.node, field)] := by
        rw [pieces]
        exact if_neg (by simp [hkept])
      have hsymbols : ∀ es, regularSymbols (e :: es) = regularSymbols es := by
        intro es
        simp [regularSymbols, hextra]
      rw [hpieces, hsymbols]
      simpa [hextra] using hrest
    | false =>
      have hsymbols : ∀ es, regularSymbols (e :: es) = e.node.symbol :: regularSymbols es := by
        intro es
        simp [regularSymbols, hextra]
      rw [hsymbols]
      -- a hidden rule is replaced by its children, which make up one of its productions
      cases hspliced : isSpliced t parent e.node with
      | true =>
        simp only [isSpliced, isHiddenRule, hparent, hextra, Bool.false_and, Bool.or_false,
          Bool.not_false, Bool.true_and, Bool.and_eq_true, Bool.not_eq_true'] at hspliced
        obtain ⟨hleaf, hterminal, hvisible⟩ := hspliced
        rw [hs.terminal] at hterminal
        rw [hs.visible] at hvisible
        obtain ⟨⟨q, hq, hlhs, hinner⟩, hempty⟩ := he.derives hterminal
        have hpieces : ((pieces t parent (e, field)).map Prod.fst).filter (fun c => !c.extra) =
            e.node.regular := by
          rw [pieces]
          dsimp only
          rw [if_pos (by simp [isSpliced, isHiddenRule, hs.terminal, hs.visible, hleaf, hterminal,
            hvisible, hextra]), List.map_map]
          rfl
        rw [hpieces]
        -- a hidden node without children is a leaf, which would not be spliced
        refine .spliced hterminal hvisible hq hlhs (fun hnil => ?_) hinner hrest
        simp [Subtree.isLeaf, hempty hnil] at hleaf
      | false =>
        have hpieces : pieces t parent (e, field) = [(e.node, field)] := by
          rw [pieces]
          exact if_neg (by simp [hspliced])
        rw [hpieces]
        simp only [List.map_cons, List.map_nil, List.filter_cons, hextra, Bool.not_false, if_true,
          List.filter_nil, List.singleton_append]
        refine .kept rfl ?_ hrest
        simp only [isSpliced, isHiddenRule, hparent, hextra, hs.terminal, hs.visible, Bool.false_and,
          Bool.or_false, Bool.not_false, Bool.true_and, Bool.and_eq_false_iff, Bool.not_eq_false',
          Subtree.isLeaf, List.isEmpty_iff] at hspliced
        tauto

end Build

/-! ## The nodes that are built -/

theorem lawful_children {parent : Symbol} {entries : List Entry} {fields : List (Option FieldId)}
    (h : ∀ e ∈ entries, e.node.Lawful g) :
    ∀ c ∈ Build.children t parent entries fields, c.1.Lawful g :=
  Build.forall_children (fun _ _ _ => Lawful.joinErrors) fun e he =>
    ⟨h e he, fun _ => (h e he).child⟩

/-- Whatever an error is made of, it is lawful. -/
theorem lawful_error (herror : g.isTerminal Symbol.error = true) (around : Surroundings)
    {entries : List Entry} (fields : List (Option FieldId)) (fallback : Length) (state : StateId)
    (h : ∀ e ∈ entries, e.node.Lawful g) :
    (buildNode t around Symbol.error entries fields fallback state).1.Lawful g := by
  refine ⟨fun _ hne => absurd rfl hne, fun hrule => ?_, fun hclean => ?_, lawful_children h⟩
  · exact absurd (herror.symm.trans hrule) (by decide)
  · simp [buildNode] at hclean

/-- The node of a production is lawful. -/
theorem lawful_buildNode (hs : t.Speaks g) {q : FlatProduction} (hq : q ∈ g.productions)
    (hrule : g.isTerminal q.lhs = false) (hne : q.lhs ≠ Symbol.error) (around : Surroundings)
    {entries : List Entry} (fields : List (Option FieldId)) (fallback : Length) (state : StateId)
    (hentries : regularSymbols entries = q.rhs) (hempty : q.rhs = [] → entries = [])
    (h : ∀ e ∈ entries, e.node.Lawful g) :
    (buildNode t around q.lhs entries fields fallback state).1.Lawful g := by
  have hyields : g.Yields q.rhs
      (((Build.children t q.lhs entries fields).map Prod.fst).filter fun c => !c.extra) := by
    have hlawful : ∀ x ∈ Build.withFields entries fields, x.1.node.Lawful g := fun x hx => by
      have hmem := List.mem_map_of_mem (f := Prod.fst) hx
      rw [Build.map_fst_withFields] at hmem
      exact h _ hmem
    have := Build.yields_pieces hs hne hlawful
    rwa [Build.map_fst_withFields, hentries, ← Build.children_of_ne_error hne] at this
  -- the symbol is a rule, so nothing is asked of it as a token
  refine ⟨fun hterminal => ?_, fun _ => ⟨⟨q, hq, rfl, hyields⟩, fun hnil => ?_⟩, fun hclean => ?_,
    lawful_children h⟩
  · exact absurd (hterminal.symm.trans hrule) (by decide)
  · -- without parts the node has no children at all
    replace hnil : ((Build.children t q.lhs entries fields).map Prod.fst).filter
      (fun c => !c.extra) = [] := hnil
    rw [hnil] at hyields
    rw [hempty hyields.eq_nil]
    rfl
  -- an unmarked node has only unmarked entries, and these only unmarked children
  · simp only [buildNode, Bool.or_eq_false_iff, List.any_eq_false, Bool.not_eq_true] at hclean
    refine ⟨hne, Build.forall_children (P := fun n => n.hasError = false) (fun a b joined ha hj => ?_)
      fun e he => ?_⟩
    · rw [Subtree.eq_of_joinErrors hj]
      exact ha
    · exact ⟨hclean.2 e he, ((h e he).marked (hclean.2 e he)).2⟩

/-! ## Parts of an old tree -/

namespace Walker

theorem mem_placeAll {position : Length} {children : List (Subtree × Option FieldId)}
    {p : Length × Subtree} (h : p ∈ Subtree.placeAll position children) :
    ∃ c ∈ children, p.2 = c.1 := by
  induction children generalizing position with
  | nil => cases h
  | cons c rest ih =>
    obtain rfl | h := List.mem_cons.mp h
    · exact ⟨c, List.mem_cons_self .., rfl⟩
    · obtain ⟨d, hd, hp⟩ := ih h
      exact ⟨d, List.mem_cons_of_mem _ hd, hp⟩

/-- What holds of the parts that are listed and of what is in them holds of the parts that are offered
and of those that are left. -/
theorem forall_next {P : Subtree → Prop} (hP : ∀ n, P n → ∀ c ∈ n.children, P c.1)
    {state : StateId} {place : Nat} {w after : Walker} {found : Option Subtree}
    (h : next t state place w = (found, after)) (hw : ∀ p ∈ w, P p.2) :
    (∀ p ∈ after, P p.2) ∧ ∀ n, found = some n → P n := by
  obtain ⟨hafter, hfound⟩ := next_listed (P := fun p => P p.2) (fun p hp q hq => by
    obtain ⟨c, hc, hsame⟩ := mem_placeAll hq
    exact hsame ▸ hP p.2 hp c hc) h hw
  exact ⟨hafter, fun n hn => (hfound n hn).elim fun _ h => h.1⟩

end Walker

namespace Subtree

/-- A part that is used again has no error in it. -/
theorem hasError_of_isReusable {n : Subtree} {state : StateId} (h : n.isReusable t state = true) :
    n.hasError = false := by
  unfold isReusable at h
  split at h
  · cases h
  · rename_i hmarks
    simp only [Bool.or_eq_true, not_or, Bool.not_eq_true] at hmarks
    exact hmarks.1.2

end Subtree

/-! ## Steps -/

/-- Nothing among the events is a repair of an error. -/
def Untroubled (events : List Event) : Prop :=
  ∀ state recovery start finish, Event.recover state recovery start finish ∉ events

theorem Untroubled.tail {e : Event} {events : List Event} (h : Untroubled (e :: events)) :
    Untroubled events :=
  fun state recovery start finish hmem =>
    h state recovery start finish (List.mem_cons_of_mem _ hmem)

/-- The next token is lawful, and it is marked as an error only if it is one. -/
structure Subtree.Unmarked (g : FlatGrammar) (token : Subtree) : Prop where
  lawful : token.Lawful g
  hasError : token.symbol ≠ Symbol.error → token.hasError = false

namespace Config

/-- Everything that a parse holds is lawful, and without a repair there is no error on the stack. -/
structure Lawful (g : FlatGrammar) (c : Config) : Prop where
  stack : ∀ e ∈ c.stack, e.node.Lawful g
  lookahead : ∀ token, c.lookahead = some token → token.Unmarked g
  walker : ∀ p ∈ c.walker, p.2.Lawful g
  untroubled : Untroubled c.events → ∀ e ∈ c.stack, e.node.hasError = false

variable {items : StateId → Item → Prop} {c c' : Config}

/-- A token that is readied is lawful. -/
theorem lawful_of_readies (ht : t.Checked) (hs : t.Speaks g) {token : Subtree} (hc : c.Lawful g)
    (h : Readies t text c token c') : c'.Lawful g ∧ token.Unmarked g := by
  have hnone : c.lookahead = none → ∀ token, c.lookahead = some token → token.Unmarked g := by
    intro h token h'
    rw [h] at h'
    cases h'
  cases h with
  | waiting h => exact ⟨hc, hc.lookahead token h⟩
  | @lexed walker h hw =>
    have hwalker : ∀ p ∈ walker, p.2.Lawful g := by
      obtain ⟨-, rfl⟩ | ⟨-, hnext⟩ := hw
      · exact hc.walker
      · exact (Walker.forall_next (fun n hn c => hn.child) hnext hc.walker).1
    -- a token has no children, so nothing in it could be unlawful
    refine ⟨⟨hc.stack, hnone h, hwalker, fun hu => hc.untroubled hu.tail⟩, ⟨fun _ _ => rfl, ?_, ?_, ?_⟩,
      ?_⟩
    · intro hrule
      rw [← hs.terminal] at hrule
      exact absurd ((Lexer.terminal_next ht).symm.trans hrule) (by decide)
    · intro hclean
      exact ⟨by simpa [lex, Subtree.leaf] using hclean, fun _ h => by cases h⟩
    · intro _ h
      cases h
    · intro hne
      simpa [lex, Subtree.leaf] using hne
  -- an old node is lawful with all that is in it, and no error is taken over
  | @reused n walker h he hnext =>
    obtain ⟨hwalker, hn⟩ := Walker.forall_next (fun n hn c => hn.child) hnext hc.walker
    exact ⟨⟨hc.stack, hnone h, hwalker, fun hu => hc.untroubled hu.tail⟩, hn _ rfl,
      fun _ => Subtree.hasError_of_isReusable (Walker.reusable_next hnext)⟩

/-- A lawful part is put on the stack. -/
theorem lawful_push (hc : c.Lawful g) {n : Subtree} (hn : n.Lawful g) {state : StateId}
    {position : Length} {events : List Event} (hevents : Untroubled events → Untroubled c.events)
    (hmarked : Untroubled events → n.hasError = false) {c' : Config}
    (hstack : c'.stack = ⟨state, n, position⟩ :: c.stack) (hwalker : c'.walker = c.walker)
    (hlookahead : c'.lookahead = none) (hevents' : c'.events = events) : c'.Lawful g where
  -- the entry on top is the new one, and the others are those that were there
  stack e he := by
    rw [hstack] at he
    obtain rfl | he := List.mem_cons.mp he
    · exact hn
    · exact hc.stack e he
  lookahead token h := by
    rw [hlookahead] at h
    cases h
  walker := hwalker ▸ hc.walker
  untroubled hu e he := by
    rw [hevents'] at hu
    rw [hstack] at he
    obtain rfl | he := List.mem_cons.mp he
    · exact hmarked hu
    · exact hc.untroubled (hevents hu) e he

/-- A reduction leaves everything lawful. -/
theorem lawful_reduce (hg : g.Sound) (hs : t.Speaks g) (hguided : t.Guided g items)
    (hlinked : c.stack.Linked t) (hc : c.Lawful g) {token : Subtree} (htoken : token.Unmarked g)
    {p : ProductionId} {production : Production}
    (ha : t.action? c.state token.symbol = some (.reduce p))
    (hp : t.production? p = some production) : (c.reduce t token production).Lawful g := by
  -- the table was made for the grammar, so the entries that come off are a right-hand side
  obtain ⟨⟨q, hq, hlhs, hsupplies⟩, -⟩ := Stack.supplies_of_reduce hs hguided hlinked ha hp
  have hq := Array.mem_of_getElem? hq
  obtain ⟨hle, -, hrule⟩ := hg.lhs q hq
  have hne : q.lhs ≠ Symbol.error := fun h => by
    rw [h] at hle
    exact absurd hle (by decide)
  -- a production without parts takes nothing off, not even extras
  have hempty : q.rhs = [] → (c.stack.popChildren production.size).1 = [] := by
    intro hnil
    have hsize : production.size = 0 := by rw [← hsupplies.size, hnil]; rfl
    rw [hsize, Stack.popChildren, Stack.popRegular]
  have hparts := hsupplies.parts
  generalize hpop : c.stack.popChildren production.size = popped at hparts hempty
  obtain ⟨parts, trailing, rest⟩ := popped
  dsimp only at hparts hempty
  -- both the parts and what goes into the node were on the stack
  have hmem : ∀ e ∈ parts, e ∈ c.stack := fun e he =>
    (Stack.mem_of_popChildren hpop).mpr (.inr (.inl he))
  have hlawful : ∀ e ∈ parts, e.node.Lawful g := fun e he => hc.stack e (hmem e he)
  have hnode : (buildNode t (c.surroundings token) production.lhs parts production.fields
      (((trailing.head?).map (·.position)).getD c.position) (Stack.state rest)).1.Lawful g :=
    hlhs ▸ lawful_buildNode hs hq hrule hne (c.surroundings token) production.fields _ _ hparts
      hempty hlawful
  -- an entry is one that was there, or holds the new node
  refine ⟨fun e he => ?_, fun token' h => ?_, hc.walker, fun hu e he => ?_⟩
  · obtain ⟨e', he', hsame⟩ | hbuilt := mem_stack_reduce hpop he
    · exact hsame ▸ hc.stack e' he'
    · exact hbuilt ▸ hnode
  · cases h
    exact htoken
  · have hunmarked := hc.untroubled hu.tail
    obtain ⟨e', he', hsame⟩ | hbuilt := mem_stack_reduce hpop he
    · exact hsame ▸ hunmarked e' he'
    · rw [hbuilt]
      simp only [buildNode, Bool.or_eq_false_iff, List.any_eq_false, Bool.not_eq_true]
      exact ⟨by simpa using hlhs ▸ hne, fun e he => hunmarked e (hmem e he)⟩

theorem lawful_absorb (herror : g.isTerminal Symbol.error = true) (hc : c.Lawful g)
    {token : Subtree} (htoken : token.Lawful g) :
    (c.absorb t token).1.Lawful g ∧ ∀ e ∈ (c.absorb t token).2.2, e ∈ c.stack := by
  -- only errors are made of tokens that are skipped, and these are made of anything
  have habsorbs := absorbs t c token
  generalize c.absorb t token = absorbed at habsorbs ⊢
  cases habsorbs with
  | bare => exact ⟨htoken, fun _ h => h⟩
  | alone =>
    refine ⟨lawful_error herror _ _ _ _ fun e he => ?_, fun _ h => h⟩
    rw [List.mem_singleton.mp he]
    exact htoken
  | joined hstack _ _ hjoined =>
    obtain ⟨htop, -⟩ := List.forall_mem_cons.mp (hstack ▸ hc.stack)
    exact ⟨htop.joinErrors hjoined, fun e he => hstack ▸ List.mem_cons_of_mem _ he⟩
  | both hstack =>
    obtain ⟨htop, -⟩ := List.forall_mem_cons.mp (hstack ▸ hc.stack)
    refine ⟨lawful_error herror _ _ _ _ ?_, fun e he => hstack ▸ List.mem_cons_of_mem _ he⟩
    exact List.forall_mem_cons.mpr ⟨htop, List.forall_mem_singleton.mpr htoken⟩

/-- What is done about a token leaves everything lawful. -/
theorem lawful_of_continues (hg : g.Sound) (ht : t.Checked) (hs : t.Speaks g)
    (hguided : t.Guided g items) (hlinked : c.stack.Linked t) (hc : c.Lawful g) {token : Subtree}
    (htoken : token.Unmarked g) (hgoes : Continues t c token c') : c'.Lawful g := by
  have herror : g.isTerminal Symbol.error = true := hs.terminal Symbol.error ▸ ht.error_terminal
  cases hgoes with
  | @shift target ha =>
    -- no production mentions errors, so they are never shifted
    have hne : token.symbol ≠ Symbol.error := by
      intro heq
      obtain ⟨-, ⟨p, hmem⟩, -⟩ := hguided.leads _ _ _ (.inl ha)
      rw [heq] at hmem
      exact absurd (hg.row hmem).1 (by decide)
    exact lawful_push hc (htoken.lawful.withExtra false) Untroubled.tail
      (fun _ => htoken.hasError hne) rfl rfl rfl rfl
  | reduce ha hp => exact lawful_reduce hg hs hguided hlinked hc htoken ha hp
  | extra _ _ hextra =>
    -- neither are they extras
    have hne : token.symbol ≠ Symbol.error := by
      intro heq
      obtain ⟨info, hinfo, -, -, hnone⟩ := hg.builtIn Symbol.error (by decide)
      rw [heq, hs.extra, FlatGrammar.isExtra, hinfo] at hextra
      simp [hnone] at hextra
    exact lawful_push hc (htoken.lawful.withExtra true) Untroubled.tail
      (fun _ => htoken.hasError hne) rfl rfl rfl rfl
  -- what is cut off goes into an error, which is lawful whatever it is made of
  | @cut depth =>
    have hkept : ∀ e ∈ c.stack.keep depth, e ∈ c.stack := fun e => List.mem_of_mem_drop
    have habove : ∀ e ∈ c.stack.above depth, e.node.Lawful g := by
      intro e he
      rw [Stack.above, List.mem_reverse] at he
      exact hc.stack e (List.mem_of_mem_take he)
    refine ⟨fun e he => ?_, fun token' h => ?_, hc.walker, fun hu => ?_⟩
    · obtain rfl | he := List.mem_cons.mp he
      · exact (lawful_error herror _ _ _ _ habove).withExtra true
      · exact hc.stack e (hkept e he)
    · cases h
      exact htoken
    · exact absurd (List.mem_cons_self ..) (hu _ _ _ _)
  -- a repair is among the events now, so nothing has to be without marks
  | skip =>
    obtain ⟨habsorbed, hbelow⟩ := lawful_absorb herror hc htoken.lawful
    refine ⟨fun e he => ?_, (fun _ h => by cases h), hc.walker, fun hu => ?_⟩
    · obtain rfl | he := List.mem_cons.mp he
      · exact habsorbed.withExtra true
      · exact hc.stack e (hbelow e he)
    · exact absurd (List.mem_cons_self ..) (hu _ _ _ _)

/-- A step leaves everything lawful. -/
theorem lawful_of_moves (hg : g.Sound) (ht : t.Checked) (hs : t.Speaks g)
    (hguided : t.Guided g items) (hlinked : c.stack.Linked t) (hc : c.Lawful g)
    (hmoves : Moves t text c c') : c'.Lawful g := by
  obtain ⟨token, ready, hready, hgoes⟩ | ⟨n, ready, hready, hl, hn, rfl⟩ := moves_cases hmoves
  · obtain ⟨hc', htoken⟩ := lawful_of_readies ht hs hc hready
    rw [← (readies_frame hready).1] at hlinked
    exact lawful_of_continues hg ht hs hguided hlinked hc' htoken hgoes
  · obtain ⟨hc', hn'⟩ := lawful_of_readies ht hs hc hready
    obtain ⟨walker, hnext, -⟩ := takeOver_reused ht hready hl hn
    have hclean := Subtree.hasError_of_isReusable (Walker.reusable_next hnext)
    exact lawful_push hc' hn'.lawful id (fun _ => hclean) rfl rfl rfl rfl

end Config

/-! ## Roots -/

/-- What an accepted stack leaves in the root: the children of the start symbol, and the extras. -/
theorem regular_accepted {start : Symbol} {entries : List Entry}
    (h : ∀ s ∈ regularSymbols entries, s = start) :
    ((entries.flatMap fun e => if !e.node.extra && e.node.symbol == start then e.node.children
        else [(e.node, none)]).map Prod.fst).filter (fun c => !c.extra) =
      (entries.filter fun e => !e.node.extra).flatMap fun e => e.node.regular := by
  induction entries with
  | nil => rfl
  | cons e rest ih =>
    rw [List.flatMap_cons, List.map_append, List.filter_append]
    -- an extra stays as it is and is left out on both sides
    cases hextra : e.node.extra with
    | true =>
      have hrest := ih (by simpa [regularSymbols, hextra] using h)
      simpa [hextra] using hrest
    | false =>
      simp only [regularSymbols, hextra, Bool.not_false, List.filter_cons_of_pos, List.map_cons,
        List.mem_cons, forall_eq_or_imp] at h
      simp only [hextra, h.1, Bool.not_false, beq_self_eq_true, Bool.and_self, if_true,
        List.filter_cons_of_pos, List.flatMap_cons, ih h.2]
      rfl

/-- How a parse can be done: it accepts, or everything becomes one error. -/
inductive Config.Finishes (g : FlatGrammar) (c : Config) (root : Subtree) : List Event → Prop
  | accepted {state : StateId} (hderives : g.Derives g.start root.regular)
      (hgenerates : g.Generates [g.start] (root.tokens g))
      (hclean : Untroubled c.events → ∀ d ∈ root.children, d.1.hasError = false) :
      Finishes g c root (.accept state :: c.events)
  | wrapped {state : StateId} {start finish : Nat} :
      Finishes g c root (.recover state .wrap start finish :: c.events)

namespace Config

variable {items : StateId → Item → Prop} {c : Config}

/-- What the root of an accepted stack consists of was on the stack, or in the start symbol there. -/
theorem mem_acceptedRoot {token : Subtree} {d : Subtree × Option FieldId}
    (h : d ∈ (c.acceptedRoot t text token).children) :
    ∃ e ∈ c.stack, d.1 = e.node ∨ ∃ field, (d.1, field) ∈ e.node.children := by
  obtain ⟨e, he, hd⟩ := List.mem_flatMap.mp h
  refine ⟨e, List.mem_reverse.mp he, ?_⟩
  split at hd
  · exact .inr ⟨d.2, hd⟩
  · rw [List.mem_singleton.mp hd]
    exact .inl rfl

/-- The root of an accepted stack stands for a production of the start symbol. -/
theorem finishes_of_accept (ht : t.Checked) (hs : t.Speaks g) (hguided : t.Guided g items)
    (hlinked : c.stack.Linked t) (hc : c.Lawful g) {token : Subtree}
    (ha : t.action? c.state token.symbol = some .accept) :
    (∀ d ∈ (c.acceptedRoot t text token).children, d.1.Lawful g) ∧
      c.Finishes g (c.acceptedRoot t text token) (.accept c.state :: c.events) := by
  have hregular := Stack.regular_of_accept hguided hlinked ha
  have hstart : g.isTerminal g.start = false := by
    rw [← hs.terminal, ← hs.start]
    exact ht.start_rule
  -- the one entry that is no extra is what the start symbol consists of
  obtain ⟨e, he, hsymbol⟩ := List.map_eq_singleton_iff.mp (show
    (c.stack.filter fun e => !e.node.extra).map (·.node.symbol) = [g.start] from hregular)
  have hlawful := hc.stack e (List.mem_filter.mp (he ▸ List.mem_singleton_self e)).1
  have hroot : (c.acceptedRoot t text token).regular = e.node.regular := by
    have hall : ∀ s ∈ regularSymbols c.stack.reverse, s = t.start := by
      rw [regularSymbols_reverse, hregular, hs.start]
      simp
    refine (regular_accepted hall).trans ?_
    rw [List.filter_reverse, he]
    simp
  have hterminal : g.isTerminal e.node.symbol = false := hsymbol ▸ hstart
  -- a child of the root is an entry of the stack or a child of the start symbol
  refine ⟨fun d hd => ?_, .accepted ?_ ?_ fun hu d hd => ?_⟩
  · obtain ⟨e, he, hsame | ⟨field, hd⟩⟩ := mem_acceptedRoot hd
    · exact hsame ▸ hc.stack e he
    · exact Lawful.child (c := (d.1, field)) (hc.stack e he) hd
  · rw [hroot, ← hsymbol]
    exact (hlawful.derives hterminal).1
  · have hgenerates := hlawful.generates
    rw [Subtree.tokens_eq, if_neg (by simp [hterminal]), hsymbol] at hgenerates
    rw [Subtree.tokens_eq, hroot, if_neg]
    · exact hgenerates
    · rw [show (c.acceptedRoot t text token).symbol = t.start from rfl, hs.start, hstart]
      decide
  · obtain ⟨e, he, hsame | ⟨field, hd⟩⟩ := mem_acceptedRoot hd
    · exact hsame ▸ hc.untroubled hu e he
    · exact ((hc.stack e he).marked (hc.untroubled hu e he)).2 (d.1, field) hd

/-- The root that a parse ends with consists of lawful parts. -/
theorem finishes_of_done (ht : t.Checked) (hs : t.Speaks g) (hguided : t.Guided g items)
    (hlinked : c.stack.Linked t) (hc : c.Lawful g) {root : Subtree} {events : List Event}
    (hdone : c.step t text = .done root events) :
    root.symbol = g.start ∧ (∀ d ∈ root.children, d.1.Lawful g) ∧
      ∃ c' : Config, c'.Finishes g root events := by
  have herror : g.isTerminal Symbol.error = true := hs.terminal Symbol.error ▸ ht.error_terminal
  obtain ⟨token, ready, hready, hstops⟩ := done_cases hdone
  obtain ⟨hc', -⟩ := lawful_of_readies ht hs hc hready
  rw [← (readies_frame hready).1] at hlinked
  -- the run ends where the table accepts, or where recovery has reached the end
  cases hstops with
  | accept ha =>
    obtain ⟨hchildren, hfinishes⟩ := finishes_of_accept ht hs hguided hlinked hc' ha
    exact ⟨hs.start, hchildren, ready, hfinishes⟩
  | wrap =>
    refine ⟨hs.start, fun d hd => ?_, ready, .wrapped⟩
    rw [List.mem_singleton.mp hd]
    exact lawful_error herror _ _ _ _ fun e he => hc'.stack e (List.mem_reverse.mp he)

/-- A parse that starts with lawful parts has nothing on the stack yet. -/
theorem lawful_start {old : Option Subtree}
    (h : ∀ root, old = some root → ∀ c ∈ root.children, c.1.Lawful g) : (start t old).Lawful g where
  stack _ he := by cases he
  lookahead _ h := by cases h
  walker p hp := by
    cases old with
    | none => cases hp
    | some root =>
      obtain ⟨c, hc, hsame⟩ := Walker.mem_placeAll hp
      exact hsame ▸ h root rfl c hc
  untroubled _ _ he := by cases he

end Config

/-! ## Trees -/

/-- The trees of a language: those that a parse gave, with or without an earlier tree, and those that
were edited in whatever way. -/
inductive Language.Grown (l : Language) : Tree → Prop
  | parsed {text : String} {old : Option Tree} {p : Parsed}
      (hold : ∀ tree, old = some tree → Grown l tree) (h : l.parse text old = some p) :
      Grown l p.tree
  | edited {tree : Tree} (e : Edit) (h : Grown l tree) : Grown l (tree.edit e)

/-- What a parse gives is a derivation: every node that is no error is a token or stands for a
production of its symbol, and so does the root of a parse that accepts, whose tokens are a sentence.
A parse without repairs accepts, and no node of its tree is an error. -/
structure Parsed.Derived (g : FlatGrammar) (p : Parsed) : Prop where
  root : p.tree.root.symbol = g.start
  inner : ∀ n, p.tree.Has n → n.isRoot = false → n.symbol ≠ Symbol.error →
    (g.isTerminal n.symbol = true ∧ n.subtree.children = []) ∨
      g.Derives n.symbol n.subtree.regular
  accepted : (∃ state, p.events.getLast? = some (.accept state)) →
    g.Derives g.start p.tree.root.regular ∧ g.Generates [g.start] (p.tree.root.tokens g)
  untroubled : p.stats.recoveries = 0 → (∃ state, p.events.getLast? = some (.accept state)) ∧
    ∀ n, p.tree.Has n → n.symbol ≠ Symbol.error

theorem exists_child_of_stored {n m : Node} (h : m ∈ n.stored) :
    (∃ c ∈ n.subtree.children, m.subtree = c.1) ∧ m.isRoot = false := by
  obtain ⟨p, hp, rfl⟩ := List.mem_map.mp h
  have hmem := List.mem_map_of_mem (f := (·.subtree)) hp
  rw [Place.below, (map_listFrom _ _ _).1] at hmem
  obtain ⟨c, hc, hsame⟩ := List.mem_map.mp hmem
  exact ⟨⟨c, hc, hsame.symm⟩, rfl⟩

/-- What holds of the children of the root and of what is in them holds of all other nodes. -/
theorem Tree.forall_has {P : Subtree → Prop} (hP : ∀ n, P n → ∀ c ∈ n.children, P c.1) {tree : Tree}
    (hroot : ∀ c ∈ tree.root.children, P c.1) {n : Node} (h : tree.Has n) :
    n.subtree = tree.root ∨ P n.subtree := by
  induction h with
  | root => exact .inl rfl
  | stored _ hm ih =>
    obtain ⟨⟨c, hc, hsame⟩, -⟩ := exists_child_of_stored hm
    rw [hsame]
    -- below the root the property is handed on from node to child
    obtain hroot' | hn := ih
    · rw [hroot'] at hc
      exact .inr (hroot c hc)
    · exact .inr (hP _ hn c hc)

theorem Tree.forall_has_inner {P : Subtree → Prop} (hP : ∀ n, P n → ∀ c ∈ n.children, P c.1)
    {tree : Tree} (hroot : ∀ c ∈ tree.root.children, P c.1) {n : Node} (h : tree.Has n)
    (hn : n.isRoot = false) : P n.subtree := by
  cases h with
  | root => cases hn
  | @stored n' _ h hm =>
    obtain ⟨⟨c, hc, hsame⟩, -⟩ := exists_child_of_stored hm
    rw [hsame]
    obtain hroot' | hn := Tree.forall_has hP hroot h
    · rw [hroot'] at hc
      exact hroot c hc
    · exact hP _ hn c hc

/-- Without repairs there are none among the events. -/
theorem untroubled_of_recoveries {events : List Event} (h : (Stats.ofEvents events).recoveries = 0) :
    Untroubled events := fun _ _ _ _ =>
  Stats.not_mem_of_eq_zero Stats.recoveries (fun s e => by cases e <;> simp [Stats.add]) h
    fun _ => Nat.succ_pos _

namespace Language

variable {l : Language} {items : StateId → Item → Prop}

/-- A parse that starts with lawful parts gives a derivation of lawful parts. -/
theorem derived_of_parse (hg : g.Sound) (ht : l.table.Checked) (hs : l.table.Speaks g)
    (hguided : l.table.Guided g items) {text : String} {old : Option Tree} {p : Parsed}
    (hold : ∀ tree, old = some tree → ∀ c ∈ tree.root.children, c.1.Lawful g)
    (h : l.parse text old = some p) :
    (∀ c ∈ p.tree.root.children, c.1.Lawful g) ∧ p.Derived g := by
  have hstart : (Config.start l.table (l.usable? old)).stack.Linked l.table ∧
      (Config.start l.table (l.usable? old)).Lawful g := by
    refine ⟨.nil, Config.lawful_start fun root hroot => ?_⟩
    obtain ⟨tree, htree, rfl⟩ := exists_of_usable? hroot
    exact hold tree htree
  -- both hold of every configuration on the way, the old tree being lawful too
  obtain ⟨c, root, es, ⟨hlinked, hlawful⟩, hdone, rfl⟩ := invariant_of_parse
    (P := fun c => c.stack.Linked l.table ∧ c.Lawful g) h hstart fun c c' hc hmoves =>
      ⟨Config.linked_of_moves ht hs hguided hc.1 hmoves,
        Config.lawful_of_moves hg ht hs hguided hc.1 hc.2 hmoves⟩
  obtain ⟨hsymbol, hchildren, c', hfinishes⟩ :=
    Config.finishes_of_done ht hs hguided hlinked hlawful hdone
  -- the root is the start symbol, which no grammar calls an error
  have hne : g.start ≠ Symbol.error := fun heq => by
    have := hg.start.1
    rw [heq] at this
    exact absurd this (by decide)
  -- three things are left: the inner nodes, a parse that accepts, and one without repairs
  refine ⟨hchildren, hsymbol, fun n hn hinner herror => ?_, fun haccepts => ?_, fun hzero => ?_⟩
  · have hn := Tree.forall_has_inner (fun n hn c => hn.child) hchildren hn hinner
    cases hterminal : g.isTerminal n.symbol with
    | true => exact .inl ⟨rfl, hn.token hterminal herror⟩
    | false => exact .inr (hn.derives hterminal).1
  · obtain ⟨state, hlast⟩ := haccepts
    rw [List.getLast?_reverse] at hlast
    cases hfinishes with
    | accepted hderives hgenerates => exact ⟨hderives, hgenerates⟩
    | wrapped => cases hlast
  · have hu : Untroubled es.reverse := untroubled_of_recoveries hzero
    cases hfinishes with
    | @accepted state hderives hgenerates hclean =>
      refine ⟨⟨state, by rw [List.getLast?_reverse]; rfl⟩, fun n hn => ?_⟩
      have hu' : Untroubled c'.events := fun state recovery start finish hmem =>
        hu state recovery start finish (by simp [hmem])
      -- where nothing is marked, nothing below is
      have hmarked : ∀ n : Subtree, n.Lawful g ∧ n.hasError = false → ∀ c ∈ n.children,
          c.1.Lawful g ∧ c.1.hasError = false := fun n hn c hc =>
        ⟨hn.1.child hc, (hn.1.marked hn.2).2 c hc⟩
      obtain hroot | ⟨hlawful, hclean⟩ := Tree.forall_has hmarked
        (fun d hd => ⟨hchildren d hd, hclean hu' d hd⟩) hn
      · rw [Node.symbol, hroot]
        exact fun heq => hne (hsymbol.symm.trans heq)
      · exact (hlawful.marked hclean).1
    | wrapped => exact absurd (List.mem_reverse.mpr (List.mem_cons_self ..)) (hu _ _ _ _)

/-- The parts of a tree of a language are lawful. -/
theorem lawful_of_grown (hg : g.Sound) (ht : l.table.Checked) (hs : l.table.Speaks g)
    (hguided : l.table.Guided g items) {tree : Tree} (h : l.Grown tree) :
    ∀ c ∈ tree.root.children, c.1.Lawful g := by
  induction h with
  | parsed _ h ih => exact (derived_of_parse hg ht hs hguided ih h).1
  | @edited tree e _ ih =>
    intro c' hc'
    obtain ⟨c, hc, hsame | ⟨position, hedit⟩⟩ :=
      Subtree.exists_of_mem_forall₂ (Subtree.forall₂_children_edit e tree.root .zero) hc'
    · exact hsame ▸ ih c hc
    · exact hedit ▸ (ih c hc).edit position

/-- Every parse of a text with the table of a grammar gives a derivation, whether it starts from nothing
or from a tree that an earlier parse gave and that was edited since. -/
theorem parse_derived {grammar : Grammar} (hflat : grammar.flatten = .ok g)
    (h : grammar.table = .ok l.table) (text : String) (old : Option Tree)
    (hold : ∀ tree, old = some tree → l.Grown tree) :
    ∃ p, l.parse text old = some p ∧ p.Derived g := by
  obtain ⟨ht, hg, hs, items, hguided⟩ := Grammar.guided_table hflat h
  have hsome : (l.parse text old).isSome = true :=
    (l.parse_isSome text old).mpr (Config.ends_of_table ht (hguided.shift_ne hg) _)
  obtain ⟨p, hp⟩ := Option.isSome_iff_exists.mp hsome
  refine ⟨p, hp, (derived_of_parse hg ht hs hguided (fun tree htree => ?_) hp).2⟩
  exact lawful_of_grown hg ht hs hguided (hold tree htree)

end Language

/-- A text with an error, and the text without it, parsed from the edited tree. -/
theorem oneToken_derived : ∃ p q,
    Language.parse ⟨0, OneToken.table⟩ "b a" none = some p ∧
    Language.parse ⟨0, OneToken.table⟩ "a"
      (some (p.tree.edit (.splice "b a".toUTF8 0 2 "".toUTF8))) = some q ∧
    q.Derived OneToken.flat := by
  obtain ⟨p, hp, -⟩ := Language.parse_derived (l := ⟨0, OneToken.table⟩) OneToken.flatten_grammar
    OneToken.table_grammar "b a" none (fun _ h => by cases h)
  -- the second parse is offered the first tree, edited
  obtain ⟨q, hq, hderived⟩ := Language.parse_derived (l := ⟨0, OneToken.table⟩)
    OneToken.flatten_grammar OneToken.table_grammar "a"
    (some (p.tree.edit (.splice "b a".toUTF8 0 2 "".toUTF8))) (fun tree htree => by
      cases htree
      exact .edited _ (.parsed (fun _ h => by cases h) hp))
  exact ⟨p, q, hp, hq, hderived⟩

end IncrementalParsing
