import IncrementalParsing.Parse.Parser
import IncrementalParsing.Parse.Stats
import IncrementalParsing.Parse.Step
import Mathlib.Logic.Relation

/-!
# What a step can do

Every step of a parse gets the next token first, which `Readies` describes, and then does one thing
about it, which `Acts` lists; a part of an old tree that is no token is taken over instead.  All
invariants of a parse are proved from these two views, so no other proof opens `Config.step`.

A step after which the parse goes on does one of the things that `Continues` lists, and the last one of
those that `Stops` lists.

## Key results

- `Walker.next_listed`: what a search in an old tree offers and what it leaves
- `step_cases`: a step acts on the token that is readied, or takes a part over
- `moves_cases`, `done_cases`: what a step does after which the parse goes on, and what the last one does
- `absorbs`: what takes a skipped token up
- `run_eq_some_iff`: a run gives what the step after finitely many others gives
- `invariant_of_run`, `invariant_of_parse`: what every step keeps holds where a run or a parse is done
-/

namespace IncrementalParsing

/-- Events that a count counts are not among those for which it is zero. -/
theorem Stats.not_mem_of_eq_zero (count : Stats → Nat)
    (hmono : ∀ (s : Stats) e, count s ≤ count (s.add e))
    {events : List Event} (h : count (ofEvents events) = 0) {e : Event}
    (he : ∀ s : Stats, 0 < count (s.add e)) : e ∉ events := by
  -- counting only ever grows
  have hle : ∀ (events : List Event) (s : Stats), count s ≤ count (events.foldl add s) := by
    intro events
    induction events with
    | nil => exact fun s => Nat.le_refl _
    | cons e rest ih => exact fun s => Nat.le_trans (hmono s e) (ih (s.add e))
  intro hmem
  obtain ⟨before, after, rfl⟩ := List.append_of_mem hmem
  rw [ofEvents, List.foldl_append, List.foldl_cons] at h
  have hpos := he (before.foldl add zero)
  have hrest := hle after ((before.foldl add zero).add e)
  omega

/-- What holds of the parts that a walker lists, and of what they consist of, holds of those that are
left after a search.  A part that is offered begins at the place it was asked for and can be used again
in the state. -/
theorem Walker.next_listed {P : Length × Subtree → Prop}
    (hP : ∀ p, P p → ∀ q ∈ p.2.placed p.1, P q) {t : Table} {state : StateId} {place : Nat}
    {w after : Walker} {found : Option Subtree} (h : next t state place w = (found, after))
    (hw : ∀ p ∈ w, P p) :
    (∀ p ∈ after, P p) ∧ ∀ n, found = some n →
      ∃ start, P (start, n) ∧ start.bytes = place ∧ n.isReusable t state = true := by
  -- what a part consists of is listed in its place
  have hplaced : ∀ {p : Length × Subtree} {rest : Walker}, (∀ q ∈ p :: rest, P q) →
      ∀ q ∈ p.2.placed p.1 ++ rest, P q := by
    intro p rest h q hq
    obtain ⟨hp, hrest⟩ := List.forall_mem_cons.mp h
    obtain hq | hq := List.mem_append.mp hq
    · exact hP p hp q hq
    · exact hrest q hq
  -- the induction follows the search, which passes, opens up or gives away a part
  fun_induction next t state place w with
  | case1 =>
    cases h
    exact ⟨hw, fun n hn => by cases hn⟩
  | case2 start n rest _ _ ih => exact ih h (hplaced hw)
  | case3 start n rest _ _ ih => exact ih h (List.forall_mem_cons.mp hw).2
  | case4 start n rest _ _ ih => exact ih h (List.forall_mem_cons.mp hw).2
  | case5 =>
    cases h
    exact ⟨hw, fun n hn => by cases hn⟩
  | case6 start n rest hge _ hle hreusable =>
    cases h
    obtain ⟨hn, hrest⟩ := List.forall_mem_cons.mp hw
    refine ⟨hrest, fun m hm => ?_⟩
    cases hm
    exact ⟨start, hn, by omega, hreusable⟩
  | case7 start n rest _ _ _ _ ih => exact ih h (hplaced hw)

namespace Config

variable {t : Table} {text : ByteArray}

/-! ## Getting the next token -/

/-- How the next token or part is found: it is waiting, it is found in the text, or it is a part of
the old tree. -/
inductive Readies (t : Table) (text : ByteArray) (c : Config) : Subtree → Config → Prop
  | waiting {token : Subtree} (h : c.lookahead = some token) : Readies t text c token c
  | lexed {walker : Walker} (h : c.lookahead = none)
      (hw : c.errorMode = true ∧ walker = c.walker
        ∨ c.errorMode = false ∧ Walker.next t c.state c.position.bytes c.walker = (none, walker)) :
      Readies t text c ({ c with walker }.lex t text).1 ({ c with walker }.lex t text).2
  | reused {n : Subtree} {walker : Walker} (h : c.lookahead = none) (he : c.errorMode = false)
      (hw : Walker.next t c.state c.position.bytes c.walker = (some n, walker)) :
      Readies t text c n ({ c with walker, lookaheadInErrorMode := false }.record
        (.reuse c.state n.symbol (c.contentStart n) (c.contentStart n + n.size.bytes)
          n.total.bytes))

/-- `fetch` finds a token in the text or a part of the old tree. -/
theorem readies_fetch (t : Table) (text : ByteArray) (c : Config) (h : c.lookahead = none) :
    Readies t text c (c.fetch t text).1 (c.fetch t text).2 := by
  unfold fetch
  split
  · rename_i he
    exact .lexed h (.inl ⟨he, rfl⟩)
  -- only outside error mode is the old tree asked for a node
  · rename_i he
    have he : c.errorMode = false := by simpa using he
    split
    · rename_i walker hw
      exact .lexed h (.inr ⟨he, hw⟩)
    · rename_i n walker hw
      exact .reused h he hw

/-! ## Acting on it -/

/-- What can be done about the next token. -/
inductive Acts (t : Table) (text : ByteArray) (c : Config) (token : Subtree) : Step → Prop
  | shift {target : StateId} (h : t.action? c.state token.symbol = some (.shift target)) :
      Acts t text c token (.next (c.shift t token target))
  | reduce {p : ProductionId} {production : Production}
      (h : t.action? c.state token.symbol = some (.reduce p))
      (hp : t.production? p = some production) (hr : c.reductions ≠ 0) :
      Acts t text c token (.next (c.reduce t token production))
  | accept (h : t.action? c.state token.symbol = some .accept) :
      Acts t text c token (.done (c.acceptedRoot t text token) (.accept c.state :: c.events))
  | extra (h : t.action? c.state token.symbol = none) (hf : token.symbol ≠ Symbol.finish)
      (he : t.isExtra token.symbol = true) : Acts t text c token (.next (c.shiftExtra t token))
  | cut {depth : Nat} (hd : depth < c.cutLimit)
      (h : (t.action? (c.stack.keep depth).state token.symbol).isSome = true) :
      Acts t text c token (.next ((c.cut t token depth).renew t))
  | skip (hf : token.symbol ≠ Symbol.finish) :
      Acts t text c token (.next ((c.skip t token).renew t))
  | wrap (hf : token.symbol = Symbol.finish) : Acts t text c token (c.wrap t text token)

/-- A cut stays below its limit, at an entry after which the token could follow. -/
theorem cutDepth?_spec {stack : Stack} {token : Symbol} {limit depth : Nat}
    (h : cutDepth? t stack token limit = some depth) :
    depth < limit ∧ (t.action? (stack.keep depth).state token).isSome = true := by
  induction limit with
  | zero => simp [cutDepth?] at h
  | succ limit ih =>
    -- the depths are tried from the top, so the first that fits is below the limit
    simp only [cutDepth?] at h
    split at h
    · rename_i ha
      cases h
      exact ⟨Nat.lt_succ_self _, ha⟩
    · exact ⟨Nat.lt_succ_of_lt (ih h).1, (ih h).2⟩

theorem acts_recover (c : Config) (token : Subtree) :
    Acts t text c token (c.recover t text token) := by
  unfold recover
  split
  · rename_i depth hd
    exact .cut (cutDepth?_spec hd).1 (cutDepth?_spec hd).2
  · split
    · rename_i hf
      exact .wrap (by simpa using hf)
    · rename_i hf
      exact .skip (by simpa using hf)

/-- No action of a state is a goto. -/
theorem action?_ne_goto (t : Table) (s : StateId) (a : Symbol) (target : StateId) :
    t.action? s a ≠ some (.goto target) := by
  unfold Table.action?
  split
  · simp
  · rename_i h
    intro hg
    exact h target hg

theorem acts_act (c : Config) (token : Subtree) : Acts t text c token (c.act t text token) := by
  unfold act
  -- a reduction is made only with a production of the table and while there is allowance
  split
  · rename_i target h
    exact .shift h
  · rename_i p h
    split
    · rename_i production hp
      split
      · exact acts_recover c token
      · rename_i hr
        exact .reduce h hp hr
    · exact acts_recover c token
  · rename_i h
    exact .accept h
  · rename_i hs hr ha
    -- there is no action at all, since a goto is none
    have hnone : t.action? c.state token.symbol = none := by
      cases h : t.action? c.state token.symbol with
      | none => rfl
      | some a =>
        cases a with
        | shift target => exact absurd h (hs target)
        | reduce p => exact absurd h (hr p)
        | accept => exact absurd h ha
        | goto target => exact absurd h (action?_ne_goto t _ _ target)
    split
    · rename_i hx
      simp only [bne_iff_ne, ne_eq, Bool.and_eq_true] at hx
      exact .extra hnone hx.1 hx.2
    · exact acts_recover c token

/-- A step acts on the token that is readied, or takes over a part that is no token. -/
theorem step_cases (t : Table) (text : ByteArray) (c : Config) :
    (∃ token c', Readies t text c token c' ∧ Acts t text c' token (c.step t text)) ∨
    (∃ n c', Readies t text c n c' ∧ c.lookahead = none ∧ t.isTerminal n.symbol = false ∧
      c.step t text = .next (c'.takeOver t n)) := by
  unfold step
  split
  · rename_i token h
    exact .inl ⟨token, c, .waiting h, acts_act c token⟩
  · rename_i h
    have hr := readies_fetch t text c h
    generalize c.fetch t text = found at hr ⊢
    obtain ⟨n, c'⟩ := found
    dsimp only at hr ⊢
    split
    · exact .inl ⟨n, c', hr, acts_act c' n⟩
    -- a node with an inner rule is taken over, a token is acted on
    · rename_i hn
      exact .inr ⟨n, c', hr, h, by simpa using hn, rfl⟩

/-- What can be done about a token if the parse goes on. -/
inductive Continues (t : Table) (c : Config) (token : Subtree) : Config → Prop
  | shift {target : StateId} (h : t.action? c.state token.symbol = some (.shift target)) :
      Continues t c token (c.shift t token target)
  | reduce {p : ProductionId} {production : Production}
      (h : t.action? c.state token.symbol = some (.reduce p))
      (hp : t.production? p = some production) (hr : c.reductions ≠ 0) :
      Continues t c token (c.reduce t token production)
  | extra (h : t.action? c.state token.symbol = none) (hf : token.symbol ≠ Symbol.finish)
      (he : t.isExtra token.symbol = true) : Continues t c token (c.shiftExtra t token)
  | cut {depth : Nat} (hd : depth < c.cutLimit)
      (h : (t.action? (c.stack.keep depth).state token.symbol).isSome = true) :
      Continues t c token ((c.cut t token depth).renew t)
  | skip (hf : token.symbol ≠ Symbol.finish) : Continues t c token ((c.skip t token).renew t)

theorem Acts.continues {c c' : Config} {token : Subtree} (h : Acts t text c token (.next c')) :
    Continues t c token c' := by
  -- the result is generalised, as the cases fix it
  generalize hstep : Step.next c' = step at h
  cases h with
  | shift h =>
    cases hstep
    exact .shift h
  | reduce h hp hr =>
    cases hstep
    exact .reduce h hp hr
  | accept => cases hstep
  | extra h hf he =>
    cases hstep
    exact .extra h hf he
  | cut hd h =>
    cases hstep
    exact .cut hd h
  | skip hf =>
    cases hstep
    exact .skip hf
  | wrap => cases hstep

/-- What can be done about a token if the parse is done: it is accepted, or at the end of the text
everything becomes one error. -/
inductive Stops (t : Table) (text : ByteArray) (c : Config) (token : Subtree) :
    Subtree → List Event → Prop
  | accept (h : t.action? c.state token.symbol = some .accept) :
      Stops t text c token (c.acceptedRoot t text token) (.accept c.state :: c.events)
  | wrap {start finish : Nat} (hf : token.symbol = Symbol.finish) :
      Stops t text c token
        (buildRoot text t.start [((c.errorNode t token c.stack.reverse 0).1, none)] token)
        (.recover c.state .wrap start finish :: c.events)

theorem Acts.stops {c : Config} {token root : Subtree} {events : List Event}
    (h : Acts t text c token (.done root events)) : Stops t text c token root events := by
  generalize hstep : Step.done root events = step at h
  cases h with
  | shift | reduce | extra | cut | skip => cases hstep
  | accept h =>
    cases hstep
    exact .accept h
  | wrap hf =>
    cases hstep
    exact .wrap hf

/-- The last step of a parse acts on the token that is readied. -/
theorem done_cases {c : Config} {root : Subtree} {events : List Event}
    (h : c.step t text = .done root events) :
    ∃ token ready, Readies t text c token ready ∧ Stops t text ready token root events := by
  obtain ⟨token, ready, hready, hact⟩ | ⟨_, _, -, -, -, hstep⟩ := step_cases t text c
  · rw [h] at hact
    exact ⟨token, ready, hready, hact.stops⟩
  · rw [h] at hstep
    cases hstep

/-! ## Taking up what is skipped -/

/-- What takes a skipped token up: where no error was skipped right before it, it is an error itself, or
an error is made of it; else it goes into the error right before it, which is joined with it or is in one
error with it. -/
inductive Absorbs (t : Table) (c : Config) (token : Subtree) : Subtree × Length × Stack → Prop
  | bare (h : token.symbol = Symbol.error)
      (htop : ∀ top ∈ c.stack.head?, top.node.extra = true → top.node.symbol ≠ Symbol.error) :
      Absorbs t c token (token, c.position, c.stack)
  | alone (htop : ∀ top ∈ c.stack.head?, top.node.extra = true → top.node.symbol ≠ Symbol.error) :
      Absorbs t c token
      ((c.errorNode t token [⟨c.state, token, c.position⟩] c.state).1,
        (c.errorNode t token [⟨c.state, token, c.position⟩] c.state).2, c.stack)
  | joined {top : Entry} {rest : Stack} {joined : Subtree} (hstack : c.stack = top :: rest)
      (hextra : top.node.extra = true) (herror : top.node.symbol = Symbol.error)
      (hjoined : top.node.joinErrors? token = some joined) :
      Absorbs t c token (joined, top.position, rest)
  | both {top : Entry} {rest : Stack} (hstack : c.stack = top :: rest)
      (hextra : top.node.extra = true) (herror : top.node.symbol = Symbol.error) :
      Absorbs t c token
        ((c.errorNode t token [top, ⟨c.state, token, c.position⟩] c.state).1,
          (c.errorNode t token [top, ⟨c.state, token, c.position⟩] c.state).2, rest)

theorem absorbs (t : Table) (c : Config) (token : Subtree) :
    Absorbs t c token (c.absorb t token) := by
  -- the top may stay as it is in two cases, that there is none and that it is no error
  have halone (htop : ∀ top ∈ c.stack.head?, top.node.extra = true → top.node.symbol ≠ Symbol.error) :
      Absorbs t c token (absorb.alone c t token ⟨c.state, token, c.position⟩) := by
    unfold absorb.alone
    split
    · rename_i herror
      exact .bare (beq_iff_eq.mp herror) htop
    · exact .alone htop
  unfold absorb
  dsimp only
  split
  · rename_i top rest hstack
    split
    · rename_i htop
      obtain ⟨hextra, herror⟩ := Bool.and_eq_true_iff.mp htop
      split
      · rename_i joined hjoined
        exact .joined hstack hextra (beq_iff_eq.mp herror) hjoined
      · exact .both hstack hextra (beq_iff_eq.mp herror)
    · rename_i htop
      refine halone fun e he hextra herror => htop ?_
      rw [hstack] at he
      cases he
      exact Bool.and_eq_true_iff.mpr ⟨hextra, beq_iff_eq.mpr herror⟩
  · rename_i hstack
    exact halone fun e he => by rw [hstack] at he; cases he

/-! ## Runs -/

/-- One step leads from one configuration to the other. -/
def Moves (t : Table) (text : ByteArray) (c c' : Config) : Prop := c.step t text = .next c'

/-- A step acts on the token that is readied, or takes over a part that is no token. -/
theorem moves_cases {c c' : Config} (h : Moves t text c c') :
    (∃ token ready, Readies t text c token ready ∧ Continues t ready token c') ∨
    (∃ n ready, Readies t text c n ready ∧ c.lookahead = none ∧ t.isTerminal n.symbol = false ∧
      c' = ready.takeOver t n) := by
  obtain ⟨token, ready, hready, hact⟩ | ⟨n, ready, hready, hl, hn, hstep⟩ := step_cases t text c
  · rw [h] at hact
    exact .inl ⟨token, ready, hready, hact.continues⟩
  · rw [h] at hstep
    cases hstep
    exact .inr ⟨n, ready, hready, hl, hn, rfl⟩

/-- Some number of steps leads from one configuration to the other. -/
abbrev Reaches (t : Table) (text : ByteArray) : Config → Config → Prop :=
  Relation.ReflTransGen (Moves t text)

/-- Where a parse stands after some steps; nothing where it was done before. -/
def after (t : Table) (text : ByteArray) (c : Config) : Nat → Option Config
  | 0 => some c
  | n + 1 =>
    match c.step t text with
    | .next c' => after t text c' n
    | .done _ _ => none

/-- A parse ends when a step that comes after finitely many others is the last one. -/
def Ends (t : Table) (text : ByteArray) (c : Config) : Prop :=
  ∃ c' root events, Reaches t text c c' ∧ c'.step t text = .done root events

theorem run_of_next {c c' : Config} (h : c.step t text = .next c') :
    run t text c = run t text c' := by
  rw [run, h]

theorem run_of_done {c : Config} {root : Subtree} {events : List Event}
    (h : c.step t text = .done root events) : run t text c = some (root, events.reverse) := by
  rw [run, h]

theorem run_of_reaches {c c' : Config} (h : Reaches t text c c') :
    run t text c = run t text c' := by
  induction h with
  | refl => rfl
  | tail _ hm ih => rw [ih, run_of_next hm]

/-- A run gives something exactly when a step after finitely many others is the last one. -/
theorem run_eq_some_iff {c : Config} {root : Subtree} {events : List Event} :
    run t text c = some (root, events) ↔
      ∃ c' es, Reaches t text c c' ∧ c'.step t text = .done root es ∧ events = es.reverse := by
  constructor
  -- what the run returns was reached, by induction on its unfolding
  · refine run.partial_correctness t text (fun c r => ∃ c' es, Reaches t text c c' ∧
      c'.step t text = .done r.1 es ∧ r.2 = es.reverse) ?_ c (root, events)
    intro again ih c r h
    split at h
    · rename_i root es hs
      cases h
      exact ⟨c, es, .refl, hs, rfl⟩
    · rename_i c' hs
      obtain ⟨last, es, hreach, hdone, hes⟩ := ih c' r h
      exact ⟨last, es, .head hs hreach, hdone, hes⟩
  · rintro ⟨c', es, hreach, hdone, rfl⟩
    rw [run_of_reaches hreach, run_of_done hdone]

theorem run_isSome_iff {c : Config} : (run t text c).isSome = true ↔ Ends t text c := by
  rw [Option.isSome_iff_exists]
  constructor
  · rintro ⟨⟨root, events⟩, h⟩
    obtain ⟨c', es, hreach, hdone, -⟩ := run_eq_some_iff.mp h
    exact ⟨c', root, es, hreach, hdone⟩
  · rintro ⟨c', root, es, hreach, hdone⟩
    exact ⟨_, run_eq_some_iff.mpr ⟨c', es, hreach, hdone, rfl⟩⟩

/-- What holds at the start of a run and is kept by every step holds wherever the run gets. -/
theorem invariant_of_reaches {P : Config → Prop} {c c' : Config} (h : Reaches t text c c')
    (h0 : P c) (hstep : ∀ c c', P c → Moves t text c c' → P c') : P c' := by
  induction h with
  | refl => exact h0
  | tail _ hm ih => exact hstep _ _ ih hm

/-- What holds at the start of a run and is kept by every step holds where the run is done. -/
theorem invariant_of_run {P : Config → Prop} {c : Config} {root : Subtree} {events : List Event}
    (h : run t text c = some (root, events)) (h0 : P c)
    (hstep : ∀ c c', P c → Moves t text c c' → P c') :
    ∃ c' es, P c' ∧ c'.step t text = .done root es ∧ events = es.reverse := by
  obtain ⟨c', es, hreach, hdone, hes⟩ := run_eq_some_iff.mp h
  exact ⟨c', es, invariant_of_reaches hreach h0 hstep, hdone, hes⟩

end Config

/-! ## Parses -/

namespace Language

variable {l : Language} {old : Option Tree}

/-- The root whose parts may be used again is that of the old tree. -/
theorem exists_of_usable? {root : Subtree} (h : l.usable? old = some root) :
    ∃ tree, old = some tree ∧ tree.root = root := by
  simp only [usable?, Option.map_eq_some_iff, Option.filter_eq_some_iff] at h
  obtain ⟨tree, ⟨hold, -⟩, hroot⟩ := h
  exact ⟨tree, hold, hroot⟩

/-- What holds at the start of a parse and is kept by every step holds where the parse is done. -/
theorem invariant_of_parse {P : Config → Prop} {text : String} {p : Parsed}
    (h : l.parse text old = some p) (h0 : P (.start l.table (l.usable? old)))
    (hstep : ∀ c c', P c → Config.Moves l.table text.toUTF8 c c' → P c') :
    ∃ c root events, P c ∧ c.step l.table text.toUTF8 = .done root events ∧
      p = ⟨⟨l, root⟩, events.reverse⟩ := by
  simp only [parse, Option.map_eq_some_iff] at h
  obtain ⟨⟨root, events⟩, hrun, rfl⟩ := h
  obtain ⟨c, es, hc, hdone, rfl⟩ := Config.invariant_of_run hrun h0 hstep
  exact ⟨c, root, es, hc, hdone, rfl⟩

end Language

end IncrementalParsing
