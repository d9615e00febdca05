import IncrementalParsing.Proofs.Lalr.Completeness

/-!
# Parses that build trees

A parse by a table as in `ParserTable.move`, where each state that is entered carries what has been
built up to it: a token that was read, or a production with its parts.  The moves are a function, so
what a text is built to is determined; and nothing but the tokens that were read is built.

## Key results

- `Builds.unique`: a text is built to one tree
- `Builds.tokens_eq`: the tree is over the text
- `Builds.accepts`: a text that is built is accepted
-/

namespace IncrementalParsing

/-- What a parse builds: a token, or a production that has been finished, with its parts. -/
inductive Built where
  | token (symbol : Symbol)
  | node (production : ProductionId) (parts : List Built)

namespace Built

mutual

/-- The tokens of what has been built, in order. -/
def tokens : Built → List Symbol
  | token symbol => [symbol]
  | node _ parts => tokensOf parts

/-- The tokens of a row, in order. -/
def tokensOf : List Built → List Symbol
  | [] => []
  | part :: rest => part.tokens ++ tokensOf rest

end

theorem tokensOf_append (parts parts' : List Built) :
    tokensOf (parts ++ parts') = tokensOf parts ++ tokensOf parts' := by
  induction parts with
  | nil => rfl
  | cons part rest ih => rw [List.cons_append, tokensOf, tokensOf, ih, List.append_assoc]

end Built

/-- A parse as the states and the actions see it, with what has been built: the states entered and not
left after the first one, the last one first, each with what it was entered for; and the tokens that
are still to be read. -/
structure Building where
  stack : List (StateId × Built)
  tokens : List Symbol

namespace Building

/-- The state that has been entered last. -/
def state (stack : List (StateId × Built)) : StateId := ((stack.head?).map (·.1)).getD 0

/-- The tokens of a parse: those of what has been built, and those to be read. -/
def text (b : Building) : List Symbol := Built.tokensOf (b.stack.reverse.map (·.2)) ++ b.tokens

/-- The parse without what has been built. -/
def reading (b : Building) : Reading := ⟨b.stack.map (·.1) ++ [0], b.tokens⟩

/-- How a parse goes on. -/
inductive Move where
  | next (b : Building)
  | accepted (tree : Built)
  /-- The table has no action, or nowhere to go. -/
  | stuck

end Building

namespace ParserTable

variable (p : ParserTable) (g : FlatGrammar)

/-- Finishes a production with what has been built last. -/
def finishParts (production : ProductionId) (stack : List (StateId × Built)) :
    Option (List (StateId × Built)) :=
  match g.productions[production]? with
  | some info =>
    let count := info.parts.length
    let below := stack.drop count
    if count ≤ stack.length then
      (p.goto? (Building.state below) info.lhs).map fun target =>
        (target, .node production ((stack.take count).reverse.map (·.2))) :: below
    else none
  | none => none

/-- What the action of the last state on the next token does. -/
def build : Building → Building.Move
  | ⟨stack, token :: rest⟩ =>
    match p.action? (Building.state stack) token with
    | some (.shift target) => .next ⟨(target, .token token) :: stack, rest⟩
    | some (.reduce production) =>
      match p.finishParts g production stack with
      | some stack => .next ⟨stack, token :: rest⟩
      | none => .stuck
    | some .accept =>
      match stack with
      | [(_, tree)] => .accepted tree
      | _ => .stuck
    | _ => .stuck
  | _ => .stuck

/-- One parse comes after another by moves. -/
def Proceeds : Building → Building → Prop :=
  Relation.ReflTransGen fun b b' => p.build g b = .next b'

/-- A row of tokens is read from the first state, all of it, and accepted at its end as a tree. -/
def Builds (tokens : List Symbol) (tree : Built) : Prop :=
  ∃ stack, p.Proceeds g ⟨[], tokens ++ [.finish]⟩ ⟨stack, [.finish]⟩ ∧
    p.build g ⟨stack, [.finish]⟩ = .accepted tree

variable {p g}

/-- Reading a token that comes next. -/
theorem build_shift {stack : List (StateId × Built)} {token : Symbol} {rest : List Symbol}
    {target : StateId} (h : p.action? (Building.state stack) token = some (.shift target)) :
    p.build g ⟨stack, token :: rest⟩ = .next ⟨(target, .token token) :: stack, rest⟩ := by
  simp [build, h]

/-- Finishing a production of which the parts have been built. -/
theorem build_reduce (above : List (StateId × Built)) {below : List (StateId × Built)}
    {token : Symbol} {rest : List Symbol} {production : ProductionId} {info : FlatProduction}
    {target : StateId}
    (h : p.action? (Building.state (above ++ below)) token = some (.reduce production))
    (hinfo : g.productions[production]? = some info) (hcount : info.rhs.length = above.length)
    (hgoto : p.goto? (Building.state below) info.lhs = some target) :
    p.build g ⟨above ++ below, token :: rest⟩ =
      .next ⟨(target, .node production (above.reverse.map (·.2))) :: below, token :: rest⟩ := by
  rw [FlatProduction.rhs, List.length_map] at hcount
  -- the entries above are the right-hand side, all of it
  have hfinish : p.finishParts g production (above ++ below) =
      some ((target, .node production (above.reverse.map (·.2))) :: below) := by
    simp [finishParts, hinfo, hcount, hgoto]
  simp [build, h, hfinish]

/-! ## One tree -/

theorem Proceeds.total {b c c' : Building} (h : p.Proceeds g b c) (h' : p.Proceeds g b c') :
    p.Proceeds g c c' ∨ p.Proceeds g c' c :=
  Relation.ReflTransGen.total_of_right_unique
    (fun _ _ _ h h' => Building.Move.next.inj (h.symm.trans h')) h h'

theorem eq_of_proceeds_of_accepted {b c : Building} {tree : Built} (hb : p.build g b = .accepted tree)
    (h : p.Proceeds g b c) : c = b := by
  obtain rfl | ⟨d, hd, -⟩ := h.cases_head
  · rfl
  · cases hb.symm.trans hd

/-- A text is built to one tree. -/
theorem Builds.unique {tokens : List Symbol} {tree tree' : Built} (h : p.Builds g tokens tree)
    (h' : p.Builds g tokens tree') : tree = tree' := by
  obtain ⟨stack, hproceeds, haccepted⟩ := h
  obtain ⟨stack', hproceeds', haccepted'⟩ := h'
  have heq : (⟨stack, [.finish]⟩ : Building) = ⟨stack', [.finish]⟩ := by
    obtain h | h := hproceeds.total hproceeds'
    · exact (eq_of_proceeds_of_accepted haccepted h).symm
    · exact eq_of_proceeds_of_accepted haccepted' h
  rw [heq] at haccepted
  exact Building.Move.accepted.inj (haccepted.symm.trans haccepted')

/-! ## The moves of a parse -/

/-- What a move does. -/
theorem build_next {stack stack' : List (StateId × Built)} {tokens tokens' : List Symbol}
    (h : p.build g ⟨stack, tokens⟩ = .next ⟨stack', tokens'⟩) :
    (∃ token target, p.action? (Building.state stack) token = some (.shift target) ∧
      tokens = token :: tokens' ∧ stack' = (target, .token token) :: stack) ∨
    ∃ token rest production, p.action? (Building.state stack) token = some (.reduce production) ∧
      tokens = token :: rest ∧ tokens' = token :: rest ∧
        p.finishParts g production stack = some stack' := by
  unfold build at h
  split at h
  · rename_i heq
    cases heq
    -- by the action on the first token: shift, reduce, accept or none
    split at h
    · rename_i target haction
      cases h
      exact .inl ⟨_, target, haction, rfl, rfl⟩
    · rename_i production haction
      split at h
      · rename_i hfinish
        cases h
        exact .inr ⟨_, _, production, haction, rfl, rfl, hfinish⟩
      · cases h
    · split at h <;> cases h
    · cases h
  · cases h

theorem finishParts_eq_some {production : ProductionId} {stack stack' : List (StateId × Built)}
    (h : p.finishParts g production stack = some stack') : ∃ info target,
      g.productions[production]? = some info ∧ info.parts.length ≤ stack.length ∧
      p.goto? (Building.state (stack.drop info.parts.length)) info.lhs = some target ∧
      stack' = (target, .node production ((stack.take info.parts.length).reverse.map (·.2))) ::
        stack.drop info.parts.length := by
  unfold finishParts at h
  split at h
  · rename_i info hinfo
    dsimp only at h
    split at h
    · rename_i hle
      obtain ⟨target, htarget, rfl⟩ := Option.map_eq_some_iff.mp h
      exact ⟨info, target, hinfo, hle, htarget, rfl⟩
    · cases h
  · cases h

/-- No token is lost and none is made. -/
theorem text_next {b c : Building} (h : p.build g b = .next c) : c.text = b.text := by
  obtain ⟨stack, tokens⟩ := b
  obtain ⟨stack', tokens'⟩ := c
  unfold Building.text
  obtain ⟨token, target, -, rfl, rfl⟩ | ⟨token, rest, production, -, rfl, rfl, hfinish⟩ := build_next h
  · simp [Built.tokensOf_append, Built.tokensOf, Built.tokens]
  · obtain ⟨info, target, -, -, -, rfl⟩ := finishParts_eq_some hfinish
    -- a reduction puts the same tokens under one node
    have hsplit : Built.tokensOf ((stack.drop info.parts.length).reverse.map (·.2)) ++
        Built.tokensOf ((stack.take info.parts.length).reverse.map (·.2)) =
        Built.tokensOf (stack.reverse.map (·.2)) := by
      rw [← Built.tokensOf_append, ← List.map_append, ← List.reverse_append, List.take_append_drop]
    dsimp only
    rw [List.reverse_cons, List.map_append, Built.tokensOf_append, ← hsplit]
    simp [Built.tokensOf, Built.tokens]

theorem text_proceeds {b c : Building} (h : p.Proceeds g b c) : c.text = b.text := by
  induction h with
  | refl => rfl
  | tail _ hnext ih => rw [text_next hnext, ih]

theorem build_accepted {b : Building} {tree : Built} (h : p.build g b = .accepted tree) :
    ∃ state token rest, b = ⟨[(state, tree)], token :: rest⟩ ∧
      p.action? state token = some .accept := by
  unfold build at h
  split at h
  · split at h
    · cases h
    · split at h <;> cases h
    · rename_i haction
      split at h
      · cases h
        exact ⟨_, _, _, rfl, haction⟩
      · cases h
    · cases h
  · cases h

/-- What a text is built to is over the text. -/
theorem Builds.tokens_eq {tokens : List Symbol} {tree : Built} (h : p.Builds g tokens tree) :
    tree.tokens = tokens := by
  obtain ⟨stack, hproceeds, haccepted⟩ := h
  obtain ⟨state, token, rest, heq, -⟩ := build_accepted haccepted
  cases heq
  have := text_proceeds hproceeds
  simpa [Building.text, Built.tokensOf] using this

/-! ## What is built is accepted -/

theorem states_eq (stack : List (StateId × Built)) :
    ∃ below, stack.map (·.1) ++ [0] = Building.state stack :: below := by
  cases stack with
  | nil => exact ⟨[], rfl⟩
  | cons top rest => exact ⟨rest.map (·.1) ++ [0], rfl⟩

/-- A parse that builds moves as one that does not. -/
theorem move_of_build {b c : Building} (h : p.build g b = .next c) :
    p.move g b.reading = .next c.reading := by
  obtain ⟨stack, tokens⟩ := b
  obtain ⟨stack', tokens'⟩ := c
  unfold Building.reading
  dsimp only
  obtain ⟨below, hbelow⟩ := states_eq stack
  obtain ⟨token, target, haction, rfl, rfl⟩ | ⟨token, rest, production, haction, rfl, rfl, hfinish⟩ :=
    build_next h
  · rw [List.map_cons, List.cons_append, hbelow]
    exact move_shift haction
  · obtain ⟨info, target, hinfo, hle, hgoto, rfl⟩ := finishParts_eq_some hfinish
    obtain ⟨below', hbelow'⟩ := states_eq (stack.drop info.parts.length)
    rw [List.map_cons, List.cons_append, hbelow, hbelow']
    refine move_reduce haction hinfo ?_ hgoto
    rw [← hbelow, ← hbelow', FlatProduction.rhs, List.length_map, List.map_drop,
      List.drop_append_of_le_length (by rwa [List.length_map])]

/-- What is built is accepted. -/
theorem Builds.accepts {tokens : List Symbol} {tree : Built} (h : p.Builds g tokens tree) :
    p.Accepts g tokens := by
  obtain ⟨stack, hproceeds, haccepted⟩ := h
  obtain ⟨state, token, rest, heq, haction⟩ := build_accepted haccepted
  cases heq
  refine ⟨[state, 0], ?_, by simp [move, haction]⟩
  exact hproceeds.lift Building.reading fun _ _ => move_of_build

end ParserTable

end IncrementalParsing
