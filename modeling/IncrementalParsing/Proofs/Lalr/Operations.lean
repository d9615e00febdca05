import IncrementalParsing.Proofs.Lalr.Building
import IncrementalParsing.Proofs.Lalr.OperatorActions

/-!
# Reading operations

A row of operands with operators between them is read from left to right.  What is pending is a row
of left operands, each with the operator after it.  When an operator comes, the pending ones that
precede it are finished, the last one first; so what is an operand of what follows from how the
operators bind.

## Key results

- `Operates.proceeds_read`: reading an operator finishes what precedes it
- `Operates.builds_row`: every row is built to an operation that respects how its operators bind
-/

namespace IncrementalParsing

/-- Whether an operator leaves its right side to a later one: it does if that binds tighter, and
among its equals if it groups to the right. -/
def Binding.Yields (own next : Binding) : Prop :=
  own.value < next.value ∨ (own.value = next.value ∧ own.associativity = .right)

theorem Binding.yields_of_not_precedes {own next : Binding} (hgrouped : own.associativity ≠ .none)
    (h : ¬own.Precedes next) : own.Yields next := by
  unfold Precedes at h
  unfold Yields
  by_cases heq : own.value = next.value
  · refine .inr ⟨heq, ?_⟩
    cases hside : own.associativity with
    | none => exact absurd hside hgrouped
    | left => exact absurd (.inr ⟨heq, hside⟩) h
    | right => rfl
  · exact .inl (by omega)

/-! ## Operations -/

/-- What a row of operands and operators is read as. -/
inductive Operation (n : Nat) where
  | operand
  | binary (operator : Fin n) (left right : Operation n)

namespace Operation

variable {n : Nat}

/-- The operator that is applied last. -/
def root? : Operation n → Option (Fin n)
  | operand => none
  | binary i _ _ => some i

/-- The operators from left to right. -/
def operators : Operation n → List (Fin n)
  | operand => []
  | binary i left right => left.operators ++ i :: right.operators

/-- What an operation is built as. -/
def built (first : Fin (n + 1)) (token : Nat) (token' : Fin n → Nat) : Operation n → Built
  | operand => .node first [.token token]
  | binary i left right => .node (operationAt first i)
    [left.built first token token', .token (token' i), right.built first token token']

/-- At each operator, a left operand binds tighter or is an equal that groups to the left, and a right
operand binds tighter or is an equal of one that groups to the right. -/
def Respects (binding : Fin n → Binding) : Operation n → Prop
  | operand => True
  | binary i left right => left.Respects binding ∧ right.Respects binding ∧
      (∀ k ∈ left.root?, (binding k).Precedes (binding i)) ∧
      ∀ j ∈ right.root?, (binding i).Yields (binding j)

/-- The tokens of a row of operands with operators between them. -/
def row (token : Nat) (token' : Fin n → Nat) (operators : List (Fin n)) : List Symbol :=
  token :: operators.flatMap fun i => [token' i, token]

end Operation

open Operation (row)

/-! ## What is pending -/

/-- The operations of which the left operand and the operator have been read, the last one first. -/
abbrev Pending (n : Nat) := List (Operation n × Fin n)

namespace Pending

variable {n : Nat} {binding : Fin n → Binding} {At : Spot n → StateId → Prop} {first : Fin (n + 1)}
  {operand : Nat} {operator : Fin n → Nat}

/-- Where an operand comes next. -/
def before : Pending n → Spot n
  | [] => .start
  | (_, i) :: _ => .operator i

/-- Where an operand has been read. -/
def after : Pending n → Spot n
  | [] => .whole
  | (_, i) :: _ => .operation i

/-- The operators of what is pending, from left to right. -/
def operators : Pending n → List (Fin n)
  | [] => []
  | (left, i) :: rest => operators rest ++ left.operators ++ [i]

/-- Each left operand may stand before its operator, and each operator is left its right side by the
one before it. -/
def Respects (binding : Fin n → Binding) : Pending n → Prop
  | [] => True
  | (left, i) :: rest => left.Respects binding ∧
      (∀ k ∈ left.root?, (binding k).Precedes (binding i)) ∧
      (∀ x ∈ rest.head?, (binding x.2).Yields (binding i)) ∧ Respects binding rest

/-- A stack holds what is pending. -/
inductive On (At : Spot n → StateId → Prop) (first : Fin (n + 1)) (operand : Nat)
    (operator : Fin n → Nat) : Pending n → List (StateId × Built) → Prop
  | nil : On At first operand operator [] []
  | cons {rest : Pending n} {stack : List (StateId × Built)} {state state' : StateId}
      {left : Operation n} {i : Fin n} (h : On At first operand operator rest stack)
      (hstate : At rest.after state) (hstate' : At (.operator i) state') :
      On At first operand operator ((left, i) :: rest)
        ((state', .token (operator i)) :: (state, left.built first operand operator) :: stack)

theorem On.state {pending : Pending n} {stack : List (StateId × Built)} (hstart : At .start 0)
    (h : On At first operand operator pending stack) : At pending.before (Building.state stack) := by
  cases h with
  | nil => exact hstart
  | cons _ _ hstate => exact hstate

/-- What holds of a parse that has read an operand, or an operation. -/
structure Complete (binding : Fin n → Binding) (pending : Pending n) (e : Operation n) : Prop where
  respects : e.Respects binding
  waiting : pending.Respects binding
  yields : ∀ x ∈ pending.head?, ∀ j ∈ e.root?, (binding x.2).Yields (binding j)

/-- The pending operation that comes last can be finished. -/
theorem Complete.finish {left e : Operation n} {i : Fin n} {rest : Pending n}
    (h : Complete binding ((left, i) :: rest) e) : Complete binding rest (.binary i left e) := by
  obtain ⟨hleft, hprecedes, hyields, hrest⟩ := h.waiting
  refine ⟨⟨hleft, h.respects, hprecedes, h.yields (left, i) rfl⟩, hrest, fun x hx j hj => ?_⟩
  cases hj
  exact hyields x hx

theorem complete_operand {pending : Pending n} (h : pending.Respects binding) :
    Complete binding pending .operand :=
  ⟨trivial, h, fun _ _ _ hj => by cases hj⟩

end Pending

namespace ParserTable.Operates

open Pending (On Complete)

variable {p : ParserTable} {g : FlatGrammar} {n : Nat} {first : Fin (n + 1)}
  {operand : Nat} {operator : Fin n → Nat} {binding : Fin n → Binding}
  {At : Spot n → StateId → Prop}
  (hp : p.Operates g first operand operator binding At)
  (hr : OperatorRules g first operand operator binding)
include hp

theorem goto_pending {pending : Pending n} {stack : List (StateId × Built)}
    (hon : On At first operand operator pending stack) :
    ∃ target, p.goto? (Building.state stack) g.start = some target ∧ At pending.after target := by
  refine hp.goto pending.before pending.after _ (hon.state hp.start) ?_
  cases pending with
  | nil => exact .whole
  | cons x rest => exact .operation x.2

include hr

/-- Reading an operand, and finishing it on what follows. -/
theorem proceeds_operand {pending : Pending n} {stack : List (StateId × Built)} {token : Symbol}
    (tokens : List Symbol) (hon : On At first operand operator pending stack)
    (htoken : token = Symbol.finish ∨ ∃ j, token = operator j) :
    ∃ state, At pending.after state ∧ p.Proceeds g ⟨stack, operand :: token :: tokens⟩
      ⟨(state, Operation.operand.built first operand operator) :: stack, token :: tokens⟩ := by
  have hopens : pending.before.opens = true := by cases pending <;> rfl
  obtain ⟨entered, hread, hentered⟩ := hp.reads_operand _ _ (hon.state hp.start) hopens
  obtain ⟨target, hgoto, hat⟩ := hp.goto_pending hon
  obtain ⟨q, hq, hlhs, hrhs⟩ := hr.atom
  -- the operand is read and then reduced in front of the token that follows
  refine ⟨target, hat, .head (build_shift hread) (.single ?_)⟩
  exact build_reduce [(entered, .token operand)]
    (hp.finishes_operand _ _ hentered htoken) hq (by rw [hrhs]; rfl) (by rwa [hlhs])

/-- Finishing the pending operation that comes last. -/
theorem proceeds_finish {left e : Operation n} {i : Fin n} {rest : Pending n}
    {stack : List (StateId × Built)} {state : StateId} {token : Symbol} (tokens : List Symbol)
    (hon : On At first operand operator ((left, i) :: rest) stack)
    (haction : p.action? state token = some (.reduce (operationAt first i))) :
    ∃ stack' state', On At first operand operator rest stack' ∧ At rest.after state' ∧
      p.Proceeds g ⟨(state, e.built first operand operator) :: stack, token :: tokens⟩
        ⟨(state', (Operation.binary i left e).built first operand operator) :: stack',
          token :: tokens⟩ := by
  -- the operation that waits last is finished, and the one below waits for it
  cases hon with
  | @cons _ stack' state₁ state₂ _ _ hrest _ _ =>
    obtain ⟨target, hgoto, hat⟩ := hp.goto_pending hrest
    obtain ⟨q, hq, hlhs, hrhs, -⟩ := hr.operation i
    refine ⟨stack', target, hrest, hat, .single ?_⟩
    exact build_reduce [(state, e.built first operand operator), (state₂, .token (operator i)),
      (state₁, left.built first operand operator)] haction hq (by rw [hrhs]; rfl) (by rwa [hlhs])

/-- An operator finishes what precedes it, and is read then. -/
theorem proceeds_read (j : Fin n) (tokens : List Symbol) {pending : Pending n} {e : Operation n}
    {stack : List (StateId × Built)} {state : StateId} (h : Complete binding pending e)
    (hroot : ∀ k ∈ e.root?, (binding k).Precedes (binding j))
    (hon : On At first operand operator pending stack) (hat : At pending.after state) :
    ∃ (pending' : Pending n) (stack' : List (StateId × Built)), pending'.Respects binding ∧
      pending'.operators = pending.operators ++ e.operators ++ [j] ∧
      On At first operand operator pending' stack' ∧
      p.Proceeds g ⟨(state, e.built first operand operator) :: stack, operator j :: tokens⟩
        ⟨stack', tokens⟩ := by
  -- on what is pending: operators that bind tighter are finished before `j` is read
  induction pending generalizing e stack state with
  | nil =>
    obtain ⟨target, haction, htarget⟩ := hp.reads_first state j hat
    exact ⟨[(e, j)], _, ⟨h.respects, hroot, fun x hx => (by cases hx), h.waiting⟩, rfl,
      .cons hon hat htarget, .single (build_shift haction)⟩
  | cons last rest ih =>
    obtain ⟨left, i⟩ := last
    -- either the last operation is finished, or `j` takes `e` for its left operand
    by_cases hprecedes : (binding i).Precedes (binding j)
    · obtain ⟨stack₁, state₁, hon₁, hat₁, hfinish⟩ :=
        hp.proceeds_finish hr tokens hon (e := e) (hp.finishes state i j hat hprecedes)
      obtain ⟨pending', stack', hrespects, hoperators, hon', hproceeds⟩ := ih h.finish
        (fun k hk => by cases hk; exact hprecedes) hon₁ hat₁
      refine ⟨pending', stack', hrespects, ?_, hon', hfinish.trans hproceeds⟩
      rw [hoperators]
      simp [Pending.operators, Operation.operators]
    · obtain ⟨target, haction, htarget⟩ := hp.reads state i j hat hprecedes
      refine ⟨(e, j) :: (left, i) :: rest, _, ⟨h.respects, hroot, fun x hx => ?_, h.waiting⟩, rfl,
        .cons hon hat htarget, .single (build_shift haction)⟩
      cases hx
      exact Binding.yields_of_not_precedes (hr.grouped i) hprecedes

/-- The end of the text finishes all that is pending. -/
theorem proceeds_end {pending : Pending n} {e : Operation n} {stack : List (StateId × Built)}
    {state : StateId} (h : Complete binding pending e)
    (hon : On At first operand operator pending stack) (hat : At pending.after state) :
    ∃ (e' : Operation n) (state' : StateId), e'.Respects binding ∧
      e'.operators = pending.operators ++ e.operators ∧ At .whole state' ∧
      p.Proceeds g ⟨(state, e.built first operand operator) :: stack, [Symbol.finish]⟩
        ⟨[(state', e'.built first operand operator)], [Symbol.finish]⟩ := by
  -- at the end all that is pending is finished, from the last to the first
  induction pending generalizing e stack state with
  | nil =>
    cases hon
    exact ⟨e, state, h.respects, rfl, hat, .refl⟩
  | cons last rest ih =>
    obtain ⟨left, i⟩ := last
    obtain ⟨stack₁, state₁, hon₁, hat₁, hfinish⟩ :=
      hp.proceeds_finish hr [] hon (e := e) (hp.finishes_last state i hat)
    obtain ⟨e', state', hrespects, hoperators, hwhole, hproceeds⟩ := ih h.finish hon₁ hat₁
    refine ⟨e', state', hrespects, ?_, hwhole, hfinish.trans hproceeds⟩
    rw [hoperators]
    simp [Pending.operators, Operation.operators]

/-- The rest of a row is read after what is pending. -/
theorem proceeds_row (operators : List (Fin n)) (pending : Pending n) {stack : List (StateId × Built)}
    (hrespects : pending.Respects binding) (hon : On At first operand operator pending stack) :
    ∃ (e : Operation n) (state : StateId), e.Respects binding ∧
      e.operators = pending.operators ++ operators ∧ At .whole state ∧
      p.Proceeds g ⟨stack, row operand operator operators ++ [Symbol.finish]⟩
        ⟨[(state, e.built first operand operator)], [Symbol.finish]⟩ := by
  -- on the operators: an operand is read, and then the operator behind it
  induction operators generalizing pending stack with
  | nil =>
    obtain ⟨state, hat, hread⟩ := hp.proceeds_operand hr [] hon (.inl rfl)
    obtain ⟨e, state', he, hoperators, hwhole, hproceeds⟩ :=
      hp.proceeds_end hr (Pending.complete_operand hrespects) hon hat
    exact ⟨e, state', he, hoperators, hwhole, hread.trans hproceeds⟩
  | cons j rest ih =>
    obtain ⟨state, hat, hread⟩ := hp.proceeds_operand hr
      (row operand operator rest ++ [Symbol.finish]) hon (.inr ⟨j, rfl⟩)
    obtain ⟨pending', stack', hrespects', hoperators', hon', hproceeds'⟩ := hp.proceeds_read hr j
      (row operand operator rest ++ [Symbol.finish]) (Pending.complete_operand hrespects)
      (fun k hk => by cases hk) hon hat
    obtain ⟨e, state', he, hoperators, hwhole, hproceeds⟩ := ih pending' hrespects' hon'
    refine ⟨e, state', he, ?_, hwhole, (hread.trans hproceeds').trans hproceeds⟩
    rw [hoperators, hoperators']
    simp [Operation.operators]

/-- Every row is built to an operation over it that respects how its operators bind. -/
theorem builds_row (operators : List (Fin n)) :
    ∃ e : Operation n, e.Respects binding ∧ e.operators = operators ∧
      p.Builds g (row operand operator operators) (e.built first operand operator) := by
  obtain ⟨e, state, he, hoperators, hwhole, hproceeds⟩ :=
    hp.proceeds_row hr operators [] trivial .nil
  refine ⟨e, he, hoperators, [(state, e.built first operand operator)], hproceeds, ?_⟩
  have haccept : p.action? (Building.state [(state, e.built first operand operator)]) Symbol.finish =
      some .accept := hp.accepts state hwhole
  simp [build, haccept]

end ParserTable.Operates

end IncrementalParsing
