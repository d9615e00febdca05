import IncrementalParsing.Proofs.Tree.Derivations

/-!
# Properties of all parts

`Subtree.Every` says that a property holds of a part and of everything stored in it.  An edit can take
such a property away from what it touches, but not from what it leaves alone: `Subtree.Retains` says
that whatever is not marked as changed still has it throughout, and edits keep that.

## Key results

- `Every.edit`: what does not depend on lengths still holds throughout after an edit
- `Every.retains`: what holds throughout is retained
- `Retains.edit`: what an edit has not marked retains its property
-/

namespace IncrementalParsing

namespace Subtree

variable {P : Subtree → Prop} {n : Subtree}

/-- A property holds of a part and of everything in it. -/
inductive Every (P : Subtree → Prop) : Subtree → Prop
  | mk {n : Subtree} (self : P n) (children : ∀ c ∈ n.children, Every P c.1) : Every P n

theorem Every.self (h : n.Every P) : P n := by
  cases h
  assumption

theorem Every.child (h : n.Every P) : ∀ c ∈ n.children, c.1.Every P := by
  cases h
  assumption

/-- What a part consists of does not depend on whether it is an extra. -/
theorem Every.withExtra {extra : Bool} (h : n.Every P) (hself : P (n.withExtra extra)) :
    (n.withExtra extra).Every P :=
  ⟨hself, h.child⟩

/-! ## Edits -/

/-- A property that depends on nothing but what an edit keeps still holds throughout after it. -/
theorem Every.edit (hP : ∀ n n' : Subtree, Alike n' n →
      List.Forall₂ (fun c' c => Alike c'.1 c.1) n'.children n.children → P n → P n')
    (h : n.Every P) (e : Edit) (position : Length) : (n.edit e position).Every P := by
  induction h generalizing position with
  | @mk n self children ih =>
    have hchildren := forall₂_children_edit e n position
    refine ⟨hP _ _ (alike_edit e n position) (hchildren.imp fun c' c hc => ?_) self,
      fun c' hc' => ?_⟩
    -- a child that the edit does not reach is kept as it is
    · obtain hsame | ⟨p, hedit⟩ := hc
      · exact hsame ▸ .refl c.1
      · exact hedit ▸ alike_edit e c.1 p
    · obtain ⟨c, hc, hsame | ⟨p, hedit⟩⟩ := exists_of_mem_forall₂ hchildren hc'
      · exact hsame ▸ children c hc
      · exact hedit ▸ ih c hc p

/-- A property holds throughout of everything in a part that is not marked as changed. -/
def Retains (P : Subtree → Prop) (n : Subtree) : Prop :=
  n.Every fun m => m.changed = false → m.Every P

theorem Every.retains (h : n.Every P) : n.Retains P := by
  induction h with
  | mk self children ih => exact ⟨fun _ => ⟨self, children⟩, ih⟩

theorem Retains.child (h : n.Retains P) : ∀ c ∈ n.children, c.1.Retains P := Every.child h

theorem Retains.every (h : n.Retains P) (hc : n.changed = false) : n.Every P := Every.self h hc

/-- An edit marks what it touches and leaves the rest as it is. -/
theorem Retains.edit {e : Edit} (h : n.Retains P) (position : Length) :
    (n.edit e position).Retains P := by
  induction n using Subtree.induction generalizing position with
  | step n ih =>
    -- a node that is marked keeps no property of its own, only its children may
    cases haffects : e.affects position (position + n.total) n.lookahead with
    | false =>
      rw [edit_of_not_affects haffects]
      exact h
    | true =>
      rw [edit_of_affects haffects]
      refine ⟨(fun hc => by cases hc), fun c' hc' => ?_⟩
      obtain ⟨c, hc, p, hedit⟩ := exists_of_mem_forall₂ (forall₂_editAll e position n.children) hc'
      rw [hedit]
      exact ih c hc (h.child c hc) p

end Subtree

end IncrementalParsing
