/-!
# Sums over lists

`sumOf f l` adds up what `f` gives for the elements of `l`.
-/

namespace IncrementalParsing

/-- The sum of what `f` gives for the elements of a list. -/
def sumOf {α : Type} (f : α → Nat) : List α → Nat
  | [] => 0
  | a :: rest => f a + sumOf f rest

@[simp] theorem sumOf_nil {α : Type} (f : α → Nat) : sumOf f [] = 0 := rfl

@[simp] theorem sumOf_cons {α : Type} (f : α → Nat) (a : α) (l : List α) :
    sumOf f (a :: l) = f a + sumOf f l := rfl

@[simp] theorem sumOf_append {α : Type} (f : α → Nat) (l l' : List α) :
    sumOf f (l ++ l') = sumOf f l + sumOf f l' := by
  induction l with
  | nil => simp
  | cons a l ih => simp [ih, Nat.add_assoc]

end IncrementalParsing
