import IncrementalParsing.Sum

/-!
# Going round until nothing changes

Fixed points are found by going over a list again and again.  Every step that changes anything lowers
some cost, so a round that changes nothing shows that no step does, and enough rounds find such a one.

## Key results

- `improves_foldl`: a whole round changes nothing, or it lowers the cost
- `step_eq_of_foldl_eq`: no step changes anything where the round does not
- `modify_eq_or_lt`: changing one entry of an array lowers the sum of the costs of all of them
-/

namespace IncrementalParsing

variable {α β : Type}

/-- Where something holds, a step keeps it and lowers a cost, unless it changes nothing. -/
def Improves (holds : α → Prop) (cost : α → Nat) (step : α → α) : Prop :=
  ∀ a, holds a → holds (step a) ∧ (step a = a ∨ cost (step a) < cost a)

variable {holds : α → Prop} {cost : α → Nat} {step : α → β → α} {xs : List β}

/-- A round changes nothing, or it lowers the cost. -/
theorem improves_foldl (h : ∀ x ∈ xs, Improves holds cost fun a => step a x) :
    Improves holds cost fun a => xs.foldl step a := by
  -- the induction is on the list, a step of which changes nothing or lowers the cost
  induction xs with
  | nil => exact fun a ha => ⟨ha, .inl rfl⟩
  | cons x rest ih =>
    intro a ha
    obtain ⟨hx, hchange⟩ := h x (List.mem_cons_self ..) a ha
    obtain ⟨hrest, hchanges⟩ := ih (fun y hy => h y (List.mem_cons_of_mem _ hy)) (step a x) hx
    show holds (rest.foldl step (step a x)) ∧
      (rest.foldl step (step a x) = a ∨ cost (rest.foldl step (step a x)) < cost a)
    refine ⟨hrest, ?_⟩
    dsimp only at hchange hchanges
    obtain hsame | hless := hchanges
    · rw [hsame]
      exact hchange
    · obtain hfirst | hfirst := hchange
      · rw [hfirst] at hless ⊢
        exact .inr hless
      · exact .inr (Nat.lt_trans hless hfirst)

/-- No step changes anything where the round does not. -/
theorem step_eq_of_foldl_eq (h : ∀ x ∈ xs, Improves holds cost fun a => step a x) {a : α}
    (ha : holds a) (hsame : xs.foldl step a = a) : ∀ x ∈ xs, step a x = a := by
  -- the first step changes nothing, so that the others start from the same value
  induction xs with
  | nil => exact fun x hx => by cases hx
  | cons x rest ih =>
    have hrest := fun y hy => h y (List.mem_cons_of_mem x hy)
    have hfirst : step a x = a := by
      obtain ⟨hx, hchange⟩ := h x (List.mem_cons_self ..) a ha
      refine hchange.resolve_right fun hless => ?_
      -- the cost would be lower after the round, though nothing has changed
      obtain ⟨-, hchanges⟩ := improves_foldl hrest (step a x) hx
      dsimp only at hless hchanges
      rw [List.foldl_cons] at hsame
      rw [hsame] at hchanges
      obtain hback | hless' := hchanges
      · rw [← hback] at hless
        exact Nat.lt_irrefl _ hless
      · exact Nat.lt_asymm hless hless'
    rw [List.foldl_cons, hfirst] at hsame
    intro y hy
    obtain rfl | hy := List.mem_cons.mp hy
    · exact hfirst
    · exact ih hrest hsame y hy

/-! ## Costs -/

theorem sumOf_set {α : Type} (f : α → Nat) {xs : List α} {i : Nat} (x : α) (hi : i < xs.length) :
    sumOf f (xs.set i x) + f xs[i] = sumOf f xs + f x := by
  induction xs generalizing i with
  | nil => cases hi
  | cons y rest ih =>
    cases i with
    | zero =>
      simp only [List.set_cons_zero, sumOf_cons, List.getElem_cons_zero]
      omega
    | succ i =>
      have := ih (Nat.lt_of_succ_lt_succ hi)
      simp only [List.set_cons_succ, sumOf_cons, List.getElem_cons_succ]
      omega

theorem sumOf_le {α : Type} {f : α → Nat} {bound : Nat} {xs : List α} (h : ∀ x ∈ xs, f x ≤ bound) :
    sumOf f xs ≤ xs.length * bound := by
  induction xs with
  | nil => exact Nat.zero_le _
  | cons x rest ih =>
    have hx := h x (List.mem_cons_self ..)
    have := ih fun y hy => h y (List.mem_cons_of_mem _ hy)
    rw [sumOf_cons, List.length_cons, Nat.succ_mul]
    omega

theorem length_flatMap_sumOf {α β : Type} (f : α → List β) (xs : List α) :
    (xs.flatMap f).length = sumOf (fun x => (f x).length) xs := by
  induction xs with
  | nil => rfl
  | cons x rest ih => rw [List.flatMap_cons, List.length_append, ih, sumOf_cons]

/-- A sum is no more if nothing in it is. -/
theorem sumOf_mono {α : Type} {f f' : α → Nat} (hle : ∀ y, f y ≤ f' y) (xs : List α) :
    sumOf f xs ≤ sumOf f' xs := by
  induction xs with
  | nil => exact Nat.le_refl _
  | cons y ys ih => exact Nat.add_le_add (hle y) ih

/-- A sum is less if something in it is, and nothing is more. -/
theorem sumOf_lt {α : Type} {f f' : α → Nat} {xs : List α} {x : α} (hx : x ∈ xs)
    (hle : ∀ y, f y ≤ f' y) (hlt : f x < f' x) : sumOf f xs < sumOf f' xs := by
  induction xs with
  | nil => cases hx
  | cons y ys ih =>
    obtain rfl | hx := List.mem_cons.mp hx
    · exact Nat.add_lt_add_of_lt_of_le hlt (sumOf_mono hle ys)
    · exact Nat.add_lt_add_of_le_of_lt (hle y) (ih hx)

/-- Changing one entry changes nothing, or it lowers the sum of the costs, if it does so there. -/
theorem modify_eq_or_lt {α : Type} (f : α → Nat) {xs : Array α} {i : Nat} (hi : i < xs.size)
    (change : α → α) (h : change xs[i] = xs[i] ∨ f (change xs[i]) < f xs[i]) :
    xs.modify i change = xs ∨ sumOf f (xs.modify i change).toList < sumOf f xs.toList := by
  obtain hsame | hless := h
  · refine .inl (Array.ext (Array.size_modify ..) fun j hj hj' => ?_)
    rw [Array.getElem_modify]
    split
    · rename_i heq
      subst heq
      exact hsame
    · rfl
  · refine .inr ?_
    have hlen : i < xs.toList.length := by rwa [Array.length_toList]
    -- the sum is taken apart at the entry that changes
    have hsplit : xs.toList = xs.toList.take i ++ xs.toList[i] :: xs.toList.drop (i + 1) := by
      rw [← List.drop_eq_getElem_cons hlen, List.take_append_drop]
    rw [Array.toList_modify, List.modify_eq_take_cons_drop hlen]
    conv => rhs; rw [hsplit]
    rw [sumOf_append, sumOf_append, sumOf_cons, sumOf_cons, Array.getElem_toList]
    omega

end IncrementalParsing
