import Mathlib.Data.List.Forall2

/-!
# Computations that can fail

What it takes for a row of steps in `Except` to succeed: each of them does.  Steps with a state are
run one after the other, and what each of them keeps is kept by going over a list.

## Key results

- `Except.bind_eq_ok`, `StateT.bind_run_ok`: one step after another
- `StateT.mapM_run_grows`, `StateT.forIn_run_ok`: going over a list
-/

namespace Except

variable {ε α β : Type}

/-- One step after another succeeds if both do. -/
theorem bind_eq_ok {x : Except ε α} {f : α → Except ε β} {b : β} :
    (x >>= f) = .ok b ↔ ∃ a, x = .ok a ∧ f a = .ok b := by
  cases x <;> simp [bind, Except.bind]

theorem pure_eq_ok {a b : α} : (pure a : Except ε α) = .ok b ↔ a = b := by
  simp [pure, Except.pure]

/-- A guard in front of a step is passed only where its condition does not hold. -/
theorem guard_eq_ok {γ : Type} {p : Prop} [Decidable p] {e : ε} {f : γ → Except ε β}
    {y : Except ε β} {b : β} :
    (if p then (throw e : Except ε γ) >>= f else y) = .ok b ↔ ¬p ∧ y = .ok b := by
  by_cases h : p <;> simp [h, bind, Except.bind, throw, throwThe, MonadExceptOf.throw]

theorem ite_throw_eq_ok {p : Prop} [Decidable p] {e : ε} {x : Except ε β} {b : β} :
    (if p then x else throw e) = .ok b ↔ p ∧ x = .ok b := by
  by_cases h : p <;> simp [h, throw, throwThe, MonadExceptOf.throw]

/-- Going over a list succeeds if each of its members does. -/
theorem mapM_eq_ok {f : α → Except ε β} {xs : List α} {ys : List β} :
    xs.mapM f = .ok ys ↔ List.Forall₂ (fun x y => f x = .ok y) xs ys := by
  -- the induction is on the list, whose first entry fails first
  induction xs generalizing ys with
  | nil => simp [pure, Except.pure, eq_comm]
  | cons x rest ih =>
    rw [List.mapM_cons, bind_eq_ok]
    constructor
    · rintro ⟨y, hy, h⟩
      obtain ⟨zs, hzs, h⟩ := bind_eq_ok.mp h
      rw [pure_eq_ok] at h
      exact h ▸ .cons hy (ih.mp hzs)
    · intro h
      cases h with
      | cons hy hzs => exact ⟨_, hy, bind_eq_ok.mpr ⟨_, ih.mpr hzs, rfl⟩⟩

theorem eq_ok_of_toOption {ε α : Type} {x : Except ε α} {a : α} (h : x.toOption = some a) :
    x = .ok a := by
  cases x with
  | error => cases h
  | ok b =>
    cases h
    rfl

end Except

namespace StateT

variable {σ ε α β : Type}

/-- One step after another succeeds if both do, each from where the one before has got to. -/
theorem bind_run_ok {x : StateT σ (Except ε) α} {f : α → StateT σ (Except ε) β} {s s' : σ} {b : β} :
    (x >>= f).run s = .ok (b, s') ↔
      ∃ a s₁, x.run s = .ok (a, s₁) ∧ (f a).run s₁ = .ok (b, s') := by
  rw [run_bind, Except.bind_eq_ok]
  constructor
  · rintro ⟨⟨a, s₁⟩, hx, hf⟩
    exact ⟨a, s₁, hx, hf⟩
  · rintro ⟨a, s₁, hx, hf⟩
    exact ⟨(a, s₁), hx, hf⟩

theorem pure_run_ok {a b : α} {s s' : σ} :
    (pure a : StateT σ (Except ε) α).run s = .ok (b, s') ↔ a = b ∧ s = s' := by
  rw [run_pure, Except.pure_eq_ok, Prod.mk.injEq]

theorem get_run_ok {a s s' : σ} :
    (get : StateT σ (Except ε) σ).run s = .ok (a, s') ↔ s = a ∧ s = s' := by
  rw [run_get, Except.pure_eq_ok, Prod.mk.injEq]

theorem set_run_ok {t s s' : σ} {u : PUnit} :
    (set t : StateT σ (Except ε) PUnit).run s = .ok (u, s') ↔ t = s' := by
  rw [run_set, Except.pure_eq_ok, Prod.mk.injEq]
  simp

theorem modify_run_ok {f : σ → σ} {s s' : σ} {u : PUnit} :
    (modify f : StateT σ (Except ε) PUnit).run s = .ok (u, s') ↔ f s = s' := by
  rw [run_modify, Except.pure_eq_ok, Prod.mk.injEq]
  simp

/-- After a step with a result comes what follows for it. -/
theorem run_bind_of_run {x : StateT σ (Except ε) α} {f : α → StateT σ (Except ε) β} {s s' : σ} {a : α}
    (h : x.run s = .ok (a, s')) : (x >>= f).run s = (f a).run s' := by
  rw [run_bind, h]
  rfl

theorem throw_run_ok {e : ε} {s s' : σ} {a : α} :
    (throw e : StateT σ (Except ε) α).run s = .ok (a, s') ↔ False := by
  simp [throw, throwThe, MonadExceptOf.throw, run, StateT.lift, bind, Except.bind]

/-- A step without a state leaves it as it is. -/
theorem lift_run_ok {x : Except ε α} {s s' : σ} {a : α} :
    (liftM x : StateT σ (Except ε) α).run s = .ok (a, s') ↔ x = .ok a ∧ s = s' := by
  cases x <;> simp [liftM, monadLift, MonadLift.monadLift, StateT.lift, run, bind, Except.bind,
    pure, Except.pure]

/-- A guard in front of a step is passed only where its condition does not hold. -/
theorem guard_run_ok {γ : Type} {p : Prop} [Decidable p] {e : ε} {f : γ → StateT σ (Except ε) α}
    {y : StateT σ (Except ε) α} {s s' : σ} {a : α} :
    (if p then (throw e : StateT σ (Except ε) γ) >>= f else y).run s = .ok (a, s') ↔
      ¬p ∧ y.run s = .ok (a, s') := by
  by_cases h : p
  · simp only [h, if_true, bind_run_ok, throw_run_ok, false_and, exists_false, not_true]
  · simp [h]

/-- What each step says of its result and of the state it leaves holds of the last state, where later
steps do not change it. -/
theorem mapM_run_grows {f : α → StateT σ (Except ε) β} {P : σ → Prop} {R : σ → σ → Prop}
    {Q : σ → α → β → Prop} (hrefl : ∀ s, R s s) (htrans : ∀ s s₁ s', R s s₁ → R s₁ s' → R s s')
    (hmono : ∀ s s' x y, R s s' → Q s x y → Q s' x y)
    {xs : List α}
    (hstep : ∀ x ∈ xs, ∀ s y s', P s → (f x).run s = .ok (y, s') → P s' ∧ R s s' ∧ Q s' x y)
    {ys : List β} {s s' : σ} (hs : P s) (h : (xs.mapM f).run s = .ok (ys, s')) :
    P s' ∧ R s s' ∧ List.Forall₂ (Q s') xs ys := by
  induction xs generalizing s ys with
  | nil =>
    rw [List.mapM_nil, pure_run_ok] at h
    obtain ⟨rfl, rfl⟩ := h
    exact ⟨hs, hrefl s, .nil⟩
  | cons x rest ih =>
    simp only [List.mapM_cons, bind_run_ok, pure_run_ok] at h
    obtain ⟨y, s₁, hx, zs, s₂, hrest, rfl, rfl⟩ := h
    -- what the first element gave still holds at the end, as `hmono` says
    obtain ⟨hs₁, hr₁, hq⟩ := hstep x (List.mem_cons_self ..) s y s₁ hs hx
    obtain ⟨hs', hr', hall⟩ := ih (fun z hz => hstep z (List.mem_cons_of_mem _ hz)) hs₁ hrest
    exact ⟨hs', htrans _ _ _ hr₁ hr', .cons (hmono _ _ x y hr' hq) hall⟩

/-- What each step keeps holds after a loop over a list that is never left early. -/
theorem forIn_run_ok {f : α → StateT σ (Except ε) (ForInStep PUnit)} {P : σ → Prop} {xs : List α}
    (hstep : ∀ x ∈ xs, ∀ s r s', P s → (f x).run s = .ok (r, s') → r = .yield PUnit.unit ∧ P s')
    {s s' : σ} {u : PUnit} (hs : P s)
    (h : (forIn xs PUnit.unit fun x _ => f x).run s = .ok (u, s')) : P s' := by
  induction xs generalizing s with
  | nil =>
    rw [List.forIn_nil, pure_run_ok] at h
    exact h.2 ▸ hs
  | cons x rest ih =>
    rw [List.forIn_cons, bind_run_ok] at h
    obtain ⟨r, s₁, hx, hrest⟩ := h
    obtain ⟨rfl, hs₁⟩ := hstep x (List.mem_cons_self ..) s r s₁ hs hx
    exact ih (fun y hy => hstep y (List.mem_cons_of_mem _ hy)) hs₁ hrest

/-- What a loop does for an element and keeps for the others holds of all in the end. -/
theorem forIn_run_each {f : α → StateT σ (Except ε) (ForInStep PUnit)} {P : σ → Prop}
    {Q : α → σ → Prop} {xs : List α}
    (hstep : ∀ x ∈ xs, ∀ s r s', P s → (f x).run s = .ok (r, s') →
      r = .yield PUnit.unit ∧ P s' ∧ Q x s' ∧ ∀ y, Q y s → Q y s')
    {s s' : σ} {u : PUnit} (hs : P s)
    (h : (forIn xs PUnit.unit fun x _ => f x).run s = .ok (u, s')) : ∀ x ∈ xs, Q x s' := by
  induction xs generalizing s with
  | nil => exact fun _ hx => by cases hx
  | cons x rest ih =>
    rw [List.forIn_cons, bind_run_ok] at h
    obtain ⟨r, s₁, hx, hrest⟩ := h
    obtain ⟨rfl, hs₁, hq, -⟩ := hstep x (List.mem_cons_self ..) s r s₁ hs hx
    refine List.forall_mem_cons.mpr
      ⟨?_, ih (fun y hy => hstep y (List.mem_cons_of_mem _ hy)) hs₁ hrest⟩
    -- what holds of this entry holds to the end, as no later round takes it back
    refine (forIn_run_ok (P := fun s => P s ∧ Q x s) (fun y hy s r s' hs hrun => ?_) ⟨hs₁, hq⟩ hrest).2
    obtain ⟨hr, hs', -, hkeep⟩ := hstep y (List.mem_cons_of_mem _ hy) s r s' hs.1 hrun
    exact ⟨hr, hs', hkeep x hs.2⟩

/-- A loop that is never left early takes each of its steps. -/
theorem run_forIn {f : α → StateT σ (Except ε) (ForInStep PUnit)} {step : σ → α → σ}
    (hstep : ∀ x s, (f x).run s = .ok (.yield PUnit.unit, step s x)) (xs : List α) (s : σ) :
    (forIn xs PUnit.unit fun x _ => f x).run s = .ok (PUnit.unit, xs.foldl step s) := by
  induction xs generalizing s with
  | nil => exact pure_run_ok.mpr ⟨rfl, rfl⟩
  | cons x rest ih =>
    rw [List.forIn_cons]
    exact bind_run_ok.mpr ⟨_, _, hstep x s, ih (step s x)⟩

end StateT
