import IncrementalParsing.Proofs.Rounds
import Mathlib.Data.List.Nodup

/-!
# Worklists

A worklist finds values by keys.  Keys are listed when their value is found or changes, and going on with
a listed key adds what is found from its value.  Which of the listed keys is gone on with is left open
here: every order ends, and what has been found by then is closed, whatever the order was.

## Key results

- `Lawful.cost_visit`: going on with a key lowers a cost, so only so many keys can be gone on with
- `Lawful.reaches`: what holds of every worklist that is reached
- `Explored.closed`: at the end, everything that is found from what has been found has been found
-/

namespace IncrementalParsing

/-- What has been found by key, and the keys to be gone on with. -/
structure Worklist (κ α : Type) where
  found : List (κ × α)
  pending : List κ

namespace Worklist

/-- How more is found. -/
structure Rules (κ α : Type) where
  /-- What is found for a key once more is joined with what was found before. -/
  join : α → α → α
  /-- What is found from the value of a key. -/
  yields : κ → α → List (κ × α)
  /-- Whether a key is listed once more if it is listed already. -/
  repeats : Bool

variable {κ α : Type} [DecidableEq κ]

/-- The value of a key. -/
def get? (w : Worklist κ α) (k : κ) : Option α := w.found.lookup k

/-- A key has been found with what is given, and maybe more. -/
def Has (r : Rules κ α) (w : Worklist κ α) (x : κ × α) : Prop :=
  ∃ v, w.get? x.1 = some v ∧ r.join v x.2 = v

variable {r : Rules κ α} {w w' w'' : Worklist κ α} {k : κ} {v : α} {x : κ × α}

theorem mem_of_get? (h : w.get? k = some v) : (k, v) ∈ w.found := by
  obtain ⟨before, after, heq, -⟩ := List.lookup_eq_some_iff.mp h
  rw [heq]
  exact List.mem_append_right _ (List.mem_cons_self ..)

theorem exists_get? (h : k ∈ w.found.map (·.1)) : ∃ v, w.get? k = some v := by
  obtain ⟨y, hy, rfl⟩ := List.mem_map.mp h
  exact Option.isSome_iff_exists.mp (List.lookup_isSome_iff.mpr ⟨y, hy, beq_self_eq_true y.1⟩)

/-- Where no key is found twice, a key has the value that is found with it. -/
theorem get?_of_mem (hnodup : (w.found.map (·.1)).Nodup) (h : (k, v) ∈ w.found) :
    w.get? k = some v := by
  obtain ⟨v', hv'⟩ := exists_get? (List.mem_map_of_mem h)
  have heq := List.inj_on_of_nodup_map hnodup h (mem_of_get? hv') rfl
  rw [(Prod.mk.inj heq).2]
  exact hv'

theorem get?_eq_none (h : w.get? k = none) : k ∉ w.found.map (·.1) := by
  intro hk
  obtain ⟨y, hy, rfl⟩ := List.mem_map.mp hk
  have := List.lookup_eq_none_iff.mp h y hy
  simp at this

/-! ## Rules that lead to an end -/

/-- Rules under which every order comes to an end: there are finitely many keys, and a value can change
only so often.  `Fits` says which values a key can have. -/
structure Lawful (r : Rules κ α) (Fits : κ → α → Prop) (family : List κ) (missing : α → Nat)
    (most : κ → Nat) : Prop where
  assoc : ∀ a b c, r.join (r.join a b) c = r.join a (r.join b c)
  comm : ∀ a b, r.join a b = r.join b a
  idem : ∀ a, r.join a a = a
  join : ∀ {k v v'}, Fits k v → Fits k v' → Fits k (r.join v v')
  yields : ∀ {k v}, Fits k v → ∀ x ∈ r.yields k v, Fits x.1 x.2
  known : ∀ {k v}, Fits k v → k ∈ family
  less : ∀ {k v v'}, Fits k v → Fits k v' → r.join v v' ≠ v → missing (r.join v v') < missing v
  missing_le : ∀ {k v}, Fits k v → missing v ≤ most k

/-- How much the value of a key can still change. -/
def room (missing : α → Nat) (most : κ → Nat) (w : Worklist κ α) (k : κ) : Nat :=
  (w.get? k).elim (most k + 1) missing

/-- How many keys can still be gone on with. -/
def cost (family : List κ) (missing : α → Nat) (most : κ → Nat) (w : Worklist κ α) : Nat :=
  w.pending.length + sumOf (w.room missing most) family

/-- What holds of a worklist: no key is found twice, the values are right, and what is listed has been
found. -/
structure Sound (Fits : κ → α → Prop) (w : Worklist κ α) : Prop where
  nodup : (w.found.map (·.1)).Nodup
  fits : ∀ k v, w.get? k = some v → Fits k v
  listed : w.pending ⊆ w.found.map (·.1)

/-- What finding more keeps: the keys that have been found keep their places, values only grow, what
changes is listed, and what is listed is paid for. -/
structure Grows (r : Rules κ α) (family : List κ) (missing : α → Nat) (most : κ → Nat)
    (w w' : Worklist κ α) : Prop where
  keys : w.found.map (·.1) <+: w'.found.map (·.1)
  has : ∀ x, w.Has r x → w'.Has r x
  same : ∀ k, w'.get? k = w.get? k ∨ k ∈ w'.pending
  listed : w.pending ⊆ w'.pending
  cost_le : w'.cost family missing most ≤ w.cost family missing most

variable {Fits : κ → α → Prop} {family : List κ} {missing : α → Nat} {most : κ → Nat}

theorem Grows.refl (w : Worklist κ α) : Grows r family missing most w w :=
  ⟨List.prefix_refl _, fun _ h => h, fun _ => .inl rfl, List.Subset.refl _, Nat.le_refl _⟩

theorem Grows.trans (h : Grows r family missing most w w') (h' : Grows r family missing most w' w'') :
    Grows r family missing most w w'' where
  keys := h.keys.trans h'.keys
  has := fun x hx => h'.has x (h.has x hx)
  same := by
    intro k
    obtain hsame | hlisted := h'.same k
    · exact (h.same k).imp hsame.trans fun hlisted => h'.listed hlisted
    · exact .inr hlisted
  listed := List.Subset.trans h.listed h'.listed
  cost_le := Nat.le_trans h'.cost_le h.cost_le

/-- What a value has, it has when more is joined with it. -/
theorem Lawful.has_join (L : Lawful r Fits family missing most) (b : α)
    (hw : w'.get? k = some (r.join v b)) {c : α} (hc : r.join v c = v) : w'.Has r (k, c) := by
  refine ⟨_, hw, ?_⟩
  rw [L.assoc, L.comm b c, ← L.assoc, hc]

/-- Every key can be gone on with once, and once for each change of its value. -/
theorem Lawful.cost_le (L : Lawful r Fits family missing most) (hw : w.Sound Fits) :
    w.cost family missing most ≤ w.pending.length + sumOf (fun k => most k + 1) family := by
  refine Nat.add_le_add_left (sumOf_mono (fun k => ?_) family) _
  unfold room
  cases hget : w.get? k with
  | none => exact Nat.le_refl _
  | some v => exact Nat.le_succ_of_le (L.missing_le (hw.fits k v hget))

/-- All that is found from the keys that are not listed has been found. -/
def Explored (r : Rules κ α) (w : Worklist κ α) : Prop :=
  ∀ k v, w.get? k = some v → k ∈ w.pending ∨ ∀ x ∈ r.yields k v, w.Has r x

/-- At the end, what is found from what has been found has been found. -/
theorem Explored.closed (h : w.Explored r) (hend : w.pending = []) {k : κ} {v : α}
    (hv : w.get? k = some v) : ∀ x ∈ r.yields k v, w.Has r x := by
  refine (h k v hv).resolve_left ?_
  rw [hend]
  exact List.not_mem_nil

/-! ## What adding does -/

variable [DecidableEq α]

/-- Adds what is found for a key, and lists the key if that is new. -/
def add (r : Rules κ α) (w : Worklist κ α) (x : κ × α) : Worklist κ α :=
  match w.get? x.1 with
  | none => ⟨w.found ++ [x], x.1 :: w.pending⟩
  | some old =>
    if r.join old x.2 = old then w
    else
      { found := w.found.map fun y => if y.1 = x.1 then (y.1, r.join old x.2) else y
        pending := if r.repeats = false ∧ x.1 ∈ w.pending then w.pending else x.1 :: w.pending }

/-- Goes on with a listed key. -/
def visit (r : Rules κ α) (w : Worklist κ α) (k : κ) : Worklist κ α :=
  ((w.get? k).elim [] (r.yields k)).foldl (add r) { w with pending := w.pending.erase k }

/-- A worklist is reached by going on with a number of keys, each of them listed at that time. -/
inductive Reaches (r : Rules κ α) (w : Worklist κ α) : Nat → Worklist κ α → Prop
  | refl : Reaches r w 0 w
  | visit {n : Nat} {w' : Worklist κ α} {k : κ} (h : Reaches r w n w') (hk : k ∈ w'.pending) :
      Reaches r w (n + 1) (w'.visit r k)

/-- What is added is joined with the value of its key, and the other values stay. -/
theorem get?_add (r : Rules κ α) (w : Worklist κ α) (x : κ × α) (k : κ) :
    (w.add r x).get? k =
      if k = x.1 then some ((w.get? x.1).elim x.2 fun old => r.join old x.2) else w.get? k := by
  obtain ⟨key, value⟩ := x
  unfold add
  -- a key that is new gets the value, and another one what both are joined to
  cases hget : w.get? key with
  | none =>
    show (w.found ++ [(key, value)]).lookup k = _
    rw [List.lookup_append, List.lookup_cons]
    by_cases heq : k = key
    · subst heq
      rw [if_pos rfl, show w.found.lookup k = none from hget, beq_self_eq_true]
      rfl
    · rw [if_neg heq, beq_false_of_ne heq]
      exact Option.or_none
  | some old =>
    dsimp only
    split
    · rename_i hsame
      split
      · rename_i heq
        rw [heq, hget, Option.elim_some, hsame]
      · rfl
    · -- the values in the list are changed at the key only
      have hlookup : ∀ found : List (κ × α),
          (found.map fun y => if y.1 = key then (y.1, r.join old value) else y).lookup k =
            if k = key then (found.lookup k).map fun _ => r.join old value else found.lookup k := by
        intro found
        induction found with
        | nil => simp
        | cons y found ih =>
          obtain ⟨other, v⟩ := y
          rw [List.map_cons, List.lookup_cons]
          by_cases heq : k = other
          · subst heq
            by_cases hkey : k = key
            · simp [hkey]
            · simp [hkey]
          · by_cases hkey : other = key
            · rw [if_pos hkey, List.lookup_cons, beq_false_of_ne heq]
              exact ih
            · rw [if_neg hkey, List.lookup_cons, beq_false_of_ne heq]
              exact ih
      show (w.found.map _).lookup k = _
      rw [hlookup]
      split
      · rename_i heq
        rw [heq, show w.found.lookup key = some old from hget]
        rfl
      · rfl

theorem keys_add (r : Rules κ α) (w : Worklist κ α) (x : κ × α) :
    (w.add r x).found.map (·.1) =
      if x.1 ∈ w.found.map (·.1) then w.found.map (·.1) else w.found.map (·.1) ++ [x.1] := by
  unfold add
  cases hget : w.get? x.1 with
  | none =>
    rw [if_neg (get?_eq_none hget)]
    exact List.map_append
  | some old =>
    rw [if_pos (List.mem_map_of_mem (mem_of_get? hget))]
    dsimp only
    split
    · rfl
    -- joining changes a value and no key
    · rw [List.map_map]
      apply List.map_congr_left
      intro y _
      rw [Function.comp_apply]
      split <;> rfl

/-- A key that is listed stays so, and nothing else is listed than what is added. -/
theorem pending_add (r : Rules κ α) (w : Worklist κ α) (x : κ × α) :
    (w.add r x).pending = w.pending ∨ (w.add r x).pending = x.1 :: w.pending := by
  unfold add
  split
  · exact .inr rfl
  · split
    · exact .inl rfl
    · dsimp only
      split
      · exact .inl rfl
      · exact .inr rfl

/-- A value that changes lists its key. -/
theorem get?_add_or_mem_pending (r : Rules κ α) (w : Worklist κ α) (x : κ × α) (k : κ) :
    (w.add r x).get? k = w.get? k ∨ k ∈ (w.add r x).pending := by
  by_cases heq : k = x.1
  · subst heq
    unfold add
    -- a value that changed has its key on the list
    cases hget : w.get? x.1 with
    | none => exact .inr (List.mem_cons_self ..)
    | some old =>
      dsimp only
      split
      · exact .inl hget
      · refine .inr ?_
        dsimp only
        split
        · rename_i hlisted
          exact hlisted.2
        · exact List.mem_cons_self ..
  · rw [get?_add, if_neg heq]
    exact .inl rfl

section

variable (L : Lawful r Fits family missing most)
include L

/-- What has been added is there, and so is what was there. -/
theorem Lawful.has_add (w : Worklist κ α) (x : κ × α) :
    (w.add r x).Has r x ∧ ∀ y, w.Has r y → (w.add r x).Has r y := by
  constructor
  · refine ⟨_, (get?_add r w x x.1).trans (if_pos rfl), ?_⟩
    cases w.get? x.1 with
    | none => exact L.idem x.2
    | some old =>
      rw [Option.elim_some, L.assoc, L.idem]
  · rintro y ⟨v, hv, hjoin⟩
    have hget := get?_add r w x y.1
    -- adding under another key changes nothing here
    by_cases heq : y.1 = x.1
    · rw [if_pos heq, ← heq, hv, Option.elim_some] at hget
      exact L.has_join x.2 hget hjoin
    · rw [if_neg heq] at hget
      exact ⟨v, hget.trans hv, hjoin⟩

theorem Lawful.sound_add (hw : w.Sound Fits) (hx : Fits x.1 x.2) : (w.add r x).Sound Fits := by
  constructor
  · rw [keys_add]
    split
    · exact hw.nodup
    · rename_i hnew
      rw [← List.concat_eq_append]
      exact hw.nodup.concat hnew
  · intro k v hv
    rw [get?_add] at hv
    split at hv
    · rename_i heq
      subst heq
      cases hget : w.get? x.1 with
      | none =>
        rw [hget] at hv
        cases hv
        exact hx
      | some old =>
        rw [hget] at hv
        cases hv
        exact L.join (hw.fits _ _ hget) hx
    · exact hw.fits k v hv
  -- what is on the list was found before, or is found now
  · have hkeys := keys_add r w x
    have hx : x.1 ∈ (w.add r x).found.map (·.1) := by
      rw [hkeys]
      split
      · assumption
      · exact List.mem_append_right _ (List.mem_singleton_self _)
    have hold : w.pending ⊆ (w.add r x).found.map (·.1) := by
      rw [hkeys]
      split
      · exact hw.listed
      · exact fun k hk => List.mem_append_left _ (hw.listed hk)
    obtain h | h := pending_add r w x
    · rw [h]
      exact hold
    · rw [h]
      exact List.cons_subset.mpr ⟨hx, hold⟩

/-- A key that is listed by adding has less room. -/
theorem Lawful.cost_add (hw : w.Sound Fits) (hx : Fits x.1 x.2) :
    (w.add r x).cost family missing most ≤ w.cost family missing most := by
  -- adding changes the room of no other key
  have hother : ∀ k, k ≠ x.1 → (w.add r x).room missing most k = w.room missing most k := by
    intro k hk
    rw [room, get?_add, if_neg hk]
    rfl
  have hless : w.add r x = w ∨
      (w.add r x).room missing most x.1 < w.room missing most x.1 := by
    unfold room
    rw [get?_add, if_pos rfl]
    cases hget : w.get? x.1 with
    | none => exact .inr (Nat.lt_succ_of_le (L.missing_le hx))
    | some old =>
      by_cases hsame : r.join old x.2 = old
      · refine .inl ?_
        rw [add, hget]
        exact if_pos hsame
      · exact .inr (L.less (hw.fits _ _ hget) hx hsame)
  -- a key may come back to the list, but only as its room has shrunk
  obtain hsame | hless := hless
  · exact Nat.le_of_eq (congrArg _ hsame)
  · have hsum := sumOf_lt (L.known hx) (fun k => by
      by_cases hk : k = x.1
      · exact hk ▸ Nat.le_of_lt hless
      · exact Nat.le_of_eq (hother k hk)) hless
    have hlength : (w.add r x).pending.length ≤ w.pending.length + 1 := by
      obtain h | h := pending_add r w x
      · rw [h]
        omega
      · exact Nat.le_of_eq (congrArg List.length h)
    unfold cost
    omega

theorem Lawful.grows_add (hw : w.Sound Fits) (hx : Fits x.1 x.2) :
    Grows r family missing most w (w.add r x) where
  keys := by
    rw [keys_add]
    split
    · exact List.prefix_refl _
    · exact List.prefix_append _ _
  has := (L.has_add w x).2
  same := get?_add_or_mem_pending r w x
  listed := by
    intro k hk
    obtain h | h := pending_add r w x
    · exact h ▸ hk
    · exact h ▸ List.mem_cons_of_mem _ hk
  cost_le := L.cost_add hw hx

/-- Adding one after the other. -/
theorem Lawful.addAll (xs : List (κ × α)) (hw : w.Sound Fits) (hxs : ∀ x ∈ xs, Fits x.1 x.2) :
    (xs.foldl (add r) w).Sound Fits ∧ Grows r family missing most w (xs.foldl (add r) w) ∧
      ∀ x ∈ xs, (xs.foldl (add r) w).Has r x := by
  induction xs generalizing w with
  | nil => exact ⟨hw, .refl w, fun x hx => by cases hx⟩
  | cons x xs ih =>
    have hx := hxs x (List.mem_cons_self ..)
    have hgrows := L.grows_add hw hx
    obtain ⟨hsound, hgrows', hall⟩ := ih (L.sound_add hw hx) fun y hy => hxs y (List.mem_cons_of_mem _ hy)
    refine ⟨hsound, hgrows.trans hgrows', fun y hy => ?_⟩
    -- what was added first is kept by the later ones
    obtain rfl | hy := List.mem_cons.mp hy
    · exact hgrows'.has y (L.has_add w y).1
    · exact hall y hy

end

/-! ## Every order -/

section

variable (L : Lawful r Fits family missing most)
include L

/-- Going on with a key: the worklist before it, without the key, and after it. -/
theorem Lawful.visit (hw : w.Sound Fits) (k : κ) :
    (w.visit r k).Sound Fits ∧
      Grows r family missing most { w with pending := w.pending.erase k } (w.visit r k) ∧
      ∀ v, w.get? k = some v → ∀ x ∈ r.yields k v, (w.visit r k).Has r x := by
  -- taking a key off the list leaves the rest as it is
  have hless : Sound Fits { w with pending := w.pending.erase k } :=
    ⟨hw.nodup, hw.fits, fun k' hk' => hw.listed (List.mem_of_mem_erase hk')⟩
  have hyields : ∀ x ∈ (w.get? k).elim [] (r.yields k), Fits x.1 x.2 := by
    intro x hx
    cases hget : w.get? k with
    | none =>
      rw [hget] at hx
      cases hx
    | some v =>
      rw [hget] at hx
      exact L.yields (hw.fits k v hget) x hx
  obtain ⟨hsound, hgrows, hall⟩ := L.addAll _ hless hyields
  refine ⟨hsound, hgrows, fun v hv x hx => hall x ?_⟩
  rw [hv]
  exact hx

/-- What is listed stays so until it is gone on with. -/
theorem Lawful.mem_pending_visit (hw : w.Sound Fits) {k' : κ} (hne : k' ≠ k) (hk' : k' ∈ w.pending) :
    k' ∈ (w.visit r k).pending :=
  (L.visit hw k).2.1.listed ((List.mem_erase_of_ne hne).mpr hk')

/-- Going on with a listed key lowers the cost. -/
theorem Lawful.cost_visit (hw : w.Sound Fits) (hk : k ∈ w.pending) :
    (w.visit r k).cost family missing most < w.cost family missing most := by
  have hgrows := (L.visit hw k).2.1.cost_le
  have hlength := List.length_erase_of_mem hk
  have hpos := List.length_pos_of_mem hk
  have herase : cost family missing most { w with pending := w.pending.erase k } =
      (w.pending.erase k).length + sumOf (w.room missing most) family := rfl
  have hbefore : w.cost family missing most =
      w.pending.length + sumOf (w.room missing most) family := rfl
  omega

theorem Lawful.explored_visit (hw : w.Sound Fits) (h : w.Explored r) (k : κ) :
    (w.visit r k).Explored r := by
  obtain ⟨-, hgrows, hall⟩ := L.visit hw k
  intro k' v hv
  -- an entry that changed is listed again
  obtain hsame | hlisted := hgrows.same k'
  · rw [hsame] at hv
    by_cases heq : k' = k
    · subst heq
      exact .inr (hall v hv)
    · obtain hlisted | hfound := h k' v hv
      · exact .inl (L.mem_pending_visit hw heq hlisted)
      · exact .inr fun x hx => hgrows.has x (hfound x hx)
  · exact .inl hlisted

/-- What holds of every worklist that is reached.  Only so many keys can be gone on with. -/
theorem Lawful.reaches {n : Nat} (hw : w.Sound Fits) (hexplored : w.Explored r)
    (h : Reaches r w n w') :
    w'.Sound Fits ∧ w'.Explored r ∧ (∀ x, w.Has r x → w'.Has r x) ∧
      w.found.map (·.1) <+: w'.found.map (·.1) ∧
      n + w'.cost family missing most ≤ w.cost family missing most := by
  induction h with
  | refl => exact ⟨hw, hexplored, fun _ h => h, List.prefix_refl _, by omega⟩
  | @visit n w' k _ hk ih =>
    obtain ⟨hsound, hexplored', hhas, hkeys, hcost⟩ := ih
    obtain ⟨hsound', hgrows, -⟩ := L.visit hsound k
    -- every visit makes the cost smaller, whatever is listed anew
    have hless := L.cost_visit hsound hk
    refine ⟨hsound', L.explored_visit hsound hexplored' k, fun x hx => hgrows.has x (hhas x hx),
      hkeys.trans hgrows.keys, ?_⟩
    omega

end

end Worklist

end IncrementalParsing
