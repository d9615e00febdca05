import IncrementalParsing.Proofs.Parse.Coverage

/-!
# How far parts reach

A part depends on its own bytes and on those that were looked at after it.  A part is settled if
nothing in it has been changed since it was parsed and no part in it reaches further than the whole.
Only bytes are counted, so this is said of parts alone and not of a text.

## Key results

- `settledAll_append`: parts that follow each other can be taken apart anywhere
- `settledAll_children`: what a node is made of is settled if the entries are
- `settled_buildNode`: so is the node
-/

namespace IncrementalParsing

namespace Subtree

mutual

/-- Nothing in a part has been changed, and no part in it reaches further than the whole. -/
def Settled : Subtree → Prop
  | ⟨_, padding, size, children, _, _, _, lookahead, _, _, changed⟩ =>
    changed = false ∧
      SettledAll 0 (padding + size).bytes ((padding + size).bytes + lookahead) children

/-- Settled parts follow each other from a byte on, end at another, and reach no further than a third.
They need not cover what they are stored in. -/
def SettledAll (i finish reach : Nat) : List (Subtree × Option FieldId) → Prop
  | [] => i ≤ finish
  | (n, _) :: rest =>
    Settled n ∧ i + n.total.bytes + n.lookahead ≤ reach ∧
      SettledAll (i + n.total.bytes) finish reach rest

end

variable {i j finish finish' reach reach' : Nat} {n : Subtree}

/-- A node is settled if no edit has changed it and its children are settled within its reach. -/
theorem settled_iff : n.Settled ↔ n.changed = false ∧
    SettledAll 0 n.total.bytes (n.total.bytes + n.lookahead) n.children := by
  cases n
  rw [Settled]
  rfl

/-- Without children only the end counts. -/
@[simp] theorem settledAll_nil : SettledAll i finish reach [] ↔ i ≤ finish := by
  rw [SettledAll]

/-- Children are settled one by one. -/
theorem settledAll_cons {field : Option FieldId} {rest : List (Subtree × Option FieldId)} :
    SettledAll i finish reach ((n, field) :: rest) ↔
      n.Settled ∧ i + n.total.bytes + n.lookahead ≤ reach ∧
        SettledAll (i + n.total.bytes) finish reach rest := by
  rw [SettledAll]

/-- Parts may begin earlier, end later and reach further. -/
theorem settledAll_mono {children : List (Subtree × Option FieldId)} (hi : j ≤ i)
    (hf : finish ≤ finish') (hr : reach ≤ reach') (h : SettledAll i finish reach children) :
    SettledAll j finish' reach' children := by
  induction children generalizing i j with
  | nil =>
    rw [settledAll_nil] at h ⊢
    omega
  | cons c rest ih =>
    obtain ⟨n, field⟩ := c
    rw [settledAll_cons] at h ⊢
    exact ⟨h.1, by omega, ih (by omega) h.2.2⟩

/-- Settled children end within the node. -/
theorem SettledAll.le {children : List (Subtree × Option FieldId)}
    (h : SettledAll i finish reach children) : i ≤ finish := by
  induction children generalizing i with
  | nil => exact settledAll_nil.mp h
  | cons c rest ih =>
    obtain ⟨n, field⟩ := c
    exact Nat.le_trans (Nat.le_add_right _ _) (ih (settledAll_cons.mp h).2.2)

/-- Where parts stand does not matter. -/
theorem settledAll_shift (d : Nat) {children : List (Subtree × Option FieldId)} :
    SettledAll (d + i) (d + finish) (d + reach) children ↔ SettledAll i finish reach children := by
  induction children generalizing i with
  | nil =>
    rw [settledAll_nil, settledAll_nil]
    omega
  | cons c rest ih =>
    obtain ⟨n, field⟩ := c
    rw [settledAll_cons, settledAll_cons, Nat.add_assoc d i, ih]
    -- both sides of the bound move by as much
    have hreach : d + (i + n.total.bytes) + n.lookahead ≤ d + reach ↔
        i + n.total.bytes + n.lookahead ≤ reach := by omega
    rw [hreach]

/-- Parts that follow each other can be taken apart anywhere. -/
theorem settledAll_append {a b : List (Subtree × Option FieldId)} :
    SettledAll i finish reach (a ++ b) ↔
      ∃ j, SettledAll i j reach a ∧ SettledAll j finish reach b := by
  induction a generalizing i with
  | nil =>
    simp only [List.nil_append, settledAll_nil]
    exact ⟨fun h => ⟨i, Nat.le_refl _, h⟩,
      fun ⟨j, hij, h⟩ => settledAll_mono hij (Nat.le_refl _) (Nat.le_refl _) h⟩
  | cons c rest ih =>
    obtain ⟨n, field⟩ := c
    simp only [List.cons_append, settledAll_cons, ih, exists_and_left, and_assoc]

/-- The children of a settled part, where it stands. -/
theorem Settled.children (h : n.Settled) (i : Nat) :
    SettledAll i (i + n.total.bytes) (i + n.total.bytes + n.lookahead) n.children := by
  have hall := (settledAll_shift i).mpr (settled_iff.mp h).2
  rwa [Nat.add_zero, ← Nat.add_assoc] at hall

/-- A token is settled. -/
theorem settled_leaf (token : Token) (state : StateId) (extra : Bool) :
    (leaf token state extra).Settled :=
  settled_iff.mpr ⟨rfl, settledAll_nil.mpr (Nat.zero_le _)⟩

/-- Marking a node as an extra keeps it settled. -/
theorem Settled.withExtra (h : n.Settled) (extra : Bool) : (n.withExtra extra).Settled := by
  cases n
  rw [settled_iff] at h ⊢
  exact h

/-- Two errors joined are settled, and reach as far as the second. -/
theorem settled_joinErrors {a b joined : Subtree} (h : a.joinErrors? b = some joined)
    (ha : a.Settled) : joined.Settled ∧ joined.total.bytes = a.total.bytes + b.total.bytes ∧
      joined.lookahead = b.lookahead := by
  obtain ⟨-, hleaf, hpadding, rfl⟩ := spec_of_joinErrors h
  refine ⟨settled_iff.mpr ⟨(settled_iff.mp ha).1, ?_⟩, ?_, rfl⟩
  · rw [hleaf]
    exact settledAll_nil.mpr (Nat.zero_le _)
  · simp only [bytes_total, Length.bytes_add]
    omega

end Subtree

open Subtree (Settled SettledAll settled_iff settledAll_nil settledAll_cons settledAll_append
  settledAll_mono)

/-! ## Entries -/

/-- Entries of settled parts follow each other and reach no further than a byte. -/
def SettledRow (i k reach : Nat) : List Entry → Prop
  | [] => i = k
  | e :: rest => e.position.bytes = i ∧ e.node.Settled ∧
      i + e.node.total.bytes + e.node.lookahead ≤ reach ∧
      SettledRow (i + e.node.total.bytes) k reach rest

variable {i k reach reach' : Nat} {entries : List Entry}

/-- Entries that follow each other can be taken apart anywhere. -/
theorem settledRow_append {a b : List Entry} :
    SettledRow i k reach (a ++ b) ↔ ∃ j, SettledRow i j reach a ∧ SettledRow j k reach b := by
  induction a generalizing i with
  | nil => simp [SettledRow]
  | cons e rest ih => simp only [List.cons_append, SettledRow, ih, exists_and_left, and_assoc]

/-- The states of entries do not matter for how far they reach. -/
theorem settledRow_map_state (state : StateId) (h : SettledRow i k reach entries) :
    SettledRow i k reach (entries.map fun e => { e with state }) := by
  induction entries generalizing i with
  | nil => exact h
  | cons e rest ih => exact ⟨h.1, h.2.1, h.2.2.1, ih h.2.2.2⟩

/-- Entries reach no further than the furthest of them. -/
theorem SettledRow.within (h : SettledRow i k reach entries)
    (hall : ∀ e ∈ entries, e.finish.bytes + e.node.lookahead ≤ reach') :
    SettledRow i k reach' entries := by
  induction entries generalizing i with
  | nil => exact h
  | cons e rest ih =>
    rw [List.forall_mem_cons, Entry.finish, Length.bytes_add, h.1] at hall
    exact ⟨h.1, h.2.1, hall.1, ih h.2.2.2 hall.2⟩

/-- No entry of a row looks further than the row, -/
theorem SettledRow.reach_le (h : SettledRow i k reach entries) :
    ∀ e ∈ entries, e.finish.bytes + e.node.lookahead ≤ reach := by
  induction entries generalizing i with
  | nil => exact fun _ h => by cases h
  | cons e rest ih =>
    rw [List.forall_mem_cons, Entry.finish, Length.bytes_add, h.1]
    exact ⟨h.2.2.1, ih h.2.2.2⟩

/-- and none ends behind it. -/
theorem SettledRow.le (h : SettledRow i k reach entries) : i ≤ k := by
  induction entries generalizing i with
  | nil => exact Nat.le_of_eq h
  | cons e rest ih => exact Nat.le_trans (Nat.le_add_right _ _) (ih h.2.2.2)

/-- Where entries begin, what of that is padding, and where they end. -/
theorem SettledRow.ends {fallback : Length} (h : SettledRow i k reach entries)
    (hfallback : entries = [] → fallback.bytes = i) :
    (((entries.head?).map (·.position)).getD fallback).bytes = i ∧
      i + (((entries.head?).map (·.node.padding)).getD Length.zero).bytes ≤ k ∧
      (((entries.getLast?).map Entry.finish).getD fallback).bytes = k := by
  -- a row without entries ends where it begins, at the fallback
  cases entries with
  | nil =>
    have hk : i = k := h
    exact ⟨hfallback rfl, Nat.le_of_eq hk, hk ▸ hfallback rfl⟩
  | cons e rest =>
    have hle := h.2.2.2.le
    rw [Subtree.bytes_total] at hle
    refine ⟨h.1, by simp only [List.head?_cons, Option.map_some, Option.getD_some]; omega, ?_⟩
    have hlast := List.getLast?_eq_some_getLast (List.cons_ne_nil e rest)
    obtain ⟨front, hfront⟩ := List.getLast?_eq_some_iff.mp hlast
    rw [hlast]
    generalize (e :: rest).getLast (List.cons_ne_nil e rest) = last at hfront
    rw [hfront] at h
    obtain ⟨j, -, hposition, -, -, hend⟩ := settledRow_append.mp h
    rw [Option.map_some, Option.getD_some, Entry.finish, Length.bytes_add, hposition]
    exact hend

namespace Build

variable {t : Table} {parent : Symbol}

/-- The children that an entry stands for reach no further than it. -/
theorem settledAll_pieces (entry : Entry × Option FieldId) (h : entry.1.node.Settled)
    (hreach : i + entry.1.node.total.bytes + entry.1.node.lookahead ≤ reach) :
    SettledAll i (i + entry.1.node.total.bytes) reach (pieces t parent entry) := by
  obtain ⟨e, field⟩ := entry
  dsimp only at h hreach ⊢
  unfold pieces
  dsimp only
  split
  -- the children of a hidden rule only get a field, which takes up nothing
  · have hmap : ∀ {cs : List (Subtree × Option FieldId)} {i j : Nat}, SettledAll i j reach cs →
        SettledAll i j reach (cs.map fun c => (c.1, c.2.or field)) := by
      intro cs
      induction cs with
      | nil => exact id
      | cons c rest ih =>
        intro i j h
        rw [settledAll_cons] at h
        exact settledAll_cons.mpr ⟨h.1, h.2.1, ih h.2.2⟩
    exact hmap (settledAll_mono (Nat.le_refl _) (Nat.le_refl _) hreach (h.children i))
  · exact settledAll_cons.mpr ⟨h, hreach, settledAll_nil.mpr (Nat.le_refl _)⟩

/-- The pieces of entries reach no further than they do. -/
theorem settledAll_flatMap_pieces {entries : List (Entry × Option FieldId)}
    (h : SettledRow i k reach (entries.map Prod.fst)) :
    SettledAll i k reach (entries.flatMap (pieces t parent)) := by
  induction entries generalizing i with
  | nil => exact settledAll_nil.mpr (Nat.le_of_eq h)
  | cons entry rest ih =>
    rw [List.flatMap_cons, settledAll_append]
    exact ⟨_, settledAll_pieces entry h.2.1 h.2.2.1, ih h.2.2.2⟩

/-- Adding a child keeps the children settled, also where it is joined to the one before. -/
theorem settledAll_addChild {j : Nat} {before : List (Subtree × Option FieldId)}
    {child : Subtree × Option FieldId} (hbefore : SettledAll i j reach before.reverse)
    (hchild : child.1.Settled) (hreach : j + child.1.total.bytes + child.1.lookahead ≤ reach) :
    SettledAll i (j + child.1.total.bytes) reach (addChild parent before child).reverse := by
  obtain hadded | ⟨last, field, rest, joined, rfl, -, hjoined, hadded⟩ :=
    addChild_cases parent before child
  · rw [hadded, List.reverse_cons, settledAll_append]
    exact ⟨j, hbefore, settledAll_cons.mpr ⟨hchild, hreach, settledAll_nil.mpr (Nat.le_refl _)⟩⟩
  · rw [List.reverse_cons, settledAll_append] at hbefore
    obtain ⟨l, hrest, hlast⟩ := hbefore
    obtain ⟨hlast, -, hj⟩ := settledAll_cons.mp hlast
    rw [settledAll_nil] at hj
    -- two neighbouring errors become one that has looked as far as the second
    obtain ⟨hsettled, htotal, hlookahead⟩ := Subtree.settled_joinErrors hjoined hlast
    rw [hadded, List.reverse_cons, settledAll_append]
    exact ⟨l, hrest, settledAll_cons.mpr ⟨hsettled, by omega, settledAll_nil.mpr (by omega)⟩⟩

/-- Children that are added one by one stay settled, -/
theorem settledAll_foldl_addChild {j : Nat} (before : List (Subtree × Option FieldId))
    {added : List (Subtree × Option FieldId)} (hbefore : SettledAll i j reach before.reverse)
    (hadded : SettledAll j k reach added) :
    SettledAll i k reach (added.foldl (addChild parent) before).reverse := by
  induction added generalizing before j with
  | nil =>
    exact settledAll_mono (Nat.le_refl _) (settledAll_nil.mp hadded) (Nat.le_refl _) hbefore
  | cons child rest ih =>
    obtain ⟨n, field⟩ := child
    rw [settledAll_cons] at hadded
    exact ih _ (settledAll_addChild hbefore hadded.1 hadded.2.1) hadded.2.2

/-- so the children of a reduction are. -/
theorem settledAll_children (fields : List (Option FieldId)) {entries : List Entry}
    (h : SettledRow i k reach entries) :
    SettledAll i k reach (children t parent entries fields) := by
  refine settledAll_foldl_addChild [] (settledAll_nil.mpr (Nat.le_refl i)) ?_
  exact settledAll_flatMap_pieces (by rwa [map_fst_withFields])

end Build

/-! ## Nodes -/

/-- A maximum is as large as its start and each of its members, -/
theorem le_foldl_max {α : Type} (f : α → Nat) (xs : List α) (start : Nat) :
    start ≤ xs.foldl (fun reach x => max reach (f x)) start ∧
      ∀ x ∈ xs, f x ≤ xs.foldl (fun reach x => max reach (f x)) start := by
  induction xs generalizing start with
  | nil => exact ⟨Nat.le_refl _, fun _ h => by cases h⟩
  | cons x rest ih =>
    obtain ⟨hstart, hrest⟩ := ih (max start (f x))
    rw [List.foldl_cons, List.forall_mem_cons]
    exact ⟨by omega, by omega, hrest⟩

/-- and no larger than a bound of all of them. -/
theorem foldl_max_le {α : Type} {f : α → Nat} {xs : List α} {start bound : Nat}
    (hstart : start ≤ bound) (h : ∀ x ∈ xs, f x ≤ bound) :
    xs.foldl (fun reach x => max reach (f x)) start ≤ bound := by
  induction xs generalizing start with
  | nil => exact hstart
  | cons x rest ih =>
    rw [List.forall_mem_cons] at h
    exact ih (Nat.max_le.mpr ⟨hstart, h.1⟩) h.2

/-- How far the next token and the bytes looked at after it reach. -/
def Surroundings.seen (around : Surroundings) : Nat :=
  (around.position + around.lookahead.total).bytes + around.lookahead.lookahead

/-- What is built of settled entries that follow each other is settled.  It ends where they do and
reaches as far as they and the next token, so no further than those are known to. -/
theorem settled_buildNode {t : Table} {around : Surroundings} (symbol : Symbol)
    (fields : List (Option FieldId)) {fallback : Length} (state : StateId)
    (hrow : SettledRow i k reach entries) (hfallback : entries = [] → fallback.bytes = i)
    (hseen : k ≤ around.seen) (hreach : around.seen ≤ reach) :
    (buildNode t around symbol entries fields fallback state).2.bytes = i ∧
      (buildNode t around symbol entries fields fallback state).1.Settled ∧
      i + (buildNode t around symbol entries fields fallback state).1.total.bytes = k ∧
      i + (buildNode t around symbol entries fields fallback state).1.total.bytes +
        (buildNode t around symbol entries fields fallback state).1.lookahead ≤ reach := by
  obtain ⟨hposition, hpadding, hfinish⟩ := hrow.ends hfallback
  have hle := hrow.le
  have hfar := le_foldl_max (fun e : Entry => e.finish.bytes + e.node.lookahead) entries around.seen
  have hnear := foldl_max_le hreach hrow.reach_le
  generalize hfold : entries.foldl (fun reach e => max reach (e.finish.bytes + e.node.lookahead))
    around.seen = furthest at hfar hnear
  generalize hn : (buildNode t around symbol entries fields fallback state).1 = n
  -- the padding is counted once, so the node spans from its first entry to the end of its last
  have htotal : i + n.total.bytes = k := by
    have hbytes : n.total.bytes = (((entries.head?).map (·.node.padding)).getD Length.zero).bytes +
        ((((entries.getLast?).map Entry.finish).getD fallback).bytes -
          ((((entries.head?).map (·.position)).getD fallback).bytes +
            (((entries.head?).map (·.node.padding)).getD Length.zero).bytes)) := by
      rw [← hn]
      rfl
    rw [hbytes, hposition, hfinish]
    omega
  -- the node ends where its entries do, and looks as far as the furthest of them
  have hlookahead : n.lookahead = furthest - k := by
    rw [← hn, ← hfold, ← hfinish]
    rfl
  have hend : i + n.total.bytes + n.lookahead = furthest := by
    rw [htotal, hlookahead]
    omega
  have hchildren : SettledAll i (i + n.total.bytes) (i + n.total.bytes + n.lookahead) n.children := by
    rw [hend, htotal, ← hn]
    exact Build.settledAll_children fields (hrow.within hfar.2)
  refine ⟨hposition, settled_iff.mpr ⟨?_, (Subtree.settledAll_shift i).mp ?_⟩, htotal, hend ▸ hnear⟩
  · rw [← hn]
    rfl
  · rwa [Nat.add_zero, ← Nat.add_assoc]

end IncrementalParsing
