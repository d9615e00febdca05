import IncrementalParsing.Unicode.CodeSet
import Mathlib.Data.List.Sort

/-!
# What is in a set of characters

`CodeSet.ofRanges` sorts ranges, leaves the surrogates out and joins what touches.  None of this changes
which characters are in the set.

## Key results

- `mem_ofRanges`: what is in a set of ranges
- `mem_unions`: what is in a union
-/

namespace IncrementalParsing.Unicode.CodeSet

theorem mem_iff {s : CodeSet} {c : Nat} : s.mem c = true ↔ ∃ r ∈ s.ranges, r.1 ≤ c ∧ c ≤ r.2 := by
  simp [mem]

/-- Joining ranges keeps what they cover. -/
theorem covers_joinRanges (c : Nat) (ranges : List (Nat × Nat)) :
    ∀ lo hi : Nat, (∀ r ∈ ranges, lo ≤ r.1) → ranges.Pairwise (fun a b => a.1 ≤ b.1) →
      ((∃ r ∈ joinRanges lo hi ranges, r.1 ≤ c ∧ c ≤ r.2) ↔
        (lo ≤ c ∧ c ≤ hi) ∨ ∃ r ∈ ranges, r.1 ≤ c ∧ c ≤ r.2) := by
  induction ranges with
  | nil => simp [joinRanges]
  | cons r rest ih =>
    intro lo hi hlo hsorted
    obtain ⟨a, b⟩ := r
    have ha : lo ≤ a := hlo (a, b) (List.mem_cons_self ..)
    obtain ⟨hfirst, hrest⟩ := List.pairwise_cons.mp hsorted
    rw [joinRanges, List.exists_mem_cons_iff, ← or_assoc]
    split
    · rename_i htouch
      rw [ih lo (max hi b) (fun r hr => hlo r (List.mem_cons_of_mem _ hr)) hrest]
      -- a range that touches the one before it leaves no gap
      have hjoined : lo ≤ c ∧ c ≤ max hi b ↔ (lo ≤ c ∧ c ≤ hi) ∨ (a ≤ c ∧ c ≤ b) := by
        omega
      rw [hjoined]
    -- a range that leaves a gap is the next one to be joined to
    · rw [List.exists_mem_cons_iff, ih a b hfirst hrest, or_assoc]

theorem clip_eq_some {lo hi : Nat} {r q : Nat × Nat} :
    clip lo hi r = some q ↔ q = (max lo r.1, min hi r.2) ∧ max lo r.1 ≤ min hi r.2 := by
  simp only [clip, Option.ite_none_right_eq_some, Option.some.injEq]
  exact ⟨fun h => ⟨h.2.symm, h.1⟩, fun h => ⟨h.2, h.1.symm⟩⟩

/-- What a clipped range covers. -/
theorem covers_clip {lo hi c : Nat} {r : Nat × Nat} :
    (∃ q ∈ (clip lo hi r).toList, q.1 ≤ c ∧ c ≤ q.2) ↔ (lo ≤ c ∧ c ≤ hi) ∧ r.1 ≤ c ∧ c ≤ r.2 := by
  constructor
  · rintro ⟨q, hq, hcovers⟩
    obtain ⟨rfl, -⟩ := clip_eq_some.mp (Option.mem_toList.mp hq)
    dsimp only at hcovers
    omega
  · rintro ⟨hbounds, hcovers⟩
    exact ⟨_, Option.mem_toList.mpr (clip_eq_some.mpr ⟨rfl, by omega⟩), by dsimp only; omega⟩

/-- The parts of ranges that are no surrogates. -/
def scalarParts (ranges : List (Nat × Nat)) : List (Nat × Nat) :=
  ranges.flatMap fun r => (clip 0 0xD7FF r).toList ++ (clip 0xE000 0x10FFFF r).toList

theorem covers_scalarParts {ranges : List (Nat × Nat)} {c : Nat} :
    (∃ q ∈ scalarParts ranges, q.1 ≤ c ∧ c ≤ q.2) ↔
      c.isValidChar ∧ ∃ r ∈ ranges, r.1 ≤ c ∧ c ≤ r.2 := by
  have hvalid : c.isValidChar ↔ c ≤ 0xD7FF ∨ (0xE000 ≤ c ∧ c ≤ 0x10FFFF) := by
    unfold Nat.isValidChar
    omega
  -- a range is cut into what lies below the surrogates and what lies above
  have hclip (r : Nat × Nat) : (∃ q ∈ (clip 0 0xD7FF r).toList ++ (clip 0xE000 0x10FFFF r).toList,
      q.1 ≤ c ∧ c ≤ q.2) ↔ c.isValidChar ∧ r.1 ≤ c ∧ c ≤ r.2 := by
    simp only [List.mem_append, or_and_right, exists_or, covers_clip, hvalid, Nat.zero_le, true_and]
  simp only [scalarParts, List.mem_flatMap]
  constructor
  · rintro ⟨q, ⟨r, hr, hq⟩, hcovers⟩
    obtain ⟨hc, hin⟩ := (hclip r).mp ⟨q, hq, hcovers⟩
    exact ⟨hc, r, hr, hin⟩
  · rintro ⟨hc, r, hr, hin⟩
    obtain ⟨q, hq, hcovers⟩ := (hclip r).mpr ⟨hc, hin⟩
    exact ⟨q, ⟨r, hr, hq⟩, hcovers⟩

theorem pairwise_sorted (ranges : List (Nat × Nat)) :
    (ranges.mergeSort (fun a b => a.1 ≤ b.1)).Pairwise fun a b => a.1 ≤ b.1 := by
  have h : (ranges.mergeSort fun a b => decide (a.1 ≤ b.1)).Pairwise fun a b => decide (a.1 ≤ b.1) :=
    List.pairwise_mergeSort
    (fun a b c hab hbc => by simp only [decide_eq_true_eq] at *; omega)
    (fun a b => by simp only [Bool.or_eq_true, decide_eq_true_eq]; omega) ranges
  exact h.imp of_decide_eq_true

theorem ofRanges_of_nil {ranges : List (Nat × Nat)}
    (h : (scalarParts ranges).mergeSort (fun a b => a.1 ≤ b.1) = []) : ofRanges ranges = empty := by
  unfold scalarParts at h
  rw [ofRanges, h]

theorem ofRanges_of_cons {ranges rest : List (Nat × Nat)} {q : Nat × Nat}
    (h : (scalarParts ranges).mergeSort (fun a b => a.1 ≤ b.1) = q :: rest) :
    ofRanges ranges = ⟨joinRanges q.1 q.2 rest⟩ := by
  unfold scalarParts at h
  rw [ofRanges, h]

/-- What is in a set of ranges: the characters in any of them, but no surrogates. -/
theorem mem_ofRanges {ranges : List (Nat × Nat)} {c : Nat} :
    (ofRanges ranges).mem c = true ↔ c.isValidChar ∧ ∃ r ∈ ranges, r.1 ≤ c ∧ c ≤ r.2 := by
  have hsorted := pairwise_sorted (scalarParts ranges)
  -- sorting does not change what is covered
  have hcovers : (∃ q ∈ (scalarParts ranges).mergeSort (fun a b => a.1 ≤ b.1), q.1 ≤ c ∧ c ≤ q.2) ↔
      ∃ q ∈ scalarParts ranges, q.1 ≤ c ∧ c ≤ q.2 := by
    simp only [List.mem_mergeSort]
  rw [← covers_scalarParts, ← hcovers, mem_iff]
  cases hsort : (scalarParts ranges).mergeSort (fun a b => a.1 ≤ b.1) with
  | nil => simp [ofRanges_of_nil hsort, empty]
  | cons q rest =>
    rw [ofRanges_of_cons hsort]
    rw [hsort] at hsorted
    obtain ⟨hfirst, hrest⟩ := List.pairwise_cons.mp hsorted
    rw [List.exists_mem_cons_iff, ← covers_joinRanges c rest q.1 q.2 hfirst hrest]

theorem mem_unions {sets : List CodeSet} {c : Nat} :
    (unions sets).mem c = true ↔ c.isValidChar ∧ ∃ s ∈ sets, s.mem c = true := by
  rw [unions, mem_ofRanges]
  refine and_congr_right fun _ => ?_
  simp only [mem_iff, List.mem_flatMap]
  constructor
  · rintro ⟨r, ⟨s, hs, hr⟩, hcovers⟩
    exact ⟨s, hs, r, hr, hcovers⟩
  · rintro ⟨s, hs, r, hr, hcovers⟩
    exact ⟨r, ⟨s, hs, hr⟩, hcovers⟩

theorem mem_singleton {c d : Char} : (singleton c).mem d.toNat = true ↔ d = c := by
  simp only [mem_iff, singleton, List.mem_singleton, exists_eq_left]
  rw [← Char.toNat_inj]
  omega

/-- The only character of a set. -/
theorem mem_of_single? {s : CodeSet} {n : Nat} (h : s.single? = some n) {c : Nat} :
    s.mem c = true ↔ c = n := by
  unfold single? at h
  split at h
  · rename_i a b hranges
    obtain ⟨rfl, hn⟩ := Option.ite_none_right_eq_some.mp h
    cases hn
    simp only [mem_iff, hranges, List.mem_singleton, exists_eq_left]
    omega
  · cases h

theorem mem_of_isEmpty {s : CodeSet} (h : s.isEmpty = true) (c : Nat) : s.mem c = false := by
  rw [mem, List.isEmpty_iff.mp h]
  rfl

end IncrementalParsing.Unicode.CodeSet
