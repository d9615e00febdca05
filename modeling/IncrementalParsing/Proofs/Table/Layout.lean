import IncrementalParsing.Proofs.Binary.Numbers
import IncrementalParsing.Table.Loader
import IncrementalParsing.Table.Writer

/-!
# Where the sections of a table file stand

The header says how many entries each section has, and the sections follow each other, each filled up
to a multiple of the header's size.  So what is read at a section's offset is what was written there.

## Key results

- `decode?_encode`: a header is read back, but for what its numbers have no room for
- `numberAt?_section`, `sliceAt_section`: what stands in a section stands in what the section holds
-/

namespace IncrementalParsing

namespace Header

/-- The numbers of a header of 32 bits, in order. -/
def longs (h : Header) : List Nat :=
  [h.version, h.checksum, h.totalSize, h.stringBlobSize, h.patternBlobSize, h.actionCount,
    h.productionFieldCount, h.lexModeSymbolCount]

/-- The numbers of a header of 16 bits, in order. -/
def shorts (h : Header) : List Nat :=
  [h.stringCount, h.patternCount, h.symbolCount, h.fieldCount, h.productionCount, h.stateCount,
    h.lexModeCount, h.name, h.start]

theorem encode_eq (h : Header) :
    h.encode = h.magic ++ ((h.longs.map (littleEndian 4)).flatten ++
      ((h.shorts.map (littleEndian 2)).flatten ++ h.reserved)) := by
  simp only [encode, longs, shorts, List.flatMap, List.append_assoc]

theorem length_flatten_map (width : Nat) (ns : List Nat) :
    ((ns.map (littleEndian width)).flatten).length = width * ns.length := by
  induction ns with
  | nil => rfl
  | cons n rest ih =>
    rw [List.map_cons, List.flatten_cons, List.length_append, ih, length_littleEndian,
      List.length_cons, Nat.mul_succ, Nat.add_comm]

theorem length_encode {h : Header} (hm : h.magic.length = 4) (hr : h.reserved.length = 10) :
    h.encode.length = size := by
  rw [encode_eq, List.length_append, List.length_append, List.length_append, length_flatten_map,
    length_flatten_map, hm, hr]
  rfl

/-- A number of a row of numbers is read back. -/
theorem numberAt?_row (a b : List UInt8) (width : Nat) (ns : List Nat) {i offset : Nat}
    (hi : i < ns.length) (h : offset = a.length + width * i) :
    numberAt? (ofBytes (a ++ ((ns.map (littleEndian width)).flatten ++ b))) width offset =
      some (ns[i] % 256 ^ width) := by
  have hlen : ∀ e ∈ ns.map (littleEndian width), e.length = width := by
    intro e he
    obtain ⟨n, -, rfl⟩ := List.mem_map.mp he
    exact length_littleEndian width n
  have := numberAt?_flatten a b (ns.map (littleEndian width)) width 0 hlen
    (show i < (ns.map (littleEndian width)).length by rwa [List.length_map]) (by omega)
  rw [h, ← Nat.add_zero (width * i), this, List.getElem_map, numberAt?_littleEndian]

/-- A header with what follows it, in parts. -/
theorem encode_append (h : Header) (body : List UInt8) :
    h.encode ++ body = h.magic ++ ((h.longs.map (littleEndian 4)).flatten ++
      ((h.shorts.map (littleEndian 2)).flatten ++ (h.reserved ++ body))) := by
  simp only [encode_eq, List.append_assoc]

/-- The mark and the version are read back by themselves. -/
theorem front_encode {h : Header} (body : List UInt8) (hm : h.magic.length = 4) :
    ((ofBytes (h.encode ++ body)).extract 0 4).toList = h.magic ∧
      numberAt? (ofBytes (h.encode ++ body)) 4 4 = some (h.version % 256 ^ 4) := by
  rw [encode_append]
  refine ⟨?_, numberAt?_row _ _ 4 h.longs (show 0 < h.longs.length from Nat.zero_lt_succ _) (by rw [hm])⟩
  rw [extract_ofBytes, toList_ofBytes, List.drop_zero, Nat.sub_zero, ← hm, List.take_left]

/-- A header is read back, but for what its numbers have no room for. -/
theorem decode?_encode {h : Header} (body : List UInt8) (hm : h.magic.length = 4)
    (hr : h.reserved.length = 10) :
    ∃ read, decode? (ofBytes (h.encode ++ body)) = some read ∧ read.magic = h.magic ∧
      read.longs = h.longs.map (· % 256 ^ 4) ∧ read.shorts = h.shorts.map (· % 256 ^ 2) ∧
      read.reserved = h.reserved := by
  -- the numbers stand in two rows, after the magic and after the first row; each is read as a
  -- whole, and then taken apart into the fields
  have hbytes := h.encode_append body
  have hbytes' : h.encode ++ body = (h.magic ++ (h.longs.map (littleEndian 4)).flatten) ++
      ((h.shorts.map (littleEndian 2)).flatten ++ (h.reserved ++ body)) := by
    simp only [encode_eq, List.append_assoc]
  have hlong : ∀ i (hi : i < 8),
      numberAt? (ofBytes (h.encode ++ body)) 4 (4 + 4 * i) = some (h.longs.get ⟨i, hi⟩ % 256 ^ 4) := by
    intro i hi
    rw [hbytes]
    exact numberAt?_row _ _ 4 h.longs hi (by rw [hm])
  have hshort : ∀ i (hi : i < 9),
      numberAt? (ofBytes (h.encode ++ body)) 2 (36 + 2 * i) =
        some (h.shorts.get ⟨i, hi⟩ % 256 ^ 2) := by
    intro i hi
    rw [hbytes']
    refine numberAt?_row _ _ 2 h.shorts hi ?_
    rw [List.length_append, length_flatten_map, hm]
    rfl
  have hmagic := (front_encode body hm).1
  have hreserved : ((ofBytes (h.encode ++ body)).extract 54 size).toList = h.reserved := by
    have hfront : 54 = (h.magic ++ ((h.longs.map (littleEndian 4)).flatten ++
        (h.shorts.map (littleEndian 2)).flatten)).length := by
      rw [List.length_append, List.length_append, length_flatten_map, length_flatten_map, hm]
      rfl
    have := extract_slice (h.magic ++ ((h.longs.map (littleEndian 4)).flatten ++
      (h.shorts.map (littleEndian 2)).flatten)) h.reserved body (i := 0) (j := 10)
      (Nat.le_of_eq hr.symm)
    rw [← hfront] at this
    simp only [List.append_assoc] at this
    rw [hbytes, show size = 54 + 10 from rfl, this, toList_ofBytes, List.drop_zero, Nat.sub_zero, ← hr,
      List.take_length]
  have hlen : ¬(ofBytes (h.encode ++ body)).size < size := by
    rw [size_ofBytes, List.length_append, length_encode hm hr]
    omega
  -- one fact for each field, in the order in which the reader asks for them
  have h0 := hlong 0 (by decide)
  have h1 := hlong 1 (by decide)
  have h2 := hlong 2 (by decide)
  have h3 := hlong 3 (by decide)
  have h4 := hlong 4 (by decide)
  have h5 := hlong 5 (by decide)
  have h6 := hlong 6 (by decide)
  have h7 := hlong 7 (by decide)
  have s0 := hshort 0 (by decide)
  have s1 := hshort 1 (by decide)
  have s2 := hshort 2 (by decide)
  have s3 := hshort 3 (by decide)
  have s4 := hshort 4 (by decide)
  have s5 := hshort 5 (by decide)
  have s6 := hshort 6 (by decide)
  have s7 := hshort 7 (by decide)
  have s8 := hshort 8 (by decide)
  simp only [Nat.reduceMul, Nat.reduceAdd] at h0 h1 h2 h3 h4 h5 h6 h7 s0 s1 s2 s3 s4 s5 s6 s7 s8
  unfold decode?
  rw [if_neg hlen]
  simp only [h0, h1, h2, h3, h4, h5, h6, h7, s0, s1, s2, s3, s4, s5, s6, s7, s8,
    Option.bind_eq_bind, Option.bind_some, Option.pure_def, hmagic, hreserved]
  exact ⟨_, rfl, rfl, rfl, rfl, rfl⟩

theorem map_mod_eq {ns : List Nat} {bound : Nat} (h : ∀ n ∈ ns, n < bound) :
    ns.map (· % bound) = ns := by
  rw [List.map_congr_left fun n hn => Nat.mod_eq_of_lt (h n hn), List.map_id']

/-- A header whose numbers fit is read back as it is. -/
theorem decode?_encode_of_lt {h : Header} (body : List UInt8) (hm : h.magic.length = 4)
    (hr : h.reserved.length = 10) (hlongs : ∀ n ∈ h.longs, n < 256 ^ 4)
    (hshorts : ∀ n ∈ h.shorts, n < 256 ^ 2) :
    decode? (ofBytes (h.encode ++ body)) = some h := by
  obtain ⟨read, hread, hmagic, hl, hs, hreserved⟩ := decode?_encode body hm hr
  rw [map_mod_eq hlongs] at hl
  rw [map_mod_eq hshorts] at hs
  simp only [longs, shorts, List.cons.injEq, and_true] at hl hs
  rw [hread]
  cases read
  cases h
  simp_all

/-! ## Sections -/

open TableImage (padTo)

theorem length_padTo (bytes : List UInt8) : (padTo size bytes).length = alignUp bytes.length := by
  unfold padTo alignUp size
  rw [List.length_append, List.length_replicate]
  omega

theorem alignUp_add {start : Nat} (n : Nat) (h : start % size = 0) :
    alignUp (start + n) = start + alignUp n := by
  unfold alignUp
  unfold size at h ⊢
  omega

/-- What sections hold, each filled up. -/
def filled (holds : Section → List UInt8) (sections : List Section) : List UInt8 :=
  sections.flatMap fun s => padTo size (holds s)

/-- Sections that follow each other end where what they hold ends. -/
theorem endOf_eq {h : Header} {holds : Section → List UInt8} {sections : List Section}
    (hsize : ∀ s ∈ sections, h.sectionSize s = (holds s).length) {start : Nat}
    (hstart : start % size = 0) :
    h.endOf start sections = start + (filled holds sections).length := by
  -- the induction is on the sections, each of which starts at a multiple of the alignment
  induction sections generalizing start with
  | nil => rfl
  | cons s rest ih =>
    have hs := hsize s (List.mem_cons_self ..)
    have hnext : alignUp (start + h.sectionSize s) = start + (padTo size (holds s)).length := by
      rw [alignUp_add _ hstart, hs, length_padTo]
    have hmod : (start + (padTo size (holds s)).length) % size = 0 := by
      rw [length_padTo]
      unfold alignUp
      unfold size at hstart ⊢
      omega
    have := ih (fun s hs => hsize s (List.mem_cons_of_mem _ hs)) hmod
    rw [endOf, List.foldl_cons, hnext]
    rw [endOf] at this
    rw [this, filled, filled, List.flatMap_cons, List.length_append, Nat.add_assoc]

/-- The sections before one. -/
def earlier (s : Section) : List Section := Section.all.takeWhile (· != s)

theorem all_eq (s : Section) : ∃ rest, Section.all = earlier s ++ s :: rest := by
  cases s <;> exact ⟨_, rfl⟩

/-- What stands in a section stands in what the section holds. -/
theorem exists_around {h : Header} {holds : Section → List UInt8} {head : List UInt8}
    (hhead : head.length = size) (hsize : ∀ r, h.sectionSize r = (holds r).length) (s : Section) :
    ∃ before after, head ++ filled holds Section.all = before ++ (holds s ++ after) ∧
      h.offset s = before.length := by
  obtain ⟨rest, hall⟩ := all_eq s
  refine ⟨head ++ filled holds (earlier s), List.replicate
    ((size - (holds s).length % size) % size) 0 ++ filled holds rest, ?_, ?_⟩
  · rw [hall]
    simp only [filled, List.flatMap_append, List.flatMap_cons, padTo, List.append_assoc]
  · rw [offset, List.length_append, hhead]
    exact endOf_eq (fun r _ => hsize r) rfl

/-- A number in a section is read in what the section holds. -/
theorem numberAt?_section {h : Header} {holds : Section → List UInt8} {head : List UInt8}
    (hhead : head.length = size) (hsize : ∀ r, h.sectionSize r = (holds r).length) (s : Section)
    {width k : Nat} (hk : k + width ≤ (holds s).length) :
    numberAt? (ofBytes (head ++ filled holds Section.all)) width (h.offset s + k) =
      numberAt? (ofBytes (holds s)) width k := by
  obtain ⟨before, after, hbytes, hoffset⟩ := exists_around hhead hsize s
  rw [hbytes, hoffset]
  exact numberAt?_slice _ _ _ width k hk

/-- A slice of a section is one of what the section holds. -/
theorem sliceAt_section {h : Header} {holds : Section → List UInt8} {head : List UInt8}
    (hhead : head.length = size) (hsize : ∀ r, h.sectionSize r = (holds r).length) (s : Section)
    {i j : Nat} (hi : i ≤ j) (hj : j ≤ (holds s).length) :
    Table.sliceAt (ofBytes (head ++ filled holds Section.all)) (h.offset s + i) (h.offset s + j) =
      .ok (ofBytes (((holds s).drop i).take (j - i))) := by
  obtain ⟨before, after, hbytes, hoffset⟩ := exists_around hhead hsize s
  -- the section lies between those before it and those behind
  have hinside : (decide (h.offset s + i ≤ h.offset s + j) &&
      decide (h.offset s + j ≤ (ofBytes (head ++ filled holds Section.all)).size)) = true := by
    rw [Bool.and_eq_true, decide_eq_true_eq, decide_eq_true_eq, hbytes, hoffset, size_ofBytes,
      List.length_append, List.length_append]
    omega
  rw [Table.sliceAt, if_pos hinside, hbytes, hoffset, extract_slice _ _ _ hj]

end Header

end IncrementalParsing
