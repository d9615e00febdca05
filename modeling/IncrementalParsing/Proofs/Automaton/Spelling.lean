import IncrementalParsing.Proofs.Automaton.Network
import IncrementalParsing.Proofs.Automaton.Subset

/-!
# Automata spell characters

While the bytes of a text are read, at each place so many are owed to the end of a character, and where
none is there is a boundary.  In all nodes of a situation as many are owed as in the text, so a state of
the automaton of an expression is matched or final only at a boundary.

## Key results

- `Ahead.read`: what is owed in a text after a byte
- `Situation.owes_of_mem_steps`: what is owed in a situation after a byte
- `Automaton.exists_spells`: the automaton of an expression spells characters
- `Automaton.Spells.isBoundary_of_scan`: what such an automaton finds in a text ends at a boundary
-/

namespace IncrementalParsing

/-! ## Reading a text byte by byte -/

/-- So many bytes after a place a character ends, and none before. -/
structure Ahead (text : ByteArray) (i k : Nat) : Prop where
  ends : isBoundary text (i + k) = true
  inside : ∀ j < k, isBoundary text (i + j) = false

/-- With a byte, one byte less is owed, or the rest of the character that it leads. -/
def Reads (byte : UInt8) (k k' : Nat) : Prop := k = k' + 1 ∨ k = 0 ∧ Leads byte (k' + 1)

theorem ahead_zero {text : ByteArray} {i : Nat} : Ahead text i 0 ↔ isBoundary text i = true :=
  ⟨fun h => h.ends, fun h => ⟨h, fun _ hj => absurd hj (Nat.not_lt_zero _)⟩⟩

/-- The byte at a place says how far it is to the end of the character from the next place. -/
theorem Ahead.read {s : String} {i k : Nat} {byte : UInt8} (h : Ahead s.toUTF8 i k)
    (hbyte : byteAt? s.toUTF8 i = some byte) : ∃ k', Reads byte k k' ∧ Ahead s.toUTF8 (i + 1) k' := by
  cases k with
  -- inside a character one byte less is owed
  | succ k =>
    refine ⟨k, .inl rfl, ?_, fun j hj => ?_⟩
    · rw [Nat.add_assoc, Nat.add_comm 1 k]
      exact h.ends
    · rw [Nat.add_assoc, Nat.add_comm 1 j]
      exact h.inside (j + 1) (Nat.succ_lt_succ hj)
  -- at a boundary the byte is a lead byte, which says how many bytes follow it
  | zero =>
    have hstart : isBoundary s.toUTF8 i = true := ahead_zero.mp h
    have hi : i < s.toUTF8.size := by
      unfold byteAt? at hbyte
      split at hbyte
      · assumption
      · cases hbyte
    -- the text has a character here, with `lead` in front
    obtain ⟨before, lead, tail, after, hbytes, hlength, hwidth, hlead, -⟩ :=
      exists_bytes_of_isBoundary hstart hi
    have hsame : byte = lead := by
      rw [hbytes, byteAt?_ofBytes, List.getElem?_append_right (Nat.le_of_eq hlength), hlength,
        Nat.sub_self] at hbyte
      exact (Option.some.inj hbyte).symm
    refine ⟨tail.length, .inr ⟨rfl, hsame ▸ hlead⟩, ?_, fun j hj => ?_⟩
    · rw [Nat.add_assoc, Nat.add_comm 1, ← hwidth]
      exact isBoundary_add_charWidth hstart hi
    · exact not_isBoundary_inside hstart hi (by omega) (by omega)

namespace Network

variable {n : Network} {owed : List Nat}

theorem Keeps.node (h : n.Keeps owed) {i k : Nat} (hi : Owes owed i k) :
    (n.node i).Keeps owed k := by
  have hlt : i < n.nodes.size := by
    rw [h.nodes.size]
    exact (List.getElem?_eq_some_iff.mp hi).1
  have hget := Array.getElem?_eq_getElem hlt
  refine h.nodes.keeps i _ k ?_ hi
  rw [Network.node, Array.getD_eq_getD_getElem?, hget]
  rfl

/-- Nothing is read on the way to what is reached, so the same is owed there. -/
theorem owes_of_mem_reach (h : n.Keeps owed) {holds : Look → Bool} {k fuel : Nat} {seen stack : List Nat}
    (hseen : ∀ i ∈ seen, Owes owed i k) (hstack : ∀ i ∈ stack, Owes owed i k) :
    ∀ i ∈ n.reach holds fuel seen stack, Owes owed i k := by
  -- on the fuel: what has been seen and what is on the stack owe alike
  induction fuel generalizing seen stack with
  | zero => exact hseen
  | succ fuel ih =>
    cases stack with
    | nil => exact hseen
    | cons i stack =>
      have hi : Owes owed i k := hstack i List.mem_cons_self
      have hrest : ∀ j ∈ stack, Owes owed j k := fun j hj => hstack j (List.mem_cons_of_mem i hj)
      have hmore : ∀ j ∈ i :: seen, Owes owed j k := List.forall_mem_cons.mpr ⟨hi, hseen⟩
      have hnode := h.node hi
      rw [reach]
      split
      · exact ih hseen hrest
      · split
        -- a split leads on without reading, so only where nothing is owed
        · rename_i next heq
          rw [heq] at hnode
          obtain ⟨rfl, hnext⟩ := hnode
          exact ih hmore (List.forall_mem_append.mpr ⟨hnext, hrest⟩)
        -- so does a look-around
        · rename_i kind next heq
          rw [heq] at hnode
          obtain ⟨rfl, hnext⟩ := hnode
          refine ih hmore ?_
          split
          · exact List.forall_mem_cons.mpr ⟨hnext, hrest⟩
          · exact hrest
        · exact ih hmore hrest

/-- A match ends where nothing is owed. -/
theorem owes_of_isAccept (h : n.Keeps owed) {i k : Nat} (hi : Owes owed i k)
    (haccept : n.isAccept i = true) : k = 0 := by
  have hnode := h.node hi
  unfold isAccept at haccept
  split at haccept
  · rename_i heq
    rwa [heq] at hnode
  · cases haccept

/-- A byte leads on to where what is owed after it is. -/
theorem owes_of_mem_movesOf (h : n.Keeps owed) {i k k' : Nat} (hi : Owes owed i k)
    {m : Nat × Nat × Nat} (hm : m ∈ n.movesOf i) {byte : Nat} (hfirst : m.1 ≤ byte)
    (hlast : byte ≤ m.2.1) (hreads : Reads (UInt8.ofNat byte) k k') : Owes owed m.2.2 k' := by
  have hnode := h.node hi
  unfold movesOf at hm
  split at hm
  · rename_i moves heq
    rw [heq] at hnode
    -- a byte continues a character, or it is the first and says how many are to follow
    obtain rfl | ⟨rfl, hlead⟩ := hreads
    · exact hnode m hm
    · obtain ⟨tail, htail, hleads⟩ := hnode m hm
      have hwidth := (hleads byte hfirst hlast).owes.symm.trans hlead.owes
      have hsame : tail = k' := Nat.succ.inj (Option.some.inj hwidth)
      exact hsame ▸ htail
  · cases hm

end Network

namespace Situation

variable {n : Network} {links : Nat} {looks : Bool} {s s' : Situation} {a b : Nat}

/-- So many bytes of a character are owed in a situation. -/
def OwesAll (owed : List Nat) (s : Situation) (k : Nat) : Prop := ∀ i ∈ s.nodes, Owes owed i k

theorem owes_of_mem_reached {owed : List Nat} (h : n.Keeps owed) {k : Nat} (hs : s.OwesAll owed k)
    {after : Option ByteKind} : ∀ i ∈ s.reached n links after, Owes owed i k :=
  Network.owes_of_mem_reach h (fun _ hi => absurd hi List.not_mem_nil) hs

/-- After a byte the bytes that it leaves are owed, and there was a match before it only if none were. -/
theorem owes_of_mem_steps {owed : List Nat} (h : n.Keeps owed) {k k' : Nat} (hs : s.OwesAll owed k)
    (hstep : (a, b, s') ∈ s.steps n links looks) {byte : Nat} (hfirst : a ≤ byte) (hlast : byte ≤ b)
    (hreads : Reads (UInt8.ofNat byte) k k') :
    s'.OwesAll owed k' ∧ (s'.matched = true → k = 0) := by
  -- what is reached without reading owes as many bytes as what it is reached from
  obtain ⟨after, hstep⟩ := exists_step hstep
  constructor
  · intro i hi
    obtain ⟨j, hj, m, hm, hma, hmb, rfl⟩ := hstep.nodes i hi
    exact Network.owes_of_mem_movesOf h (owes_of_mem_reached h hs j hj) hm (by omega) (by omega) hreads
  · intro hmatched
    obtain ⟨i, hi, haccept⟩ := hstep.matched hmatched
    exact Network.owes_of_isAccept h (owes_of_mem_reached h hs i hi) haccept

end Situation

namespace Automaton

/-! ## Spelling characters -/

/-- It is known how many bytes of a character are owed in the states of an automaton, and it takes no
end of a match for one where any is. -/
structure Spells (a : Automaton) (owes : (i k : Nat) → Prop) : Prop where
  length : a.starts.length = 5
  start : ∀ i ∈ a.starts, owes i 0
  final : ∀ i k, owes i k → (a.state i).final = true → k = 0
  move : ∀ i k, owes i k → ∀ m ∈ (a.state i).moves, ∀ byte, m.first ≤ byte → byte ≤ m.last →
    ∀ k', Reads (UInt8.ofNat byte) k k' → owes m.target k' ∧ ((a.state m.target).matched = true → k = 0)

section

variable {a : Automaton} {owes : (i k : Nat) → Prop} {s : String}

/-- A match ends between characters, whether it is the longest so far or comes later. -/
theorem Spells.isBoundary_of_scanFrom (h : a.Spells owes) {start left place i k : Nat}
    {longest : Option Nat} {stop : Nat} (hi : owes i k) (hahead : Ahead s.toUTF8 place k)
    (hlongest : ∀ j, longest = some j → isBoundary s.toUTF8 j = true)
    (hscan : (scanFrom a s.toUTF8 start left place (a.state i) longest).1 = some stop) :
    isBoundary s.toUTF8 stop = true := by
  -- on the bytes that are left: a state says how many bytes are owed at the place
  induction left generalizing place i k longest with
  -- at the end of the text the place counts if the state is final, where nothing is owed
  | zero =>
    simp only [scanFrom] at hscan
    split at hscan
    · rename_i hfinal
      cases hscan
      rw [Bool.and_eq_true] at hfinal
      cases h.final i k hi hfinal.1
      exact ahead_zero.mp hahead
    · exact hlongest stop hscan
  | succ left ih =>
    simp only [scanFrom] at hscan
    split at hscan
    · exact hlongest stop hscan
    · rename_i byte hbyte
      split at hscan
      · exact hlongest stop hscan
      · rename_i target htarget
        unfold State.next? at htarget
        obtain ⟨m, hm, rfl⟩ := Option.map_eq_some_iff.mp htarget
        have hrange := List.find?_some hm
        rw [Bool.and_eq_true, decide_eq_true_eq, decide_eq_true_eq] at hrange
        obtain ⟨k', hreads, hnext⟩ := hahead.read hbyte
        rw [← UInt8.ofNat_toNat (x := byte)] at hreads
        -- the target owes what the byte leaves owed
        obtain ⟨howes, hmatched⟩ := h.move i k hi m (List.mem_of_find?_eq_some hm) byte.toNat hrange.1
          hrange.2 k' hreads
        refine ih howes hnext (fun j hj => ?_) hscan
        split at hj
        · rename_i hhere
          cases hj
          rw [Bool.and_eq_true] at hhere
          cases hmatched hhere.1
          exact ahead_zero.mp hahead
        · exact hlongest j hj

/-- What is found from a boundary on ends at one. -/
theorem Spells.isBoundary_of_scan (h : a.Spells owes) {start stop : Nat}
    (hstart : isBoundary s.toUTF8 start = true) (hscan : (a.scan s.toUTF8 start).1 = some stop) :
    isBoundary s.toUTF8 stop = true := by
  -- every start begins a character
  have hbegin : ∀ before, owes (a.start before) 0 := by
    intro before
    have hindex : startIndex before < a.starts.length := by
      rw [h.length]
      unfold startIndex
      split <;> decide
    rw [Automaton.start, List.getD_eq_getElem?_getD, List.getElem?_eq_getElem hindex]
    exact h.start _ (List.getElem_mem hindex)
  exact h.isBoundary_of_scanFrom (hbegin _) (ahead_zero.mpr hstart) (fun j hj => by cases hj) hscan

end

/-- The automaton of an expression spells characters. -/
theorem exists_spells (e : Expression) : ∃ owes, (ofExpression e).Spells owes := by
  obtain ⟨owed, hkeeps⟩ := Network.exists_keeps e
  obtain ⟨-, -, hlength, -, hstarts⟩ := begun_spec (n := .ofExpression e) befores
  obtain ⟨hlawful, hgrows, -⟩ := explored_spec (.ofExpression e)
  -- a state owes what each node of its situation does
  refine ⟨fun i k => ∀ s, (explored (.ofExpression e)).situations[i]? = some s → s.OwesAll owed k, ?_⟩
  constructor
  case length =>
    rw [starts_ofExpression, hlength]
    rfl
  case start =>
    intro i hi s hs
    rw [starts_ofExpression] at hi
    obtain ⟨before, hfound⟩ := hstarts i hi
    cases hs.symm.trans (hgrows i _ hfound)
    intro j hj
    rw [List.mem_singleton.mp hj]
    exact hkeeps.start
  -- a final state reaches a node that accepts, and such a node owes nothing
  case final =>
    intro i k howes hfinal
    obtain hstate | ⟨state, hi, hstate⟩ := state_ofExpression e i
    · rw [hstate] at hfinal
      cases hfinal
    · obtain ⟨s, hs, hshows⟩ := hlawful.states i state hi
      rw [hstate, State.pruned, hshows.final] at hfinal
      obtain ⟨j, hj, haccept⟩ := List.any_eq_true.mp hfinal
      exact Network.owes_of_isAccept hkeeps
        (Situation.owes_of_mem_reached hkeeps (howes s hs) j hj) haccept
  -- a move stands for a step of the situation, which reads one byte
  case move =>
    intro i k howes m hm byte hfirst hlast k' hreads
    obtain hstate | ⟨state, hi, hstate⟩ := state_ofExpression e i
    · rw [hstate] at hm
      cases hm
    · obtain ⟨s, hs, hshows⟩ := hlawful.states i state hi
      rw [hstate] at hm
      obtain ⟨⟨t, ht, hbytes⟩, -⟩ := hshows.moves m (List.mem_filter.mp hm).1
      obtain ⟨a, b, hstep, hlo, hhi⟩ := hbytes byte hfirst hlast
      obtain ⟨howes', hmatched⟩ :=
        Situation.owes_of_mem_steps hkeeps (howes s hs) hstep hlo hhi hreads
      constructor
      · intro t' ht'
        cases ht.symm.trans ht'
        exact howes'
      -- a match before the byte is recorded in the state behind it
      · intro hmatch
        refine hmatched ?_
        obtain hstate' | ⟨state', hi', hstate'⟩ := state_ofExpression e m.target
        · rw [hstate'] at hmatch
          cases hmatch
        · obtain ⟨t', ht', hshows'⟩ := hlawful.states m.target state' hi'
          cases ht.symm.trans ht'
          rw [hstate', State.pruned, hshows'.matched] at hmatch
          exact hmatch

end Automaton

end IncrementalParsing
