import IncrementalParsing.Proofs.Parse.DerivedTrees

/-!
# Building alike

What a reduction builds is decided by the shapes of its parts and by where they follow each other, not
by where they stand in the text nor by what lies below them on the stack.  So two stacks whose upper
entries have the same shapes are reduced alike, whatever the rest of them is.

## Key results

- `consecutive_buildNode`: a node stands where its parts stood
- `sameShape_buildNode`, `twins_replacement`: parts of the same shapes build nodes of the same shape
- `popChildren_append`: the parts of a production are taken off whatever is below them
-/

namespace IncrementalParsing

/-! ## Shapes -/

namespace Subtree

/-- Parts of the same shape in the same field. -/
def SameChild (c d : Subtree × Option FieldId) : Prop := c.2 = d.2 ∧ c.1.sameShape d.1 = true

/-- Lists of parts have the same shapes if they have them one by one. -/
theorem sameShapes_iff {cs ds : List (Subtree × Option FieldId)} :
    sameShapes cs ds = true ↔ List.Forall₂ SameChild cs ds := by
  induction cs generalizing ds with
  | nil => cases ds <;> simp [sameShapes]
  | cons c rest ih =>
    obtain ⟨n, f⟩ := c
    cases ds with
    | nil => simp [sameShapes]
    | cons d rest' =>
      obtain ⟨n', f'⟩ := d
      simp [sameShapes, ih, SameChild]

/-- What `sameShape` compares: everything but what is kept so that a part can be used again. -/
theorem sameShape_iff {n m : Subtree} : n.sameShape m = true ↔
    n.symbol = m.symbol ∧ n.padding = m.padding ∧ n.size = m.size ∧ n.extra = m.extra ∧
      n.hasError = m.hasError ∧ List.Forall₂ SameChild n.children m.children := by
  cases n
  cases m
  simp [sameShape, sameShapes_iff, and_assoc]

mutual

/-- Every part has its own shape. -/
theorem sameShape_refl : (n : Subtree) → n.sameShape n = true
  | ⟨_, _, _, children, _, _, _, _, _, _, _⟩ => by
    rw [sameShape, sameShapes_refl children]
    simp

/-- So have the parts in it. -/
theorem sameShapes_refl : (cs : List (Subtree × Option FieldId)) → sameShapes cs cs = true
  | [] => by rw [sameShapes]
  | (n, _) :: rest => by
    rw [sameShapes, sameShape_refl n, sameShapes_refl rest]
    simp

end

mutual

/-- What has the same shape as something of a shape has that shape. -/
theorem sameShape_trans : (a b c : Subtree) → a.sameShape b = true → b.sameShape c = true →
    a.sameShape c = true
  | ⟨_, _, _, as, _, _, _, _, _, _, _⟩, ⟨_, _, _, bs, _, _, _, _, _, _, _⟩,
      ⟨_, _, _, cs, _, _, _, _, _, _, _⟩ => by
    simp only [sameShape, Bool.and_eq_true, beq_iff_eq]
    rintro ⟨⟨⟨⟨⟨rfl, rfl⟩, rfl⟩, rfl⟩, rfl⟩, hab⟩ ⟨⟨⟨⟨⟨rfl, rfl⟩, rfl⟩, rfl⟩, rfl⟩, hbc⟩
    exact ⟨⟨⟨⟨⟨rfl, rfl⟩, rfl⟩, rfl⟩, rfl⟩, sameShapes_trans as bs cs hab hbc⟩

/-- The same for the parts in three parts. -/
theorem sameShapes_trans : (as bs cs : List (Subtree × Option FieldId)) →
    sameShapes as bs = true → sameShapes bs cs = true → sameShapes as cs = true
  | [], [], [], _, _ => by rw [sameShapes]
  | (a, _) :: as, (b, _) :: bs, (c, _) :: cs, hab, hbc => by
    simp only [sameShapes, Bool.and_eq_true, beq_iff_eq] at hab hbc ⊢
    obtain ⟨⟨rfl, ha⟩, has⟩ := hab
    obtain ⟨⟨rfl, hb⟩, hbs⟩ := hbc
    exact ⟨⟨rfl, sameShape_trans a b c ha hb⟩, sameShapes_trans as bs cs has hbs⟩
  | [], [], _ :: _, _, h => by simp [sameShapes] at h
  | [], _ :: _, _, h, _ => by simp [sameShapes] at h
  | _ :: _, [], _, h, _ => by simp [sameShapes] at h
  | _ :: _, _ :: _, [], _, h => by simp [sameShapes] at h

end

mutual

/-- Having the same shape goes both ways. -/
theorem sameShape_symm : (a b : Subtree) → a.sameShape b = true → b.sameShape a = true
  | ⟨_, _, _, as, _, _, _, _, _, _, _⟩, ⟨_, _, _, bs, _, _, _, _, _, _, _⟩ => by
    simp only [sameShape, Bool.and_eq_true, beq_iff_eq]
    rintro ⟨⟨⟨⟨⟨rfl, rfl⟩, rfl⟩, rfl⟩, rfl⟩, h⟩
    exact ⟨⟨⟨⟨⟨rfl, rfl⟩, rfl⟩, rfl⟩, rfl⟩, sameShapes_symm as bs h⟩

/-- The same for the parts in two parts. -/
theorem sameShapes_symm : (as bs : List (Subtree × Option FieldId)) →
    sameShapes as bs = true → sameShapes bs as = true
  | [], [], _ => by rw [sameShapes]
  | (a, _) :: as, (b, _) :: bs, h => by
    simp only [sameShapes, Bool.and_eq_true, beq_iff_eq] at h ⊢
    obtain ⟨⟨rfl, hab⟩, hrest⟩ := h
    exact ⟨⟨rfl, sameShape_symm a b hab⟩, sameShapes_symm as bs hrest⟩
  | [], _ :: _, h => by simp [sameShapes] at h
  | _ :: _, [], h => by simp [sameShapes] at h

end

/-- Parts of the same shape cover equally much. -/
theorem total_of_sameShape {n m : Subtree} (h : n.sameShape m = true) : m.total = n.total := by
  obtain ⟨-, hpadding, hsize, -⟩ := sameShape_iff.mp h
  rw [total, total, hpadding, hsize]

/-- Of parts of the same shape both are tokens or neither is. -/
theorem isLeaf_of_sameShape {n m : Subtree} (h : n.sameShape m = true) : m.isLeaf = n.isLeaf := by
  obtain ⟨-, -, -, -, -, hchildren⟩ := sameShape_iff.mp h
  rw [isLeaf, isLeaf, Bool.eq_iff_iff, List.isEmpty_iff_length_eq_zero,
    List.isEmpty_iff_length_eq_zero, hchildren.length_eq]

/-- Both are errors or neither is. -/
theorem isError_of_sameShape {n m : Subtree} (h : n.sameShape m = true) : m.isError = n.isError := by
  rw [isError, isError, (sameShape_iff.mp h).1]

/-- They have the same shape still when both are marked. -/
theorem sameShape_withExtra {n m : Subtree} (h : n.sameShape m = true) (mark : Bool) :
    (n.withExtra mark).sameShape (m.withExtra mark) = true := by
  obtain ⟨hsymbol, hpadding, hsize, -, herror, hchildren⟩ := sameShape_iff.mp h
  exact sameShape_iff.mpr ⟨hsymbol, hpadding, hsize, rfl, herror, hchildren⟩

/-- A part that is marked as it is. -/
theorem withExtra_self (n : Subtree) : n.withExtra n.extra = n := by
  cases n
  rfl

/-- Errors that are tokens are joined alike. -/
theorem joinErrors?_sameShape {a b a' b' : Subtree} (ha : a.sameShape a' = true)
    (hb : b.sameShape b' = true) :
    Option.Rel (fun n m : Subtree => n.sameShape m = true) (a.joinErrors? b) (a'.joinErrors? b') := by
  obtain ⟨hsymbol, hpadding, hsize, hextra, herror, hchildren⟩ := sameShape_iff.mp ha
  obtain ⟨-, hpadding', hsize', -⟩ := sameShape_iff.mp hb
  rw [joinErrors?, joinErrors?, isError_of_sameShape ha, isError_of_sameShape hb,
    isLeaf_of_sameShape ha, isLeaf_of_sameShape hb, ← hpadding']
  split
  · refine .some (sameShape_iff.mpr ⟨hsymbol, hpadding, ?_, hextra, herror, hchildren⟩)
    exact congrArg₂ (· + ·) hsize hsize'
  · exact .none

/-- The state in which a token was found does not matter for its shape, and both are marked in the same
way. -/
theorem sameShape_leaf (token : Token) (state state' : StateId) (extra extra' mark : Bool) :
    ((leaf token state extra).withExtra mark).sameShape ((leaf token state' extra').withExtra mark) =
      true :=
  sameShape_iff.mpr ⟨rfl, rfl, rfl, rfl, rfl, .nil⟩

end Subtree

/-! ## Entries that follow each other -/

/-- Entries follow each other from one place to another. -/
def Consecutive (i k : Length) : List Entry → Prop
  | [] => i = k
  | e :: rest => e.position = i ∧ Consecutive e.finish k rest

/-- What entries cover together. -/
def totals : List Entry → Length
  | [] => .zero
  | e :: rest => e.node.total + totals rest

section Consecutive

variable {i j k : Length} {entries : List Entry}

/-- Entries in two rows follow each other if the second row begins where the first ends. -/
theorem consecutive_append {a b : List Entry} :
    Consecutive i k (a ++ b) ↔ ∃ j, Consecutive i j a ∧ Consecutive j k b := by
  induction a generalizing i with
  | nil => simp [Consecutive]
  | cons e rest ih => simp only [List.cons_append, Consecutive, ih, exists_and_left, and_assoc]

/-- The states of entries do not matter for where they stand. -/
theorem consecutive_map_state (state : StateId) (h : Consecutive i k entries) :
    Consecutive i k (entries.map fun e => { e with state }) := by
  induction entries generalizing i with
  | nil => exact h
  | cons e rest ih => exact ⟨h.1, ih h.2⟩

/-- Entries end where what they cover ends. -/
theorem Consecutive.eq_add (h : Consecutive i k entries) : k = i + totals entries := by
  induction entries generalizing i with
  | nil =>
    rw [totals, Length.add_zero]
    exact h.symm
  | cons e rest ih =>
    rw [ih h.2, Entry.finish, h.1, Length.add_assoc, totals]

/-- Where entries begin is where the first of them does. -/
theorem Consecutive.position (h : Consecutive i k entries) (fallback : Length)
    (hfallback : entries = [] → fallback = i) :
    ((entries.head?).map (·.position)).getD fallback = i := by
  cases entries with
  | nil => exact hfallback rfl
  | cons e rest => exact h.1

/-- Where they end is where the last of them does. -/
theorem Consecutive.finish (h : Consecutive i k entries) (fallback : Length)
    (hfallback : entries = [] → fallback = i) :
    ((entries.getLast?).map Entry.finish).getD fallback = k := by
  cases entries with
  | nil => exact (hfallback rfl).trans h
  | cons e rest =>
    -- the row is what comes before the last entry, and the last entry
    obtain ⟨front, hfront⟩ :=
      List.getLast?_eq_some_iff.mp (List.getLast?_eq_some_getLast (List.cons_ne_nil e rest))
    rw [List.getLast?_eq_some_getLast (List.cons_ne_nil e rest)]
    generalize (e :: rest).getLast (List.cons_ne_nil e rest) = last at hfront
    rw [hfront] at h
    obtain ⟨j, -, -, hend⟩ := consecutive_append.mp h
    exact hend

/-- The size of what is built of entries: all that they cover but the padding of the first. -/
def sizeOf : List Entry → Length
  | [] => .zero
  | e :: rest => e.node.size + totals rest

/-- The padding of the first entry and the size together are all that is covered. -/
theorem padding_add_sizeOf (entries : List Entry) :
    ((entries.head?).map (·.node.padding)).getD .zero + sizeOf entries = totals entries := by
  cases entries with
  | nil => exact Length.zero_add _
  | cons e rest => exact (Length.add_assoc ..).symm

/-- A node stands where its parts stood. -/
theorem consecutive_buildNode {t : Table} (around : Surroundings) (symbol : Symbol)
    (fields : List (Option FieldId)) (fallback : Length) (state : StateId)
    (h : Consecutive i k entries) (hfallback : entries = [] → fallback = i) :
    (buildNode t around symbol entries fields fallback state).2 = i ∧
      (buildNode t around symbol entries fields fallback state).1.size = sizeOf entries ∧
      i + (buildNode t around symbol entries fields fallback state).1.total = k := by
  have hposition := h.position fallback hfallback
  -- from the first entry's start to the last one's end, the padding taken off
  have hsize : (buildNode t around symbol entries fields fallback state).1.size = sizeOf entries := by
    change ((entries.getLast?).map Entry.finish).getD fallback -
      (((entries.head?).map (·.position)).getD fallback +
        ((entries.head?).map (·.node.padding)).getD .zero) = sizeOf entries
    rw [hposition, h.finish fallback hfallback, h.eq_add, ← padding_add_sizeOf, ← Length.add_assoc,
      Length.add_sub_cancel]
  refine ⟨hposition, hsize, ?_⟩
  rw [Subtree.total, hsize]
  change i + (((entries.head?).map (·.node.padding)).getD .zero + sizeOf entries) = k
  rw [padding_add_sizeOf, h.eq_add]

/-- Where nothing is among the parts, the node that is built of them stands where what comes after them
begins. -/
theorem consecutive_parts {mid parts trailing : List Entry}
    (h : Consecutive i k (mid ++ (parts ++ trailing))) :
    ∃ first last, Consecutive i first mid ∧ Consecutive first last parts ∧ Consecutive last k trailing ∧
      (parts = [] → ((trailing.head?).map (·.position)).getD k = first) := by
  obtain ⟨first, hmid, h⟩ := consecutive_append.mp h
  obtain ⟨last, hparts, htrailing⟩ := consecutive_append.mp h
  refine ⟨first, last, hmid, hparts, htrailing, fun hnil => ?_⟩
  rw [hnil] at hparts
  -- a rule without symbols stands where what trails it begins
  rw [htrailing.position k fun hnil => ?_]
  · exact hparts.symm
  · rw [hnil] at htrailing
    exact htrailing.symm

/-- What a reduction puts in the place of the parts of a production and of the extras above them. -/
def replacement (t : Table) (around : Surroundings) (p : Production) (parts trailing : List Entry)
    (finish : Length) (exposed : StateId) : Stack :=
  let fallback := ((trailing.head?).map (·.position)).getD finish
  let built := buildNode t around p.lhs parts p.fields fallback exposed
  let target := (t.goto? exposed p.lhs).getD exposed
  (trailing.map fun e => { e with state := target }).reverse ++ [⟨target, built.1, built.2⟩]

/-- What a reduction leaves stands where the parts and the extras above them stood. -/
theorem consecutive_replacement (t : Table) (around : Surroundings) (p : Production)
    {parts trailing : List Entry} {mid : Stack}
    (h : Consecutive i k (mid.reverse ++ (parts ++ trailing))) (exposed : StateId) :
    Consecutive i k (replacement t around p parts trailing k exposed ++ mid).reverse := by
  obtain ⟨first, last, hmid, hparts, htrailing, hempty⟩ := consecutive_parts h
  obtain ⟨hposition, -, hend⟩ := consecutive_buildNode (t := t) around p.lhs p.fields _ exposed hparts
    hempty
  rw [List.reverse_append, replacement, List.reverse_append, List.reverse_reverse, consecutive_append]
  refine ⟨first, hmid, hposition, ?_⟩
  rw [Entry.finish, hposition, hend]
  exact consecutive_map_state _ htrailing

/-- What the stack is after a reduction. -/
theorem Config.stack_reduce (t : Table) (c : Config) (token : Subtree) {p : Production}
    {parts trailing : List Entry} {rest : Stack}
    (h : c.stack.popChildren p.size = (parts, trailing, rest)) :
    (c.reduce t token p).stack =
      replacement t (c.surroundings token) p parts trailing c.position rest.state ++ rest := by
  rw [reduce, h, replacement, List.append_assoc]
  rfl

end Consecutive

/-! ## Entries of the same shapes -/

/-- Entries with the same state and of the same shape. -/
structure Entry.Twin (e e' : Entry) : Prop where
  state : e'.state = e.state
  shape : e.node.sameShape e'.node = true

section Twins

variable {entries entries' : List Entry}

/-- Twins are both extras or neither is. -/
theorem Entry.Twin.extra {e e' : Entry} (h : e.Twin e') : e'.node.extra = e.node.extra :=
  (Subtree.sameShape_iff.mp h.shape).2.2.2.1.symm

/-- Twins of entries that are put together can be taken apart. -/
theorem twins_append {a b s : List Entry} (h : List.Forall₂ Entry.Twin (a ++ b) s) :
    ∃ a' b', s = a' ++ b' ∧ List.Forall₂ Entry.Twin a a' ∧ List.Forall₂ Entry.Twin b b' := by
  induction a generalizing s with
  | nil => exact ⟨[], s, rfl, .nil, h⟩
  | cons e a ih =>
    cases h with
    | @cons _ e' _ s he h =>
      obtain ⟨a', b', rfl, ha, hb⟩ := ih h
      exact ⟨e' :: a', b', rfl, .cons he ha, hb⟩

/-- There are as many entries that are no extras among twins. -/
theorem count_twins (h : List.Forall₂ Entry.Twin entries entries') :
    (entries'.filter fun e => !e.node.extra).length = (entries.filter fun e => !e.node.extra).length := by
  induction h with
  | nil => rfl
  | cons he _ ih =>
    rw [List.filter_cons, List.filter_cons, he.extra]
    split <;> simp [ih]

/-- What the first of some entries is marked as. -/
theorem head_twins (h : List.Forall₂ Entry.Twin entries entries')
    (hfirst : ∀ e ∈ entries.head?, e.node.extra = false) :
    ∀ e ∈ entries'.head?, e.node.extra = false := by
  cases h with
  | nil => exact hfirst
  | cons he _ =>
    rintro e ⟨⟩
    exact he.extra.trans (hfirst _ rfl)

/-- Twins cover equally much. -/
theorem totals_twins (h : List.Forall₂ Entry.Twin entries entries') :
    totals entries' = totals entries := by
  induction h with
  | nil => rfl
  | cons he _ ih => rw [totals, totals, ih, Subtree.total_of_sameShape he.shape]

/-- What is built of twins has the same size. -/
theorem sizeOf_twins (h : List.Forall₂ Entry.Twin entries entries') :
    sizeOf entries' = sizeOf entries := by
  cases h with
  | nil => rfl
  | cons he hrest =>
    rw [sizeOf, sizeOf, totals_twins hrest, (Subtree.sameShape_iff.mp he.shape).2.2.1]

/-- An error is among both or among neither. -/
theorem hasError_twins (h : List.Forall₂ Entry.Twin entries entries') :
    entries'.any (·.node.hasError) = entries.any (·.node.hasError) := by
  induction h with
  | nil => rfl
  | cons he _ ih =>
    rw [List.any_cons, List.any_cons, ih, (Subtree.sameShape_iff.mp he.shape).2.2.2.2.1]

/-- What is built of twins has the same padding. -/
theorem padding_twins (h : List.Forall₂ Entry.Twin entries entries') :
    ((entries'.head?).map (·.node.padding)).getD Length.zero =
      ((entries.head?).map (·.node.padding)).getD Length.zero := by
  cases h with
  | nil => rfl
  | cons he _ => exact (Subtree.sameShape_iff.mp he.shape).2.1.symm

namespace Build

variable {t : Table}

/-- Twins get the same fields, as a field goes to what is no extra. -/
theorem withFields_twins (h : List.Forall₂ Entry.Twin entries entries')
    (fields : List (Option FieldId)) :
    List.Forall₂ (fun a b => a.1.Twin b.1 ∧ a.2 = b.2) (withFields entries fields)
      (withFields entries' fields) := by
  induction h generalizing fields with
  | nil => exact .nil
  | cons he _ ih =>
    rw [withFields, withFields, he.extra]
    split
    · exact .cons ⟨he, rfl⟩ (ih fields)
    · exact .cons ⟨he, rfl⟩ (ih fields.tail)

/-- Entries of the same shape stand for children of the same shapes. -/
theorem pieces_twins (parent : Symbol) {a b : Entry × Option FieldId} (h : a.1.Twin b.1)
    (hfield : a.2 = b.2) :
    List.Forall₂ Subtree.SameChild (pieces t parent a) (pieces t parent b) := by
  obtain ⟨hsymbol, -, -, hextra, -, hchildren⟩ := Subtree.sameShape_iff.mp h.shape
  -- whether an entry is spliced depends only on what like nodes share
  have hspliced : isSpliced t parent b.1.node = isSpliced t parent a.1.node := by
    rw [isSpliced, isSpliced, Subtree.isLeaf_of_sameShape h.shape, Subtree.isError_of_sameShape h.shape,
      hsymbol, hextra]
  unfold pieces
  dsimp only
  rw [hspliced]
  split
  · rw [List.forall₂_map_left_iff, List.forall₂_map_right_iff]
    exact hchildren.imp fun c d hcd => ⟨by rw [hcd.1, hfield], hcd.2⟩
  · exact .cons ⟨hfield, h.shape⟩ .nil

/-- Children of the same shapes are put behind each other alike, or joined. -/
theorem addChild_sameChild (parent : Symbol) {before before' : List (Subtree × Option FieldId)}
    (h : List.Forall₂ Subtree.SameChild before before') {c d : Subtree × Option FieldId}
    (hchild : Subtree.SameChild c d) :
    List.Forall₂ Subtree.SameChild (addChild parent before c) (addChild parent before' d) := by
  cases h with
  | nil => exact .cons hchild .nil
  | @cons last last' rest rest' hlast hrest =>
    obtain ⟨n, field⟩ := last
    obtain ⟨n', field'⟩ := last'
    obtain ⟨rfl, hshape⟩ : field = field' ∧ n.sameShape n' = true := hlast
    -- whether two errors are joined depends on their shapes only
    have hkept : Subtree.SameChild (n, field) (n', field) := ⟨rfl, hshape⟩
    rw [addChild, addChild, ← hchild.1]
    split
    · have hjoined := Subtree.joinErrors?_sameShape hshape hchild.2
      generalize n.joinErrors? c.1 = joined at hjoined
      generalize n'.joinErrors? d.1 = joined' at hjoined
      cases hjoined with
      | none => exact .cons hchild (.cons hkept hrest)
      | @some m m' hjoined =>
        -- the joined child keeps the field of the first
        have hchanged : Subtree.SameChild (m, field) (m', field) := ⟨rfl, hjoined⟩
        exact .cons hchanged hrest
    · exact .cons hchild (.cons hkept hrest)

/-- Twins leave children of the same shapes, whether they are spliced, joined or taken as they are. -/
theorem children_twins (parent : Symbol) (h : List.Forall₂ Entry.Twin entries entries')
    (fields : List (Option FieldId)) :
    List.Forall₂ Subtree.SameChild (children t parent entries fields)
      (children t parent entries' fields) := by
  have hadd : Relator.LiftFun (List.Forall₂ Subtree.SameChild) (Relator.LiftFun Subtree.SameChild
      (List.Forall₂ Subtree.SameChild)) (addChild parent) (addChild parent) :=
    fun _ _ hbefore _ _ => addChild_sameChild parent hbefore
  exact List.rel_reverse (List.rel_foldl hadd .nil
    (List.rel_flatMap (withFields_twins h fields) fun _ _ hab => pieces_twins parent hab.1 hab.2))

end Build

/-- Parts of the same shapes build nodes of the same shape, wherever they stand and whatever comes
after them. -/
theorem sameShape_buildNode {t : Table} (symbol : Symbol) {around around' : Surroundings}
    {fields : List (Option FieldId)} {i k i' k' : Length} {fallback fallback' : Length}
    {state state' : StateId}
    (h : List.Forall₂ Entry.Twin entries entries') (hrow : Consecutive i k entries)
    (hrow' : Consecutive i' k' entries') (hfallback : entries = [] → fallback = i)
    (hfallback' : entries' = [] → fallback' = i') :
    (buildNode t around symbol entries fields fallback state).1.sameShape
      (buildNode t around' symbol entries' fields fallback' state').1 = true := by
  rw [Subtree.sameShape_iff, (consecutive_buildNode _ _ _ _ _ hrow hfallback).2.1,
    (consecutive_buildNode _ _ _ _ _ hrow' hfallback').2.1]
  -- padding, size and marks are sums over the entries, which are twins
  exact ⟨rfl, (padding_twins h).symm, (sizeOf_twins h).symm, rfl,
    congrArg (symbol == Symbol.error || ·) (hasError_twins h).symm,
    Build.children_twins symbol h fields⟩

/-- Twins are replaced by twins. -/
theorem twins_replacement {t : Table} {p : Production} {around around' : Surroundings}
    {parts trailing parts' trailing' mid mid' : List Entry} {i k i' k' : Length}
    (hparts : List.Forall₂ Entry.Twin parts parts')
    (htrailing : List.Forall₂ Entry.Twin trailing trailing')
    (hrow : Consecutive i k (mid ++ (parts ++ trailing)))
    (hrow' : Consecutive i' k' (mid' ++ (parts' ++ trailing'))) (exposed : StateId) :
    List.Forall₂ Entry.Twin (replacement t around p parts trailing k exposed)
      (replacement t around' p parts' trailing' k' exposed) := by
  -- each side finds its own row, and the shapes agree
  obtain ⟨first, last, -, hfirst, -, hempty⟩ := consecutive_parts hrow
  obtain ⟨first', last', -, hfirst', -, hempty'⟩ := consecutive_parts hrow'
  refine List.rel_append (List.rel_reverse ?_)
    (.cons ⟨rfl, sameShape_buildNode p.lhs hparts hfirst hfirst' hempty hempty'⟩ .nil)
  rw [List.forall₂_map_left_iff, List.forall₂_map_right_iff]
  exact htrailing.imp fun _ _ htwin => ⟨rfl, htwin.shape⟩

end Twins

/-! ## Taking parts off -/

namespace Stack

/-- A stack taken apart for a production: its parts begin and end with an entry that is no extra, as
many of them as there are to be are none, and the entries above them are. -/
structure Parted (count : Nat) (parts trailing : List Entry) (rest : Stack) : Prop where
  trailing : ∀ e ∈ trailing, e.node.extra = true
  first : ∀ e ∈ parts.head?, e.node.extra = false
  last : ∀ e ∈ (parts.reverse ++ rest).head?, e.node.extra = false
  count : (parts.filter fun e => !e.node.extra).length = count

/-- A stack with twins on top is taken apart alike, if there is more on top than extras. -/
theorem Parted.twins {count : Nat} {parts trailing parts' trailing' : List Entry} {mid mid' : Stack}
    (h : Parted count parts trailing mid) (hne : parts.reverse ++ mid ≠ [])
    (hparts : List.Forall₂ Entry.Twin parts parts')
    (htrailing : List.Forall₂ Entry.Twin trailing trailing')
    (hmid : List.Forall₂ Entry.Twin mid mid') (rest : Stack) :
    Parted count parts' trailing' (mid' ++ rest) := by
  -- the lists are as long as each other, so the entries at each place are twins
  have htop : List.Forall₂ Entry.Twin (parts.reverse ++ mid) (parts'.reverse ++ mid') :=
    List.rel_append (List.rel_reverse hparts) hmid
  refine ⟨fun e he => ?_, head_twins hparts h.first, fun e he => head_twins htop h.last e ?_,
    (count_twins hparts).trans h.count⟩
  · obtain ⟨e', he', htwin⟩ := Subtree.exists_of_mem_forall₂ (List.Forall₂.flip htrailing) he
    exact htwin.extra.trans (h.trailing e' he')
  · have hne' : parts'.reverse ++ mid' ≠ [] := fun hnil => hne (by
      rw [hnil] at htop
      exact List.forall₂_nil_right_iff.mp htop)
    rwa [← List.append_assoc, List.head?_append_of_ne_nil _ hne'] at he

/-- What lies further below does not matter, if there is more on top than extras. -/
theorem Parted.below {count : Nat} {parts trailing : List Entry} {mid rest : Stack}
    (h : Parted count parts trailing (mid ++ rest)) (hne : parts.reverse ++ mid ≠ []) :
    Parted count parts trailing mid := by
  refine ⟨h.trailing, h.first, fun e he => h.last e ?_, h.count⟩
  rwa [← List.append_assoc, List.head?_append_of_ne_nil _ hne]

/-- Entries of which the lowest is no extra are taken off together. -/
theorem popRegular_append {count : Nat} {s : List Entry}
    (hlast : ∀ e ∈ s.getLast?, e.node.extra = false)
    (hcount : (s.filter fun e => !e.node.extra).length = count) (taken : List Entry) (rest : Stack) :
    popRegular count taken (s ++ rest) = (s.reverse ++ taken, rest) := by
  -- the induction is on what is taken off, the topmost entry first
  induction s generalizing count taken with
  | nil =>
    subst hcount
    cases rest <;> rfl
  | cons e s ih =>
    have hlast' : ∀ e' ∈ s.getLast?, e'.node.extra = false := fun e' he' =>
      hlast e' (by rw [List.getLast?_cons, Option.mem_def.mp he']; rfl)
    rw [List.reverse_cons, List.append_assoc, List.singleton_append]
    cases he : e.node.extra with
    | false =>
      rw [List.filter_cons_of_pos (by simp [he]), List.length_cons] at hcount
      subst hcount
      rw [List.cons_append, popRegular, if_neg (by simp [he]), ih hlast' rfl]
    | true =>
      rw [List.filter_cons_of_neg (by simp [he])] at hcount
      -- an extra is not the lowest part, so that there are parts to come
      obtain ⟨last, hs⟩ : ∃ last, s.getLast? = some last := by
        cases hs : s.getLast? with
        | none =>
          rw [List.getLast?_eq_none_iff] at hs
          subst hs
          exact absurd (hlast e rfl) (by simp [he])
        | some last => exact ⟨last, rfl⟩
      have hmem : last ∈ s.filter fun e => !e.node.extra :=
        List.mem_filter.mpr ⟨List.mem_of_getLast? hs, by simp [hlast' last hs]⟩
      obtain ⟨n, rfl⟩ : ∃ n, count = n + 1 :=
        Nat.exists_eq_succ_of_ne_zero (hcount ▸ Nat.ne_of_gt (List.length_pos_of_mem hmem))
      rw [List.cons_append, popRegular, if_pos he, ih hlast' hcount]

/-- The parts of a production are taken off whatever is below them. -/
theorem popChildren_append {count : Nat} {parts trailing : List Entry} {rest : Stack}
    (h : Parted count parts trailing rest) :
    popChildren count (trailing.reverse ++ (parts.reverse ++ rest)) = (parts, trailing, rest) := by
  have hextra : ∀ e ∈ trailing.reverse, (e.node.extra : Prop) := fun e he =>
    h.trailing e (List.mem_reverse.mp he)
  -- the entry below the extras is none, so that they end there
  have hstop : List.takeWhile (fun e : Entry => e.node.extra) (parts.reverse ++ rest) = [] ∧
      List.dropWhile (fun e : Entry => e.node.extra) (parts.reverse ++ rest) =
        parts.reverse ++ rest := by
    have hlast := h.last
    cases hs : parts.reverse ++ rest with
    | nil => exact ⟨rfl, rfl⟩
    | cons e s =>
      have he := hlast e (by rw [hs]; rfl)
      exact ⟨List.takeWhile_cons_of_neg (by simp [he]), List.dropWhile_cons_of_neg (by simp [he])⟩
  rw [popChildren, List.takeWhile_append_of_pos hextra, List.dropWhile_append_of_pos hextra, hstop.1,
    hstop.2, popRegular_append (fun e he => h.first e (by rwa [List.getLast?_reverse] at he))
      (by rw [List.filter_reverse, List.length_reverse, h.count])]
  simp

/-- The lowest part that is taken off is no extra, if there were enough of those that are none. -/
theorem popRegular_first {count : Nat} {taken s parts : List Entry} {rest : Stack}
    (h : popRegular count taken s = (parts, rest)) :
    ∃ new, parts = new ++ taken ∧ s = new.reverse ++ rest ∧
      ((new.filter fun e => !e.node.extra).length = count →
        ∀ e ∈ new.head?, e.node.extra = false) := by
  -- the induction follows the way the entries are taken off
  fun_induction popRegular count taken s with
  | case1 =>
    cases h
    exact ⟨[], rfl, rfl, fun _ _ h => by cases h⟩
  | case2 =>
    cases h
    exact ⟨[], rfl, rfl, fun _ _ h => by cases h⟩
  | case3 count taken e s he ih =>
    obtain ⟨new, rfl, rfl, hfirst⟩ := ih h
    -- an extra does not count, so the lowest part is among the others
    refine ⟨new ++ [e], by simp, by simp, fun hcount => ?_⟩
    rw [List.filter_append, List.filter_cons_of_neg (by simp [he]), List.filter_nil,
      List.append_nil] at hcount
    cases new with
    | nil => cases hcount
    | cons first new => exact hfirst hcount
  -- the entry that is counted last is no extra itself
  | case4 count taken e s he ih =>
    obtain ⟨new, rfl, rfl, hfirst⟩ := ih h
    refine ⟨new ++ [e], by simp, by simp, fun hcount => ?_⟩
    rw [List.filter_append, List.filter_cons_of_pos (by simpa using he), List.filter_nil,
      List.length_append, List.length_singleton, Nat.succ_inj] at hcount
    cases new with
    | nil =>
      rintro e' ⟨⟩
      simpa using he
    | cons first new => exact hfirst hcount

/-- Where a stack has all the parts of a production, it is taken apart for it. -/
theorem parted_of_popChildren {count : Nat} {s : Stack} {parts trailing : List Entry} {rest : Stack}
    (h : s.popChildren count = (parts, trailing, rest))
    (hcount : (parts.filter fun e => !e.node.extra).length = count) :
    s = trailing.reverse ++ (parts.reverse ++ rest) ∧ Parted count parts trailing rest := by
  rw [popChildren] at h
  generalize hpop : popRegular count [] (s.dropWhile fun e => e.node.extra) = popped at h
  obtain ⟨parts', rest'⟩ := popped
  cases h
  obtain ⟨new, hparts, hdrop, hfirst⟩ := popRegular_first hpop
  rw [List.append_nil] at hparts
  subst hparts
  refine ⟨?_, fun e he => ?_, hfirst hcount, ?_, hcount⟩
  · rw [List.reverse_reverse, ← hdrop, List.takeWhile_append_dropWhile]
  · have hextra := List.mem_takeWhile_imp (List.mem_reverse.mp he)
    exact hextra
  -- what is left after the extras were taken off begins with something else
  · rw [← hdrop]
    intro e he
    have := List.head?_dropWhile_not (fun e : Entry => e.node.extra) s
    rw [Option.mem_def.mp he] at this
    simpa using this

end Stack

end IncrementalParsing
