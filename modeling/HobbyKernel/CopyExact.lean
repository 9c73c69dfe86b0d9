import HobbyKernel.CopyProofs

/-! `vmm_copy_address_space` copies exactly. The four loops scan tables the copy
never writes, so they are one loop over the parent's present leaf entries; after
any part of it the child maps the leaves done so far, each to a frame of its own
with the parent page's contents, and nothing else. -/
namespace HobbyKernel.CopyExact
open AddressBits PageAllocProofs WalkProofs CopyProofs Radix

/-- A present leaf entry of the lower half and the indices that lead to it. -/
structure Leaf where
  i4 : Index
  i3 : Index
  i2 : Index
  i1 : Index
  pte : PageTableEntry

def Leaf.tables (leaf : Leaf) : List Index := [leaf.i4, leaf.i3, leaf.i2]

def Leaf.vaddr (leaf : Leaf) : U64 := composeVaddr leaf.i4 leaf.i3 leaf.i2 leaf.i1

/-- What is found below the present entries of a table. -/
def presentBelow (mem : PhysMem) (t : Frame) (indices : List Index)
    (below : Index → PageTableEntry → List α) : List α :=
  indices.flatMap fun i => if present (mem t i) then below i (mem t i) else []

/-- The present leaf entries of the lower half, in the order of the scan. -/
def lowerLeaves (mem : PhysMem) (parent : Frame) : List Leaf :=
  presentBelow mem parent lowerIndices fun i4 e4 =>
    presentBelow mem (tableOf e4) allIndices fun i3 e3 =>
      presentBelow mem (tableOf e3) allIndices fun i2 e2 =>
        presentBelow mem (tableOf e2) allIndices fun i1 pte => [⟨i4, i3, i2, i1, pte⟩]

/-- How many frames a copy takes: the top-level table, one page for each leaf,
and the distinct tables on the way to the leaves. -/
def framesNeeded (mem : PhysMem) (parent : Frame) : Nat :=
  1 + (lowerLeaves mem parent).length +
    ((lowerLeaves mem parent).flatMap fun leaf => tablePrefixes leaf.vaddr).dedup.length

def copyLeaf (child : Frame) (leaf : Leaf) (s : Phys) : Phys × Bool := copyPage child leaf.vaddr leaf.pte s

/-- No table or page of the parent's lower half is on the free list. -/
def Unfree (mem : PhysMem) (parent : Frame) (free : List Nat) : Prop :=
  ∀ path f, path.length ≤ 4 → (layout Lower).Admitted path →
    follow (layout Lower) mem parent path = some f → f ∉ free

variable {upper : Index → U64} {parent child : Frame} {s₀ s s' : Phys} {free₀ rest : List Nat} {mem : PhysMem}

theorem mem_presentBelow {t : Frame} {indices : List Index} {below : Index → PageTableEntry → List α} {a : α} :
    a ∈ presentBelow mem t indices below ↔
      ∃ i ∈ indices, present (mem t i) = true ∧ a ∈ below i (mem t i) := by
  simp only [presentBelow, List.mem_flatMap]
  refine exists_congr (fun i => and_congr_right (fun _ => ?_))
  cases present (mem t i) <;> simp

/-- The scan lists exactly the present leaf entries. -/
theorem mem_lowerLeaves {leaf : Leaf} : leaf ∈ lowerLeaves mem parent ↔
    Lower leaf.i4 ∧ entry (layout Lower) mem parent leaf.tables leaf.i1 = leaf.pte ∧ present leaf.pte = true := by
  have absent : present 0#64 = false := by decide
  obtain ⟨i4, i3, i2, i1, pte⟩ := leaf
  simp only [lowerLeaves, mem_presentBelow, mem_lowerIndices, allIndices, List.mem_finRange, true_and,
    List.mem_singleton, Leaf.mk.injEq, Leaf.tables, entry, follow, layout_dec]
  constructor
  · rintro ⟨_, lower, p4, _, p3, _, p2, _, p1, rfl, rfl, rfl, rfl, rfl⟩
    simp [lower, p4, p3, p2, p1]
  · rintro ⟨lower, value, isPresent⟩
    cases p4 : present (mem parent i4) with
    | false => simp [p4] at value; subst value; rw [layout] at isPresent; simp [absent] at isPresent
    | true =>
      simp only [p4, if_true] at value
      cases p3 : present (mem (tableOf (mem parent i4)) i3) with
      | false => simp [p3] at value; subst value; rw [layout] at isPresent; simp [absent] at isPresent
      | true =>
        simp only [p3, if_true] at value
        cases p2 : present (mem (tableOf (mem (tableOf (mem parent i4)) i3)) i2) with
        | false => simp [p2] at value; subst value; rw [layout] at isPresent; simp [absent] at isPresent
        | true =>
          simp only [p2, if_true] at value
          subst value
          exact ⟨i4, lower, p4, i3, p3, i2, p2, i1, isPresent, rfl, rfl, rfl, rfl, rfl⟩

theorem Leaf.path_vaddr (leaf : Leaf) : tablePath leaf.vaddr = leaf.tables ∧ leafIndex leaf.vaddr = leaf.i1 :=
  path_composeVaddr leaf.i4 leaf.i3 leaf.i2 leaf.i1

/-- A scan of a table that stays as it is visits what is below its entries. -/
theorem scan_eq (inv : Phys → Prop) {t : Frame} {indices : List Index}
    {scan : Index → PageTableEntry → Phys → Phys × Bool} {body : α → Phys → Phys × Bool}
    {below : Index → PageTableEntry → List α} (start : inv s) (stable : ∀ s, inv s → s.mem t = mem t)
    (keep : ∀ a ∈ presentBelow mem t indices below, ∀ s, inv s → inv (body a s).1)
    (inner : ∀ i ∈ indices, present (mem t i) = true → ∀ s, inv s →
      scan i (mem t i) s = Loop.forEach body (below i (mem t i)) s) :
    Loop.forEach (scanTable t scan) indices s = Loop.forEach body (presentBelow mem t indices below) s := by
  rw [presentBelow, ← Loop.forEach_flatMap]
  apply Loop.forEach_congr inv start
  · intro i member s held
    refine Loop.forEach_invariant inv held (fun a inside => keep a ?_)
    rw [presentBelow, List.mem_flatMap]
    exact ⟨i, member, inside⟩
  · intro i member s held
    rw [scanTable, stable s held]
    cases isPresent : present (mem t i) with
    | false => rfl
    | true => exact inner i member isPresent s held

theorem tableOf_present {t : Frame} {i : Index} (isPresent : present (mem t i) = true) :
    (layout Lower).dec (mem t i) = some (tableOf (mem t i)) := by
  rw [layout_dec, isPresent]
  rfl

/-- The nested loops are one loop over the leaves of the parent. -/
theorem copyLower_eq (building : Building upper s₀ free₀ child s rest) (unfree : Unfree s₀.mem parent free₀) :
    copyLower parent child s = Loop.forEach (copyLeaf child) (lowerLeaves s₀.mem parent) s := by
  let inv (s : Phys) : Prop := ∃ rest, Building upper s₀ free₀ child s rest
  have stable : ∀ path t, path.length ≤ 4 → (layout Lower).Admitted path →
      follow (layout Lower) s₀.mem parent path = some t → ∀ s, inv s → s.mem t = s₀.mem t := by
    rintro path t short admitted reached s ⟨_, building⟩
    exact building.outside t (unfree path t short admitted reached)
  have keep : ∀ leaf : Leaf, Lower leaf.i4 → ∀ s, inv s → inv (copyLeaf child leaf s).1 := by
    rintro leaf lower s ⟨_, building⟩
    exact copyPage_building building (lower_composeVaddr lower _ _ _)
  have lowerHead : ∀ {i4 : Index} (path : List Index), Lower i4 → (layout Lower).Admitted (i4 :: path) := by
    intro i4 path lower i first
    cases first
    exact lower
  refine scan_eq inv ⟨rest, building⟩ (stable [] parent (by simp) (by simp [Layout.Admitted]) rfl)
    (fun leaf member => keep leaf (mem_lowerLeaves.mp member).1) (fun i4 first p4 s held => ?_)
  have lower := mem_lowerIndices.mp first
  have t4 := tableOf_present p4
  refine scan_eq inv held (stable [i4] _ (by simp) (lowerHead _ lower) (by simp [follow, t4]))
    (fun leaf member => keep leaf ?_) (fun i3 _ p3 s held => ?_)
  · simp only [mem_presentBelow, List.mem_singleton] at member
    obtain ⟨_, _, _, _, _, _, _, _, _, rfl⟩ := member
    exact lower
  have t3 := tableOf_present p3
  refine scan_eq inv held (stable [i4, i3] _ (by simp) (lowerHead _ lower) (by simp [follow, t4, t3]))
    (fun leaf member => keep leaf ?_) (fun i2 _ p2 s held => ?_)
  · simp only [mem_presentBelow, List.mem_singleton] at member
    obtain ⟨_, _, _, _, _, _, rfl⟩ := member
    exact lower
  have t2 := tableOf_present p2
  refine scan_eq inv held
    (stable [i4, i3, i2] _ (by simp) (lowerHead _ lower) (by simp [follow, t4, t3, t2]))
    (fun leaf member => keep leaf ?_) (fun i1 _ _ s _ => ?_)
  · simp only [mem_presentBelow, List.mem_singleton] at member
    obtain ⟨_, _, _, rfl⟩ := member
    exact lower
  · exact (Loop.forEach_single _).symm

/-- The child after some of the parent's leaves were copied. -/
structure Copied (upper : Index → U64) (s₀ : Phys) (free₀ : List Nat) (child : Frame) (done : List Leaf)
    (s : Phys) (rest : List Nat) : Prop extends Building upper s₀ free₀ child s rest where
  copied : ∀ leaf ∈ done, ∃ pp ∈ free₀, s.mem pp = s₀.mem (tableOf leaf.pte) ∧
    entry (layout Lower) s.mem child leaf.tables leaf.i1 = pteMake (page2pa pp) (leaf.pte &&& 0xFFF)
  absent : ∀ path i, (layout Lower).Admitted path → path.length = 3 →
    (∀ leaf ∈ done, ¬ (leaf.tables = path ∧ leaf.i1 = i)) → entry (layout Lower) s.mem child path i = 0

theorem present_low_flags (pte : PageTableEntry) : present (pte &&& 0xFFF) = present pte := by
  rw [present_eq, present_eq, BitVec.getLsbD_and]
  simp

theorem admitted_tables {leaf : Leaf} (lower : Lower leaf.i4) : (layout Lower).Admitted leaf.tables := by
  intro i first
  cases first
  exact lower

/-- The page of a copied leaf is a node of the child. -/
theorem page_node {leaf : Leaf} {pp : Nat} (lower : Lower leaf.i4) (isPresent : present leaf.pte = true)
    (small : pp < 2 ^ 40)
    (value : entry (layout Lower) mem child leaf.tables leaf.i1 = pteMake (page2pa pp) (leaf.pte &&& 0xFFF)) :
    Node (layout Lower) mem (alone child) 4 () (leaf.tables ++ [leaf.i1]) pp := by
  refine ⟨by simp [Leaf.tables], ?_, child, rfl, ?_⟩
  · intro i first
    cases first
    exact lower
  · rw [follow_entry, value, layout_dec, present_make, present_low_flags, isPresent,
      tableOf_make_page (low_flags_plain _) small]
    rfl

/-- The tables of the child that the leaves still to be copied need. -/
def tablesNeeded (mem : PhysMem) (child : Frame) (todo : List Leaf) : Finset (List Index) :=
  (todo.flatMap fun leaf => tablePrefixes leaf.vaddr).toFinset.filter
    fun q => follow (layout Lower) mem child q = none

theorem missing_eq (mem : PhysMem) (child : Frame) (leaf : Leaf) :
    missing mem child (tablePrefixes leaf.vaddr) = (tablesNeeded mem child [leaf]).card := by
  rw [missing_eq_card Lower mem child (tablePrefixes_nodup leaf.vaddr), tablesNeeded, List.flatMap_singleton]

theorem tablesNeeded_subset (mem : PhysMem) (child : Frame) (leaf : Leaf) (todo : List Leaf) :
    tablesNeeded mem child [leaf] ⊆ tablesNeeded mem child (leaf :: todo) := by
  apply Finset.filter_subset_filter
  intro q member
  simp only [List.flatMap_cons, List.flatMap_nil, List.append_nil, List.mem_toFinset, List.mem_append] at member ⊢
  exact .inl member

/-- The tables on the way to a lower-half leaf are positions of the lower half. -/
theorem admitted_initial {leaf : Leaf} (lower : Lower leaf.i4) {q : List Index}
    (member : q ∈ tablePrefixes leaf.vaddr) : (layout Lower).Admitted q ∧ q.length ≤ 3 := by
  obtain ⟨⟨after, whole⟩, _⟩ := prefix_of_extension member
  rw [List.nil_append, leaf.path_vaddr.1] at whole
  have length := congrArg List.length whole
  rw [List.length_append, show leaf.tables.length = 3 from rfl] at length
  exact ⟨admitted_of_append (whole ▸ admitted_tables lower), by omega⟩

/-- Taking the tables of the first leaf off the tables needed. -/
theorem tablesNeeded_cons {mem' : PhysMem} {leaf : Leaf} {todo : List Leaf}
    (lower : ∀ leaf' ∈ todo, Lower leaf'.i4)
    (tables : ∀ q, (layout Lower).Admitted q → q.length ≤ 3 →
      (follow (layout Lower) mem' child q = none ↔
        follow (layout Lower) mem child q = none ∧ q ∉ tablePrefixes leaf.vaddr)) :
    missing mem child (tablePrefixes leaf.vaddr) + (tablesNeeded mem' child todo).card ≤
      (tablesNeeded mem child (leaf :: todo)).card := by
  have later : ∀ q ∈ tablesNeeded mem' child todo, q ∉ tablePrefixes leaf.vaddr ∧
      q ∈ tablesNeeded mem child (leaf :: todo) := by
    intro q member
    simp only [tablesNeeded, Finset.mem_filter, List.mem_toFinset, List.flatMap_cons, List.mem_append,
      List.mem_flatMap] at member ⊢
    obtain ⟨⟨leaf', inTodo, inside⟩, gone⟩ := member
    obtain ⟨admitted, short⟩ := admitted_initial (lower leaf' inTodo) inside
    obtain ⟨wasGone, other⟩ := (tables q admitted short).mp gone
    exact ⟨other, .inr ⟨leaf', inTodo, inside⟩, wasGone⟩
  have apart : Disjoint (tablesNeeded mem child [leaf]) (tablesNeeded mem' child todo) := by
    rw [Finset.disjoint_left]
    intro q here member
    simp only [tablesNeeded, Finset.mem_filter, List.mem_toFinset, List.flatMap_cons, List.flatMap_nil,
      List.append_nil] at here
    exact (later q member).1 here.1
  rw [missing_eq, ← Finset.card_union_of_disjoint apart]
  exact Finset.card_le_card (Finset.union_subset (tablesNeeded_subset mem child leaf todo)
    (fun q member => (later q member).2))

theorem tablesNeeded_congr {mem' : PhysMem} {todo : List Leaf} (lower : ∀ leaf ∈ todo, Lower leaf.i4)
    (same : ∀ q, (layout Lower).Admitted q → q.length ≤ 3 →
      follow (layout Lower) mem' child q = follow (layout Lower) mem child q) :
    tablesNeeded mem' child todo = tablesNeeded mem child todo := by
  apply Finset.filter_congr
  intro q member
  simp only [List.mem_toFinset, List.mem_flatMap] at member
  obtain ⟨leaf, inTodo, inside⟩ := member
  obtain ⟨admitted, short⟩ := admitted_initial (lower leaf inTodo) inside
  rw [same q admitted short]

/-- A leaf of the parent is determined by where it stands. -/
theorem leaf_unique {leaf leaf' : Leaf} (known : leaf ∈ lowerLeaves mem parent)
    (known' : leaf' ∈ lowerLeaves mem parent) (tables : leaf'.tables = leaf.tables) (index : leaf'.i1 = leaf.i1) :
    leaf'.pte = leaf.pte := by
  rw [← (mem_lowerLeaves.mp known).2.1, ← (mem_lowerLeaves.mp known').2.1, tables, index]

/-- One leaf is copied as soon as there are frames for its page and its tables. -/
theorem copyLeaf_copied {done todo : List Leaf} {leaf : Leaf} (unfree : Unfree s₀.mem parent free₀)
    (small₀ : ∀ pp ∈ free₀, pp < 2 ^ 40)
    (known : ∀ l ∈ done ++ leaf :: todo, l ∈ lowerLeaves s₀.mem parent)
    (before : Copied upper s₀ free₀ child done s rest)
    (enough : (leaf :: todo).length + (tablesNeeded s.mem child (leaf :: todo)).card ≤ rest.length) :
    ∃ s' rest', copyLeaf child leaf s = (s', true) ∧ Copied upper s₀ free₀ child (done ++ [leaf]) s' rest' ∧
      todo.length + (tablesNeeded s'.mem child todo).card ≤ rest'.length := by
  have knownLeaf : leaf ∈ lowerLeaves s₀.mem parent := known leaf (by simp)
  obtain ⟨lower, value, isPresent⟩ := mem_lowerLeaves.mp knownLeaf
  have lowerAll : ∀ l ∈ leaf :: todo, Lower l.i4 := fun l member =>
    (mem_lowerLeaves.mp (known l (List.mem_append_right _ member))).1
  rcases pageAlloc_cases before.list 0#32 with ⟨empty, _⟩ | ⟨pp, left, s₁, rfl, took, list₁, sameMem⟩
  · rw [empty] at enough
    simp at enough
  have small : pp < 2 ^ 40 := before.list.small pp List.mem_cons_self
  have fresh : pp ∉ left := (List.nodup_cons.mp before.list.nodup).1
  have untouched : s₁.mem = s.mem := sameMem
  -- The source page is none of the frames taken so far, so it still has its old contents.
  have source : s.mem (tableOf leaf.pte) = s₀.mem (tableOf leaf.pte) := by
    refine before.outside _ (unfree (leaf.tables ++ [leaf.i1]) _ (by simp [Leaf.tables]) ?_ ?_)
    · intro i first
      cases first
      exact lower
    · rw [follow_entry, value, layout_dec, isPresent]
      rfl
  obtain ⟨s₂, s₂Eq⟩ : ∃ s₂, s₂ = s₁.copyFrame (frameOf (page2pa pp)) (frameOf (pteGetAddr leaf.pte)) := ⟨_, rfl⟩
  have filled : s₂.mem pp = s₀.mem (tableOf leaf.pte) := by
    rw [← source, s₂Eq]
    funext i
    simp [Phys.copyFrame, frameOf_page2pa small, untouched, tableOf]
  have elsewhere : ∀ f, f ≠ pp → s₂.mem f = s.mem f := by
    intro f other
    rw [s₂Eq]
    funext i
    simp [Phys.copyFrame, frameOf_page2pa small, other, untouched]
  have list₂ : FreeList s₂ left := by
    rw [s₂Eq]
    exact list₁.mem_congr _
  have tables : ∀ path t, Node (layout Lower) s.mem (alone child) 3 () path t → s₂.mem t = s.mem t := by
    intro path t node
    refine elsewhere t (fun isPp => before.exclusive.node_unfree (node.mono (by decide)) ?_)
    exact isPp ▸ List.mem_cons_self
  have exclusive := before.exclusive.frame (fun _ => tables)
  have exclusive₃ : Exclusive (layout Lower) s₂.mem (alone child) 3 (Outside free₀) left :=
    (exclusive.mono (by decide)).subset (fun f member => List.mem_cons_of_mem _ member)
  have lowerVaddr : Lower (subscript (pml4Index leaf.vaddr)) := lower_composeVaddr lower _ _ _
  have follows : ∀ q, (layout Lower).Admitted q → q.length ≤ 3 →
      follow (layout Lower) s₂.mem child q = follow (layout Lower) s.mem child q :=
    fun q admitted short => follow_frame (rfl : alone child () = some child) admitted (Nat.le_succ_of_le short) tables
  rw [← tablesNeeded_congr lowerAll follows] at enough
  have room : missing s₂.mem child (tablePrefixes leaf.vaddr) ≤ left.length := by
    have part := Finset.card_le_card (tablesNeeded_subset s₂.mem child leaf todo)
    rw [missing_eq]
    simp only [List.length_cons] at enough
    omega
  obtain ⟨found, rest', list', used, added⟩ := vmmMap_tables (k := ()) leaf.vaddr (page2pa pp)
    (leaf.pte &&& 0xFFF) list₂ exclusive₃ rfl lowerVaddr room
  obtain ⟨taken, rest'', split, grows, _, mapped⟩ := vmmMap_grows (k := ()) leaf.vaddr (page2pa pp)
    (leaf.pte &&& 0xFFF) list₂ exclusive₃ rfl lowerVaddr
  obtain ⟨_, rest₃, _, building⟩ := before.toBuilding.map list₂ elsewhere (low_flags_plain leaf.pte) lowerVaddr
  have ran : copyLeaf child leaf s = (vmmMap s₂ child leaf.vaddr (page2pa pp) (leaf.pte &&& 0xFFF), true) := by
    rw [copyLeaf, copyPage, took, s₂Eq]
  generalize vmmMap s₂ child leaf.vaddr (page2pa pp) (leaf.pte &&& 0xFFF) = s₃ at *
  cases building.list.unique list'
  have mapped := fun path i admitted length => mapped found () child path i rfl admitted length
  simp only [leaf.path_vaddr.1, leaf.path_vaddr.2, true_and] at mapped
  have entries : ∀ path i, (layout Lower).Admitted path → path.length = 3 →
      entry (layout Lower) s₂.mem child path i = entry (layout Lower) s.mem child path i :=
    fun path i admitted length => entry_frame (rfl : alone child () = some child) admitted (Nat.le_of_eq length) tables
  -- A page that is no table of the child and not free keeps its contents.
  have pages : ∀ f, f ∉ left → (∀ path, path.length ≤ 3 →
      ¬ Node (layout Lower) s₂.mem (alone child) 4 () path f) → s₃.mem f = s₂.mem f := by
    intro f notFree noTable
    funext i
    by_contra changed
    rcases grows.frame f i changed with new | ⟨path, node, _⟩
    · exact notFree (by rw [split]; exact List.mem_append_left _ new)
    · exact noTable path node.1 (node.mono (by decide))
  have ppKept : s₃.mem pp = s₀.mem (tableOf leaf.pte) := by
    rw [← filled]
    exact pages pp fresh (fun path _ node => exclusive.node_unfree node List.mem_cons_self)
  refine ⟨s₃, rest', ran, ⟨building, fun l member => ?_, fun path i admitted length others => ?_⟩, ?_⟩
  · have knownL : l ∈ lowerLeaves s₀.mem parent := known l (by
      rcases List.mem_append.mp member with old | new
      · exact List.mem_append_left _ old
      · exact List.mem_append_right _ (by simp [List.mem_singleton.mp new]))
    obtain ⟨lowerL, _, presentL⟩ := mem_lowerLeaves.mp knownL
    obtain ⟨here, other⟩ := mapped l.tables l.i1 (admitted_tables lowerL) rfl
    by_cases samePlace : l.tables = leaf.tables ∧ l.i1 = leaf.i1
    · have samePte := leaf_unique knownLeaf knownL samePlace.1 samePlace.2
      rw [here samePlace, samePte]
      exact ⟨pp, before.suffix.subset List.mem_cons_self, ppKept, rfl⟩
    · have old : l ∈ done := by
        rcases List.mem_append.mp member with old | new
        · exact old
        · exact absurd ⟨rfl, rfl⟩ (List.mem_singleton.mp new ▸ samePlace)
      obtain ⟨pp', free', contents, entryL⟩ := before.copied l old
      have node := page_node lowerL presentL (small₀ pp' free') entryL
      have unfree' := before.exclusive.node_unfree node
      have ne : pp' ≠ pp := fun same => unfree' (same ▸ List.mem_cons_self)
      rw [other samePlace, entries _ _ (admitted_tables lowerL) rfl]
      refine ⟨pp', free', ?_, entryL⟩
      rw [← contents, ← elsewhere pp' ne]
      refine pages pp' (fun inLeft => unfree' (List.mem_cons_of_mem _ inLeft)) (fun path short held => ?_)
      have nodeNow := (node_frame 3 (fun _ => tables)).mpr node
      have samePath := (exclusive.node_unique held nodeNow).2
      rw [samePath] at short
      simp [Leaf.tables] at short
  · have notHere : ¬ (path = leaf.tables ∧ i = leaf.i1) := fun both =>
      others leaf (by simp) ⟨both.1.symm, both.2.symm⟩
    rw [(mapped path i admitted length).2 notHere, entries path i admitted length]
    exact before.absent path i admitted length (fun l member => others l (List.mem_append_left _ member))
  · have less := tablesNeeded_cons (fun l member => lowerAll l (List.mem_cons_of_mem _ member)) added
    simp only [List.length_cons] at enough
    omega

/-- The whole loop copies every leaf when there are frames for all of them. -/
theorem copyLeaves {done todo : List Leaf} (unfree : Unfree s₀.mem parent free₀)
    (small₀ : ∀ pp ∈ free₀, pp < 2 ^ 40) (known : ∀ l ∈ done ++ todo, l ∈ lowerLeaves s₀.mem parent)
    (before : Copied upper s₀ free₀ child done s rest)
    (enough : todo.length + (tablesNeeded s.mem child todo).card ≤ rest.length) :
    ∃ s' rest', Loop.forEach (copyLeaf child) todo s = (s', true) ∧
      Copied upper s₀ free₀ child (done ++ todo) s' rest' := by
  induction todo generalizing done s rest with
  | nil => exact ⟨s, rest, rfl, by rw [List.append_nil]; exact before⟩
  | cons leaf todo ih =>
    obtain ⟨s₁, rest₁, ran, step, enough₁⟩ := copyLeaf_copied unfree small₀ known before enough
    rw [List.append_cons] at known ⊢
    obtain ⟨s', rest', looped, all⟩ := ih known step enough₁
    exact ⟨s', rest', by rw [Loop.forEach_cons, ran]; exact looped, all⟩

/-- Following entries of the lower half from a top-level table leads to a frame. -/
def Uses (s : Phys) (pml4 : Frame) (path : List Index) (f : Frame) : Prop :=
  path.length ≤ 4 ∧ (layout Lower).Admitted path ∧ follow (layout Lower) s.mem pml4 path = some f

/-- The page of an address was copied: the same flags, on a frame that was free
and that no other entry uses, with the same contents. -/
structure CopiedPage (s s' : Phys) (free : List Nat) (parent child : Frame) (va : U64) : Prop where
  flags : leafEntry s' child va &&& 0xFFF = leafEntry s parent va &&& 0xFFF
  fresh : tableOf (leafEntry s' child va) ∈ free
  ownEntry : ∀ path, Uses s' child path (tableOf (leafEntry s' child va)) → path = tablePath va ++ [leafIndex va]
  notParents : ∀ path, ¬ Uses s' parent path (tableOf (leafEntry s' child va))
  contents : ∀ i, s'.mem (tableOf (leafEntry s' child va)) i = s.mem (tableOf (leafEntry s parent va)) i

theorem make_low_flags (pte : PageTableEntry) (physAddr : U64) :
    pteMake physAddr (pte &&& 0xFFF) &&& 0xFFF = pte &&& 0xFFF := by
  have disjoint : (PTE_ADDR_MASK &&& 0xFFF#64) = 0#64 := by decide
  show pteMake physAddr (pte &&& 0xFFF#64) &&& 0xFFF#64 = pte &&& 0xFFF#64
  rw [pteMake_eq, BitVec.and_or_distrib_right, BitVec.and_assoc, disjoint, BitVec.and_zero, BitVec.zero_or,
    BitVec.and_assoc, BitVec.and_self]

/-- Following the parent's entries gives the same frames as before. -/
theorem Unfree.follow_same (unfree : Unfree s₀.mem parent free₀) (outside : ∀ f, f ∉ free₀ → s.mem f = s₀.mem f)
    {path : List Index} (short : path.length ≤ 4) (admitted : (layout Lower).Admitted path) :
    follow (layout Lower) s.mem parent path = follow (layout Lower) s₀.mem parent path := by
  refine follow_frame (rfl : alone parent () = some parent) admitted (short : path.length ≤ 3 + 1) ?_
  rintro path t ⟨short, admitted, _, isRoot, reached⟩
  cases isRoot
  exact outside t (unfree path t (by omega) admitted reached)

/-- A present leaf entry of the parent is one of the leaves of the scan. -/
theorem leaf_of_present {va : U64} (small : va.toNat < 2 ^ 47) (isPresent : present (leafEntry s parent va) = true) :
    ∃ leaf ∈ lowerLeaves s.mem parent, leaf.tables = tablePath va ∧ leaf.i1 = leafIndex va ∧
      leaf.pte = leafEntry s parent va := by
  refine ⟨⟨subscript (pml4Index va), subscript (pdptIndex va), subscript (pdIndex va), leafIndex va,
    leafEntry s parent va⟩, mem_lowerLeaves.mpr ⟨lower_of_small small, ?_, isPresent⟩, rfl, rfl, rfl⟩
  exact (leafEntry_eq Lower s parent va).symm

/-- After the whole copy every page of the parent is a page of the child. -/
theorem Copied.page (all : Copied upper s free₀ child (lowerLeaves s.mem parent) s' rest)
    (small₀ : ∀ pp ∈ free₀, pp < 2 ^ 40) (unfree : Unfree s.mem parent free₀) {va : U64}
    (small : va.toNat < 2 ^ 47) (isPresent : present (leafEntry s parent va) = true) :
    present (leafEntry s' child va) = true ∧ CopiedPage s s' free₀ parent child va := by
  obtain ⟨leaf, member, tables, index, pte⟩ := leaf_of_present small isPresent
  obtain ⟨lower, _, presentLeaf⟩ := mem_lowerLeaves.mp member
  obtain ⟨new, wasFree, contents, value⟩ := all.copied leaf member
  have page := page_node lower presentLeaf (small₀ new wasFree) value
  have frame := tableOf_make_page (low_flags_plain leaf.pte) (small₀ new wasFree)
  rw [tables, index, ← leafEntry_eq] at value
  rw [tables, index] at page
  rw [pte] at contents presentLeaf
  have used : tableOf (leafEntry s' child va) = new := by rw [value, frame]
  refine ⟨?_, ⟨?_, ?_, ?_, ?_, ?_⟩⟩
  · rw [value, present_make, present_low_flags, pte]
    exact presentLeaf
  · rw [value, make_low_flags, pte]
  · rw [used]
    exact wasFree
  · rintro path ⟨short, admitted, reached⟩
    rw [used] at reached
    exact (all.exclusive.node_unique (k := ()) ⟨short, admitted, child, rfl, reached⟩ page).2
  · rintro path ⟨short, admitted, reached⟩
    rw [used, unfree.follow_same all.outside short admitted] at reached
    exact unfree path new short admitted reached wasFree
  · intro i
    rw [used, contents]

/-- After the whole copy the child maps nothing the parent does not map. -/
theorem Copied.unmapped (all : Copied upper s free₀ child (lowerLeaves s.mem parent) s' rest) {va : U64}
    (small : va.toNat < 2 ^ 47) (isAbsent : present (leafEntry s parent va) = false) :
    present (leafEntry s' child va) = false := by
  have gone : leafEntry s' child va = 0 := by
    rw [leafEntry_eq Lower]
    refine all.absent _ _ (admitted_tablePath (lower_of_small small)) rfl (fun leaf member place => ?_)
    obtain ⟨_, value, isPresent⟩ := mem_lowerLeaves.mp member
    rw [place.1, place.2, ← leafEntry_eq] at value
    rw [value, isPresent] at isAbsent
    cases isAbsent
  rw [gone]
  rfl

/-- **Fork copies the address space exactly.** With a frame for every allocation
the copy succeeds; each lower-half page is mapped in the child exactly when it
is mapped in the parent, to a copy of its own; the kernel half is shared; and no
frame outside the free list changes, in particular none of the parent's. -/
theorem copy_exact (list : FreeList s free₀) (unfree : Unfree s.mem parent free₀)
    (enough : framesNeeded s.mem parent ≤ free₀.length) :
    ∃ s' child, vmmCopyAddressSpace s parent = (s', some child) ∧
      (∀ va : U64, va.toNat < 2 ^ 47 →
        present (leafEntry s' child va) = present (leafEntry s parent va) ∧
        (present (leafEntry s parent va) = true → CopiedPage s s' free₀ parent child va)) ∧
      (∀ j : Index, KERNEL_PML4_START ≤ j.val → s'.mem child j = s.mem parent j) ∧
      (∀ path f, Uses s parent path f → Uses s' parent path f ∧ s'.mem f = s.mem f) ∧
      ∀ f, f ∉ free₀ → s'.mem f = s.mem f := by
  rw [framesNeeded] at enough
  rcases pageAlloc_cases list 1#32 with ⟨empty, _⟩ | ⟨pp, rest, s₁, rfl, took, list₁, cleared⟩
  · rw [empty, List.length_nil] at enough
    omega
  have apart : parent ∉ pp :: rest := unfree [] parent (by simp) (by simp [Layout.Admitted]) rfl
  have lowerEmpty : ∀ j, Lower j → (s₁.copyEntries pp parent KERNEL_PML4_START).mem pp j = 0 :=
    fun j => copyEntries_lower cleared
  have parentOther : parent ≠ pp := fun same => apart (same ▸ List.mem_cons_self)
  have building := (building_start parent list list₁ cleared).upper_congr
    (fun j upper => copyEntries_upper cleared parentOther upper)
  have start : Copied (s.mem parent) s (pp :: rest) pp [] (s₁.copyEntries pp parent KERNEL_PML4_START) rest := by
    refine ⟨building, by simp, fun path i admitted length _ => ?_⟩
    rw [entry]
    cases reached : follow (layout Lower) (s₁.copyEntries pp parent KERNEL_PML4_START).mem pp path with
    | none => rfl
    | some t =>
      have node : Node (layout Lower) _ (alone pp) 3 () path t :=
        ⟨Nat.le_of_eq length, admitted, pp, rfl, reached⟩
      have top := alone_empty lowerEmpty node
      rw [top.1] at length
      cases length
  have budget : (lowerLeaves s.mem parent).length + (tablesNeeded (s₁.copyEntries pp parent KERNEL_PML4_START).mem
      pp (lowerLeaves s.mem parent)).card ≤ rest.length := by
    have fewer := Finset.card_filter_le ((lowerLeaves s.mem parent).flatMap fun leaf =>
      tablePrefixes leaf.vaddr).toFinset fun q =>
        follow (layout Lower) (s₁.copyEntries pp parent KERNEL_PML4_START).mem pp q = none
    rw [List.card_toFinset] at fewer
    rw [List.length_cons] at enough
    rw [tablesNeeded]
    omega
  have known : ∀ leaf ∈ [] ++ lowerLeaves s.mem parent, leaf ∈ lowerLeaves s.mem parent := by
    rw [List.nil_append]
    exact fun _ member => member
  obtain ⟨s', rest', looped, all⟩ := copyLeaves unfree list.small known start budget
  rw [← copyLower_eq building unfree] at looped
  rw [List.nil_append] at all
  have isChild := frameOf_page2pa (list.small pp List.mem_cons_self)
  refine ⟨s', pp, ?_, fun va small => ?_, fun j upper => all.kernelHalf j (Nat.not_lt.mpr upper),
    fun path f used => ⟨⟨used.1, used.2.1, ?_⟩, ?_⟩, all.outside⟩
  · rw [vmmCopyAddressSpace, took]
    simp only [isChild, looped]
  · cases isPresent : present (leafEntry s parent va) with
    | false => exact ⟨all.unmapped small isPresent, by simp⟩
    | true =>
      obtain ⟨mapped, page⟩ := all.page list.small unfree small isPresent
      exact ⟨mapped, fun _ => page⟩
  · rw [unfree.follow_same all.outside used.1 used.2.1]
    exact used.2.2
  · exact all.outside f (unfree path f used.1 used.2.1 used.2.2)

/-- An address space with one page: frames 0 to 3 are its tables, frame 4 is the
page at 0x1000, and the frames 5 to 9 are free. -/
def onePage : Phys where
  mem := fun f i => if f < 3 ∧ i = 0 then pteMake (page2pa (f + 1)) WALK_FLAGS
    else if f = 3 ∧ i = 1 then pteMake (page2pa 4) 7 else if f = 4 then 42 else 0
  pages := fun pp => ⟨if 5 ≤ pp ∧ pp < 9 then some (pp + 1) else none, 0⟩
  pageFreeList := some 5

theorem onePage_unfree : Unfree onePage.mem 0 [5, 6, 7, 8, 9] := by
  have inside : ∀ (f : Nat) i, f ≤ 4 → ∀ g : Nat, (layout Lower).dec (onePage.mem f i) = some g → g ≤ 4 := by
    intro f i bound g edge
    simp only [onePage] at edge
    split at edge
    · rename_i table
      rw [dec_walk_entry _ (by omega)] at edge
      cases edge
      exact Nat.succ_le_of_lt (Nat.lt_succ_of_lt table.1)
    · split at edge
      · rw [show (layout Lower).dec (pteMake (page2pa 4) 7) = some 4 by decide] at edge
        cases edge
        exact Nat.le_refl 4
      · split at edge
        · rw [show (layout Lower).dec 42 = none by decide] at edge
          cases edge
        · cases edge
  have reachable : ∀ path (f g : Nat), f ≤ 4 → follow (layout Lower) onePage.mem f path = some g → g ≤ 4 := by
    intro path
    induction path with
    | nil =>
      intro f g bound same
      cases same
      exact bound
    | cons i path ih =>
      intro f g bound reached
      rw [follow] at reached
      cases edge : (layout Lower).dec (onePage.mem f i) with
      | none => simp [edge] at reached
      | some t =>
        rw [edge] at reached
        exact ih t g (inside f i bound t edge) reached
  intro path f _ _ reached
  have free : ∀ n : Nat, n ≤ 4 → n ∉ [5, 6, 7, 8, 9] := by simp; omega
  exact free f (reachable path 0 f (by decide) reached)

/-- Copying the one page takes five frames, and the copy reads the same. -/
theorem copy_exact_onePage : ∃ s' child, vmmCopyAddressSpace onePage 0 = (s', some child) ∧
    present (leafEntry s' child 0x1000) = true ∧ s'.mem (tableOf (leafEntry s' child 0x1000)) 0 = 42 := by
  have list : FreeList onePage [5, 6, 7, 8, 9] := ⟨by simp [onePage], by simp⟩
  obtain ⟨s', child, ran, pages, _⟩ := copy_exact list onePage_unfree (by decide +kernel)
  obtain ⟨same, copied⟩ := pages 0x1000 (by decide)
  have isPresent : present (leafEntry onePage 0 0x1000) = true := by decide +kernel
  refine ⟨s', child, ran, same.trans isPresent, ?_⟩
  rw [(copied isPresent).contents 0]
  decide +kernel

end HobbyKernel.CopyExact
