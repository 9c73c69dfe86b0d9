import Mathlib.Logic.Relation
import HobbyKernel.WalkProofs

/-! `vmm_map` and `vmm_unmap` implement a plain map from page numbers to leaf
entries. The map is stated without tables; the refinement covers calls that run
out of frames at any level, and other code taking and returning frames between
the calls. -/
namespace HobbyKernel.MapRefinement
open AddressBits PageAllocProofs WalkProofs Radix

/-- The frame of the table at a path of indices below a top-level table. -/
def tableAt (s : Phys) (pml4 : Frame) (path : List Index) : Option Frame :=
  follow (layout fun _ => True) s.mem pml4 path

/-- A hierarchy of 4 KiB mappings: its tables form a tree, and neither they nor
each other's frames are on the free list. -/
structure WellFormed (s : Phys) (pml4 : Frame) (free : List Nat) : Prop where
  list : FreeList s free
  noSharing : ∀ path path' f, path.length ≤ 3 → path'.length ≤ 3 →
    tableAt s pml4 path = some f → tableAt s pml4 path' = some f → path = path'
  notFree : ∀ path f, path.length ≤ 3 → tableAt s pml4 path = some f → f ∉ free
  small : ∀ path f, path.length ≤ 3 → tableAt s pml4 path = some f → f < 2 ^ 40

/-- The abstract state: what each page number maps to. -/
abbrev Leaves := BitVec 36 → PageTableEntry

def mapLeaf (leaves : Leaves) (vaddr physAddr flags : U64) : Leaves :=
  Function.update leaves (pageOf vaddr) ((physAddr &&& PTE_ADDR_MASK) ||| flags)

def unmapLeaf (leaves : Leaves) (vaddr : U64) : Leaves :=
  if present (leaves (pageOf vaddr)) then Function.update leaves (pageOf vaddr) 0 else leaves

/-- The calls of the code and their abstract counterparts, side by side. Other
code may replace the free list and write to any frame that is no table. -/
inductive Step (pml4 : Frame) : Phys × Leaves → Phys × Leaves → Prop where
  | map (vaddr physAddr flags : U64) (found : (vmmWalk s pml4 vaddr true).2 ≠ none) :
      Step pml4 (s, leaves) (vmmMap s pml4 vaddr physAddr flags, mapLeaf leaves vaddr physAddr flags)
  | mapFails (vaddr physAddr flags : U64) (failed : (vmmWalk s pml4 vaddr true).2 = none) :
      Step pml4 (s, leaves) (vmmMap s pml4 vaddr physAddr flags, leaves)
  | unmap (vaddr : U64) : Step pml4 (s, leaves) (vmmUnmap s pml4 vaddr, unmapLeaf leaves vaddr)
  | elsewhere (list : FreeList s' free)
      (apart : ∀ path f, path.length ≤ 3 → tableAt s pml4 path = some f → s'.mem f = s.mem f ∧ f ∉ free) :
      Step pml4 (s, leaves) (s', leaves)

/-- The map a hierarchy starts out with. -/
def leavesOf (s : Phys) (pml4 : Frame) : Leaves :=
  fun n => leafEntry s pml4 (n.setWidth 64 <<< 12)

theorem node_iff (path : List Index) (f : Frame) :
    Node (layout fun _ => True) s.mem (fun _ : Unit => some pml4) 3 () path f ↔
      path.length ≤ 3 ∧ tableAt s pml4 path = some f := by
  constructor
  · rintro ⟨short, _, r, isRoot, reached⟩
    cases isRoot
    exact ⟨short, reached⟩
  · rintro ⟨short, reached⟩
    exact ⟨short, fun _ _ => trivial, pml4, rfl, reached⟩

/-- Nobody but the one hierarchy owns frames here. -/
def nobodyElse : Empty → Frame → Prop := fun _ _ => False

theorem WellFormed.exclusive (wf : WellFormed s pml4 free) :
    Exclusive (layout fun _ => True) s.mem (fun _ : Unit => some pml4) 3 nobodyElse free := by
  constructor
  · intro o o' f owns owns'
    cases o with
    | other x => exact x.elim
    | node k path =>
      cases o' with
      | other x => exact x.elim
      | node k' path' =>
        obtain ⟨short, reached⟩ := (node_iff path f).mp owns
        obtain ⟨short', reached'⟩ := (node_iff path' f).mp owns'
        rw [wf.noSharing path path' f short short' reached reached']
  · intro o f owns
    cases o with
    | other x => exact x.elim
    | node k path =>
      obtain ⟨short, reached⟩ := (node_iff path f).mp owns
      exact wf.notFree path f short reached

theorem wellFormed_of_exclusive (list : FreeList s free)
    (exclusive : Exclusive (layout fun _ => True) s.mem (fun _ : Unit => some pml4) 3 nobodyElse free)
    (small : ∀ path f, path.length ≤ 3 → tableAt s pml4 path = some f → f < 2 ^ 40) :
    WellFormed s pml4 free := by
  refine ⟨list, fun path path' f short short' reached reached' => ?_, fun path f short reached => ?_, small⟩
  · exact (exclusive.node_unique ((node_iff path f).mpr ⟨short, reached⟩)
      ((node_iff path' f).mpr ⟨short', reached'⟩)).2
  · exact exclusive.node_unfree ((node_iff path f).mpr ⟨short, reached⟩)

/-- Growing the one tree keeps the hierarchy well-formed. -/
theorem WellFormed.grows (wf : WellFormed s pml4 free) (split : free = taken ++ rest)
    (grows : Grows (fun _ => True) (fun _ : Unit => some pml4) nobodyElse () s s' taken rest) :
    WellFormed s' pml4 rest := by
  refine wellFormed_of_exclusive grows.list grows.exclusive (fun path f short reached => ?_)
  rcases grows.added () path f ((node_iff path f).mpr ⟨short, reached⟩) with old | ⟨_, new⟩
  · exact wf.small path f short ((node_iff path f).mp old).2
  · exact wf.list.small f (by rw [split]; exact List.mem_append_left _ new)

private theorem entry_eq_leaf (s : Phys) (pml4 : Frame) (vaddr : U64) :
    leafEntry s pml4 vaddr =
      entry (layout fun _ => True) s.mem pml4 (tablePath vaddr) (leafIndex vaddr) :=
  leafEntry_eq _ s pml4 vaddr

theorem leafEntry_congr (same : pageOf vaddr = pageOf vaddr') :
    leafEntry s pml4 vaddr = leafEntry s pml4 vaddr' := by
  obtain ⟨path, index⟩ := (same_page_iff vaddr vaddr').mpr same
  rw [entry_eq_leaf, entry_eq_leaf, path, index]

theorem leavesOf_page (s : Phys) (pml4 : Frame) (vaddr : U64) : leavesOf s pml4 (pageOf vaddr) = leafEntry s pml4 vaddr := by
  rw [leavesOf]
  apply leafEntry_congr
  rw [← BitVec.toNat_inj, pageOf_toNat, BitVec.toNat_shiftLeft, BitVec.toNat_setWidth, pageOf_toNat, Nat.shiftLeft_eq]
  omega

/-- A successful `vmm_map` sets exactly the entry of its page. -/
theorem map_refines (wf : WellFormed s pml4 free) (found : (vmmWalk s pml4 vaddr true).2 ≠ none)
    (agree : ∀ va, leafEntry s pml4 va = leaves (pageOf va)) (va : U64) :
    leafEntry (vmmMap s pml4 vaddr physAddr flags) pml4 va =
      mapLeaf leaves vaddr physAddr flags (pageOf va) := by
  obtain ⟨_, _, _, _, _, mapped⟩ := vmmMap_grows (k := ()) vaddr physAddr flags
    wf.list wf.exclusive rfl trivial
  obtain ⟨here, elsewhere⟩ := mapped found () pml4 (tablePath va) (leafIndex va) rfl
    (fun _ _ => trivial) rfl
  rw [entry_eq_leaf]
  by_cases same : pageOf va = pageOf vaddr
  · obtain ⟨path, index⟩ := (same_page_iff va vaddr).mpr same
    rw [here ⟨rfl, path, index⟩, mapLeaf, same, Function.update_self, pteMake_eq]
  · have different : ¬ (() = () ∧ tablePath va = tablePath vaddr ∧ leafIndex va = leafIndex vaddr) :=
      fun both => same ((same_page_iff va vaddr).mp both.2)
    rw [elsewhere different, mapLeaf, Function.update_of_ne same, ← agree, entry_eq_leaf]

/-- A `vmm_map` that finds no frame for a table has used up the free list and
changes no entry. -/
theorem map_fails_refines (wf : WellFormed s pml4 free) (failed : (vmmWalk s pml4 vaddr true).2 = none)
    (va : U64) :
    leafEntry (vmmMap s pml4 vaddr physAddr flags) pml4 va = leafEntry s pml4 va := by
  obtain ⟨_, _, _, _, unmapped, _⟩ := vmmMap_grows (k := ()) vaddr physAddr flags
    wf.list wf.exclusive rfl trivial
  rw [entry_eq_leaf, entry_eq_leaf]
  exact (unmapped failed).2 () pml4 _ _ rfl (fun _ _ => trivial) rfl

theorem map_wellFormed (wf : WellFormed s pml4 free) (vaddr physAddr flags : U64) :
    ∃ rest, WellFormed (vmmMap s pml4 vaddr physAddr flags) pml4 rest := by
  obtain ⟨taken, rest, split, grows, _⟩ := vmmMap_grows (k := ()) vaddr physAddr flags
    wf.list wf.exclusive rfl trivial
  exact ⟨rest, wf.grows split grows⟩

/-- `vmm_unmap` clears a present entry and otherwise does nothing. -/
theorem unmap_refines (vaddr : U64) (wf : WellFormed s pml4 free)
    (agree : ∀ va, leafEntry s pml4 va = leaves (pageOf va)) :
    WellFormed (vmmUnmap s pml4 vaddr) pml4 free ∧
      ∀ va, leafEntry (vmmUnmap s pml4 vaddr) pml4 va = unmapLeaf leaves vaddr (pageOf va) := by
  rw [unmapLeaf, ← agree vaddr]
  rcases vmmUnmap_cases (fun _ => True) s pml4 vaddr with ⟨absent, same⟩ | ⟨isPresent, t, reached, cleared⟩
  · rw [same, absent]
    exact ⟨wf, agree⟩
  · rw [cleared, isPresent]
    have node : Node (layout fun _ => True) s.mem (fun _ : Unit => some pml4) 3 () (tablePath vaddr) t :=
      (node_iff _ t).mpr ⟨by simp [tablePath], reached⟩
    refine ⟨wf.grows (List.nil_append free).symm (leaf_write_grows 0 wf.list wf.exclusive node rfl), fun va => ?_⟩
    obtain ⟨here, elsewhere⟩ := entry_write_leaf (i := leafIndex vaddr) (j := leafIndex va) (e := 0)
      (q := tablePath va) wf.exclusive node rfl (rfl : (fun _ : Unit => some pml4) () = some pml4) (fun _ _ => trivial) (by simp [tablePath])
    rw [entry_eq_leaf, if_pos rfl]
    by_cases same : pageOf va = pageOf vaddr
    · obtain ⟨path, index⟩ := (same_page_iff va vaddr).mpr same
      rw [same, Function.update_self]
      exact here ⟨rfl, path, index⟩
    · rw [Function.update_of_ne same, ← agree, entry_eq_leaf]
      exact elsewhere (fun both => same ((same_page_iff va vaddr).mp both.2))

/-- Writes to other frames leave the tables where they are. -/
theorem elsewhere_tables (same : ∀ path f, path.length ≤ 3 → tableAt s pml4 path = some f → s'.mem f = s.mem f) :
    ∀ path, path.length ≤ 3 → tableAt s' pml4 path = tableAt s pml4 path := by
  refine fun path short => follow_frame (rfl : (fun _ : Unit => some pml4) () = some pml4) (fun _ _ => trivial)
    (Nat.le_succ_of_le short) fun path t node => ?_
  obtain ⟨short, reached⟩ := (node_iff path t).mp node
  exact same path t short reached

/-- Whatever other code does to frames that are no tables is invisible here. -/
theorem elsewhere_refines (wf : WellFormed s pml4 free) (list : FreeList s' free')
    (apart : ∀ path f, path.length ≤ 3 → tableAt s pml4 path = some f → s'.mem f = s.mem f ∧ f ∉ free') :
    WellFormed s' pml4 free' ∧ ∀ va, leafEntry s' pml4 va = leafEntry s pml4 va := by
  have same : ∀ path t, Node (layout fun _ => True) s.mem (fun _ : Unit => some pml4) 3 () path t →
      s'.mem t = s.mem t := by
    intro path t node
    obtain ⟨short, reached⟩ := (node_iff path t).mp node
    exact (apart path t short reached).1
  have tables := elsewhere_tables fun path f short reached => (apart path f short reached).1
  refine ⟨⟨list, fun path path' f short short' => ?_, fun path f short => ?_, fun path f short => ?_⟩,
    fun va => ?_⟩
  · rw [tables path short, tables path' short']
    exact wf.noSharing path path' f short short'
  · rw [tables path short]
    exact fun reached => (apart path f short reached).2
  · rw [tables path short]
    exact wf.small path f short
  · rw [entry_eq_leaf, entry_eq_leaf]
    exact entry_frame rfl (fun _ _ => trivial) (by simp [tablePath]) same

theorem step_refines (wf : WellFormed s pml4 free)
    (agree : ∀ va, leafEntry s pml4 va = leaves (pageOf va))
    (step : Step pml4 (s, leaves) (s', leaves')) :
    (∃ free', WellFormed s' pml4 free') ∧ ∀ va, leafEntry s' pml4 va = leaves' (pageOf va) := by
  cases step with
  | map vaddr physAddr flags found =>
    exact ⟨map_wellFormed wf vaddr physAddr flags, map_refines wf found agree⟩
  | mapFails vaddr physAddr flags failed =>
    exact ⟨map_wellFormed wf vaddr physAddr flags,
      fun va => (map_fails_refines wf failed va).trans (agree va)⟩
  | unmap vaddr =>
    obtain ⟨wf', agree'⟩ := unmap_refines vaddr wf agree
    exact ⟨⟨free, wf'⟩, agree'⟩
  | elsewhere list apart =>
    obtain ⟨wf', same⟩ := elsewhere_refines wf list apart
    exact ⟨⟨_, wf'⟩, fun va => (same va).trans (agree va)⟩

/-- **The tables are a map.** Over any run of `vmm_map` and `vmm_unmap` calls,
with frames running out anywhere and other code using the allocator in between,
the leaf entry the walker finds is the abstract map's entry for the page number,
and the hierarchy stays well-formed. A walk fails only on an empty free list. -/
theorem tables_refine_map (wf : WellFormed s pml4 free)
    (run : Relation.ReflTransGen (Step pml4) (s, leavesOf s pml4) (s', leaves)) :
    (∃ free', WellFormed s' pml4 free' ∧ ∀ vaddr, (vmmWalk s' pml4 vaddr true).2 = none →
        FreeList (vmmWalk s' pml4 vaddr true).1 []) ∧
      ∀ vaddr, leafEntry s' pml4 vaddr = leaves (pageOf vaddr) := by
  have start : ∀ va, leafEntry s pml4 va = leavesOf s pml4 (pageOf va) := fun va => (leavesOf_page s pml4 va).symm
  have reached : ∀ state, Relation.ReflTransGen (Step pml4) (s, leavesOf s pml4) state →
      (∃ free', WellFormed state.1 pml4 free') ∧ ∀ va, leafEntry state.1 pml4 va = state.2 (pageOf va) := by
    intro state steps
    induction steps with
    | refl => exact ⟨⟨free, wf⟩, start⟩
    | tail _ step ih =>
      obtain ⟨⟨free', wf'⟩, agree⟩ := ih
      exact step_refines wf' agree step
  obtain ⟨⟨free', wf'⟩, agree⟩ := reached _ run
  refine ⟨⟨free', wf', fun vaddr failed => ?_⟩, agree⟩
  obtain ⟨taken, rest, _, grows, _, _, exhausted⟩ := vmmWalk_grows (k := ()) vaddr wf'.list wf'.exclusive rfl
    trivial
  rw [← exhausted failed]
  exact grows.list

theorem tableAt_cleared {count : Nat} (reached : tableAt (clearedPhys 1 count) 0 path = some f) : path = [] ∧ f = 0 := by
  cases path with
  | nil => exact ⟨rfl, (Option.some.inj reached).symm⟩
  | cons i path =>
    have absent : (layout fun _ => True).dec 0#64 = none := rfl
    simp [tableAt, follow, clearedPhys, absent] at reached

theorem clearedPhys_wellFormed {count : Nat} (bound : 1 + count ≤ 2 ^ 40) :
    WellFormed (clearedPhys 1 count) 0 (List.range' 1 count) := by
  refine ⟨clearedPhys_free bound, ?_, ?_, ?_⟩
  · intro path path' f _ _ reached reached'
    rw [(tableAt_cleared reached).1, (tableAt_cleared reached').1]
  · intro path f _ reached
    simp [(tableAt_cleared reached).2]
  · intro path f _ reached
    simp [(tableAt_cleared reached).2]

/-- Mapping one page of the cleared hierarchy takes three tables; the entry
reads back, and the next page stays unmapped. -/
theorem tables_refine_map_cleared :
    leafEntry (vmmMap (clearedPhys 1 3) 0 0x1000 0x5000 3) 0 0x1000 = 0x5003 ∧
      leafEntry (vmmMap (clearedPhys 1 3) 0 0x1000 0x5000 3) 0 0x2000 = 0 := by
  have refined := (tables_refine_map (clearedPhys_wellFormed (by decide : 1 + 3 ≤ 2 ^ 40))
    (.single (.map 0x1000 0x5000 3 (by decide +kernel)))).2
  rw [refined 0x1000, refined 0x2000]
  exact ⟨by decide +kernel, by decide +kernel⟩

end HobbyKernel.MapRefinement
