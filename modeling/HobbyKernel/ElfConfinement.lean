import HobbyKernel.ElfImage
import HobbyKernel.LargePages

/-! What `elf_load` can reach. The addresses of segments come out of the image
and nothing checks them. While all pages of the loops have lower-half indices,
only pages of the program and frames that are taken are written; but a page
with a kernel-half index is mapped like any other. -/
namespace HobbyKernel.ElfConfinement
open AddressBits PageAllocProofs WalkProofs CopyProofs AddressSpaces UaccessProofs UserAccess SpaceEvolution PageWrites
open MapRefinement MapSupply ElfProofs ReportedSuccess ElfImage LargePages Radix Supplies

variable {κ ι : Type} {root : κ → Option Frame} {others : ι → Frame → Prop} {k : κ} {s s' s'' : Phys}
  {free rest rest' : List Nat} {r f : Frame} {va : U64} {seg : Segment} {image : Image} {i : Index} {supply : FrameSupply}

/-- The page tables that kernel addresses are translated through. -/
def KernelTables (s : Phys) (r : Frame) : Unit → Frame → Prop :=
  fun _ f => ∃ j path, ¬ Lower j ∧ path.length ≤ 2 ∧ follow paged s.mem r (j :: path) = some f

/-- The address space of a program: its frames are its own, and the pages in
its lower half are open to it. -/
structure UserSpace (s : Phys) (r : Frame) (free : List Nat) : Prop where
  forest : Forest (alone r) (KernelTables s r) 4 s free
  user : ∀ va : U64, va.toNat < 2 ^ 47 → present (leafEntry s r va) = true → userAccessible (leafEntry s r va) = true

/-- A page that a program may access, in the lower half. -/
def UserPage (s : Phys) (r f : Frame) : Prop :=
  ∃ va : U64, va.toNat < 2 ^ 47 ∧ ∃ t, Cpu.translate s.mem r va = some t ∧ t.frame = f ∧ t.user = true

/-- Frames are taken off the front of the free list, and the others stay as
they are. -/
def Spends (s s' : Phys) (free rest : List Nat) : Prop := ∃ taken, free = taken ++ rest ∧ ∀ f ∈ rest, s'.mem f = s.mem f

theorem Spends.trans (first : Spends s s' free rest) (second : Spends s' s'' rest rest') : Spends s s'' free rest' := by
  obtain ⟨taken, rfl, kept⟩ := first
  obtain ⟨taken', rfl, kept'⟩ := second
  exact ⟨taken ++ taken', (List.append_assoc ..).symm, fun f member =>
    (kept' f member).trans (kept f (List.mem_append_right _ member))⟩

/-- The pages of the loops are in the lower half. -/
def PagesLower (image : Image) : Prop := ∀ page ∈ imagePages image, Lower (subscript (pml4Index page))

/-- A page of the tree can be accessed by the program. -/
theorem UserSpace.page (space : UserSpace s r free) {path : List Index}
    (node : Node (layout Lower) s.mem (alone r) 4 () path f) (bottom : path.length = 4) : UserPage s r f := by
  obtain ⟨_, admitted, _, isRoot, reached⟩ := node
  cases isRoot
  obtain ⟨i4, i3, i2, i1, rfl⟩ : ∃ i4 i3 i2 i1, path = [i4, i3, i2, i1] := by
    match path, bottom with
    | [i4, i3, i2, i1], _ => exact ⟨i4, i3, i2, i1, rfl⟩
  have lower : Lower i4 := admitted i4 rfl
  obtain ⟨tables, leaf⟩ := path_composeVaddr i4 i3 i2 i1
  have small : (composeVaddr i4 i3 i2 i1).toNat < 2 ^ 47 := @leaf_small ⟨i4, i3, i2, i1, 0⟩ lower
  have split : [i4, i3, i2, i1] = tablePath (composeVaddr i4 i3 i2 i1) ++ [leafIndex (composeVaddr i4 i3 i2 i1)] := by
    rw [tables, leaf]
    rfl
  rw [split, follow_entry, ← leafEntry_eq, layout_dec] at reached
  generalize composeVaddr i4 i3 i2 i1 = va at *
  cases isPresent : present (leafEntry s r va) with
  | false =>
    rw [isPresent] at reached
    cases reached
  | true =>
    rw [isPresent] at reached
    refine ⟨va, small, _, (translate_lower (k := ()) space.forest.walkable rfl small).trans (if_pos isPresent),
      Option.some.inj reached, space.user va small isPresent⟩

/-- Kernel addresses are translated as before. -/
theorem UserSpace.kernelHalf (space : UserSpace s r free) (evolves : Evolves (alone r) (KernelTables s r) () s s' free rest)
    (upper : ¬ Lower (subscript (pml4Index va))) : Cpu.translate s'.mem r va = Cpu.translate s.mem r va := by
  have exclusive := space.forest.exclusive
  have isTop : Node (layout Lower) s.mem (alone r) 4 () [] r := ⟨by simp, by simp [Layout.Admitted], r, rfl, rfl⟩
  refine translate_congr fun before j after t split reached => ?_
  by_contra changed
  cases before with
  | nil =>
    cases reached
    rcases evolves.frame r j changed with new | ⟨path, node, admitted⟩
    · exact exclusive.node_unfree isTop new
    · obtain ⟨_, rfl⟩ := exclusive.node_unique node isTop
      rw [tablePath, List.cons_append, List.nil_append, List.cons.injEq] at split
      exact upper (split.1 ▸ admitted j rfl)
  | cons first path =>
    simp only [tablePath, List.cons_append, List.cons.injEq] at split
    have short : path.length ≤ 2 := by
      have length := congrArg List.length split.2
      simp only [List.nil_append, List.length_append, List.length_cons, List.length_nil] at length
      omega
    have owns : Owns (layout Lower) s.mem (alone r) 4 (KernelTables s r) (.other ()) t :=
      ⟨first, path, split.1 ▸ upper, short, reached⟩
    rcases evolves.frame t j changed with new | ⟨path', node, _⟩
    · exact exclusive.unfree _ t owns new
    · cases exclusive.unique (.node () path') (.other ()) t node owns

/-- An address space without any entries. -/
structure Bare (s : Phys) (r : Frame) (free : List Nat) : Prop where
  list : FreeList s free
  unfree : r ∉ free
  small : r < 2 ^ 40
  empty : ∀ j, s.mem r j = 0

theorem Bare.top (bare : Bare s r free) {path : List Index} (reached : tableAt s r path = some f) : path = [] ∧ f = r := by
  cases path with
  | nil => exact ⟨rfl, (Option.some.inj reached).symm⟩
  | cons j path =>
    rw [tableAt, follow, bare.empty j] at reached
    cases reached

theorem Bare.wellFormed (bare : Bare s r free) : WellFormed s r free := by
  refine ⟨bare.list, fun path path' f _ _ reached reached' => ?_, fun path f _ reached => ?_, fun path f _ reached => ?_⟩
  · rw [(bare.top reached).1, (bare.top reached').1]
  · exact (bare.top reached).2 ▸ bare.unfree
  · exact (bare.top reached).2 ▸ bare.small

theorem Bare.leaf (bare : Bare s r free) (va : U64) : present (leafEntry s r va) = false := by
  rw [leafEntry_eq fun _ => True, entry]
  cases reached : follow (layout fun _ => True) s.mem r (tablePath va) with
  | none => exact (show present 0#64 = false by decide)
  | some t => cases (bare.top reached).1

/-- There are not more than 2^36 pages. -/
theorem keys_le {keys : List (BitVec 36)} (distinct : keys.Nodup) : keys.length ≤ 2 ^ 36 := by
  have inside : keys.map BitVec.toNat ⊆ List.range (2 ^ 36) := by
    intro n member
    obtain ⟨key, _, rfl⟩ := List.mem_map.mp member
    exact List.mem_range.mpr key.isLt
  have fits := ((distinct.map fun a b => BitVec.eq_of_toNat_eq).subperm inside).length_le
  rwa [List.length_map, List.length_range] at fits

/-- With frames for every page there is, the loops map all pages of the image. -/
theorem Bare.loads (bare : Bare s r free) (plenty : 2 ^ 38 ≤ free.length) (image : Image) {page : U64}
    (member : page ∈ imagePages image) :
    present (leafEntry (Loop.forEach (fun p => loadPage r image p.1 p.2) (imagePairs image) s).1 r page) = true := by
  have plain : PlainPages s r free image := fun va _ isPresent => by
    rw [bare.leaf va] at isPresent
    cases isPresent
  have rounds : ∀ p ∈ imagePairs image, ∀ s supply, KeepsPlain r image s supply →
      (loadPage r image p.1 p.2 s).2 = (serve pageOf tablePrefixes true p.2 supply).2 ∧
        KeepsPlain r image (loadPage r image p.1 p.2 s).1 (serve pageOf tablePrefixes true p.2 supply).1 :=
    fun p isPair s supply keeps => loadPage_serves keeps (imagePairs_pages image ▸ List.mem_map_of_mem isPair)
      (segmentPages_small (mem_imagePairs.mp isPair).2)
  obtain ⟨_, rest, _, supplied, _⟩ :=
    Loop.forEach_simulates (KeepsPlain r image) ⟨free, wellFormed_inSlots bare.wellFormed _, supplied_start _ _ _ _, plain⟩ rounds
  rw [← Loop.forEach_map, imagePairs_pages] at supplied
  rw [← supplied.served page (imageSlots_page member)]
  have paid : demand tablePrefixes (supplyOf s r free.length).parts
      (takers pageOf true (supplyOf s r free.length).served (imagePages image)) ≤ free.length := by
    have few : ∀ va, (tablePrefixes va).length ≤ 3 := fun _ => Nat.le_refl 3
    refine (demand_le few _ _).trans ?_
    have pages : ((takers pageOf true (supplyOf s r free.length).served (imagePages image)).map pageOf).length ≤ 2 ^ 36 :=
      keys_le (takers_nodup rfl)
    rw [List.length_map] at pages
    omega
  rcases serve_cases pageOf tablePrefixes true (imagePages image) (supplyOf s r free.length) with
    ⟨_, _, result⟩ | ⟨before, last, out, _⟩ | ⟨_, unpaid, _⟩
  · rw [result, mem_takers, decide_eq_true (List.mem_map_of_mem member), Bool.or_true]
  · have short := out.short
    rw [← out.ends] at short
    exact absurd paid (Nat.not_le.mpr short)
  · exact absurd paid (Nat.not_le.mpr unpaid)

end HobbyKernel.ElfConfinement
