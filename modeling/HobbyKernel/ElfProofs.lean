import HobbyKernel.PageWrites

/-! `elf_load` into an address space that shares memory with others. The page
loop meets each page of a segment once and ends; pages that are already mapped
are written again, missing ones are taken off the free list, and the copy never
leaves the page it was aimed at. -/
namespace HobbyKernel.ElfProofs
open AddressBits PageAllocProofs WalkProofs AddressSpaces UaccessProofs SpaceEvolution PageWrites Radix

variable {κ ι : Type} {root : κ → Option Frame} {others : ι → Frame → Prop} {k : κ} {s : Phys} {free : List Nat}
  {r : Frame} {va phys : U64} {seg : Segment} {image : Image}

/-- The segment lies in the lower half, if it is loaded at all. -/
def InLowerHalf (seg : Segment) : Prop :=
  seg.pType = PT_LOAD → seg.pVaddr.toNat + seg.pMemsz.toNat ≤ 2 ^ 47

theorem later_toNat (a b : U64) : (if a < b then b else a).toNat = max a.toNat b.toNat := by
  split
  · rename_i later
    exact (Nat.max_eq_right (Nat.le_of_lt later)).symm
  · rename_i sooner
    exact (Nat.max_eq_left (Nat.not_lt.mp sooner)).symm

theorem earlier_toNat (a b : U64) : (if a < b then a else b).toNat = min a.toNat b.toNat := by
  split
  · rename_i sooner
    exact (Nat.min_eq_left (Nat.le_of_lt sooner)).symm
  · rename_i later
    exact (Nat.min_eq_right (Nat.not_lt.mp later)).symm

/-- What is copied to a page stays on it, whatever the file says. -/
theorem loadBytesOf_confined (va phys : U64) (s : Phys) (image : Image) (seg : Segment) (aligned : phys.toNat % 4096 = 0)
    (small : va.toNat + 4096 < 2 ^ 64) : Confined (frameOf phys) s (loadBytesOf seg image va phys s) := by
  have pageEnd : (va + PGSIZE).toNat = va.toNat + 4096 := by
    rw [BitVec.toNat_add, show PGSIZE.toNat = 4096 from rfl]
    omega
  have low := later_toNat va seg.pVaddr
  have high := earlier_toNat (seg.pVaddr + seg.pFilesz) (va + PGSIZE)
  simp only [loadBytesOf]
  generalize (if va < seg.pVaddr then seg.pVaddr else va) = copyLo at *
  generalize (if seg.pVaddr + seg.pFilesz < va + PGSIZE then seg.pVaddr + seg.pFilesz else va + PGSIZE) = copyHi at *
  split
  · rename_i some
    rw [BitVec.lt_def] at some
    have offset : (copyLo - va).toNat = copyLo.toNat - va.toNat := BitVec.toNat_sub_of_le (BitVec.le_def.mpr (by omega))
    have length : (copyHi - copyLo).toNat = copyHi.toNat - copyLo.toNat := BitVec.toNat_sub_of_le (Nat.le_of_lt some)
    obtain ⟨sameFrame, within⟩ := frameOf_add phys (copyLo - va) (by omega)
    rw [← sameFrame]
    exact copyIn_confined s _ image _ _ (by omega)
  · exact .refl _ s

theorem pteGetAddr_aligned (pte : PageTableEntry) : (pteGetAddr pte).toNat % 4096 = 0 := by
  rw [pteGetAddr_eq, addr_mask_toNat]
  omega

/-- A page that is mapped is written to. -/
theorem loadPage_mapped (isPresent : present (leafEntry s r va) = true) :
    loadPage r image seg va s = (loadBytesOf seg image va (pteGetAddr (leafEntry s r va)) s, true) := by
  rw [leafEntry, vmmWalk_read Lower] at isPresent
  rw [loadPage, leafEntry, vmmWalk_read Lower]
  cases reached : follow (layout Lower) s.mem r (tablePath va) with
  | none =>
    rw [reached] at isPresent
    exact absurd isPresent (show ¬ present 0#64 = true by decide)
  | some pt =>
    simp only [reached, Option.map_some] at isPresent
    simp [isPresent]

/-- For a page that is not mapped a frame is taken. -/
theorem loadPage_missing (absent : present (leafEntry s r va) = false) :
    loadPage r image seg va s = match pageAlloc s 1#32 with
      | (s, none) => (s, false)
      | (s, some pp) => (loadBytesOf seg image va (page2pa pp) (vmmMap s r va (page2pa pp) USER_FLAGS), true) := by
  rw [leafEntry, vmmWalk_read Lower] at absent
  rw [loadPage, vmmWalk_read Lower]
  cases reached : follow (layout Lower) s.mem r (tablePath va) with
  | none => rfl
  | some pt =>
    simp only [reached, Option.map_some] at absent
    have unmapped : (if present (s.mem pt (leafIndex va)) then some (pteGetAddr (s.mem pt (leafIndex va))) else none) =
        none := by
      rw [absent]
      rfl
    rw [Option.map_some]
    dsimp only
    generalize (if present (s.mem pt (leafIndex va)) then some (pteGetAddr (s.mem pt (leafIndex va))) else none) =
      found at unmapped ⊢
    subst unmapped
    rfl

/-- One round of the page loop. -/
theorem loadPage_evolves (seg : Segment) (image : Image) (forest : Forest root others 4 s free)
    (isRoot : root k = some r) (lower : Lower (subscript (pml4Index va))) (room : va.toNat + 4096 < 2 ^ 64) :
    ∃ rest, Evolves root others k s (loadPage r image seg va s).1 free rest := by
  cases isPresent : present (leafEntry s r va) with
  | true =>
    rw [loadPage_mapped isPresent]
    have confined : Confined (tableOf (leafEntry s r va)) s _ :=
      loadBytesOf_confined va _ s image seg (pteGetAddr_aligned (leafEntry s r va)) room
    dsimp only
    exact ⟨free, writePage_evolves forest (confined.list forest.list) (leaf_node isRoot lower isPresent)
      (by simp [tablePath]) confined.elsewhere⟩
  | false =>
    rw [loadPage_missing isPresent]
    rcases pageAlloc_cases forest.list 1#32 with ⟨_, failed⟩ | ⟨pp, rest, s₁, rfl, took, list, cleared⟩
    · rw [failed]
      exact ⟨free, .refl forest⟩
    · have elsewhere : ∀ g, g ≠ pp → s₁.mem g = s.mem g := fun g => alloc_elsewhere cleared
      have small' := forest.list.small pp List.mem_cons_self
      obtain ⟨rest', evolves, noTable⟩ := map_evolves va forest list elsewhere isRoot lower
      have page := page2pa_toNat small'
      have confined := loadBytesOf_confined va (page2pa pp) (vmmMap s₁ r va (page2pa pp) USER_FLAGS) image seg
        (by omega) room
      rw [frameOf_page2pa small'] at confined
      rw [took]
      dsimp only
      exact ⟨rest', evolves.writeTaken (confined.list evolves.forest.list) List.mem_cons_self noTable
        confined.elsewhere⟩

/-- A loop whose rounds are steps of memory is one. -/
theorem forEach_evolves {α : Type} (body : α → Phys → Phys × Bool) (items : List α)
    (forest : Forest root others 4 s free)
    (each : ∀ a ∈ items, ∀ s free, Forest root others 4 s free →
      ∃ rest, Evolves root others k s (body a s).1 free rest) :
    ∃ rest, Evolves root others k s (Loop.forEach body items s).1 free rest := by
  refine Loop.forEach_invariant (fun s' => ∃ rest, Evolves root others k s s' free rest) ⟨free, .refl forest⟩ ?_
  rintro a member s' ⟨rest, evolves⟩
  obtain ⟨rest', next⟩ := each a member s' rest evolves.forest
  exact ⟨rest', evolves.trans next⟩

theorem segment_end (inside : seg.pVaddr.toNat + seg.pMemsz.toNat ≤ 2 ^ 47) :
    (roundup (seg.pVaddr + seg.pMemsz) PGSIZE).toNat = (seg.pVaddr.toNat + seg.pMemsz.toNat + 4095) / 4096 * 4096 := by
  have sum : (seg.pVaddr + seg.pMemsz).toNat = seg.pVaddr.toNat + seg.pMemsz.toNat := by
    rw [BitVec.toNat_add]
    omega
  rw [roundup_page _ (by omega), sum]

theorem loadSegment_evolves (image : Image) (forest : Forest root others 4 s free) (isRoot : root k = some r)
    (lower : InLowerHalf seg) : ∃ rest, Evolves root others k s (loadSegment r image seg s).1 free rest := by
  unfold loadSegment
  split
  · exact ⟨free, .refl forest⟩
  · rename_i isLoad
    have inside := lower (not_not.mp isLoad)
    have stop := segment_end inside
    let count := (seg.pVaddr.toNat + seg.pMemsz.toNat + 4095) / 4096 - seg.pVaddr.toNat / 4096
    have ran := pageLoop_eq (loadPage r image seg) (rounddown seg.pVaddr PGSIZE)
      (roundup (seg.pVaddr + seg.pMemsz) PGSIZE) count
      (by rw [rounddown_toNat, stop]; omega) (by rw [PAGE_LOOP_FUEL]; omega : count < PAGE_LOOP_FUEL) s
    dsimp only
    rw [ran, Option.getD_some]
    refine forEach_evolves _ _ forest (fun va member s' free' forest' => ?_)
    have small : va.toNat < 2 ^ 47 := by
      obtain ⟨n, bound, rfl⟩ := List.mem_map.mp member
      rw [List.mem_range] at bound
      rw [BitVec.toNat_add, rounddown_toNat, BitVec.toNat_ofNat]
      omega
    exact loadPage_evolves seg image forest' isRoot (lower_of_small small) (by omega)

/-- Loading a program, also when frames run out in the middle. -/
theorem elfLoad_evolves (forest : Forest root others 4 s free) (isRoot : root k = some r)
    (lower : ∀ seg ∈ image.segments, InLowerHalf seg) :
    ∃ rest, Evolves root others k s (elfLoad s r image).1 free rest := by
  have loaded := forEach_evolves (loadSegment r image) image.segments forest
    (fun seg member s' free' forest' => loadSegment_evolves image forest' isRoot (lower seg member))
  unfold elfLoad
  split
  · exact ⟨free, .refl forest⟩
  · split
    · exact ⟨free, .refl forest⟩
    · generalize Loop.forEach (loadSegment r image) image.segments s = out at *
      obtain ⟨s', _ | _⟩ := out
      · exact loaded
      · exact loaded

end HobbyKernel.ElfProofs
