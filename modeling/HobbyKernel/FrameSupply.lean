import HobbyKernel.PageAllocProofs
import HobbyKernel.Core.Machine

/-! Nothing in paging, in the ELF loader or in the task code gives a frame back.
Whatever they do, the free list afterwards is what is left of the one before. -/
namespace HobbyKernel.FrameSupply
open AddressBits PageAllocProofs

variable {s s' s'' : Phys} {free : List Nat}

/-- The free list lost some of its first frames. -/
structure Draws (s s' : Phys) : Prop where
  left : ∀ free, FreeList s free → ∃ taken rest, free = taken ++ rest ∧ FreeList s' rest

theorem Draws.refl (s : Phys) : Draws s s := ⟨fun free list => ⟨[], free, rfl, list⟩⟩

theorem Draws.trans (first : Draws s s') (second : Draws s' s'') : Draws s s'' := by
  refine ⟨fun free list => ?_⟩
  obtain ⟨taken, rest, rfl, list'⟩ := first.left free list
  obtain ⟨more, rest', rfl, list''⟩ := second.left rest list'
  exact ⟨taken ++ more, rest', by rw [List.append_assoc], list''⟩

/-- Only the contents of memory changed. -/
theorem draws_of_pages (pages : s'.pages = s.pages) (head : s'.pageFreeList = s.pageFreeList) : Draws s s' := by
  refine ⟨fun free list => ?_⟩
  obtain ⟨linked, small⟩ := list
  rw [← pages, ← head] at linked
  exact ⟨[], free, rfl, linked, small⟩

theorem writeEntry_draws (s : Phys) (f : Frame) (i : Index) (value : U64) : Draws s (s.writeEntry f i value) :=
  draws_of_pages rfl rfl

theorem pageAlloc_draws (s : Phys) (flags : U32) : Draws s (pageAlloc s flags).1 := by
  refine ⟨fun free list => ?_⟩
  rcases pageAlloc_cases list flags with ⟨_, failed⟩ | ⟨pp, rest, s', rfl, took, list', _⟩
  · exact ⟨[], free, rfl, by rw [failed]; exact list⟩
  · exact ⟨[pp], rest, rfl, by rw [took]; exact list'⟩

theorem nextTable_draws (s : Phys) (table : Frame) (idx : Index) (create : Bool) :
    Draws s (nextTable s table idx create).1 := by
  have alloc := pageAlloc_draws s 1#32
  unfold nextTable
  split
  · exact .refl s
  · split
    · exact .refl s
    · generalize pageAlloc s 1#32 = out at *
      obtain ⟨s', _ | pp⟩ := out
      · exact alloc
      · exact Draws.trans alloc (writeEntry_draws ..)

theorem vmmWalk_draws (s : Phys) (pml4 : Frame) (vaddr : U64) (create : Bool) :
    Draws s (vmmWalk s pml4 vaddr create).1 := by
  have first := nextTable_draws s pml4 (subscript (pml4Index vaddr)) create
  unfold vmmWalk
  generalize nextTable s pml4 (subscript (pml4Index vaddr)) create = out at *
  obtain ⟨s₁, _ | pdpt⟩ := out
  · exact first
  · have second := nextTable_draws s₁ pdpt (subscript (pdptIndex vaddr)) create
    dsimp only
    generalize nextTable s₁ pdpt (subscript (pdptIndex vaddr)) create = out at *
    obtain ⟨s₂, _ | pd⟩ := out
    · exact first.trans second
    · have third := nextTable_draws s₂ pd (subscript (pdIndex vaddr)) create
      dsimp only
      generalize nextTable s₂ pd (subscript (pdIndex vaddr)) create = out at *
      obtain ⟨s₃, _ | pt⟩ := out
      · exact (first.trans second).trans third
      · exact (first.trans second).trans third

theorem vmmMap_draws (s : Phys) (pml4 : Frame) (vaddr physAddr flags : U64) :
    Draws s (vmmMap s pml4 vaddr physAddr flags) := by
  have walk := vmmWalk_draws s pml4 vaddr true
  unfold vmmMap
  generalize vmmWalk s pml4 vaddr true = out at *
  obtain ⟨s', _ | ⟨pt, idx⟩⟩ := out
  · exact walk
  · exact walk.trans (writeEntry_draws ..)

theorem mapStack_draws (s : Phys) (pml4 : Frame) (vaddr : U64) : Draws s (mapStack s pml4 vaddr) := by
  have alloc := pageAlloc_draws s 1#32
  unfold mapStack
  generalize pageAlloc s 1#32 = out at *
  obtain ⟨s', _ | pp⟩ := out
  · exact alloc
  · exact alloc.trans (vmmMap_draws ..)

theorem copyPage_draws (child : Frame) (vaddr : U64) (parentPte : PageTableEntry) (s : Phys) :
    Draws s (copyPage child vaddr parentPte s).1 := by
  have alloc := pageAlloc_draws s 0#32
  unfold copyPage
  generalize pageAlloc s 0#32 = out at *
  obtain ⟨s', _ | pp⟩ := out
  · exact alloc
  · have copied : Draws s' (s'.copyFrame (frameOf (page2pa pp)) (frameOf (pteGetAddr parentPte))) := draws_of_pages rfl rfl
    exact (alloc.trans copied).trans (vmmMap_draws ..)

theorem scanTable_draws {s₀ : Phys} {table : Frame} {below : Index → PageTableEntry → Phys → Phys × Bool} {i : Index}
    (keep : ∀ pte s, Draws s₀ s → Draws s₀ (below i pte s).1) (s : Phys) (before : Draws s₀ s) :
    Draws s₀ (scanTable table below i s).1 := by
  unfold scanTable
  dsimp only
  split
  · exact keep _ s before
  · exact before

theorem copyLower_draws (parent child : Frame) (s : Phys) : Draws s (copyLower parent child s).1 := by
  refine Loop.forEach_invariant (Draws s) (.refl s) fun i4 _ => scanTable_draws fun e4 s₁ before => ?_
  refine Loop.forEach_invariant (Draws s) before fun i3 _ => scanTable_draws fun e3 s₂ before => ?_
  refine Loop.forEach_invariant (Draws s) before fun i2 _ => scanTable_draws fun e2 s₃ before => ?_
  refine Loop.forEach_invariant (Draws s) before fun i1 _ => scanTable_draws fun pte s₄ before => ?_
  exact before.trans (copyPage_draws ..)

theorem copyIn_draws (s : Phys) (dst : U64) (image : Image) (src : U64) (n : Nat) :
    Draws s (s.copyIn dst image src n) := by
  induction n generalizing s dst src with
  | zero => exact .refl s
  | succ n ih =>
    have first : Draws s (s.storeAt dst (image src)) := draws_of_pages rfl rfl
    exact first.trans (ih ..)

theorem loadBytesOf_draws (seg : Segment) (image : Image) (va phys : U64) (s : Phys) :
    Draws s (loadBytesOf seg image va phys s) := by
  simp only [loadBytesOf]
  generalize (if va < seg.pVaddr then seg.pVaddr else va) = copyLo
  generalize (if seg.pVaddr + seg.pFilesz < va + PGSIZE then seg.pVaddr + seg.pFilesz else va + PGSIZE) = copyHi
  split
  · exact copyIn_draws ..
  · exact .refl s

theorem loadPage_draws (pml4 : Frame) (image : Image) (seg : Segment) (va : U64) (s : Phys) :
    Draws s (loadPage pml4 image seg va s).1 := by
  have copied := loadBytesOf_draws seg image va
  have alloc := pageAlloc_draws s 1#32
  unfold loadPage
  dsimp only
  generalize loadBytesOf seg image va = copy at *
  split
  · exact copied _ s
  · generalize pageAlloc s 1#32 = out at *
    obtain ⟨s', _ | pp⟩ := out
    · exact alloc
    · exact (alloc.trans (vmmMap_draws ..)).trans (copied _ _)

theorem pageLoop_draws {body : U64 → Phys → Phys × Bool} (keep : ∀ va s, Draws s (body va s).1) {stop : U64} {fuel : Nat}
    {va : U64} {answer : Bool} (ran : pageLoop body stop fuel va s = some (s', answer)) : Draws s s' := by
  induction fuel generalizing va s with
  | zero => cases ran
  | succ fuel ih =>
    have once := keep va s
    unfold pageLoop at ran
    split at ran
    · generalize body va s = out at *
      obtain ⟨s₁, _ | _⟩ := out
      · cases ran
        exact once
      · exact once.trans (ih ran)
    · cases ran
      exact .refl _

theorem elfLoad_draws (s : Phys) (pml4 : Frame) (image : Image) : Draws s (elfLoad s pml4 image).1 := by
  have segments : Draws s (Loop.forEach (loadSegment pml4 image) image.segments s).1 := by
    refine Loop.forEach_invariant (Draws s) (.refl s) fun seg _ s₁ before => ?_
    unfold loadSegment
    split
    · exact before
    · dsimp only
      cases ran : pageLoop (loadPage pml4 image seg) (roundup (seg.pVaddr + seg.pMemsz) PGSIZE) PAGE_LOOP_FUEL
          (rounddown seg.pVaddr PGSIZE) s₁ with
      | none => exact before
      | some out => exact before.trans (pageLoop_draws (loadPage_draws pml4 image seg) ran)
  unfold elfLoad
  split
  · exact .refl s
  · split
    · exact .refl s
    · generalize Loop.forEach (loadSegment pml4 image) image.segments s = out at *
      obtain ⟨s', _ | _⟩ := out
      · exact segments
      · exact segments

theorem writeWords_draws (s : Phys) (phys : U64) (words : List U64) : Draws s (s.writeWords phys words) := by
  induction words generalizing s phys with
  | nil => exact .refl s
  | cons value words ih =>
    have first : Draws s (s.writeWord phys value) := writeEntry_draws ..
    exact first.trans (ih ..)

theorem storeBytes_draws {root : Frame} {va : U64} {bytes : List Byte} (stored : Cpu.storeBytes s root va bytes = some s') :
    Draws s s' := by
  induction bytes generalizing s va with
  | nil =>
    cases stored
    exact .refl _
  | cons b bytes ih =>
    simp only [Cpu.storeBytes] at stored
    cases first : Cpu.store s root va b with
    | none => simp [first] at stored
    | some s₁ =>
      simp only [first] at stored
      have once : Draws s s₁ := by
        unfold Cpu.store at first
        split at first
        · cases first
        · split at first
          · cases first
            exact writeEntry_draws ..
          · cases first
      exact once.trans (ih stored)

end HobbyKernel.FrameSupply
