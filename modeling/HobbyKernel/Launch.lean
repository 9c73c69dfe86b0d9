import HobbyKernel.Core.Launch
import HobbyKernel.ContextProofs
import HobbyKernel.ElfImage
import HobbyKernel.ForkProofs

/-! The first program, from nothing to its first instruction. Each stage leaves
what the next one needs: a fresh address space, the image in it, a clear page
for the stack, and on the kernel stack the frames that `context_switch` and
`syscall_entry_return` take off. -/
namespace HobbyKernel.Launch
open AddressBits PageAllocProofs WalkProofs CopyProofs AddressSpaces UaccessProofs UserAccess SpaceEvolution PageWrites UserBytes
open ElfProofs ElfImage ReportedSuccess MapSupply Radix Supplies TaskTable TaskEffects TaskInvariant ContextInvariant IsolationSteps Isolation StackWords
open SwitchProofs ForkProofs ContextProofs Runs

variable {p p' : Processor} {s s' : Phys} {free rest : List Nat} {r pp : Frame} {va : U64} {image : Image} {k k' : Kernel} {t : Slot}
  {mapped : List U64} {done : List (Segment × U64)} {supply : FrameSupply} {a : Action}

/-- The page below the top of the user stack. -/
def stackPage : U64 := USER_STACK_TOP - PGSIZE

/-- The user stack as a segment without bytes in the file. -/
def stackSegment : Segment := ⟨PT_LOAD, 0, stackPage, 0, PGSIZE⟩

/-- The frames that an image and a page of stack take. -/
def framesForProgram (image : Image) : Nat :=
  demand tablePrefixes (fun _ => false) (takers pageOf true (fun _ => false) (imagePages image ++ [stackPage]))

/-- A page of stack is mapped as `elf_load` maps a page. -/
theorem loadPage_stack (absent : present (leafEntry s r stackPage) = false)
    (ran : loadPage r image stackSegment stackPage s = (s', true)) :
    ∃ s₁ pp, pageAlloc s 1#32 = (s₁, some pp) ∧ s' = vmmMap s₁ r stackPage (page2pa pp) USER_FLAGS := by
  have nothing : ∀ phys s, loadBytesOf stackSegment image stackPage phys s = s := fun _ _ => rfl
  rw [loadPage_missing absent] at ran
  cases took : pageAlloc s 1#32 with
  | mk s₁ taken =>
    rw [took] at ran
    cases taken with
    | none => cases ran
    | some pp =>
      dsimp only at ran
      rw [nothing] at ran
      cases ran
      exact ⟨s₁, pp, rfl, rfl⟩

/-- A write to a frame that is not part of the address space. -/
theorem Loaded.elsewhere (loaded : Loaded image r mapped done s free supply) (confined : Confined pp s s')
    (apart : ∀ path, ¬ Node (layout Lower) s.mem (alone r) 4 () path pp) : Loaded image r mapped done s' free supply := by
  have node_same : ∀ k path f, Node (layout Lower) s.mem (alone r) 4 k path f → s'.mem f = s.mem f := by
    rintro ⟨⟩ path f node
    refine confined.elsewhere f ?_
    rintro rfl
    exact apart path node
  have table_same := fun k path f node => node_same k path f (Node.mono node (by omega : 3 ≤ 4))
  have leaf : ∀ a : U64, a.toNat < 2 ^ 47 → leafEntry s' r a = leafEntry s r a := fun a small =>
    leafEntry_frame (k := ()) (alone_self r) (lower_of_small small) (table_same ())
  have byte : ∀ a : U64, a.toNat < 2 ^ 47 → present (leafEntry s r a) = true → byteAt s' r a = byteAt s r a := by
    intro a small isPresent
    have page := leaf_node (k := ()) (alone_self r) (lower_of_small small) isPresent
    rw [byteAt, byteAt, leaf a small, Phys.readByte, Phys.readByte, node_same _ _ _ page]
  refine ⟨loaded.forest.contents (confined.list loaded.forest.list) table_same,
    loaded.supplied.frame (alone_self r) (table_same ()), fun a small => ?_, fun a small isPresent => ?_, loaded.within,
    fun p member a small onPage inFile => ?_, fun a small isPresent none => ?_⟩
  · rw [leaf a small]
    exact loaded.pages a small
  · rw [leaf a small] at isPresent ⊢
    exact loaded.user a small isPresent
  · rw [byte a small ((loaded.pages a small).mpr ⟨p.2, loaded.within p member, onPage⟩)]
    exact loaded.filled p member a small onPage inFile
  · rw [leaf a small] at isPresent
    rw [byte a small isPresent]
    exact loaded.zero a small isPresent none

theorem stack_empty (a : Nat) : ¬ InFile stackSegment a := by
  rintro ⟨low, high⟩
  have none : stackSegment.pFilesz.toNat = 0 := rfl
  omega

/-- The pages of an image are user pages, and no two segments fill the same byte. -/
theorem image_pair (good : Loadable image) {p : Segment × U64} (member : p ∈ imagePairs image) :
    p.2.toNat < 2 ^ 47 ∧ p.2.toNat % 4096 = 0 ∧ p.1.pVaddr.toNat + p.1.pFilesz.toNat < 2 ^ 64 := by
  obtain ⟨isLoaded, isPage⟩ := mem_imagePairs.mp member
  obtain ⟨shorter, inside⟩ := good.fits p.1 isLoaded
  obtain ⟨aligned, _, high⟩ := (mem_segmentPages (mem_loadedSegments.mp isLoaded).2 inside).mp isPage
  rw [BitVec.le_def] at shorter
  exact ⟨by omega, aligned, by omega⟩

theorem image_sole (good : Loadable image) {p q : Segment × U64} (first : p ∈ imagePairs image)
    (second : q ∈ imagePairs image) {a : Nat} (inFirst : InFile p.1 a) (inSecond : InFile q.1 a) : p.1 = q.1 := by
  have isFirst := (mem_imagePairs.mp first).1
  have isSecond := (mem_imagePairs.mp second).1
  exact good.sole isFirst isSecond (good.inMemory isFirst inFirst) (good.inMemory isSecond inSecond)

/-- The image and the stack, and nothing else in the lower half. -/
def ProgramIn (image : Image) (r : Frame) (s : Phys) : Prop :=
  ∃ free supply,
    Loaded image r (imagePages image ++ [stackPage]) (imagePairs image ++ [(stackSegment, stackPage)]) s free supply

/-- The loop of `elf_load`, with frames for all of it. -/
theorem image_loaded (fresh : Fresh s r free) (good : Loadable image) (enough : framesFor image ≤ free.length) :
    ∃ s', elfLoad s r image = (s', some image.eEntry) ∧
      Loop.forEach (fun p => loadPage r image p.1 p.2) (imagePairs image) s = (s', true) ∧
      ∃ free' supply, Loaded image r (imagePages image) (imagePairs image) s' free' supply := by
  obtain ⟨s', free', supply, ran, loaded⟩ := (fresh.loaded image).run (fun p => image_pair good)
    (fun p first q second a => image_sole good first second) (by rw [imagePairs_pages]; exact enough)
  rw [List.nil_append, List.nil_append, imagePairs_pages] at loaded
  refine ⟨s', ?_, ran, free', supply, loaded⟩
  rw [elfLoad, if_neg (not_not.mpr good.magic), if_neg (not_not.mpr good.elfClass), loadSegments_pairs, ran]

/-- `elf_load` and the stack page, with frames for both. -/
theorem program_loaded (fresh : Fresh s r free) (good : Loadable image)
    (clear : ∀ seg ∈ loadedSegments image, ¬ OnPage seg stackPage.toNat) (enough : framesForProgram image ≤ free.length) :
    ∃ s₁ s₂ pp, elfLoad s r image = (s₁, some image.eEntry) ∧ pageAlloc s₁ 1#32 = (s₂, some pp) ∧
      ProgramIn image r (vmmMap s₂ r stackPage (page2pa pp) USER_FLAGS) ∧
      (∀ path f, Node (layout Lower) (vmmMap s₂ r stackPage (page2pa pp) USER_FLAGS).mem (alone r) 4 () path f → f = r ∨ f ∈ free) ∧
      ∀ f i, (vmmMap s₂ r stackPage (page2pa pp) USER_FLAGS).mem f i ≠ s.mem f i → f ∈ free ∨ (f = r ∧ Lower i) := by
  have less : framesFor image ≤ framesForProgram image := demand_takers_le ..
  obtain ⟨s₁, result, looped, _, _, inImage⟩ := image_loaded fresh good (Nat.le_trans less enough)
  have lower : ∀ seg ∈ image.segments, InLowerHalf seg := fun seg member isLoad =>
    (good.fits seg (mem_loadedSegments.mpr ⟨member, isLoad⟩)).2
  obtain ⟨rest₁, evolves₁⟩ := elfLoad_evolves (k := ()) fresh.forest rfl lower
  rw [result] at evolves₁
  have small : stackPage.toNat < 2 ^ 47 := by decide
  -- No segment touches the page of the stack.
  have absent : present (leafEntry s₁ r stackPage) = false := by
    by_contra isPresent
    rw [Bool.not_eq_false, inImage.pages stackPage small, ← good.onPage] at isPresent
    obtain ⟨seg, member, touched⟩ := isPresent
    exact clear seg member touched
  have bounds : ∀ p ∈ imagePairs image ++ [(stackSegment, stackPage)],
      p.2.toNat < 2 ^ 47 ∧ p.2.toNat % 4096 = 0 ∧ p.1.pVaddr.toNat + p.1.pFilesz.toNat < 2 ^ 64 := by
    intro p member
    rcases List.mem_append.mp member with inImage | isStack
    · exact image_pair good inImage
    · rw [List.mem_singleton.mp isStack]
      decide
  have sole : ∀ p ∈ imagePairs image ++ [(stackSegment, stackPage)], ∀ q ∈ imagePairs image ++ [(stackSegment, stackPage)],
      ∀ a, InFile p.1 a → InFile q.1 a → p.1 = q.1 := by
    intro p first q second a inFirst inSecond
    rcases List.mem_append.mp first with inImage | isStack
    · rcases List.mem_append.mp second with inImage' | isStack
      · exact image_sole good inImage inImage' inFirst inSecond
      · rw [List.mem_singleton.mp isStack] at inSecond
        exact absurd inSecond (stack_empty a)
    · rw [List.mem_singleton.mp isStack] at inFirst
      exact absurd inFirst (stack_empty a)
  obtain ⟨s', free', supply, ran, loaded⟩ := (fresh.loaded image).run bounds sole (by
    rw [List.map_append, imagePairs_pages]
    exact enough)
  rw [List.map_append, imagePairs_pages, List.nil_append, List.nil_append] at loaded
  -- The loop is that of `elf_load`, and a last round for the stack.
  rw [Loop.forEach_append, looped, if_pos rfl, Loop.forEach_single] at ran
  obtain ⟨s₂, pp, took, rfl⟩ := loadPage_stack absent ran
  have isMap : mapStack s₁ r stackPage = vmmMap s₂ r stackPage (page2pa pp) USER_FLAGS := by rw [mapStack, took]
  obtain ⟨rest₂, evolves₂⟩ := mapStack_evolves (i := ()) stackPage evolves₁.forest rfl (lower_of_small small)
  rw [isMap] at evolves₂
  have evolves := evolves₁.trans evolves₂
  refine ⟨s₁, s₂, pp, result, took, ⟨free', supply, loaded⟩, fun path f node => ?_, fun f i changed => ?_⟩
  · rcases evolves.added () path f node with old | new
    · exact .inl (fresh.top old).2
    · exact .inr new
  · rcases evolves.frame f i changed with new | ⟨path, node, admitted⟩
    · exact .inl new
    · obtain ⟨rfl, rfl⟩ := fresh.top node
      exact .inr ⟨rfl, admitted i rfl⟩

/-- The addresses that belong to the program. -/
def Owns (image : Image) (a : Nat) : Prop :=
  (∃ seg ∈ loadedSegments image, OnPage seg a) ∨ a / 4096 = stackPage.toNat / 4096

/-- What a program finds in its address space. -/
structure Finds (image : Image) (r : Frame) (s : Phys) : Prop where
  bytes : ∀ seg ∈ loadedSegments image, ∀ n < seg.pMemsz.toNat, Cpu.load s r (seg.pVaddr + BitVec.ofNat 64 n) =
    some (if n < seg.pFilesz.toNat then image (seg.pOffset + BitVec.ofNat 64 n) else 0)
  stack : ∀ n < 4096, Cpu.load s r (stackPage + BitVec.ofNat 64 n) = some 0
  owns : ∀ va : U64, va.toNat < 2 ^ 47 → Owns image va.toNat → Cpu.userMayAccess s.mem r va true = true
  nothingElse : ∀ va : U64, va.toNat < 2 ^ 47 → ¬ Owns image va.toNat → Cpu.translate s.mem r va = none

theorem owns_iff (good : Loadable image) (a : Nat) :
    Owns image a ↔ ∃ page ∈ imagePages image ++ [stackPage], a / 4096 = page.toNat / 4096 := by
  rw [Owns, good.onPage]
  simp only [List.mem_append, List.mem_singleton, or_and_right, exists_or, exists_eq_left]

theorem ProgramIn.finds (program : ProgramIn image r s) (good : Loadable image)
    (clear : ∀ seg ∈ loadedSegments image, ¬ OnPage seg stackPage.toNat) : Finds image r s := by
  obtain ⟨free, supply, loaded⟩ := program
  have isPresent : ∀ a : U64, a.toNat < 2 ^ 47 → (present (leafEntry s r a) = true ↔ Owns image a.toNat) :=
    fun a small => (loaded.pages a small).trans (owns_iff good a.toNat).symm
  have load : ∀ a : U64, a.toNat < 2 ^ 47 → Owns image a.toNat → Cpu.load s r a = some (byteAt s r a) :=
    fun a small owned => load_lower (k := ()) loaded.forest rfl small (loaded.user a small ((isPresent a small).mpr owned))
  refine ⟨fun seg member n below => ?_, fun n below => ?_, fun va small owned => ?_, fun va small other => ?_⟩
  · have inside := (good.fits seg member).2
    have place : (seg.pVaddr + BitVec.ofNat 64 n).toNat = seg.pVaddr.toNat + n := by
      rw [BitVec.toNat_add, BitVec.toNat_ofNat]
      omega
    have inMemory : InMemory seg (seg.pVaddr + BitVec.ofNat 64 n).toNat := by
      rw [place]
      exact ⟨by omega, by omega⟩
    have small : (seg.pVaddr + BitVec.ofNat 64 n).toNat < 2 ^ 47 := Nat.lt_of_lt_of_le inMemory.2 inside
    have owned : OnPage seg (seg.pVaddr + BitVec.ofNat 64 n).toNat := .inl ⟨_, inMemory, rfl⟩
    rw [load _ small (.inl ⟨seg, member, owned⟩)]
    split
    · next inFile =>
      obtain ⟨page, isPage, same⟩ := (onPage_iff (mem_loadedSegments.mp member).2 inside _).mp owned
      have filled := loaded.filled (seg, page) (List.mem_append_left _ (mem_imagePairs.mpr ⟨member, isPage⟩)) _ small same
        (by rw [place]; exact ⟨by dsimp only; omega, by dsimp only; omega⟩)
      rw [filled, place, fileByte, Nat.add_sub_cancel_left]
    · next outside =>
      refine congrArg some (loaded.zero _ small ((isPresent _ small).mpr (.inl ⟨seg, member, owned⟩)) ?_)
      rintro p isDone _ inOther
      rcases List.mem_append.mp isDone with inImage | isStack
      · have isLoaded := (mem_imagePairs.mp inImage).1
        rw [good.sole isLoaded member (good.inMemory isLoaded inOther) inMemory, InFile, place] at inOther
        omega
      · rw [List.mem_singleton.mp isStack] at inOther
        exact stack_empty _ inOther
  · have base : stackPage.toNat = 0x5fff000 := rfl
    have place : (stackPage + BitVec.ofNat 64 n).toNat = stackPage.toNat + n := by
      rw [BitVec.toNat_add, BitVec.toNat_ofNat]
      omega
    have small : (stackPage + BitVec.ofNat 64 n).toNat < 2 ^ 47 := by omega
    have samePage : (stackPage + BitVec.ofNat 64 n).toNat / 4096 = stackPage.toNat / 4096 := by omega
    rw [load _ small (.inr samePage)]
    refine congrArg some (loaded.zero _ small ((isPresent _ small).mpr (.inr samePage)) ?_)
    rintro p isDone _ inOther
    rcases List.mem_append.mp isDone with inImage | isStack
    · have isLoaded := (mem_imagePairs.mp inImage).1
      exact clear p.1 isLoaded (.inl ⟨_, good.inMemory isLoaded inOther, samePage⟩)
    · rw [List.mem_singleton.mp isStack] at inOther
      exact stack_empty _ inOther
  · rw [userMayAccess_eq loaded.forest.walkable (alone_self r) small]
    exact loaded.user va small ((isPresent va small).mpr owned)
  · rw [translate_lower loaded.forest.walkable (alone_self r) small, if_neg]
    exact fun mapped => other ((isPresent va small).mp mapped)

/-- `task_create` with two frames: an address space with an empty lower half, and
a kernel stack that is no part of it. -/
theorem taskCreate_fresh (list : FreeList k.phys (r :: pp :: rest)) (held : getCurrentPml4 k.cr3 ≠ r)
    (head : k.tasks.taskFreeList = some t) :
    ∃ s task, taskCreate k = ({ k with phys := s, tasks := k.tasks.spawn t task .fresh }, some t) ∧ Fresh s r rest ∧
      task.pml4 = some r ∧ task.kstackTop = some (page2pa pp + 4096) ∧ task.state = .runnable ∧
      (∀ j, ¬ Lower j → s.mem r j = k.phys.mem (getCurrentPml4 k.cr3) j) ∧
      ∀ f, f ∉ r :: pp :: rest → s.mem f = k.phys.mem f := by
  have filled := fill_slot head
  have took : k.tasks.taskSlotAlloc = (k.tasks.taskSlotAlloc.1, some t) := by simp only [taskSlotAlloc, head]
  have distinct := list.nodup
  simp only [List.nodup_cons, List.mem_cons, not_or] at distinct
  unfold taskCreate
  rw [took]
  generalize k.tasks.taskSlotAlloc.1 = T at *
  rcases vmmNewAddressSpace_cases list k.cr3 with ⟨none, _⟩ | ⟨child, _, s₁, made, isFree, building, _, upper⟩
  · cases none
  · cases isFree
    obtain ⟨_, split, fresh⟩ := newAddressSpace_fresh list made
    cases split
    simp only [made]
    rcases taskKstackAlloc_memory { k with phys := s₁, tasks := T } t fresh.list with
      ⟨none, _⟩ | ⟨_, _, s₂, isFree, list₂, elsewhere, ran⟩
    · cases none
    · cases isFree
      simp only [ran, modify_modify, filled]
      refine ⟨s₂, _, rfl, ⟨list₂, distinct.1.2, fun j lower => ?_⟩, rfl, rfl, rfl, fun j notLower => ?_, fun f notFree => ?_⟩
      · rw [elsewhere r distinct.1.1]
        exact fresh.empty j lower
      · rw [elsewhere r distinct.1.1]
        exact upper j notLower held
      · rw [elsewhere f fun isStack => notFree (isStack ▸ List.mem_cons_of_mem r List.mem_cons_self)]
        exact building.outside f notFree

/-- The registers of a program that has run no instruction. -/
def entryRegs (entry userStackTop : U64) : SyscallRegs :=
  ⟨0, 0, 0, 0, 0, 0, 0, 0, 0, 0, 0, 0, 0, 0, 0, entry, USER_CS, 0x202, userStackTop, USER_DS⟩

/-- What `task_prepare_user_entry` leaves on a kernel stack. -/
theorem prepare_spec (isTop : (k.tasks.slot t).kstackTop = some (page2pa pp + 4096)) (small : pp < 2 ^ 40)
    (entry userStackTop : U64) :
    let k' := taskPrepareUserEntry k t entry userStackTop
    let frameTop := page2pa pp + 4096 - SIZEOF_SYSCALL_REGS
    Suspended pp k' t ⟨k.symbols.syscallEntryReturn, frameTop, 0, 0, frameTop, 0, 0, 0⟩ ∧
      Block pp k'.phys frameTop (entryRegs entry userStackTop) ∧ Confined pp k.phys k'.phys ∧
      ∃ f, k' = { k with
        phys := k'.phys
        tasks := (k.tasks.modify t f).resumeAt t .user } ∧ (∀ task, (f task).pml4 = task.pml4) ∧
        ∀ task, (f task).kstackTop = task.kstackTop := by
  intro k' frameTop
  have suspended := (Built.prepare k t _ entry userStackTop isTop).suspended small
  obtain ⟨value, inside⟩ := block_below small
  obtain ⟨_, low⟩ := frame_below small
  have phys : k'.phys = (k.phys.writeWords frameTop (entryRegs entry userStackTop).words).writeWords (frameTop - 8 - 48)
      (contextFrame frameTop k.symbols.syscallEntryReturn) := by
    simp only [k', taskPrepareUserEntry, isTop]
    rfl
  have below : (frameTop - 8 - 48).toNat + 56 = frameTop.toNat := by
    rw [BitVec.toNat_sub, BitVec.toNat_sub, value, show (8 : U64).toNat = 8 from rfl, show (48 : U64).toNat = 48 from rfl]
    omega
  refine ⟨suspended, ⟨inside, ?_⟩, ?_, fun task => { task with contextRsp := frameTop - 8 - 48, state := .runnable }, ?_,
    fun _ => rfl, fun _ => rfl⟩
  · rw [phys, readWords_writeWords_below (contextFrame _ _) low inside (Nat.le_of_eq below)]
    exact readWords_writeWords (entryRegs entry userStackTop).words inside
  · rw [phys]
    exact stack_confined small k.phys (entryRegs entry userStackTop) frameTop k.symbols.syscallEntryReturn
  · simp only [k', taskPrepareUserEntry, isTop]
    rfl

/-- A task that has been prepared, and what its first switch will find. -/
structure Ready (image : Image) (k₀ k : Kernel) (t : Slot) (r pp : Frame) : Prop where
  program : Finds image r k.phys
  suspended : Suspended pp k t ⟨k₀.symbols.syscallEntryReturn, page2pa pp + 4096 - SIZEOF_SYSCALL_REGS, 0, 0,
    page2pa pp + 4096 - SIZEOF_SYSCALL_REGS, 0, 0, 0⟩
  block : Block pp k.phys (page2pa pp + 4096 - SIZEOF_SYSCALL_REGS) (entryRegs image.eEntry USER_STACK_TOP)
  space : (k.tasks.slot t).pml4 = some r
  top : (k.tasks.slot t).kstackTop = some (page2pa pp + 4096)
  small : r < 2 ^ 40
  kernelHalf : ∀ j, ¬ Lower j → k.phys.mem r j = k₀.phys.mem (getCurrentPml4 k₀.cr3) j

/-- The calls get a program ready when there are frames for it. -/
theorem loadFirst_ready (list : FreeList k.phys free) (held : getCurrentPml4 k.cr3 ∉ free)
    (head : k.tasks.taskFreeList = some t) (good : Loadable image)
    (clear : ∀ seg ∈ loadedSegments image, ¬ OnPage seg stackPage.toNat) (enough : 2 + framesForProgram image ≤ free.length) :
    ∃ k' r pp, loadFirst k image = some (k', t) ∧ Ready image k k' t r pp ∧
      ∀ f, f ∉ free → k'.phys.mem f = k.phys.mem f := by
  obtain ⟨r, pp, rest, rfl⟩ : ∃ r pp rest, free = r :: pp :: rest := by
    match free, enough with
    | r :: pp :: rest, _ => exact ⟨r, pp, rest, rfl⟩
    | [_], enough =>
      rw [List.length_singleton] at enough
      omega
    | [], enough =>
      rw [List.length_nil] at enough
      omega
  have apart := list.nodup
  simp only [List.nodup_cons, List.mem_cons, not_or] at apart
  have smallStack := list.small pp (List.mem_cons_of_mem r List.mem_cons_self)
  obtain ⟨s, task, made, fresh, isSpace, isTop, runnable, upper, outside⟩ :=
    taskCreate_fresh list (fun same => held (same ▸ List.mem_cons_self)) head
  obtain ⟨s₁, s₂, spp, loads, took, program, nodes, untouched⟩ := program_loaded fresh good clear
    (by simp only [List.length_cons] at enough; omega)
  let mapped : Kernel := { k with
    phys := vmmMap s₂ r stackPage (page2pa spp) USER_FLAGS
    tasks := (k.tasks.spawn t task .fresh).schedulerInit }
  have slotMapped : mapped.tasks.slot t = task := spawn_slot_same (c := .fresh)
  have topMapped : (mapped.tasks.slot t).kstackTop = some (page2pa pp + 4096) := by rw [slotMapped, isTop]
  obtain ⟨suspended, block, confined, f, isPrepared, keepsSpace, keepsTop⟩ :=
    prepare_spec topMapped smallStack image.eEntry USER_STACK_TOP
  generalize prepared : taskPrepareUserEntry mapped t image.eEntry USER_STACK_TOP = k' at *
  have loaded : loadFirst k image = some (k', t) := by
    unfold loadFirst
    rw [made]
    simp only [spawn_slot_same, isSpace, loads, took]
    rw [← prepared]
    rfl
  -- The frames go to the kernel stack, which is no part of the address space.
  have noNode : ∀ path, ¬ Node (layout Lower) mapped.phys.mem (alone r) 4 () path pp := by
    intro path node
    rcases nodes path pp node with isRoot | isFree
    · exact apart.1.1 isRoot.symm
    · exact apart.2.1 isFree
  have changes : ∀ f i, k'.phys.mem f i ≠ s.mem f i → f = pp ∨ f ∈ rest ∨ (f = r ∧ Lower i) := by
    intro f i changed
    by_cases isStack : f = pp
    · exact .inl isStack
    · rw [confined.elsewhere f isStack] at changed
      exact .inr (untouched f i changed)
  have slot : k'.tasks.slot t = f (mapped.tasks.slot t) := by
    rw [isPrepared]
    exact modify_slot_same
  refine ⟨k', r, pp, loaded, ⟨?_, suspended, block, ?_, ?_, list.small r List.mem_cons_self, fun j notLower => ?_⟩,
    fun f notFree => ?_⟩
  · obtain ⟨free, supply, loaded⟩ := program
    exact ProgramIn.finds ⟨free, supply, Loaded.elsewhere loaded confined noNode⟩ good clear
  · rw [slot, keepsSpace, slotMapped, isSpace]
  · rw [slot, keepsTop, topMapped]
  · rw [← upper j notLower]
    by_contra changed
    rcases changes r j changed with isStack | isFree | ⟨_, lower⟩
    · exact apart.1.1 isStack
    · exact apart.1.2 isFree
    · exact notLower lower
  · rw [← outside f notFree]
    simp only [List.mem_cons, not_or] at notFree
    funext i
    by_contra changed
    rcases changes f i changed with isStack | isFree | ⟨isRoot, _⟩
    · exact notFree.2.1 isStack
    · exact notFree.2.2 isFree
    · exact notFree.1 isRoot

/-- While no task runs a step is a step of the kernel alone. -/
theorem processorStep_boot (did : step p.kernel a = some (k', [])) (nobody : k'.tasks.currentTask = none) :
    processorStep p (a, p.rsp) = some ({ p with kernel := k' }, []) := by
  simp only [processorStep, did, nobody]

/-- A start switches to the task without saving anything. -/
theorem processorStep_start (nobody : p.kernel.tasks.currentTask = none)
    (runnable : (p.kernel.tasks.slot t).state = .runnable) :
    processorStep p (.start t, p.rsp) = some
      ({ p with kernel := schedulerSwitchTo { p.kernel with tasks := { p.kernel.tasks with currentTask := some t } } t }.exec
        (contextSwitch none t), []) := by
  have did : step p.kernel (.start t) =
      some (schedulerSwitchTo { p.kernel with tasks := { p.kernel.tasks with currentTask := some t } } t, []) :=
    if_pos ⟨nobody, runnable⟩
  have current : (schedulerSwitchTo { p.kernel with tasks := { p.kernel.tasks with currentTask := some t } } t).tasks.currentTask =
      some t := by rw [schedulerSwitchTo_tasks]
  simp only [processorStep, did, current, nobody]
  rw [if_neg (by simp)]

theorem prepare_tasks (k : Kernel) (t : Slot) (entry userStackTop : U64) :
    (taskPrepareUserEntry k t entry userStackTop).tasks.currentTask = k.tasks.currentTask ∧
      ((k.tasks.slot t).state = .runnable → ((taskPrepareUserEntry k t entry userStackTop).tasks.slot t).state = .runnable) := by
  unfold taskPrepareUserEntry
  split
  · exact ⟨rfl, id⟩
  · exact ⟨rfl, by simp⟩

/-- What has succeeded when a program is ready. -/
theorem loadFirst_stages (ready : loadFirst k image = some (k', t)) :
    ∃ k₁ r s₁ entry s₂ stackPp, taskCreate k = (k₁, some t) ∧ (k₁.tasks.slot t).pml4 = some r ∧
      elfLoad k₁.phys r image = (s₁, some entry) ∧ pageAlloc s₁ 1#32 = (s₂, some stackPp) ∧
      k' = taskPrepareUserEntry { k₁ with
        phys := vmmMap s₂ r stackPage (page2pa stackPp) USER_FLAGS
        tasks := k₁.tasks.schedulerInit } t entry USER_STACK_TOP := by
  unfold loadFirst at ready
  split at ready
  · cases ready
  · next k₁ u made =>
    split at ready
    · cases ready
    · next r isSpace =>
      split at ready
      · cases ready
      · next s₁ entry loads =>
        split at ready
        · cases ready
        · next s₂ stackPp took =>
          obtain ⟨rfl, rfl⟩ := Prod.mk.inj (Option.some.inj ready)
          exact ⟨k₁, r, s₁, entry, s₂, stackPp, made, isSpace, loads, took, rfl⟩

/-- The calls are steps of the machine: whatever holds of all its runs holds from
the first program on. -/
theorem launch_run (table : TableInv p.kernel.tasks) (nobody : p.kernel.tasks.currentTask = none)
    (launched : launch p image = some p') : Run processorStep (fun _ _ => True) p [] p' := by
  obtain ⟨⟨k', t⟩, ready, rfl⟩ := Option.map_eq_some_iff.mp launched
  obtain ⟨k₁, r, s₁, entry, s₂, stackPp, made, isSpace, loads, took, isReady⟩ := loadFirst_stages ready
  have creation := taskCreate_creation table.clean
  rw [made] at creation
  obtain ⟨task, _, spawned, _, filled⟩ := creation.spawned
  dsimp only at filled
  have still : k₁.tasks.currentTask = none := by
    rw [filled]
    exact nobody
  have noIdle : k₁.tasks.schedulerInit = k₁.tasks := by
    have none : k₁.tasks.idleTask = none := by
      rw [filled]
      exact table.noIdle
    rw [schedulerInit, ← none]
  have waits : (k₁.tasks.slot t).state = .runnable ∧ k₁.tasks.control t = .fresh := by
    rw [filled, spawn_slot_same, spawn_control_same]
    exact ⟨spawned.state, rfl⟩
  rw [noIdle] at isReady
  let mapped : Kernel := { k₁ with phys := vmmMap s₂ r stackPage (page2pa stackPp) USER_FLAGS }
  obtain ⟨sameCurrent, staysRunnable⟩ := prepare_tasks mapped t entry USER_STACK_TOP
  have still' : k'.tasks.currentTask = none := by
    rw [isReady, sameCurrent]
    exact still
  have create : step p.kernel .create = some (k₁, []) := by rw [step, made]
  have load : step k₁ (.elfLoad t image) = some ({ k₁ with phys := s₁ }, []) := by simp only [step, isSpace, loads]
  have map : step { k₁ with phys := s₁ } (.mapStack t stackPage) = some (mapped, []) := by
    simp only [step, isSpace, mapStack, took]
    rfl
  have prepare : step mapped (.prepare t entry USER_STACK_TOP) = some (k', []) := by
    rw [isReady]
    exact if_pos waits
  have run₁ : Run processorStep (fun _ _ => True) p [] { p with kernel := k₁ } :=
    Run.start.next _ trivial (processorStep_boot create still)
  have run₂ : Run processorStep (fun _ _ => True) p [] { p with kernel := { k₁ with phys := s₁ } } :=
    run₁.next _ trivial (processorStep_boot load still)
  have run₃ : Run processorStep (fun _ _ => True) p [] { p with kernel := mapped } :=
    run₂.next _ trivial (processorStep_boot map still)
  have run₄ : Run processorStep (fun _ _ => True) p [] { p with kernel := k' } :=
    run₃.next _ trivial (processorStep_boot prepare still')
  refine run₄.next _ trivial (processorStep_start still' ?_)
  dsimp only
  rw [isReady]
  exact staysRunnable waits.1

/-- `syscall_entry_return` loads the data segments of ring 3. -/
theorem return_segments (p : Processor) : (p.exec syscallEntryReturn).dataSegments = USER_DATA := by
  have masked : (p.reg .rax &&& ~~~0xFFFF).setWidth 16 = 0#16 := by
    rw [BitVec.setWidth_and, show (~~~0xFFFF : U64).setWidth 16 = 0#16 from rfl, BitVec.and_zero]
  have loaded : (p.exec syscallEntryReturn).dataSegments =
      (Function.update p.reg .rax (p.reg .rax &&& ~~~0xFFFF ||| USER_DATA.setWidth 64) .rax).setWidth 16 := rfl
  rw [loaded, Function.update_self, BitVec.setWidth_or, masked, BitVec.zero_or]
  rfl

theorem return_kernel (p : Processor) : (p.exec syscallEntryReturn).kernel = p.kernel := rfl

/-- The processor is in ring 3, and a program has run no instruction yet. -/
structure Begins (image : Image) (k₀ : Kernel) (p : Processor) : Prop where
  registers : userRegs p = entryRegs image.eEntry USER_STACK_TOP
  segments : p.dataSegments = USER_DATA
  finds : Finds image (getCurrentPml4 p.kernel.cr3) p.kernel.phys
  kernelHalf : ∀ j, ¬ Lower j →
    p.kernel.phys.mem (getCurrentPml4 p.kernel.cr3) j = k₀.phys.mem (getCurrentPml4 k₀.cr3) j
  stack : ∀ t, p.kernel.tasks.currentTask = some t → (p.kernel.tasks.slot t).kstackTop = some p.kernel.rsp0

/-- The first switch to a task that is ready, and the way out of the kernel. -/
theorem Ready.begins {k₀ : Kernel} (ready : Ready image k₀ p.kernel t r pp) :
    (p.enterFirst t).rip = k₀.symbols.syscallEntryReturn ∧ (p.enterFirst t).kernel.tasks.currentTask = some t ∧
      (p.enterFirst t).kernel.phys = p.kernel.phys ∧ Begins image k₀ ((p.enterFirst t).exec syscallEntryReturn) := by
  let started := schedulerSwitchTo { p.kernel with tasks := { p.kernel.tasks with currentTask := some t } } t
  have tasks : started.tasks = { p.kernel.tasks with currentTask := some t } := schedulerSwitchTo_tasks ..
  have phys : started.phys = p.kernel.phys :=
    (schedulerSwitchTo_memory { p.kernel with tasks := { p.kernel.tasks with currentTask := some t } } t).1
  obtain ⟨isCr3, isRsp0⟩ : started.cr3 = pml4Phys r ∧ started.rsp0 = page2pa pp + 4096 :=
    schedulerSwitchTo_cpu { p.kernel with tasks := { p.kernel.tasks with currentTask := some t } } t ready.space ready.top
  have suspended : Suspended pp started t _ := ready.suspended.congr (by rw [phys]) (by rw [tasks])
  obtain ⟨context, kernel⟩ := contextLoad_spec (p := { p with kernel := started }) suspended
  have isRsp := congrArg Context.rsp context
  have isStarted : (p.enterFirst t).kernel = started := kernel
  have frame : Block pp (p.enterFirst t).kernel.phys (p.enterFirst t).rsp (entryRegs image.eEntry USER_STACK_TOP) := by
    rw [isStarted, phys, show (p.enterFirst t).rsp = page2pa pp + 4096 - SIZEOF_SYSCALL_REGS from isRsp]
    exact ready.block
  refine ⟨congrArg Context.rip context, by rw [isStarted, tasks], by rw [isStarted, phys],
    syscallEntryReturn_spec frame, return_segments _, ?_, fun j notLower => ?_, fun u current => ?_⟩
  · rw [return_kernel, isStarted, isCr3, getCurrentPml4_pml4Phys ready.small, phys]
    exact ready.program
  · rw [return_kernel, isStarted, isCr3, getCurrentPml4_pml4Phys ready.small, phys]
    exact ready.kernelHalf j notLower
  · rw [return_kernel, isStarted, tasks] at current ⊢
    cases current
    rw [isRsp0]
    exact ready.top

/-- **A launched program begins.** With frames for its image, its stack and the
kernel's own, the calls make it the current task and go to
`syscall_entry_return`, which leaves ring 0 at the entry of the image with
cleared registers and an empty stack. What the program can reach is its image,
as the file has it, and the page of stack. -/
theorem launch_begins (list : FreeList p.kernel.phys free) (held : getCurrentPml4 p.kernel.cr3 ∉ free)
    (table : TableInv p.kernel.tasks) (nobody : p.kernel.tasks.currentTask = none)
    (head : p.kernel.tasks.taskFreeList = some t) (good : Loadable image)
    (clear : ∀ seg ∈ loadedSegments image, ¬ OnPage seg stackPage.toNat) (enough : 2 + framesForProgram image ≤ free.length) :
    ∃ p', launch p image = some p' ∧ Run processorStep (fun _ _ => True) p [] p' ∧
      p'.rip = p.kernel.symbols.syscallEntryReturn ∧ p'.kernel.tasks.currentTask = some t ∧
      Begins image p.kernel (p'.exec syscallEntryReturn) ∧ ∀ f, f ∉ free → p'.kernel.phys.mem f = p.kernel.phys.mem f := by
  obtain ⟨k', r, pp, loads, ready, untouched⟩ := loadFirst_ready list held head good clear enough
  have launched : launch p image = some ({ p with kernel := k' }.enterFirst t) := by rw [launch, loads, Option.map_some]
  obtain ⟨isRip, current, phys, begins⟩ := Ready.begins (p := { p with kernel := k' }) ready
  refine ⟨_, launched, launch_run table nobody launched, isRip, current, begins, fun f notFree => ?_⟩
  rw [phys]
  exact untouched f notFree

/-- A program of two segments, right after boot. -/
theorem launch_begins_two : ∃ p', launch bootProcessor twoSegments = some p' ∧
    userRegs (p'.exec syscallEntryReturn) = entryRegs 0x400000 USER_STACK_TOP ∧
    Cpu.load p'.kernel.phys (getCurrentPml4 p'.kernel.cr3) 0x400003 = some 0x46 ∧
    Cpu.load p'.kernel.phys (getCurrentPml4 p'.kernel.cr3) 0x5fffff8 = some 0 := by
  have list : FreeList bootProcessor.kernel.phys (List.range' 1 20) := clearedPhys_free (by decide)
  obtain ⟨table, _, nobody, _⟩ := boot_places (bootKernel_booted 20) list
  have clear : ∀ seg ∈ loadedSegments twoSegments, ¬ OnPage seg stackPage.toNat := by
    rw [twoSegments_loaded, show stackPage.toNat = 0x5fff000 from rfl]
    intro seg member
    simp only [List.mem_cons, List.not_mem_nil, or_false] at member
    rcases member with rfl | rfl
    · rintro (⟨b, ⟨_, high⟩, page⟩ | ⟨empty, _⟩)
      · simp only [BitVec.reduceToNat] at high
        omega
      · cases empty
    · rintro (⟨b, ⟨_, high⟩, page⟩ | ⟨empty, _⟩)
      · simp only [BitVec.reduceToNat] at high
        omega
      · cases empty
  obtain ⟨p', launched, _, _, _, begins, _⟩ := launch_begins (p := bootProcessor) (t := 1) list (by decide) table nobody
    (by decide) twoSegments_loadable clear (by rw [List.length_range', show framesForProgram twoSegments = 7 by decide +kernel]; decide)
  have finds := begins.finds
  rw [return_kernel] at finds
  refine ⟨p', launched, begins.registers, ?_, finds.stack 0xff8 (by decide)⟩
  have first := finds.bytes ⟨1, 0, 0x400000, 4, 4⟩ (by rw [twoSegments_loaded]; exact List.mem_cons_self) 3 (by decide)
  exact first

end HobbyKernel.Launch
