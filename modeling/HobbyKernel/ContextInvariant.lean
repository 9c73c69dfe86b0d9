import HobbyKernel.FrameSupply
import HobbyKernel.IsolationSteps

/-! Where the context of a task is kept. Every task that is there has a top-level
table and a kernel stack of its own, and the processor's `cr3` and `rsp0` are
those of the current task between any two steps, whatever a call loaded on its
way. -/
namespace HobbyKernel.ContextInvariant
open AddressBits PageAllocProofs TaskTable TaskEffects TaskInvariant Isolation IsolationSteps FrameSupply Runs

variable {k k' : Kernel} {T T' : TaskTable} {t u self : Slot} {a : Action} {events : List Event} {free rest : List Nat}
  {boot r : Frame} {value : Option U64}

/-- `cr3` and `rsp0` are as they were, or belong to the task that is now current. -/
def CpuFollows (k k' : Kernel) : Prop :=
  (k'.tasks.currentTask = k.tasks.currentTask ∧ k'.cr3 = k.cr3 ∧ k'.rsp0 = k.rsp0) ∨
    ∃ next, k'.tasks.currentTask = some next ∧ ∀ r top, (k'.tasks.slot next).pml4 = some r →
      (k'.tasks.slot next).kstackTop = some top → k'.cr3 = pml4Phys r ∧ k'.rsp0 = top

/-- What a system call other than `sys_fork` leaves of the processor and of the
frame allocator. -/
structure Orderly (k k' : Kernel) : Prop where
  draws : Draws k.phys k'.phys
  follows : CpuFollows k k'
  symbols : k'.symbols = k.symbols

theorem Orderly.refl (k : Kernel) : Orderly k k := ⟨.refl _, .inl ⟨rfl, rfl, rfl⟩, rfl⟩

/-- Only the task table changed, and not who is current. -/
theorem orderly_of_tasks (current : T.currentTask = k.tasks.currentTask) : Orderly k { k with tasks := T } :=
  ⟨.refl _, .inl ⟨current, rfl, rfl⟩, rfl⟩

theorem schedulerSwitchTo_cpu (k : Kernel) (next : Slot) {top : U64} (isSpace : (k.tasks.slot next).pml4 = some r)
    (isTop : (k.tasks.slot next).kstackTop = some top) :
    (schedulerSwitchTo k next).cr3 = pml4Phys r ∧ (schedulerSwitchTo k next).rsp0 = top := by
  unfold schedulerSwitchTo
  simp only [isSpace, isTop, and_self]

theorem schedulerSwitchTo_symbols (k : Kernel) (next : Slot) : (schedulerSwitchTo k next).symbols = k.symbols := by
  unfold schedulerSwitchTo
  cases (k.tasks.slot next).pml4 <;> dsimp only <;> cases (k.tasks.slot next).kstackTop <;> rfl

theorem switchCurrent_orderly (k₀ : Kernel) (phys : k.phys = k₀.phys) (symbols : k.symbols = k₀.symbols) (next : Slot) :
    Orderly k₀ (switchCurrent k next) := by
  refine ⟨?_, .inr ⟨next, ?_, fun r top isSpace isTop => ?_⟩, ?_⟩
  · rw [(switchCurrent_memory k next).1, phys]
    exact .refl _
  · rw [switchCurrent_tasks]
    rfl
  · rw [switchCurrent_tasks] at isSpace isTop
    exact schedulerSwitchTo_cpu { k with tasks := k.tasks.switchTo next } next isSpace isTop
  · exact (schedulerSwitchTo_symbols _ next).trans symbols

theorem taskBlockAndSwitch_orderly (k : Kernel) (self : Slot) (resume : Control) (reason : BlockReason)
    (peer buf len : U64) : Orderly k (taskBlockAndSwitch k self resume reason peer buf len).1 := by
  rcases taskBlockAndSwitch_cases k self resume reason peer buf len with ⟨_, ran⟩ | ⟨next, _, _, ran⟩
  · rw [ran]
    exact orderly_of_tasks rfl
  · rw [ran]
    refine switchCurrent_orderly k ?_ ?_ next <;> rfl

theorem block_orderly {resume : Control} {reason : BlockReason} {peer buf len : U64}
    (did : (match taskBlockAndSwitch k self resume reason peer buf len with
      | (k, true) => some (k, some (k.tasks.slot self).ipcLen, [Event.blocked self reason peer])
      | (k, false) => some (k, none, [Event.blocked self reason peer])) = some (k', value, events)) : Orderly k k' := by
  have orderly := taskBlockAndSwitch_orderly k self resume reason peer buf len
  generalize taskBlockAndSwitch k self resume reason peer buf len = out at *
  obtain ⟨k₁, _ | _⟩ := out <;> (cases did; exact orderly)

/-- `sys_send` puts the caller's address space back before it returns. -/
theorem sysSend_orderly {targetId userBuf len : U64} (restores : pml4Phys (getCurrentPml4 k.cr3) = k.cr3)
    (did : sysSend k targetId userBuf len = some (k', value, events)) : Orderly k k' := by
  simp only [sysSend] at did
  split at did
  · cases did
    exact .refl k
  · split at did
    · cases did
    · split at did
      · cases did
        exact .refl k
      · split at did
        · cases did
          exact .refl k
        · simp only [sendTo] at did
          split at did
          · split at did
            · cases did
            · split at did
              · cases did
                exact .refl k
              · split at did
                · cases did
                · split at did
                  · cases did
                  · rename_i s stored
                    cases did
                    exact ⟨storeBytes_draws stored, .inl ⟨rfl, restores, rfl⟩, rfl⟩
          · exact block_orderly did

theorem sysRecv_orderly {fromId userBuf len : U64} (restores : pml4Phys (getCurrentPml4 k.cr3) = k.cr3)
    (did : sysRecv k fromId userBuf len = some (k', value, events)) : Orderly k k' := by
  simp only [sysRecv] at did
  split at did
  · cases did
    exact .refl k
  · split at did
    · cases did
    · split at did
      · cases did
        exact .refl k
      · split at did
        · simp only [recvFrom] at did
          split at did
          · cases did
          · split at did
            · cases did
            · split at did
              · cases did
              · rename_i s stored
                cases did
                exact ⟨storeBytes_draws stored, .inl ⟨rfl, restores, rfl⟩, rfl⟩
        · exact block_orderly did

theorem sysExit_orderly {code : U64} (did : sysExit k code = some (k', value, events)) : Orderly k k' := by
  simp only [sysExit] at did
  split at did
  · cases did
    exact .refl k
  · split at did
    · cases did
      exact orderly_of_tasks rfl
    · cases did
      exact orderly_of_tasks rfl

theorem sysWaitRound_orderly {childId : U64} (did : sysWaitRound k self childId = some (k', value, events)) :
    Orderly k k' := by
  simp only [sysWaitRound] at did
  split at did
  · cases did
    exact orderly_of_tasks taskDestroy_currentTask
  · split at did
    · cases did
      exact .refl k
    · have orderly := taskBlockAndSwitch_orderly k self (.inWait childId) .onWait childId 0 0
      generalize taskBlockAndSwitch k self (.inWait childId) .onWait childId 0 0 = out at *
      obtain ⟨k₁, _ | _⟩ := out
      · cases did
        exact orderly
      · cases did
        exact ⟨orderly.draws, orderly.follows, orderly.symbols⟩

theorem dispatch_orderly {regs : SyscallRegs} (restores : pml4Phys (getCurrentPml4 k.cr3) = k.cr3)
    (notFork : regs.rax ≠ SYS_FORK) (did : syscallDispatch k regs = some (k', value, events)) : Orderly k k' := by
  unfold syscallDispatch at did
  rw [if_neg notFork] at did
  split at did
  · rw [sysWrite_quiet did]
    exact .refl k
  · split at did
    · exact sysExit_orderly did
    · split at did
      · exact sysSend_orderly restores did
      · split at did
        · exact sysRecv_orderly restores did
        · split at did
          · simp only [sysWait] at did
            split at did
            · cases did
              exact .refl k
            · exact sysWaitRound_orderly did
          · cases did
            exact .refl k

theorem returnTo_orderly {result : SysResult} (did : returnTo self result = some (k', events))
    (orderly : ∀ k₁ value new, result = some (k₁, value, new) → Orderly k k₁) : Orderly k k' := by
  match result, did, orderly with
  | some (k₁, none, new), did, orderly =>
    cases did
    exact orderly _ _ _ rfl
  | some (k₁, some value, new), did, orderly =>
    have before := orderly _ _ _ rfl
    cases did
    exact ⟨before.draws, before.follows, before.symbols⟩

theorem timerTickHandler_orderly (k : Kernel) : Orderly k (timerTickHandler k) := by
  unfold timerTickHandler
  dsimp only
  split
  · exact ⟨.refl _, .inl ⟨rfl, rfl, rfl⟩, rfl⟩
  · split
    · exact ⟨.refl _, .inl ⟨rfl, rfl, rfl⟩, rfl⟩
    · split
      · exact ⟨.refl _, .inl ⟨rfl, rfl, rfl⟩, rfl⟩
      · split
        · exact ⟨.refl _, .inl ⟨rfl, rfl, rfl⟩, rfl⟩
        · refine switchCurrent_orderly k ?_ ?_ _ <;> rfl

/-- Every task has a top-level table and a kernel stack, and no two share a
stack. Frames handed out once are not free again; of the boot table nothing is
said. -/
structure Places (boot : Frame) (k : Kernel) (free : List Nat) : Prop where
  list : FreeList k.phys free
  space : ∀ t, (k.tasks.slot t).state ≠ .unused →
    ∃ r : Nat, (k.tasks.slot t).pml4 = some r ∧ r < 2 ^ 40 ∧ (r ∈ free → r = boot)
  stack : ∀ t, (k.tasks.slot t).state ≠ .unused →
    ∃ pp, (k.tasks.slot t).kstackTop = some (page2pa pp + 4096) ∧ pp < 2 ^ 40 ∧ pp ∉ free
  apart : ∀ t u, (k.tasks.slot t).state ≠ .unused → (k.tasks.slot u).state ≠ .unused →
    (k.tasks.slot t).kstackTop = (k.tasks.slot u).kstackTop → t = u
  cpu : (k.tasks.currentTask = none ∧ getCurrentPml4 k.cr3 = boot) ∨
    ∃ self r, k.tasks.currentTask = some self ∧ (k.tasks.slot self).pml4 = some r ∧ k.cr3 = pml4Phys r ∧
      (k.tasks.slot self).kstackTop = some k.rsp0

theorem Places.restores (places : Places boot k free) (table : TableInv k.tasks)
    (current : k.tasks.currentTask = some self) : pml4Phys (getCurrentPml4 k.cr3) = k.cr3 := by
  rcases places.cpu with ⟨nobody, _⟩ | ⟨t, r, isCurrent, isSpace, isCr3, _⟩
  · rw [current] at nobody
    cases nobody
  · obtain ⟨r', isSpace', small, _⟩ := places.space t (table.currentUsed t isCurrent)
    rw [isSpace] at isSpace'
    cases isSpace'
    rw [isCr3, getCurrentPml4_pml4Phys small]

/-- The table in use is not free either. -/
theorem Places.inUse (places : Places boot k free) (table : TableInv k.tasks) :
    getCurrentPml4 k.cr3 ∈ free → getCurrentPml4 k.cr3 = boot := by
  rcases places.cpu with ⟨_, isBoot⟩ | ⟨t, r, isCurrent, isSpace, isCr3, _⟩
  · exact fun _ => isBoot
  · obtain ⟨r', isSpace', small, held⟩ := places.space t (table.currentUsed t isCurrent)
    rw [isSpace] at isSpace'
    cases isSpace'
    rw [isCr3, getCurrentPml4_pml4Phys small]
    exact held

/-- Steps that make no task. -/
theorem Places.shrink (places : Places boot k free) (orderly : Orderly k k') (shrinks : Shrinks k.tasks k'.tasks)
    (table' : TableInv k'.tasks) : ∃ rest, Places boot k' rest := by
  obtain ⟨taken, rest, rfl, list⟩ := orderly.draws.left free places.list
  have same : ∀ t, (k'.tasks.slot t).state ≠ .unused → (k.tasks.slot t).state ≠ .unused ∧
      (k'.tasks.slot t).pml4 = (k.tasks.slot t).pml4 ∧ (k'.tasks.slot t).kstackTop = (k.tasks.slot t).kstackTop := by
    intro t used
    rcases shrinks t with ⟨pml4, _, kstackTop, unused⟩ | ⟨unused, _⟩
    · exact ⟨fun was => used (unused.mpr was), pml4, kstackTop⟩
    · exact absurd unused used
  have space : ∀ t, (k'.tasks.slot t).state ≠ .unused →
      ∃ r : Nat, (k'.tasks.slot t).pml4 = some r ∧ r < 2 ^ 40 ∧ (r ∈ rest → r = boot) := by
    intro t used
    obtain ⟨was, pml4, _⟩ := same t used
    obtain ⟨r, isSpace, small, held⟩ := places.space t was
    exact ⟨r, pml4.trans isSpace, small, fun member => held (List.mem_append_right _ member)⟩
  have stack : ∀ t, (k'.tasks.slot t).state ≠ .unused →
      ∃ pp, (k'.tasks.slot t).kstackTop = some (page2pa pp + 4096) ∧ pp < 2 ^ 40 ∧ pp ∉ rest := by
    intro t used
    obtain ⟨was, _, kstackTop⟩ := same t used
    obtain ⟨pp, isTop, small, held⟩ := places.stack t was
    exact ⟨pp, kstackTop.trans isTop, small, fun member => held (List.mem_append_right _ member)⟩
  refine ⟨rest, list, space, stack, fun t u usedT usedU sameTop => ?_, ?_⟩
  · obtain ⟨wasT, _, topT⟩ := same t usedT
    obtain ⟨wasU, _, topU⟩ := same u usedU
    exact places.apart t u wasT wasU (by rw [← topT, ← topU, sameTop])
  · rcases orderly.follows with ⟨current, cr3, rsp0⟩ | ⟨next, current, loaded⟩
    · rcases places.cpu with ⟨nobody, isBoot⟩ | ⟨self, r, isCurrent, isSpace, isCr3, isTop⟩
      · exact .inl ⟨current.trans nobody, by rw [cr3]; exact isBoot⟩
      · obtain ⟨_, pml4, kstackTop⟩ := same self (table'.currentUsed self (current.trans isCurrent))
        exact .inr ⟨self, r, current.trans isCurrent, pml4.trans isSpace, cr3.trans isCr3, by rw [kstackTop, rsp0, isTop]⟩
    · have used := table'.currentUsed next current
      obtain ⟨r, isSpace, _⟩ := space next used
      obtain ⟨pp, isTop, _⟩ := stack next used
      obtain ⟨isCr3, isRsp0⟩ := loaded r _ isSpace isTop
      exact .inr ⟨next, r, current, isSpace, isCr3, by rw [isTop, isRsp0]⟩

/-- A task is made: its stack was free, and its table was free or is in use. -/
theorem Places.spawn {task : Task} {c : Control} {pp : Nat} {r : Nat} (places : Places boot k free) (table : TableInv k.tasks)
    (list : FreeList k'.phys rest) (fewer : ∀ f ∈ rest, f ∈ free) (head : k.tasks.taskFreeList = some t)
    (tasks : k'.tasks = k.tasks.spawn t task c) (isSpace : task.pml4 = some r) (smallSpace : r < 2 ^ 40)
    (held : r ∈ rest → r = boot) (isTop : task.kstackTop = some (page2pa pp + 4096)) (wasFree : pp ∈ free)
    (taken : pp ∉ rest) (cr3 : k'.cr3 = k.cr3) (rsp0 : k'.rsp0 = k.rsp0) : Places boot k' rest := by
  have smallStack := places.list.small pp wasFree
  have unused := (table.headUnused head).1
  have others : ∀ u, u ≠ t → k'.tasks.slot u = k.tasks.slot u := fun u other => by rw [tasks, spawn_slot_other other]
  have new : k'.tasks.slot t = task := by rw [tasks, spawn_slot_same]
  -- No older task has the new stack: theirs were not free.
  have fresh : ∀ u, u ≠ t → (k.tasks.slot u).state ≠ .unused → (k.tasks.slot u).kstackTop ≠ task.kstackTop := by
    intro u _ used same
    obtain ⟨pp', isTop', small', notFree⟩ := places.stack u used
    rw [isTop', isTop, Option.some.injEq, BitVec.add_left_inj] at same
    have frames := congrArg frameOf same
    rw [frameOf_page2pa small', frameOf_page2pa smallStack] at frames
    exact notFree (frames ▸ wasFree)
  refine ⟨list, fun u used => ?_, fun u used => ?_, fun u v usedU usedV same => ?_, ?_⟩
  · by_cases isT : u = t
    · rw [isT, new]
      exact ⟨r, isSpace, smallSpace, held⟩
    · rw [others u isT] at used ⊢
      obtain ⟨r', isSpace', small', held'⟩ := places.space u used
      exact ⟨r', isSpace', small', fun member => held' (fewer r' member)⟩
  · by_cases isT : u = t
    · rw [isT, new]
      exact ⟨pp, isTop, smallStack, taken⟩
    · rw [others u isT] at used ⊢
      obtain ⟨pp', isTop', small', notFree⟩ := places.stack u used
      exact ⟨pp', isTop', small', fun member => notFree (fewer pp' member)⟩
  · by_cases isU : u = t
    · by_cases isV : v = t
      · rw [isU, isV]
      · rw [isU, new, others v isV] at same
        rw [others v isV] at usedV
        exact absurd same.symm (fresh v isV usedV)
    · rw [others u isU] at usedU same
      by_cases isV : v = t
      · rw [isV, new] at same
        exact absurd same (fresh u isU usedU)
      · rw [others v isV] at usedV same
        exact places.apart u v usedU usedV same
  · rcases places.cpu with ⟨nobody, isBoot⟩ | ⟨self, r', isCurrent, isSpace', isCr3, isTop'⟩
    · exact .inl ⟨by rw [tasks]; exact nobody, by rw [cr3]; exact isBoot⟩
    · have other : self ≠ t := fun same => table.currentUsed self isCurrent (same ▸ unused)
      refine .inr ⟨self, r', by rw [tasks]; exact isCurrent, ?_, cr3.trans isCr3, ?_⟩
      · rw [others self other]
        exact isSpace'
      · rw [others self other, rsp0]
        exact isTop'

/-- A creation that failed took some frames. -/
theorem Places.draw (places : Places boot k free) (tasks : k'.tasks = k.tasks) (list : FreeList k'.phys rest)
    (fewer : ∀ f ∈ rest, f ∈ free) (cr3 : k'.cr3 = k.cr3) (rsp0 : k'.rsp0 = k.rsp0) : Places boot k' rest := by
  obtain ⟨_, space, stack, apart, cpu⟩ := places
  refine ⟨list, fun t used => ?_, fun t used => ?_, by rw [tasks]; exact apart, by rw [tasks, cr3, rsp0]; exact cpu⟩
  · rw [tasks] at used ⊢
    obtain ⟨r, isSpace, small, held⟩ := space t used
    exact ⟨r, isSpace, small, fun member => held (fewer r member)⟩
  · rw [tasks] at used ⊢
    obtain ⟨pp, isTop, small, held⟩ := stack t used
    exact ⟨pp, isTop, small, fun member => held (fewer pp member)⟩

theorem taskCreate_places (places : Places boot k free) (table : TableInv k.tasks) :
    ∃ rest, Places boot (taskCreate k).1 rest := by
  unfold taskCreate
  cases head : k.tasks.taskFreeList with
  | none =>
    simp only [taskSlotAlloc, head]
    exact ⟨free, places⟩
  | some t =>
    have restored := slotFree_slotAlloc table.clean head
    have filled := fill_slot head
    have took : k.tasks.taskSlotAlloc = (k.tasks.taskSlotAlloc.1, some t) := by simp only [taskSlotAlloc, head]
    rw [took]
    generalize k.tasks.taskSlotAlloc.1 = T at *
    have distinct := places.list.nodup
    rcases CopyProofs.vmmNewAddressSpace_cases places.list k.cr3 with ⟨_, failed⟩ | ⟨r, rest, s, made, rfl, building, _⟩
    · simp only [failed, restored]
      exact ⟨_, places⟩
    · simp only [made]
      rcases taskKstackAlloc_memory { k with phys := s, tasks := T } t building.list with
        ⟨rfl, failed⟩ | ⟨pp, rest', s', rfl, list, _, took⟩
      · simp only [failed, restored]
        exact ⟨[], places.draw rfl building.list (by simp) rfl rfl⟩
      · simp only [took, modify_modify, filled]
        obtain ⟨notLater, later⟩ := List.nodup_cons.mp distinct
        refine ⟨rest', places.spawn table list (by simp_all) head rfl rfl
          (places.list.small r (by simp)) (fun member => absurd (List.mem_cons_of_mem _ member) notLater) rfl (by simp)
          (List.nodup_cons.mp later).1 rfl rfl⟩

theorem taskCreateKernel_places (places : Places boot k free) (table : TableInv k.tasks) (entry : U64) :
    ∃ rest, Places boot (taskCreateKernel k entry).1 rest := by
  unfold taskCreateKernel
  cases head : k.tasks.taskFreeList with
  | none =>
    simp only [taskSlotAlloc, head]
    exact ⟨free, places⟩
  | some t =>
    have restored := slotFree_slotAlloc table.clean head
    have filled := fill_slot head
    have took : k.tasks.taskSlotAlloc = (k.tasks.taskSlotAlloc.1, some t) := by simp only [taskSlotAlloc, head]
    rw [took]
    generalize k.tasks.taskSlotAlloc.1 = T at *
    have distinct := places.list.nodup
    have inUse := places.inUse table
    rcases taskKstackAlloc_memory { k with tasks := T } t places.list with
      ⟨_, failed⟩ | ⟨pp, rest, s, rfl, list, _, took⟩
    · simp only [failed, restored]
      exact ⟨free, places⟩
    · simp only [took, taskStackInit, modify_modify, modify_slot_same, Function.comp, filled]
      obtain ⟨taken, rest', split, list'⟩ :=
        (writeWords_draws s (page2pa pp + 4096 - 8 - 48) (contextFrame entry k.symbols.taskEntryTrampoline)).left rest list
      subst split
      obtain ⟨notLater, _⟩ := List.nodup_cons.mp distinct
      refine ⟨rest', places.spawn table list' (by simp_all) head rfl rfl (getCurrentPml4_lt k.cr3)
        (fun member => inUse (by simp [member])) rfl (by simp)
        (fun member => notLater (List.mem_append_right _ member)) rfl rfl⟩

/-- `vmm_copy_address_space` takes its first frame for the child's table. -/
theorem vmmCopyAddressSpace_draws {s s' : Phys} {parent : Frame} {child : Frame} (list : FreeList s free)
    (copied : vmmCopyAddressSpace s parent = (s', some child)) :
    ∃ taken rest, free = child :: taken ++ rest ∧ FreeList s' rest := by
  unfold vmmCopyAddressSpace at copied
  rcases pageAlloc_cases list 1#32 with ⟨_, failed⟩ | ⟨pp, rest, s₁, rfl, took, list₁, _⟩
  · rw [failed] at copied
    cases copied
  · rw [took] at copied
    simp only [frameOf_page2pa (list.small pp (by simp))] at copied
    have upper : Draws s₁ (s₁.copyEntries pp parent KERNEL_PML4_START) := draws_of_pages rfl rfl
    have lower := copyLower_draws parent pp (s₁.copyEntries pp parent KERNEL_PML4_START)
    generalize copyLower parent pp (s₁.copyEntries pp parent KERNEL_PML4_START) = out at *
    obtain ⟨s₂, _ | _⟩ := out
    · cases copied
    · cases copied
      obtain ⟨taken, rest', rfl, list'⟩ := (upper.trans lower).left rest list₁
      exact ⟨taken, rest', rfl, list'⟩

theorem vmmCopyAddressSpace_takes (s : Phys) (parent : Frame) : Draws s (vmmCopyAddressSpace s parent).1 := by
  have alloc := pageAlloc_draws s 1#32
  unfold vmmCopyAddressSpace
  generalize pageAlloc s 1#32 = out at *
  obtain ⟨s₁, _ | pp⟩ := out
  · exact alloc
  · dsimp only
    have upper : Draws s₁ (s₁.copyEntries (frameOf (page2pa pp)) parent KERNEL_PML4_START) := draws_of_pages rfl rfl
    have lower := copyLower_draws parent (frameOf (page2pa pp)) (s₁.copyEntries (frameOf (page2pa pp)) parent KERNEL_PML4_START)
    generalize copyLower parent (frameOf (page2pa pp)) (s₁.copyEntries (frameOf (page2pa pp)) parent KERNEL_PML4_START) =
      out at *
    obtain ⟨s₂, _ | _⟩ := out
    · exact (alloc.trans upper).trans lower
    · exact (alloc.trans upper).trans lower

theorem taskFork_places (places : Places boot k free) (table : TableInv k.tasks) (parent : Slot) (pml4 : Frame)
    (regs : SyscallRegs) : ∃ rest, Places boot (taskFork k parent pml4 regs).1 rest := by
  unfold taskFork
  cases head : k.tasks.taskFreeList with
  | none =>
    simp only [taskSlotAlloc, head]
    exact ⟨free, places⟩
  | some t =>
    have restored := slotFree_slotAlloc table.clean head
    have filled := fill_slot head
    have took : k.tasks.taskSlotAlloc = (k.tasks.taskSlotAlloc.1, some t) := by simp only [taskSlotAlloc, head]
    rw [took]
    generalize k.tasks.taskSlotAlloc.1 = T at *
    have distinct := places.list.nodup
    cases copied : vmmCopyAddressSpace k.phys pml4 with
    | mk s result =>
      cases result with
      | none =>
        obtain ⟨taken, rest, rfl, list⟩ := (vmmCopyAddressSpace_takes k.phys pml4).left free places.list
        rw [copied] at list
        simp only [restored]
        exact ⟨rest, places.draw rfl list (fun f member => List.mem_append_right _ member) rfl rfl⟩
      | some r =>
        obtain ⟨taken, rest, rfl, list⟩ := vmmCopyAddressSpace_draws places.list copied
        have fewer : ∀ f ∈ rest, f ∈ r :: taken ++ rest := fun f member => List.mem_append_right _ member
        dsimp only
        rcases taskKstackAlloc_memory { k with phys := s, tasks := T } t list with
          ⟨rfl, failed⟩ | ⟨pp, rest', s', rfl, list', _, took⟩
        · simp only [failed, restored]
          exact ⟨[], places.draw rfl list fewer rfl rfl⟩
        · simp only [took, modify_modify, filled]
          have written := (writeWords_draws s' (page2pa pp + 4096 - SIZEOF_SYSCALL_REGS) { regs with rax := 0 }.words).trans
            (writeWords_draws _ (page2pa pp + 4096 - SIZEOF_SYSCALL_REGS - 8 - 48)
              (contextFrame (page2pa pp + 4096 - SIZEOF_SYSCALL_REGS) k.symbols.syscallEntryReturn))
          obtain ⟨more, rest'', rfl, list''⟩ := written.left rest' list'
          obtain ⟨notLater, later⟩ := List.nodup_cons.mp distinct
          have stackFresh : pp ∉ more ++ rest'' := (List.nodup_cons.mp (List.nodup_append.mp later).2.1).1
          simp only [modify_slot_same, Option.getD_some]
          refine ⟨rest'', places.spawn table list'' (fun f member => ?_) head rfl rfl (places.list.small r (by simp))
            (fun member => absurd ?_ notLater) rfl ?_ (fun member => stackFresh (List.mem_append_right _ member)) rfl rfl⟩
          · simp [member]
          · simp [member]
          · simp

/-- The action makes no task. -/
def MakesNone (a : Action) : Prop :=
  a ≠ .create ∧ (∀ entry, a ≠ .createKernel entry) ∧ ∀ regs, a = .syscall regs → regs.rax ≠ SYS_FORK

theorem prepare_orderly (k : Kernel) (t : Slot) (entry userStackTop : U64) :
    Orderly k (taskPrepareUserEntry k t entry userStackTop) := by
  unfold taskPrepareUserEntry
  cases (k.tasks.slot t).kstackTop with
  | none => exact .refl k
  | some top => exact ⟨(writeWords_draws _ _ _).trans (writeWords_draws _ _ _), .inl ⟨rfl, rfl, rfl⟩, rfl⟩

theorem start_orderly (k : Kernel) (t : Slot) :
    Orderly k (schedulerSwitchTo { k with tasks := { k.tasks with currentTask := some t } } t) := by
  have tasks := schedulerSwitchTo_tasks { k with tasks := { k.tasks with currentTask := some t } } t
  refine ⟨?_, .inr ⟨t, by rw [tasks], fun r top isSpace isTop => ?_⟩, schedulerSwitchTo_symbols _ t⟩
  · rw [(schedulerSwitchTo_memory _ t).1]
    exact .refl _
  · rw [tasks] at isSpace isTop
    exact schedulerSwitchTo_cpu _ t isSpace isTop

/-- Whatever a step loads on its way, it leaves `cr3` and `rsp0` in order. -/
theorem step_orderly (table : TableInv k.tasks) (places : Places boot k free) (none : MakesNone a)
    (did : step k a = some (k', events)) : Orderly k k' := by
  cases a with
  | create => exact absurd rfl none.1
  | createKernel entry => exact absurd rfl (none.2.1 entry)
  | destroy t =>
    simp only [step] at did
    split at did
    · cases did
    · cases did
      exact orderly_of_tasks taskDestroy_currentTask
  | elfLoad t image =>
    simp only [step] at did
    split at did
    · cases did
    · cases did
      exact ⟨elfLoad_draws .., .inl ⟨rfl, rfl, rfl⟩, rfl⟩
  | mapStack t vaddr =>
    simp only [step] at did
    split at did
    · cases did
    · cases did
      exact ⟨mapStack_draws .., .inl ⟨rfl, rfl, rfl⟩, rfl⟩
  | prepare t entry userStackTop =>
    simp only [step] at did
    split at did
    · cases did
      exact prepare_orderly k t entry userStackTop
    · cases did
  | start t =>
    simp only [step] at did
    split at did
    · cases did
      exact start_orderly k t
    · cases did
  | syscall regs =>
    simp only [step] at did
    split at did
    · cases did
    · rename_i self current
      split at did
      · have restores := places.restores table current
        exact returnTo_orderly did fun k₁ value new => dispatch_orderly restores (none.2.2 regs rfl)
      · cases did
  | resume =>
    simp only [step] at did
    split at did
    · cases did
    · split at did
      · cases did
        exact orderly_of_tasks rfl
      · cases did
        exact orderly_of_tasks rfl
      · exact returnTo_orderly did fun k₁ value new => sysWaitRound_orderly
      · cases did
  | tick =>
    simp only [step] at did
    split at did
    · cases did
      exact timerTickHandler_orderly k
    · cases did
  | store va b =>
    simp only [step] at did
    split at did
    · cases did
    · split at did
      · obtain ⟨s, stored, same⟩ := Option.map_eq_some_iff.mp did
        cases same
        have written : Draws k.phys s := by
          unfold Cpu.userStore at stored
          split at stored
          · cases stored
          · split at stored
            · cases stored
              exact writeEntry_draws ..
            · cases stored
        exact ⟨written, .inl ⟨rfl, rfl, rfl⟩, rfl⟩
      · cases did

/-- What `sys_fork` answers, and the task table it leaves. -/
theorem step_fork {regs : SyscallRegs} (isFork : regs.rax = SYS_FORK) (did : step k (.syscall regs) = some (k', events)) :
    ∃ self pml4, k.tasks.currentTask = some self ∧ k.tasks.control self = .user ∧ (k.tasks.slot self).pml4 = some pml4 ∧
      k' = { (taskFork k self pml4 regs).1 with tasks := (taskFork k self pml4 regs).1.tasks.resumeAt self .user } := by
  simp only [step] at did
  split at did
  · cases did
  · rename_i self current
    split at did
    · rename_i user
      have isCall : syscallDispatch k regs = sysFork k regs := by
        simp [syscallDispatch, isFork, SYS_FORK, SYS_WRITE, SYS_EXIT]
      rw [isCall] at did
      simp only [sysFork, current] at did
      cases isSpace : (k.tasks.slot self).pml4 with
      | none => simp [isSpace, returnTo] at did
      | some pml4 =>
        refine ⟨self, pml4, current, user, isSpace, ?_⟩
        simp only [isSpace] at did
        generalize taskFork k self pml4 regs = out at *
        obtain ⟨k₁, _ | child⟩ := out
        · cases did
          rfl
        · cases did
          rfl
    · cases did

theorem step_places (table : TableInv k.tasks) (places : Places boot k free) (did : step k a = some (k', events)) :
    ∃ rest, Places boot k' rest := by
  by_cases none : MakesNone a
  · have effect := step_effect table.clean (fun _ current => table.headNotCurrent current) did
    exact places.shrink (step_orderly table places none did) (effect_shrinks table effect none.1 none.2.1 none.2.2)
      (effect_tableInv table effect)
  · cases a with
    | create =>
      cases did
      exact taskCreate_places places table
    | createKernel entry =>
      cases did
      exact taskCreateKernel_places places table entry
    | syscall regs =>
      have isFork : regs.rax = SYS_FORK := by
        by_contra other
        exact none ⟨by simp, by simp, by simpa using other⟩
      obtain ⟨self, pml4, current, user, _, rfl⟩ := step_fork isFork did
      obtain ⟨rest, places'⟩ := taskFork_places places table self pml4 regs
      exact ⟨rest, places'.list, places'.space, places'.stack, places'.apart, places'.cpu⟩
    | destroy | elfLoad | mapStack | prepare | start | resume | tick | store => exact absurd (by simp [MakesNone]) none

theorem taskKstackAlloc_draws (k : Kernel) (t : Slot) : Draws k.phys (taskKstackAlloc k t).1.phys := by
  have alloc := pageAlloc_draws k.phys 1#32
  unfold taskKstackAlloc
  generalize pageAlloc k.phys 1#32 = out at *
  obtain ⟨s, _ | pp⟩ := out
  · exact alloc
  · exact alloc

theorem vmmNewAddressSpace_draws (s : Phys) (cr3 : U64) : Draws s (vmmNewAddressSpace s cr3).1 := by
  have alloc := pageAlloc_draws s 1#32
  unfold vmmNewAddressSpace
  generalize pageAlloc s 1#32 = out at *
  obtain ⟨s', _ | pp⟩ := out
  · exact alloc
  · exact alloc.trans (draws_of_pages rfl rfl)

theorem taskCreate_draws (k : Kernel) : Draws k.phys (taskCreate k).1.phys := by
  have space := vmmNewAddressSpace_draws k.phys k.cr3
  unfold taskCreate
  split
  · exact .refl _
  · rename_i T t _
    generalize vmmNewAddressSpace k.phys k.cr3 = out at *
    obtain ⟨s, _ | pml4⟩ := out
    · exact space
    · have stack := taskKstackAlloc_draws { k with phys := s, tasks := T } t
      dsimp only
      generalize taskKstackAlloc { k with phys := s, tasks := T } t = out at *
      obtain ⟨k', _ | _⟩ := out
      · exact space.trans stack
      · exact space.trans stack

theorem taskCreateKernel_draws (k : Kernel) (entry : U64) : Draws k.phys (taskCreateKernel k entry).1.phys := by
  unfold taskCreateKernel
  split
  · exact .refl _
  · rename_i T t _
    have stack := taskKstackAlloc_draws { k with tasks := T } t
    generalize taskKstackAlloc { k with tasks := T } t = out at *
    obtain ⟨k', _ | _⟩ := out
    · exact stack
    · dsimp only [taskStackInit]
      split
      · exact stack
      · exact stack.trans (writeWords_draws ..)

theorem taskFork_draws (k : Kernel) (parent : Slot) (pml4 : Frame) (regs : SyscallRegs) :
    Draws k.phys (taskFork k parent pml4 regs).1.phys := by
  have space := vmmCopyAddressSpace_takes k.phys pml4
  unfold taskFork
  split
  · exact .refl _
  · rename_i T t _
    generalize vmmCopyAddressSpace k.phys pml4 = out at *
    obtain ⟨s, _ | child⟩ := out
    · exact space
    · have stack := taskKstackAlloc_draws { k with phys := s, tasks := T } t
      dsimp only
      generalize taskKstackAlloc { k with phys := s, tasks := T } t = out at *
      obtain ⟨k', _ | _⟩ := out
      · exact space.trans stack
      · exact (space.trans stack).trans ((writeWords_draws ..).trans (writeWords_draws ..))

/-- No step gives a frame back. -/
theorem step_draws (table : TableInv k.tasks) (places : Places boot k free) (did : step k a = some (k', events)) :
    Draws k.phys k'.phys := by
  by_cases none : MakesNone a
  · exact (step_orderly table places none did).draws
  · cases a with
    | create =>
      cases did
      exact taskCreate_draws k
    | createKernel entry =>
      cases did
      exact taskCreateKernel_draws k entry
    | syscall regs =>
      have isFork : regs.rax = SYS_FORK := by
        by_contra other
        exact none ⟨by simp, by simp, by simpa using other⟩
      obtain ⟨self, pml4, _, _, _, rfl⟩ := step_fork isFork did
      exact taskFork_draws k self pml4 regs
    | destroy | elfLoad | mapStack | prepare | start | resume | tick | store => exact absurd (by simp [MakesNone]) none

/-- Nobody has a place at boot. -/
theorem boot_places {k₀ : Kernel} (booted : Booted k₀) (list : FreeList k₀.phys free) :
    TableInv k₀.tasks ∧ Places (getCurrentPml4 k₀.cr3) k₀ free ∧ k₀.tasks.currentTask = none ∧
      ∀ t, (k₀.tasks.slot t).state = .unused := by
  obtain ⟨T, nobody, noIdle, isInit⟩ := booted
  have noTask : k₀.tasks.currentTask = none := by
    rw [isInit, (taskTableInit_slots T).2.2.1, nobody]
  have unused : ∀ t, (k₀.tasks.slot t).state = .unused := by
    intro t
    rw [isInit, taskTableInit_unused]
  refine ⟨isInit ▸ taskTableInit_inv nobody noIdle, ⟨list, fun t used => absurd (unused t) used,
    fun t used => absurd (unused t) used, fun t u used => absurd (unused t) used, .inl ⟨noTask, rfl⟩⟩, noTask, unused⟩

/-- Every reachable state has its tasks in their places, and only what was free
at boot is free. -/
theorem run_places {k₀ : Kernel} {may : Kernel → Action → Prop} (booted : Booted k₀) (list : FreeList k₀.phys free)
    (run : Run step may k₀ events k) :
    TableInv k.tasks ∧ ∃ rest, (∀ f ∈ rest, f ∈ free) ∧ Places (getCurrentPml4 k₀.cr3) k rest := by
  obtain ⟨table, places, _⟩ := boot_places booted list
  refine run.invariant (fun _ k => TableInv k.tasks ∧ ∃ rest, (∀ f ∈ rest, f ∈ free) ∧ Places (getCurrentPml4 k₀.cr3) k rest)
    ⟨table, free, fun _ member => member, places⟩ ?_
  rintro _ k a k' new ⟨table, rest, fewer, places⟩ _ did
  obtain ⟨rest', places'⟩ := step_places table places did
  obtain ⟨taken, left, rfl, list'⟩ := (step_draws table places did).left rest places.list
  obtain rfl := Chain.linked_unique places'.list.linked list'.linked
  exact ⟨step_tableInv table did, rest', fun f member => fewer f (List.mem_append_right _ member), places'⟩

end HobbyKernel.ContextInvariant
