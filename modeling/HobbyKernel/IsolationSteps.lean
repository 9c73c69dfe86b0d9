import HobbyKernel.Isolation
import HobbyKernel.WaitProofs

/-! Every step of a running system keeps frames with their owners: what it does
to the task table is one of the listed effects, and what it does to memory is
on behalf of the tasks. -/
namespace HobbyKernel.IsolationSteps
open TaskTable TaskEffects TaskInvariant AddressBits PageAllocProofs WalkProofs CopyProofs AddressSpaces UaccessProofs
open SpaceEvolution PageWrites ElfProofs Isolation Radix

variable {mem₀ : PhysMem} {boot : Frame} {k k' : Kernel} {free rest : List Nat} {T T' : TaskTable} {t self next : Slot}
  {events : List Event}

theorem keeps_block {reason : BlockReason} {peer buf len : U64} (used : (T.slot self).state ≠ .unused) :
    Keeps T (T.block self reason peer buf len) :=
  .modify rfl rfl rfl (by simp [used])

theorem keeps_wake (used : (T.slot t).state ≠ .unused) : Keeps T (T.taskWake t) :=
  .modify rfl rfl rfl (by simp [used])

theorem keeps_switchTo (runnable : (T.slot next).state = .runnable) : Keeps T (T.switchTo next) := by
  have marked : Keeps T (T.modify next fun task => { task with state := .running }) :=
    .modify rfl rfl rfl (by simp [runnable])
  exact marked

theorem keeps_exit (code : U64) (used : (T.slot self).state ≠ .unused) : Keeps T (T.exit self code) := by
  have marked : Keeps T (T.modify self fun task => { task with exitCode := code, state := .dead }) :=
    .modify rfl rfl rfl (by simp [used])
  exact marked

theorem keeps_preempt : Keeps T (T.preempt self) := by
  unfold TaskTable.preempt
  split
  · rename_i running
    exact .modify rfl rfl rfl (by simp [running])
  · exact .refl T

theorem shrinks_destroy (used : (T.slot t).state ≠ .unused) : Shrinks T (T.taskDestroy t) := by
  intro u
  by_cases isT : u = t
  · subst isT
    rw [taskDestroy_slot_same used]
    exact .inr ⟨rfl, rfl, rfl⟩
  · rw [taskDestroy_slot_other isT]
    exact .inl ⟨rfl, rfl, rfl, Iff.rfl⟩

/-- Somebody's slot is given up: a task in use is destroyed, or a child is reaped. -/
def GivesUp (T : TaskTable) (a : Action) (events : List Event) : Prop :=
  (∃ t, a = .destroy t ∧ (T.slot t).state ≠ .unused) ∨ ∃ p c, .reaped p c ∈ events

/-- Effects other than making a task leave every slot its memory, or take it
away from the task that ends. -/
theorem effect_keeps {s : Phys} {a : Action} (table : TableInv T) (effect : Effect s T a events T')
    (notCreate : a ≠ .create) (notKernel : ∀ entry, a ≠ .createKernel entry)
    (notFork : ∀ regs, a = .syscall regs → regs.rax ≠ SYS_FORK) : Keeps T T' ∨ (GivesUp T a events ∧ Shrinks T T') := by
  cases effect with
  | quiet => exact .inl (.refl T)
  | returned => exact .inl (.refl T)
  | childless => exact .inl (.refl T)
  | resumed => exact .inl (.refl T)
  | start => exact .inl (.refl T)
  | create => exact absurd rfl notCreate
  | createKernel entry => exact absurd rfl (notKernel entry)
  | fork regs _ _ _ _ _ isFork => exact absurd isFork (notFork regs rfl)
  | destroy t _ used => exact .inr ⟨.inl ⟨t, rfl, used⟩, shrinks_destroy used⟩
  | prepare t _ _ rsp =>
    have prepared : Keeps T (T.modify t fun task => { task with contextRsp := rsp }) :=
      .modify rfl rfl rfl Iff.rfl
    exact .inl prepared
  | deliver _ _ _ _ _ awaits =>
    simp only [awaitsSender, Bool.and_eq_true, decide_eq_true_eq] at awaits
    exact .inl (keeps_wake (by simp [awaits.1.1]))
  | @collect _ sender _ _ value _ _ _ _ offers =>
    simp only [offersMessage, Bool.and_eq_true, decide_eq_true_eq] at offers
    have measured : Keeps T (T.modify sender fun task => { task with ipcLen := value }) :=
      .modify rfl rfl rfl Iff.rfl
    exact .inl (measured.trans (keeps_wake (by simp [offers.1.1.1.1])))
  | blockAlone _ current => exact .inl (keeps_block (table.currentUsed _ current))
  | @spin self peer _ current =>
    have blocked : Keeps T (T.block self .onWait peer 0 0) := keeps_block (table.currentUsed _ current)
    exact .inl blocked
  | @blockSwitch self next reason peer buf len _ _ current _ _ other picked =>
    have blocked : Keeps T (T.block self reason peer buf len) := keeps_block (table.currentUsed _ current)
    have runnable := picked_runnable (T := TaskTable.block ..) table.noIdle picked other
    exact .inl (blocked.trans (keeps_switchTo runnable))
  | exitUnseen _ code current => exact .inl (keeps_exit code (table.currentUsed _ current))
  | exit _ code current _ waits =>
    simp only [awaitsChild, Bool.and_eq_true, decide_eq_true_eq] at waits
    exact .inl ((keeps_exit code (table.currentUsed _ current)).trans (keeps_wake (by simp [waits.1.1.1])))
  | @reap self child _ _ _ _ _ dead =>
    exact .inr ⟨.inr ⟨self, child, List.mem_cons_self⟩, shrinks_destroy (by rw [dead]; decide)⟩
  | @switch prev next current _ picked other =>
    have runnable : ((T.preempt prev).slot next).state = .runnable := by
      rw [WaitProofs.preempt_slot_other other]
      exact picked_runnable table.noIdle picked other
    exact .inl (keeps_preempt.trans (keeps_switchTo runnable))

theorem effect_shrinks {s : Phys} {a : Action} (table : TableInv T) (effect : Effect s T a events T')
    (notCreate : a ≠ .create) (notKernel : ∀ entry, a ≠ .createKernel entry)
    (notFork : ∀ regs, a = .syscall regs → regs.rax ≠ SYS_FORK) : Shrinks T T' :=
  (effect_keeps table effect notCreate notKernel notFork).elim Keeps.shrinks And.right

/-- A switch loads the new task's address space and leaves memory alone. -/
theorem schedulerSwitchTo_memory (k : Kernel) (next : Slot) : (schedulerSwitchTo k next).phys = k.phys ∧
    ∀ r, (k.tasks.slot next).pml4 = some r → (schedulerSwitchTo k next).cr3 = pml4Phys r := by
  unfold schedulerSwitchTo
  cases pml4 : (k.tasks.slot next).pml4 with
  | none =>
    dsimp only
    cases (k.tasks.slot next).kstackTop <;> exact ⟨rfl, by simp⟩
  | some r =>
    dsimp only
    cases (k.tasks.slot next).kstackTop <;> exact ⟨rfl, by simp⟩

/-- The first task is switched to. -/
theorem start_memory (k : Kernel) (t : Slot) :
    (schedulerSwitchTo { k with tasks := { k.tasks with currentTask := some t } } t).phys = k.phys ∧
      Follows k (schedulerSwitchTo { k with tasks := { k.tasks with currentTask := some t } } t) := by
  obtain ⟨phys, switched⟩ := schedulerSwitchTo_memory { k with tasks := { k.tasks with currentTask := some t } } t
  have tasks := schedulerSwitchTo_tasks { k with tasks := { k.tasks with currentTask := some t } } t
  refine ⟨phys, .inr ⟨t, by rw [tasks], fun r isSpace => switched r ?_⟩⟩
  rw [tasks] at isSpace
  exact isSpace

theorem switchCurrent_memory (k₀ : Kernel) (next : Slot) : (switchCurrent k next).phys = k.phys ∧
    Follows k₀ (switchCurrent k next) := by
  have same := schedulerSwitchTo_memory { k with tasks := k.tasks.switchTo next } next
  refine ⟨same.1, .inr ⟨next, ?_, fun r isSpace => ?_⟩⟩
  · rw [switchCurrent_tasks]
    rfl
  · rw [switchCurrent_tasks] at isSpace
    exact same.2 r isSpace

/-- What a blocking call does to memory is nothing. -/
theorem taskBlockAndSwitch_memory (k : Kernel) (self : Slot) (resume : Control) (reason : BlockReason)
    (peer buf len : U64) : (taskBlockAndSwitch k self resume reason peer buf len).1.phys = k.phys ∧
      Follows k (taskBlockAndSwitch k self resume reason peer buf len).1 := by
  rcases taskBlockAndSwitch_cases k self resume reason peer buf len with ⟨_, ran⟩ | ⟨next, _, _, ran⟩
  · rw [ran]
    exact ⟨rfl, .inl ⟨rfl, rfl⟩⟩
  · rw [ran]
    exact switchCurrent_memory k next

/-- Somebody was sent a message. -/
def Sent (events : List Event) (t : Slot) : Prop := ∃ sender bytes, .copied sender t bytes ∈ events

/-- Bytes are stored through the lower half of the address space of a task that
is sent a message. -/
def Stored (k : Kernel) (events : List Event) (s : Phys) : Prop :=
  ∃ t r va bytes, Sent events t ∧ (k.tasks.slot t).pml4 = some r ∧
    (bytes ≠ [] → va.toNat + bytes.length ≤ 2 ^ 47) ∧ Cpu.storeBytes k.phys r va bytes = some s

/-- What a system call other than `sys_fork` may do to memory. -/
def Quiet (k k' : Kernel) (events : List Event) : Prop :=
  (k'.phys = k.phys ∨ Stored k events k'.phys) ∧ Follows k k'

theorem loadBytes_length {s : Phys} {root : Frame} {va : U64} {n : Nat} {bytes : List Byte}
    (loaded : Cpu.loadBytes s root va n = some bytes) : bytes.length = n := by
  induction n generalizing va bytes with
  | zero =>
    cases loaded
    rfl
  | succ n ih =>
    simp only [Cpu.loadBytes] at loaded
    split at loaded
    · cases loaded
    · obtain ⟨tail, found, rfl⟩ := Option.map_eq_some_iff.mp loaded
      rw [List.length_cons, ih found]

/-- A checked range ends in the lower half. -/
theorem checked_inside {s : Phys} {pml4 : Frame} {uva len : U64} {needWrite : Bool}
    (valid : uvaCheckRange s pml4 uva len needWrite = true) (some : 0 < len.toNat) :
    uva.toNat + len.toNat ≤ 2 ^ 47 := by
  rcases (uvaCheckRange_iff s pml4 uva len needWrite).mp valid with rfl | ⟨fits, all⟩
  · exact absurd some (by decide)
  · have last := (all (uva + (len - 1)) ?_ ?_).1
    all_goals
      have shorter : (len - 1).toNat = len.toNat - 1 := BitVec.toNat_sub_of_le (by exact some)
      have sum : (uva + (len - 1)).toNat = uva.toNat + (len.toNat - 1) := by
        rw [BitVec.toNat_add, shorter]
        omega
    · omega
    · omega
    · omega

theorem minLen_toNat (a b : U64) : (minLen a b).toNat = min a.toNat b.toNat := by
  unfold minLen
  split
  · rename_i less
    rw [BitVec.lt_def] at less
    omega
  · rename_i notLess
    rw [BitVec.lt_def] at notLess
    omega

theorem Quiet.refl (k : Kernel) (events : List Event) : Quiet k k events := ⟨.inl rfl, .inl ⟨rfl, rfl⟩⟩

/-- The return to ring 3 touches no memory. -/
theorem returnTo_quiet {result : SysResult} (did : returnTo self result = some (k', events))
    (quiet : ∀ k₁ value new, result = some (k₁, value, new) → Quiet k k₁ new) : Quiet k k' events := by
  cases result with
  | none => cases did
  | some out =>
    obtain ⟨k₁, value, new⟩ := out
    have before := quiet k₁ value new rfl
    cases value with
    | none =>
      cases did
      exact before
    | some value =>
      cases did
      refine ⟨before.1.imp_right ?_, before.2⟩
      rintro ⟨t, r, va, bytes, ⟨sender, message, sent⟩, stored⟩
      exact ⟨t, r, va, bytes, ⟨sender, message, List.mem_append_left _ sent⟩, stored⟩

theorem block_quiet {resume : Control} {reason : BlockReason} {peer buf len : U64} {value : Option U64}
    (did : (match taskBlockAndSwitch k self resume reason peer buf len with
      | (k, true) => some (k, some (k.tasks.slot self).ipcLen, [Event.blocked self reason peer])
      | (k, false) => some (k, none, [Event.blocked self reason peer])) = some (k', value, events)) : Quiet k k' events := by
  have memory := taskBlockAndSwitch_memory k self resume reason peer buf len
  generalize taskBlockAndSwitch k self resume reason peer buf len = out at *
  obtain ⟨k₁, _ | _⟩ := out
  · cases did
    exact ⟨.inl memory.1, memory.2⟩
  · cases did
    exact ⟨.inl memory.1, memory.2⟩

theorem sysSend_quiet {targetId userBuf len : U64} {value : Option U64} (iso : Isolated mem₀ boot k free)
    (did : sysSend k targetId userBuf len = some (k', value, events)) : Quiet k k' events := by
  simp only [sysSend] at did
  split at did
  · cases did
    exact .refl k _
  · rename_i self current
    split at did
    · cases did
    · split at did
      · cases did
        exact .refl k _
      · split at did
        · cases did
          exact .refl k _
        · rename_i target found
          simp only [sendTo] at did
          split at did
          · rename_i awaits
            split at did
            · cases did
            · rename_i targetPml4 isSpace
              split at did
              · cases did
                exact .refl k _
              · rename_i valid
                split at did
                · cases did
                · rename_i tmp loaded
                  split at did
                  · cases did
                  · rename_i s stored
                    cases did
                    have isUsed : (k.tasks.slot target).state ≠ .unused := by
                      simp only [awaitsSender, Bool.and_eq_true, decide_eq_true_eq] at awaits
                      rw [awaits.1.1]
                      decide
                    obtain ⟨r, _, isRoot, small, _⟩ := (iso.slots target).used isUsed
                    rw [isSpace] at isRoot
                    cases isRoot
                    rw [getCurrentPml4_pml4Phys small] at stored
                    rw [Bool.not_eq_true', Bool.not_eq_false] at valid
                    refine ⟨.inr ⟨target, _, _, tmp, ⟨self, tmp, List.mem_cons_self⟩, isSpace, fun some => ?_, stored⟩,
                      .inl ⟨rfl, ?_⟩⟩
                    · have length := loadBytes_length loaded
                      have inside := checked_inside valid (by rw [← length]; exact List.length_pos_iff.mpr some)
                      omega
                    · exact getCurrentPml4_pml4Phys (getCurrentPml4_lt k.cr3)
          · exact block_quiet did

theorem sysRecv_quiet {fromId userBuf len : U64} {value : Option U64} (iso : Isolated mem₀ boot k free)
    (did : sysRecv k fromId userBuf len = some (k', value, events)) : Quiet k k' events := by
  simp only [sysRecv] at did
  split at did
  · cases did
    exact .refl k _
  · rename_i self current
    split at did
    · cases did
    · rename_i pml4 isSpace
      split at did
      · cases did
        exact .refl k _
      · rename_i valid
        rw [Bool.not_eq_true', Bool.not_eq_false] at valid
        split at did
        · rename_i sender found
          simp only [recvFrom] at did
          split at did
          · cases did
          · split at did
            · cases did
            · rename_i tmp loaded
              split at did
              · cases did
              · rename_i s stored
                cases did
                have own : pml4 = getCurrentPml4 k.cr3 := by
                  rcases iso.inSpace with ⟨nobody, _⟩ | ⟨t, isCurrent, isOwn⟩
                  · rw [current] at nobody
                    cases nobody
                  · rw [current] at isCurrent
                    cases isCurrent
                    exact Option.some.inj (isSpace.symm.trans isOwn)
                rw [getCurrentPml4_pml4Phys (getCurrentPml4_lt k.cr3), ← own] at stored
                refine ⟨.inr ⟨self, pml4, userBuf, tmp, ⟨sender, tmp, List.mem_cons_self⟩, isSpace, fun some => ?_, stored⟩,
                  .inl ⟨rfl, ?_⟩⟩
                · have length := loadBytes_length loaded
                  have positive := List.length_pos_iff.mpr some
                  rw [minLen_toNat] at length
                  have inside := checked_inside valid (by omega)
                  omega
                · exact getCurrentPml4_pml4Phys (getCurrentPml4_lt k.cr3)
        · exact block_quiet did

theorem sysWaitRound_quiet {childId : U64} {value : Option U64}
    (did : sysWaitRound k self childId = some (k', value, events)) : Quiet k k' events := by
  simp only [sysWaitRound] at did
  split at did
  · cases did
    exact ⟨.inl rfl, .inl ⟨taskDestroy_currentTask, rfl⟩⟩
  · split at did
    · cases did
      exact .refl k _
    · have memory := taskBlockAndSwitch_memory k self (.inWait childId) .onWait childId 0 0
      generalize taskBlockAndSwitch k self (.inWait childId) .onWait childId 0 0 = out at *
      obtain ⟨k₁, _ | _⟩ := out
      · cases did
        exact ⟨.inl memory.1, memory.2⟩
      · cases did
        exact ⟨.inl memory.1, memory.2⟩

theorem sysWrite_quiet {userPtr len : U64} {value : Option U64}
    (did : sysWrite k userPtr len = some (k', value, events)) : k' = k := by
  simp only [sysWrite] at did
  generalize (if 255 < len then 255 else len) = clamped at did
  split at did
  · cases did
    rfl
  · split at did
    · cases did
    · split at did
      · cases did
        rfl
      · split at did
        · cases did
        · cases did
          rfl

theorem sysExit_quiet {code : U64} {value : Option U64} (did : sysExit k code = some (k', value, events)) :
    Quiet k k' events := by
  simp only [sysExit] at did
  split at did
  · cases did
    exact .refl k _
  · split at did
    · cases did
      exact ⟨.inl rfl, .inl ⟨rfl, rfl⟩⟩
    · cases did
      exact ⟨.inl rfl, .inl ⟨rfl, rfl⟩⟩

/-- A system call that makes no task keeps the ownership of frames. -/
theorem Quiet.secure (quiet : Quiet k k' events) (iso : Isolated mem₀ boot k free) (shrinks : Shrinks k.tasks k'.tasks)
    (used : ∀ t, k'.tasks.currentTask = some t → (k'.tasks.slot t).state ≠ .unused) :
    Secure mem₀ boot (Sent events) k k' := by
  obtain ⟨same | ⟨t, r, va, bytes, sent, isSpace, inside, stored⟩, follows⟩ := quiet
  · exact (iso.still same shrinks follows used).mono fun _ never => never.elim
  · refine (iso.evolve (storeBytes_evolves (k := t) iso.forest isSpace inside stored) shrinks follows used).mono ?_
    rintro u rfl
    exact sent

/-- The frames the kernel builds by hand at the top of a kernel stack. -/
theorem stack_confined {pp : Nat} (small : pp < 2 ^ 40) (s : Phys) (regs : SyscallRegs) (r12 returnTo : U64) :
    Confined pp s ((s.writeWords (page2pa pp + 4096 - SIZEOF_SYSCALL_REGS) regs.words).writeWords
      (page2pa pp + 4096 - SIZEOF_SYSCALL_REGS - 8 - 48) (contextFrame r12 returnTo)) := by
  have base := page2pa_toNat small
  have place : ∀ off : U64, off.toNat < 4096 →
      frameOf (page2pa pp + off) = pp ∧ (page2pa pp + off).toNat % 4096 = off.toNat := by
    intro off inside
    obtain ⟨sameFrame, offset⟩ := frameOf_add (page2pa pp) off (by omega)
    exact ⟨sameFrame.trans (frameOf_page2pa small), by omega⟩
  have regsAt : page2pa pp + 4096 - SIZEOF_SYSCALL_REGS = page2pa pp + 3936 := by
    rw [BitVec.sub_eq_add_neg, BitVec.add_assoc]
    rfl
  have contextAt : page2pa pp + 3936 - 8 - 48 = page2pa pp + 3880 := by
    rw [BitVec.sub_eq_add_neg, BitVec.sub_eq_add_neg, BitVec.add_assoc, BitVec.add_assoc]
    rfl
  rw [regsAt, contextAt]
  obtain ⟨regsFrame, regsOffset⟩ := place 3936 (by decide)
  obtain ⟨contextFrame', contextOffset⟩ := place 3880 (by decide)
  have first := writeWords_confined s (page2pa pp + 3936) regs.words (by rw [regsOffset]; exact Nat.le_refl _)
  rw [regsFrame] at first
  have second := writeWords_confined (s.writeWords (page2pa pp + 3936) regs.words) (page2pa pp + 3880)
    (contextFrame r12 returnTo) (by rw [contextOffset]; simp [contextFrame])
  rw [contextFrame'] at second
  exact first.trans second

/-- `task_kstack_alloc` takes one frame, or none is left. -/
theorem taskKstackAlloc_memory (k : Kernel) (t : Slot) (list : FreeList k.phys free) :
    (free = [] ∧ taskKstackAlloc k t = (k, false)) ∨
      ∃ pp rest s, free = pp :: rest ∧ FreeList s rest ∧ (∀ g, g ≠ pp → s.mem g = k.phys.mem g) ∧
        taskKstackAlloc k t = ({ k with
          phys := s
          tasks := k.tasks.modify t fun task =>
            { task with kstack := some (page2pa pp), kstackTop := some (page2pa pp + 4096) } }, true) := by
  unfold taskKstackAlloc
  rcases pageAlloc_cases list 1#32 with ⟨empty, failed⟩ | ⟨pp, rest, s, rfl, took, list', cleared⟩
  · rw [failed]
    exact .inl ⟨empty, rfl⟩
  · rw [took]
    exact .inr ⟨pp, rest, s, rfl, list', fun g => alloc_elsewhere cleared, rfl⟩

theorem taskCreate_secure (table : TableInv k.tasks) (iso : Isolated mem₀ boot k free) :
    Secure mem₀ boot (fun _ => False) k (taskCreate k).1 := by
  unfold taskCreate
  cases head : k.tasks.taskFreeList with
  | none =>
    simp only [taskSlotAlloc, head]
    exact iso.idle rfl rfl rfl table.currentUsed
  | some t =>
    have unused := (table.headUnused head).1
    have restored := slotFree_slotAlloc table.clean head
    have filled := fill_slot head
    have took : k.tasks.taskSlotAlloc = (k.tasks.taskSlotAlloc.1, some t) := by simp only [taskSlotAlloc, head]
    rw [took]
    generalize k.tasks.taskSlotAlloc.1 = T at *
    rcases vmmNewAddressSpace_cases iso.forest.list k.cr3 with ⟨_, failed⟩ |
      ⟨child, rest, s₁, made, isFree, building, _, kernelHalf⟩
    · simp only [failed, restored]
      exact iso.idle rfl rfl rfl table.currentUsed
    · simp only [made]
      obtain ⟨notFree, upper⟩ := iso.current_upper
      have apart : getCurrentPml4 k.cr3 ≠ child := by
        intro isChild
        rw [isFree, isChild] at notFree
        exact notFree List.mem_cons_self
      rcases taskKstackAlloc_memory { k with phys := s₁, tasks := T } t building.list with
        ⟨_, ran⟩ | ⟨pp, rest', s₂, rfl, list, elsewhere, ran⟩
      · simp only [ran, restored]
        exact iso.abandon building rfl rfl table.currentUsed
      · simp only [ran, modify_modify, filled]
        refine iso.spawn (t := t) building (fun j notLower => ?_) list elsewhere (.refl pp s₂) unused
          (fun u other => spawn_slot_other other) ?_ ?_ ?_ ?_ rfl rfl
        · rw [kernelHalf j notLower apart, upper j notLower]
        · simp
        · simp
        · simp
        · simp

theorem taskFork_secure {pml4 : Frame} (regs : SyscallRegs) (table : TableInv k.tasks)
    (iso : Isolated mem₀ boot k free) (isSpace : (k.tasks.slot self).pml4 = some pml4) :
    Secure mem₀ boot (fun _ => False) k (taskFork k self pml4 regs).1 := by
  unfold taskFork
  cases head : k.tasks.taskFreeList with
  | none =>
    simp only [taskSlotAlloc, head]
    exact iso.idle rfl rfl rfl table.currentUsed
  | some t =>
    have unused := (table.headUnused head).1
    have restored := slotFree_slotAlloc table.clean head
    have filled := fill_slot head
    have took : k.tasks.taskSlotAlloc = (k.tasks.taskSlotAlloc.1, some t) := by simp only [taskSlotAlloc, head]
    rw [took]
    generalize k.tasks.taskSlotAlloc.1 = T at *
    rcases vmmCopyAddressSpace_cases iso.forest.list (iso.forest.root_unfree (k := self) isSpace) with ⟨_, failed⟩ |
      ⟨child, rest, s₁, result, made, _, rfl | rfl, building⟩
    · simp only [failed, restored]
      exact iso.idle rfl rfl rfl table.currentUsed
    · simp only [made, restored]
      exact iso.abandon building rfl rfl table.currentUsed
    · simp only [made]
      rcases taskKstackAlloc_memory { k with phys := s₁, tasks := T } t building.list with
        ⟨_, ran⟩ | ⟨pp, rest', s₂, rfl, list, elsewhere, ran⟩
      · simp only [ran, restored]
        exact iso.abandon building rfl rfl table.currentUsed
      · have small := building.list.small pp List.mem_cons_self
        simp only [ran, modify_modify, modify_slot_same, Option.getD_some, filled]
        refine iso.spawn (t := t) building (fun j notLower => iso.upper self pml4 j isSpace notLower) list elsewhere
          (stack_confined small s₂ _ _ _) unused (fun u other => spawn_slot_other other) ?_ ?_ ?_ ?_ rfl rfl
        · simp
        · simp
        · simp
        · simp

/-- Actions of boot code and of running tasks that keep to the lower half.
Kernel threads share the kernel's address space and are left out. -/
def KeepsLower (_ : Kernel) : Action → Prop
  | .createKernel _ => False
  | .elfLoad _ image => ∀ seg ∈ image.segments, InLowerHalf seg
  | .mapStack _ vaddr => (pml4Index vaddr).toNat < KERNEL_PML4_START
  | _ => True

theorem mapStack_evolves {root : κ → Option Frame} {others : ι → Frame → Prop} {i : κ} {s : Phys} {r : Frame}
    (vaddr : U64) (forest : Forest root others 4 s free) (isRoot : root i = some r)
    (lower : Lower (subscript (pml4Index vaddr))) :
    ∃ rest, Evolves root others i s (mapStack s r vaddr) free rest := by
  unfold mapStack
  rcases pageAlloc_cases forest.list 1#32 with ⟨_, failed⟩ | ⟨pp, rest, s₁, rfl, took, list, cleared⟩
  · rw [failed]
    exact ⟨free, .refl forest⟩
  · rw [took]
    obtain ⟨rest', evolves, _⟩ := map_evolves vaddr forest list (fun g => alloc_elsewhere cleared) isRoot lower
    exact ⟨rest', evolves⟩

theorem prepare_secure {entry userStackTop : U64} (iso : Isolated mem₀ boot k free)
    (isUsed : (k.tasks.slot t).state ≠ .unused)
    (shrinks : Shrinks k.tasks (taskPrepareUserEntry k t entry userStackTop).tasks)
    (used : ∀ u, (taskPrepareUserEntry k t entry userStackTop).tasks.currentTask = some u →
      ((taskPrepareUserEntry k t entry userStackTop).tasks.slot u).state ≠ .unused) :
    Secure mem₀ boot (fun _ => False) k (taskPrepareUserEntry k t entry userStackTop) := by
  obtain ⟨_, pp, _, _, small, kstack, kstackTop⟩ := (iso.slots t).used isUsed
  have isStack : holds mem₀ boot k.tasks (.kstack t) pp := ⟨_, kstack, (frameOf_page2pa small).symm⟩
  unfold taskPrepareUserEntry at shrinks used ⊢
  simp only [kstackTop] at shrinks used ⊢
  exact iso.writeStack isStack (stack_confined small k.phys _ _ _) shrinks (.inl ⟨rfl, rfl⟩) used

theorem timerTickHandler_quiet (k : Kernel) : Quiet k (timerTickHandler k) [] := by
  unfold timerTickHandler
  dsimp only
  split
  · exact .refl k _
  · split
    · exact .refl k _
    · split
      · exact .refl k _
      · split
        · exact .refl k _
        · obtain ⟨phys, follows⟩ := switchCurrent_memory (k := { k with gTicks := k.gTicks + 1, tasks := _ }) k _
          exact ⟨.inl phys, follows⟩

/-- A system call other than `sys_fork`. -/
theorem dispatch_quiet {regs : SyscallRegs} {value : Option U64} (iso : Isolated mem₀ boot k free)
    (notFork : regs.rax ≠ SYS_FORK) (did : syscallDispatch k regs = some (k', value, events)) : Quiet k k' events := by
  unfold syscallDispatch at did
  rw [if_neg notFork] at did
  split at did
  · rw [sysWrite_quiet did]
    exact .refl k _
  · split at did
    · exact sysExit_quiet did
    · split at did
      · exact sysSend_quiet iso did
      · split at did
        · exact sysRecv_quiet iso did
        · split at did
          · simp only [sysWait] at did
            split at did
            · cases did
              exact .refl k _
            · exact sysWaitRound_quiet did
          · cases did
            exact .refl k _

theorem dispatch_fork {regs : SyscallRegs} (isFork : regs.rax = SYS_FORK) : syscallDispatch k regs = sysFork k regs := by
  simp [syscallDispatch, isFork, SYS_FORK, SYS_WRITE, SYS_EXIT]

theorem fork_secure {regs : SyscallRegs} (table : TableInv k.tasks) (iso : Isolated mem₀ boot k free)
    (current : k.tasks.currentTask = some self) (did : returnTo self (sysFork k regs) = some (k', events)) :
    Secure mem₀ boot (fun _ => False) k k' := by
  simp only [sysFork, current] at did
  cases isSpace : (k.tasks.slot self).pml4 with
  | none => simp [isSpace, returnTo] at did
  | some pml4 =>
    have secure := taskFork_secure regs table iso isSpace
    simp only [isSpace] at did
    generalize taskFork k self pml4 regs = out at *
    obtain ⟨k₁, _ | child⟩ := out
    · cases did
      obtain ⟨⟨rest, after⟩, access, spared⟩ := secure
      exact ⟨⟨rest, after.forest, after.slots, after.kernel, after.upper, after.inSpace⟩, access, spared⟩
    · cases did
      obtain ⟨⟨rest, after⟩, access, spared⟩ := secure
      exact ⟨⟨rest, after.forest, after.slots, after.kernel, after.upper, after.inSpace⟩, access, spared⟩

/-- The tasks whose memory a step may write to. -/
def Writes (k : Kernel) (a : Action) (events : List Event) (t : Slot) : Prop :=
  (∃ image, a = .elfLoad t image) ∨ (∃ vaddr, a = .mapStack t vaddr) ∨
    (∃ va b, a = .store va b ∧ k.tasks.currentTask = some t) ∨ Sent events t

/-- Every step keeps frames with their owners. -/
theorem step_secure {a : Action} (table : TableInv k.tasks) (iso : Isolated mem₀ boot k free) (may : KeepsLower k a)
    (did : step k a = some (k', events)) : Secure mem₀ boot (Writes k a events) k k' := by
  have nobody : ∀ t, False → Writes k a events t := fun _ never => never.elim
  have sent : ∀ t, Sent events t → Writes k a events t := fun _ sent => .inr (.inr (.inr sent))
  have effect := step_effect table.clean (fun _ current => table.headNotCurrent current) did
  have used := (step_tableInv table did).currentUsed
  have shrinks := effect_shrinks table effect
  cases a with
  | create =>
    cases did
    exact (taskCreate_secure table iso).mono nobody
  | createKernel => exact may.elim
  | destroy t =>
    have shrinks := shrinks (by simp) (by simp) (by simp)
    simp only [step] at did
    split at did
    · cases did
    · cases did
      exact Secure.mono (iso.still rfl shrinks (.inl ⟨taskDestroy_currentTask, rfl⟩) used) nobody
  | elfLoad t image =>
    simp only [step] at did
    split at did
    · cases did
    · rename_i pml4 isSpace
      cases did
      obtain ⟨rest, evolves⟩ := elfLoad_evolves (k := t) iso.forest isSpace may
      refine Secure.mono (iso.evolve evolves (.refl _) (.inl ⟨rfl, rfl⟩) table.currentUsed) ?_
      rintro u rfl
      exact .inl ⟨image, rfl⟩
  | mapStack t vaddr =>
    simp only [step] at did
    split at did
    · cases did
    · rename_i pml4 isSpace
      cases did
      obtain ⟨rest, evolves⟩ := mapStack_evolves (i := t) vaddr iso.forest isSpace (UserAccess.lower_subscript may)
      refine Secure.mono (iso.evolve evolves (.refl _) (.inl ⟨rfl, rfl⟩) table.currentUsed) ?_
      rintro u rfl
      exact .inr (.inl ⟨vaddr, rfl⟩)
  | prepare t entry userStackTop =>
    have shrinks := shrinks (by simp) (by simp) (by simp)
    simp only [step] at did
    split at did
    · rename_i ready
      cases did
      exact (prepare_secure iso (by rw [ready.1]; decide) shrinks used).mono nobody
    · cases did
  | start t =>
    have shrinks := shrinks (by simp) (by simp) (by simp)
    simp only [step] at did
    split at did
    · cases did
      obtain ⟨phys, follows⟩ := start_memory k t
      exact Secure.mono (iso.still phys shrinks follows used) nobody
    · cases did
  | syscall regs =>
    simp only [step] at did
    split at did
    · cases did
    · rename_i self current
      split at did
      · by_cases isFork : regs.rax = SYS_FORK
        · rw [dispatch_fork isFork] at did
          exact (fork_secure table iso current did).mono nobody
        · have shrinks := shrinks (by simp) (by simp) (by simpa using isFork)
          have quiet := returnTo_quiet did fun k₁ value new => dispatch_quiet iso isFork
          exact (quiet.secure iso shrinks used).mono sent
      · cases did
  | resume =>
    have shrinks := shrinks (by simp) (by simp) (by simp)
    simp only [step] at did
    split at did
    · cases did
    · split at did
      · cases did
        exact Secure.mono (iso.still rfl shrinks (.inl ⟨rfl, rfl⟩) used) nobody
      · cases did
        exact Secure.mono (iso.still rfl shrinks (.inl ⟨rfl, rfl⟩) used) nobody
      · have quiet := returnTo_quiet did fun k₁ value new => sysWaitRound_quiet
        exact (quiet.secure iso shrinks used).mono sent
      · cases did
  | tick =>
    have shrinks := shrinks (by simp) (by simp) (by simp)
    simp only [step] at did
    split at did
    · cases did
      exact ((timerTickHandler_quiet k).secure iso shrinks used).mono sent
    · cases did
  | store va b =>
    simp only [step] at did
    split at did
    · cases did
    · rename_i self current
      split at did
      · rename_i ready
        obtain ⟨s, stored, same⟩ := Option.map_eq_some_iff.mp did
        cases same
        rcases iso.inSpace with ⟨noTask, _⟩ | ⟨t, isCurrent, isSpace⟩
        · rw [current] at noTask
          cases noTask
        · refine Secure.mono (iso.evolve (userStore_evolves (k := t) iso.forest isSpace ready.2 stored) (.refl _)
            (.inl ⟨rfl, rfl⟩) table.currentUsed) ?_
          rintro u rfl
          exact .inr (.inr (.inl ⟨va, b, rfl, isCurrent⟩))
      · cases did

end HobbyKernel.IsolationSteps
