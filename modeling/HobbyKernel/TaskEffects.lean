import HobbyKernel.Core.Machine

/-! What one step of the machine can do to the task table. The list is complete:
every invariant of the table is checked against these effects and not against
the code again. -/
namespace HobbyKernel

namespace TaskTable
variable {T : TaskTable} {t u : Slot} {f g : Task → Task} {c d : Control}

@[simp] theorem modify_slot_same : (T.modify t f).slot t = f (T.slot t) := Function.update_self ..

@[simp] theorem modify_slot_other (other : u ≠ t) : (T.modify t f).slot u = T.slot u :=
  Function.update_of_ne other _ _

@[simp] theorem modify_control : (T.modify t f).control = T.control := rfl
@[simp] theorem modify_currentTask : (T.modify t f).currentTask = T.currentTask := rfl
@[simp] theorem modify_taskFreeList : (T.modify t f).taskFreeList = T.taskFreeList := rfl
@[simp] theorem modify_idleTask : (T.modify t f).idleTask = T.idleTask := rfl
@[simp] theorem resumeAt_slot : (T.resumeAt t c).slot = T.slot := rfl
@[simp] theorem resumeAt_currentTask : (T.resumeAt t c).currentTask = T.currentTask := rfl
@[simp] theorem resumeAt_taskFreeList : (T.resumeAt t c).taskFreeList = T.taskFreeList := rfl
@[simp] theorem resumeAt_idleTask : (T.resumeAt t c).idleTask = T.idleTask := rfl
@[simp] theorem resumeAt_control_same : (T.resumeAt t c).control t = c := Function.update_self ..

@[simp] theorem resumeAt_control_other (other : u ≠ t) : (T.resumeAt t c).control u = T.control u :=
  Function.update_of_ne other _ _

@[simp] theorem modify_modify : (T.modify t f).modify t g = T.modify t (g ∘ f) := by
  simp [modify]

@[simp] theorem resumeAt_resumeAt : (T.resumeAt t c).resumeAt t d = T.resumeAt t d := by
  simp [resumeAt]

/-- Noting what is already so changes nothing. -/
theorem resumeAt_self (already : T.control t = c) : T.resumeAt t c = T := by
  rw [resumeAt, ← already, Function.update_eq_self]

/-- A slot taken from the free list gets its new contents. -/
def spawn (T : TaskTable) (t : Slot) (task : Task) (c : Control) : TaskTable :=
  { T with
    slot := Function.update T.slot t task
    taskFreeList := (T.slot t).nextFree
    control := Function.update T.control t c }

@[simp] theorem spawn_slot_same {task : Task} : (T.spawn t task c).slot t = task := Function.update_self ..

@[simp] theorem spawn_slot_other {task : Task} (other : u ≠ t) : (T.spawn t task c).slot u = T.slot u :=
  Function.update_of_ne other _ _

@[simp] theorem spawn_control_same {task : Task} : (T.spawn t task c).control t = c := Function.update_self ..

@[simp] theorem spawn_control_other {task : Task} (other : u ≠ t) : (T.spawn t task c).control u = T.control u :=
  Function.update_of_ne other _ _

@[simp] theorem spawn_currentTask {task : Task} : (T.spawn t task c).currentTask = T.currentTask := rfl

/-- The fields `task_block_and_switch` writes. -/
def block (T : TaskTable) (self : Slot) (reason : BlockReason) (peer buf len : U64) : TaskTable :=
  T.modify self fun task => { task with
    state := .blocked, blockReason := reason, ipcPeer := peer, ipcBuf := buf, ipcLen := len }

@[simp] theorem block_slot_other {reason : BlockReason} {peer buf len : U64} (other : u ≠ t) :
    (T.block t reason peer buf len).slot u = T.slot u := modify_slot_other other

/-- The task that was picked runs. -/
def switchTo (T : TaskTable) (next : Slot) : TaskTable :=
  { T.modify next (fun task => { task with state := .running }) with currentTask := some next }

@[simp] theorem switchTo_slot_same : (T.switchTo t).slot t = { T.slot t with state := .running } :=
  Function.update_self ..

@[simp] theorem switchTo_slot_other (other : u ≠ t) : (T.switchTo t).slot u = T.slot u :=
  Function.update_of_ne other _ _

@[simp] theorem switchTo_control : (T.switchTo t).control = T.control := rfl
@[simp] theorem switchTo_currentTask : (T.switchTo t).currentTask = some t := rfl
@[simp] theorem switchTo_taskFreeList : (T.switchTo t).taskFreeList = T.taskFreeList := rfl
@[simp] theorem switchTo_idleTask : (T.switchTo t).idleTask = T.idleTask := rfl

/-- The timer takes the processor from a running task. -/
def preempt (T : TaskTable) (prev : Slot) : TaskTable :=
  if (T.slot prev).state = .running then T.modify prev fun task => { task with state := .runnable } else T

@[simp] theorem preempt_control : (T.preempt t).control = T.control := by
  unfold preempt
  split <;> rfl

/-- The fields `sys_exit` writes. -/
def exit (T : TaskTable) (self : Slot) (code : U64) : TaskTable :=
  (T.modify self fun task => { task with exitCode := code, state := .dead }).resumeAt self .halted

@[simp] theorem exit_slot_other {code : U64} (other : u ≠ t) : (T.exit t code).slot u = T.slot u :=
  modify_slot_other (f := fun task => { task with exitCode := code, state := .dead }) other

end TaskTable

namespace TaskEffects
open TaskTable

/-- What a slot taken from the free list keeps, and what every new task has. -/
structure Spawned (old new : Task) : Prop where
  taskId : new.taskId = old.taskId
  blockReason : new.blockReason = old.blockReason
  state : new.state = .runnable
  exitCode : new.exitCode = 0
  pml4 : new.pml4 ≠ none

/-- Why a system call blocks, and where it goes on. -/
inductive Cause (s : Phys) (T : TaskTable) (self : Slot) : BlockReason → U64 → U64 → U64 → Control → Prop where
  | send {pml4 : Frame} {target : Slot} {peer buf len : U64} (space : (T.slot self).pml4 = some pml4)
      (valid : uvaCheckRange s pml4 buf len false = true) (found : T.taskFindById peer = some target)
      (busy : awaitsSender (T.slot target) (T.slot self).taskId = false) :
      Cause s T self .onSend peer buf len .inSend
  | recv {pml4 : Frame} {peer buf len : U64} (space : (T.slot self).pml4 = some pml4)
      (valid : uvaCheckRange s pml4 buf len true = true)
      (silent : ∀ t, offersMessage s (T.slot self).taskId peer len (T.slot t) = false) :
      Cause s T self .onRecv peer buf len .inRecv
  | wait {peer : U64} (alive : ∀ t, isChild (T.slot self).taskId peer (T.slot t) = true → (T.slot t).state ≠ .dead)
      (child : ∃ t, isChild (T.slot self).taskId peer (T.slot t) = true) :
      Cause s T self .onWait peer 0 0 (.inWait peer)

/-- The system calls that can block in front of a message. -/
def Rendezvous (regs : SyscallRegs) : BlockReason → Prop
  | .onSend => regs.rax = SYS_SEND
  | .onRecv => regs.rax = SYS_RECV
  | _ => False

/-- The effects of one step on the task table. -/
inductive Effect (s : Phys) (T : TaskTable) : Action → List Event → TaskTable → Prop where
  | quiet (a : Action) : Effect s T a [] T
  | create {t : Slot} {task : Task} (free : T.taskFreeList = some t) (made : Spawned (T.slot t) task)
      (orphan : task.parentId = NO_PARENT) : Effect s T .create [] (T.spawn t task .fresh)
  | createKernel {t : Slot} {task : Task} (entry : U64) (free : T.taskFreeList = some t)
      (made : Spawned (T.slot t) task) (orphan : task.parentId = NO_PARENT) :
      Effect s T (.createKernel entry) [] (T.spawn t task .thread)
  | destroy (t : Slot) (other : T.currentTask ≠ some t) (used : (T.slot t).state ≠ .unused) :
      Effect s T (.destroy t) [] (T.taskDestroy t)
  | prepare (t : Slot) (entry userStackTop rsp : U64) (runnable : (T.slot t).state = .runnable)
      (fresh : T.control t = .fresh) : Effect s T (.prepare t entry userStackTop) []
        ((T.modify t fun task => { task with contextRsp := rsp }).resumeAt t .user)
  | start (t : Slot) (nobody : T.currentTask = none) (runnable : (T.slot t).state = .runnable) :
      Effect s T (.start t) [] { T with currentTask := some t }
  | returned {self : Slot} (regs : SyscallRegs) (value : U64) (current : T.currentTask = some self)
      (user : T.control self = .user) : Effect s T (.syscall regs) [.ret self value] T
  | fork {self child : Slot} {task : Task} (regs : SyscallRegs) (current : T.currentTask = some self)
      (user : T.control self = .user) (free : T.taskFreeList = some child) (made : Spawned (T.slot child) task)
      (parent : task.parentId = (T.slot self).taskId) (isFork : regs.rax = SYS_FORK) :
      Effect s T (.syscall regs) [.forked self child, .ret self task.taskId] (T.spawn child task .user)
  | deliver {self target : Slot} (regs : SyscallRegs) (bytes : List Byte) (value : U64)
      (current : T.currentTask = some self) (user : T.control self = .user)
      (awaits : awaitsSender (T.slot target) (T.slot self).taskId = true) :
      Effect s T (.syscall regs) [.copied self target bytes, .woken target, .ret self value] (T.taskWake target)
  | collect {self sender : Slot} (regs : SyscallRegs) (bytes : List Byte) (value : U64)
      (current : T.currentTask = some self) (user : T.control self = .user) {fromId len : U64}
      (offers : offersMessage s (T.slot self).taskId fromId len (T.slot sender) = true) :
      Effect s T (.syscall regs) [.copied sender self bytes, .woken sender, .ret self value]
        ((T.modify sender fun task => { task with ipcLen := value }).taskWake sender)
  | blockAlone {self : Slot} {reason : BlockReason} {resume : Control} (regs : SyscallRegs)
      (current : T.currentTask = some self) (user : T.control self = .user) (call : Rendezvous regs reason)
      (cause : Cause s T self reason regs.rdi regs.rsi (clampLen regs.rdx) resume)
      (alone : (T.block self reason regs.rdi regs.rsi (clampLen regs.rdx)).schedulerPickNext (some self) = some self) :
      Effect s T (.syscall regs) [.blocked self reason regs.rdi, .ret self (clampLen regs.rdx)]
        (T.block self reason regs.rdi regs.rsi (clampLen regs.rdx))
  | spin {self : Slot} {peer : U64} (a : Action) (current : T.currentTask = some self)
      (inside : T.control self = .user ∨ T.control self = .inWait peer)
      (cause : Cause s T self .onWait peer 0 0 (.inWait peer))
      (alone : (T.block self .onWait peer 0 0).schedulerPickNext (some self) = some self) :
      Effect s T a [.blocked self .onWait peer] ((T.block self .onWait peer 0 0).resumeAt self (.inWait peer))
  | blockSwitch {self next : Slot} {reason : BlockReason} {peer buf len : U64} {resume : Control} (a : Action)
      (current : T.currentTask = some self)
      (inside : T.control self = .user ∨ (reason = .onWait ∧ T.control self = resume))
      (cause : Cause s T self reason peer buf len resume) (other : next ≠ self)
      (picked : (T.block self reason peer buf len).schedulerPickNext (some self) = some next) :
      Effect s T a [.blocked self reason peer] (((T.block self reason peer buf len).resumeAt self resume).switchTo next)
  | exit {self waiter : Slot} (regs : SyscallRegs) (code : U64) (current : T.currentTask = some self)
      (user : T.control self = .user)
      (waits : awaitsChild ((T.exit self code).slot self) ((T.exit self code).slot waiter) = true) :
      Effect s T (.syscall regs) [.exited self, .woken waiter] ((T.exit self code).taskWake waiter)
  | exitUnseen {self : Slot} (regs : SyscallRegs) (code : U64) (current : T.currentTask = some self)
      (user : T.control self = .user)
      (unseen : ∀ t, awaitsChild ((T.exit self code).slot self) ((T.exit self code).slot t) = false) :
      Effect s T (.syscall regs) [.exited self] (T.exit self code)
  | reap {self child : Slot} {childId : U64} (a : Action) (current : T.currentTask = some self)
      (inside : T.control self = .user ∨ T.control self = .inWait childId)
      (mine : isChild (T.slot self).taskId childId (T.slot child) = true)
      (dead : (T.slot child).state = .dead) :
      Effect s T a [.reaped self child, .ret self (T.slot child).taskId]
        ((T.taskDestroy child).resumeAt self .user)
  | childless {self : Slot} {childId : U64} (a : Action) (current : T.currentTask = some self)
      (inside : T.control self = .user ∨ T.control self = .inWait childId)
      (none : ∀ t, isChild (T.slot self).taskId childId (T.slot t) = false) :
      Effect s T a [.ret self SYS_ERROR] (T.resumeAt self .user)
  | resumed {self : Slot} (current : T.currentTask = some self)
      (inside : T.control self = .inSend ∨ T.control self = .inRecv) :
      Effect s T .resume [.ret self (T.slot self).ipcLen] (T.resumeAt self .user)
  | switch {prev next : Slot} (current : T.currentTask = some prev)
      (interruptible : (T.control prev).interruptible = true)
      (picked : T.schedulerPickNext (some prev) = some next) (other : next ≠ prev) :
      Effect s T .tick [] ((T.preempt prev).switchTo next)

/-- The free slots hold nothing that a failed creation would have to restore. -/
def FreeClean (T : TaskTable) : Prop :=
  ∀ t, T.taskFreeList = some t → (T.slot t).state = .unused ∧ (T.slot t).blockReason = .none ∧
    (T.slot t).parentId = NO_PARENT ∧ (T.slot t).exitCode = 0

variable {k k' : Kernel} {T : TaskTable} {t self : Slot} {events : List Event}

/-- Putting back a slot that was just taken restores the table. -/
theorem slotFree_slotAlloc (clean : FreeClean T) (free : T.taskFreeList = some t) :
    (T.taskSlotAlloc.1).taskSlotFree t = T := by
  obtain ⟨state, reason, parent, exitCode⟩ := clean t free
  simp only [taskSlotAlloc, free]
  apply TaskTable.ext
  · funext u
    by_cases same : u = t
    · subst same
      simp only [taskSlotFree, modify_slot_same]
      rw [← state, ← reason, ← parent, ← exitCode]
    · simp only [taskSlotFree, modify_slot_other same]
  · exact free.symm
  · rfl
  · rfl
  · rfl

theorem taskKstackAlloc_cases (k : Kernel) (t : Slot) :
    (∃ s, taskKstackAlloc k t = ({ k with phys := s }, false)) ∨
      ∃ s base, taskKstackAlloc k t = ({ k with phys := s, tasks := k.tasks.modify t fun task =>
        { task with kstack := some base, kstackTop := some (base + 4096) } }, true) := by
  unfold taskKstackAlloc
  rcases pageAlloc k.phys 1#32 with ⟨s, _ | pp⟩
  · exact .inl ⟨s, rfl⟩
  · exact .inr ⟨s, page2pa pp, rfl⟩

/-- A creation either fails and restores the table, or fills the first free
slot. -/
inductive Creation (T : TaskTable) (c : Control) (parentId : U64) : TaskTable → Option Slot → Prop where
  | failed : Creation T c parentId T none
  | made {t : Slot} {task : Task} (free : T.taskFreeList = some t) (made : Spawned (T.slot t) task)
      (parent : task.parentId = parentId) : Creation T c parentId (T.spawn t task c) (some t)

theorem Creation.unchanged {T' : TaskTable} {c : Control} {parentId : U64} (creation : Creation T c parentId T' none) :
    T' = T := by
  cases creation
  rfl

theorem Creation.spawned {T' : TaskTable} {c : Control} {parentId : U64}
    (creation : Creation T c parentId T' (some t)) : ∃ task, T.taskFreeList = some t ∧ Spawned (T.slot t) task ∧
      task.parentId = parentId ∧ T' = T.spawn t task c := by
  cases creation with
  | made free made parent => exact ⟨_, free, made, parent, rfl⟩

/-- Taking the first free slot and writing all its fields. -/
theorem fill_slot (free : T.taskFreeList = some t) (f : Task → Task) (c : Control) :
    ((T.taskSlotAlloc.1.modify t f).resumeAt t c) = T.spawn t (f { T.slot t with nextFree := none }) c := by
  simp only [taskSlotAlloc, free]
  apply TaskTable.ext
  · funext u
    by_cases same : u = t
    · subst same
      simp
    · simp [same]
  · rfl
  · rfl
  · rfl
  · rfl

theorem taskCreate_creation (clean : FreeClean k.tasks) :
    Creation k.tasks .fresh NO_PARENT (taskCreate k).1.tasks (taskCreate k).2 := by
  unfold taskCreate
  cases free : k.tasks.taskFreeList with
  | none =>
    simp only [taskSlotAlloc, free]
    exact .failed
  | some t =>
    have restored := slotFree_slotAlloc clean free
    have filled := fill_slot free
    have took : k.tasks.taskSlotAlloc = (k.tasks.taskSlotAlloc.1, some t) := by simp only [taskSlotAlloc, free]
    rw [took]
    generalize k.tasks.taskSlotAlloc.1 = T at *
    rcases vmmNewAddressSpace k.phys k.cr3 with ⟨s, _ | pml4⟩
    · dsimp only
      rw [restored]
      exact .failed
    · rcases taskKstackAlloc_cases { k with phys := s, tasks := T } t with ⟨s', failed⟩ | ⟨s', base, made⟩
      · simp only [failed, restored]
        exact .failed
      · simp only [made, modify_modify, filled]
        exact .made free ⟨rfl, rfl, rfl, rfl, by simp⟩ rfl

theorem taskCreateKernel_creation (clean : FreeClean k.tasks) (entry : U64) :
    Creation k.tasks .thread NO_PARENT (taskCreateKernel k entry).1.tasks (taskCreateKernel k entry).2 := by
  unfold taskCreateKernel
  cases free : k.tasks.taskFreeList with
  | none =>
    simp only [taskSlotAlloc, free]
    exact .failed
  | some t =>
    have restored := slotFree_slotAlloc clean free
    have filled := fill_slot free
    have took : k.tasks.taskSlotAlloc = (k.tasks.taskSlotAlloc.1, some t) := by simp only [taskSlotAlloc, free]
    rw [took]
    generalize k.tasks.taskSlotAlloc.1 = T at *
    rcases taskKstackAlloc_cases { k with tasks := T } t with ⟨s', failed⟩ | ⟨s', base, made⟩
    · simp only [failed, restored]
      exact .failed
    · simp only [made, taskStackInit, modify_modify, modify_slot_same, Function.comp, filled]
      exact .made free ⟨rfl, rfl, rfl, rfl, by simp⟩ rfl

theorem taskFork_creation (clean : FreeClean k.tasks) (apart : k.tasks.taskFreeList ≠ some self) (pml4 : Frame)
    (regs : SyscallRegs) : Creation k.tasks .user (k.tasks.slot self).taskId (taskFork k self pml4 regs).1.tasks
      (taskFork k self pml4 regs).2 := by
  unfold taskFork
  cases free : k.tasks.taskFreeList with
  | none =>
    simp only [taskSlotAlloc, free]
    exact .failed
  | some t =>
    have restored := slotFree_slotAlloc clean free
    have filled := fill_slot free
    have other : self ≠ t := fun same => apart (same ▸ free)
    have parent : (k.tasks.taskSlotAlloc.1.slot self) = k.tasks.slot self := by
      simp [taskSlotAlloc, free, other]
    have took : k.tasks.taskSlotAlloc = (k.tasks.taskSlotAlloc.1, some t) := by simp only [taskSlotAlloc, free]
    rw [took]
    generalize k.tasks.taskSlotAlloc.1 = T at *
    rcases vmmCopyAddressSpace k.phys pml4 with ⟨s, _ | childPml4⟩
    · dsimp only
      rw [restored]
      exact .failed
    · rcases taskKstackAlloc_cases { k with phys := s, tasks := T } t with ⟨s', failed⟩ | ⟨s', base, made⟩
      · simp only [failed, restored]
        exact .failed
      · simp only [made, modify_modify, modify_slot_other other, parent, filled]
        exact .made free ⟨rfl, rfl, rfl, rfl, by simp⟩ rfl

theorem schedulerSwitchTo_tasks (k : Kernel) (next : Slot) : (schedulerSwitchTo k next).tasks = k.tasks := by
  unfold schedulerSwitchTo
  cases (k.tasks.slot next).pml4 with
  | none =>
    dsimp only
    cases (k.tasks.slot next).kstackTop <;> rfl
  | some pml4 =>
    dsimp only
    cases (k.tasks.slot next).kstackTop <;> rfl

theorem switchCurrent_tasks (k : Kernel) (next : Slot) : (switchCurrent k next).tasks = k.tasks.switchTo next :=
  schedulerSwitchTo_tasks _ next

/-- The scheduler never answers with nothing to a task. -/
theorem schedulerPickNext_some (T : TaskTable) (self : Slot) :
    ∃ next, T.schedulerPickNext (some self) = some next := by
  unfold schedulerPickNext
  split
  · exact ⟨_, rfl⟩
  · split
    · exact ⟨_, rfl⟩
    · split
      · rename_i idle
        exact Option.isSome_iff_exists.mp idle
      · exact ⟨_, rfl⟩

/-- `task_block_and_switch` comes back at once, or another task runs. -/
theorem taskBlockAndSwitch_cases (k : Kernel) (self : Slot) (resume : Control) (reason : BlockReason)
    (peer buf len : U64) :
    ((k.tasks.block self reason peer buf len).schedulerPickNext (some self) = some self ∧
      taskBlockAndSwitch k self resume reason peer buf len =
        ({ k with tasks := k.tasks.block self reason peer buf len }, true)) ∨
    ∃ next, next ≠ self ∧
      (k.tasks.block self reason peer buf len).schedulerPickNext (some self) = some next ∧
      taskBlockAndSwitch k self resume reason peer buf len =
        (switchCurrent { k with tasks := (k.tasks.block self reason peer buf len).resumeAt self resume } next,
          false) := by
  obtain ⟨next, picked⟩ := schedulerPickNext_some (k.tasks.block self reason peer buf len) self
  unfold taskBlockAndSwitch
  rw [← TaskTable.block]
  dsimp only
  by_cases same : next = self
  · subst same
    refine .inl ⟨picked, ?_⟩
    rw [picked]
    exact if_pos rfl
  · refine .inr ⟨next, same, picked, ?_⟩
    rw [picked]
    exact if_neg same

theorem find_slots_none {p : Slot → Bool} (none : slots.find? p = none) (t : Slot) : p t = false := by
  have := List.find?_eq_none.mp none t (List.mem_finRange t)
  exact Bool.eq_false_iff.mpr this

theorem find_slots_some {p : Slot → Bool} (found : slots.find? p = some t) : p t = true :=
  List.find?_some found

/-- Every way a round of `sys_wait` can end. -/
theorem sysWaitRound_effect {a : Action} {childId : U64} (current : k.tasks.currentTask = some self)
    (inside : k.tasks.control self = .user ∨ k.tasks.control self = .inWait childId)
    (did : returnTo self (sysWaitRound k self childId) = some (k', events)) :
    Effect k.phys k.tasks a events k'.tasks := by
  simp only [sysWaitRound] at did
  cases found : slots.find? fun t =>
      isChild (k.tasks.slot self).taskId childId (k.tasks.slot t) && (k.tasks.slot t).state = .dead with
  | some child =>
    have matched := find_slots_some found
    simp only [Bool.and_eq_true, decide_eq_true_eq] at matched
    rw [found] at did
    cases did
    exact .reap a current inside matched.1 matched.2
  | none =>
    have alive : ∀ t, isChild (k.tasks.slot self).taskId childId (k.tasks.slot t) = true →
        (k.tasks.slot t).state ≠ .dead := by
      intro t mine dead
      have := find_slots_none found t
      simp [mine, dead] at this
    rw [found] at did
    dsimp only at did
    by_cases child : slots.any (fun t => isChild (k.tasks.slot self).taskId childId (k.tasks.slot t)) = true
    · rw [child] at did
      rw [List.any_eq_true] at child
      obtain ⟨t, _, mine⟩ := child
      have cause : Cause k.phys k.tasks self .onWait childId 0 0 (.inWait childId) := .wait alive ⟨t, mine⟩
      rcases taskBlockAndSwitch_cases k self (.inWait childId) .onWait childId 0 0 with
        ⟨alone, ran⟩ | ⟨next, other, picked, ran⟩
      · rw [ran] at did
        cases did
        exact .spin a current inside cause alone
      · rw [ran] at did
        cases did
        rw [switchCurrent_tasks]
        exact .blockSwitch a current (inside.imp_right fun same => ⟨rfl, same⟩) cause other picked
    · rw [Bool.not_eq_true] at child
      rw [child] at did
      cases did
      refine .childless a current inside (fun t => ?_)
      have := List.any_eq_false.mp child t (List.mem_finRange t)
      exact Bool.eq_false_iff.mpr this

/-- A call that returned without touching the table. -/
theorem returned_effect {regs : SyscallRegs} {value : U64} {s : Phys} (current : T.currentTask = some self)
    (user : T.control self = .user) :
    Effect s T (.syscall regs) [.ret self value] (T.resumeAt self .user) := by
  rw [resumeAt_self user]
  exact .returned regs value current user

/-- Behind the return of a call that blocked, or not. -/
theorem block_effect {regs : SyscallRegs} {resume : Control} {reason : BlockReason}
    (current : k.tasks.currentTask = some self) (user : k.tasks.control self = .user)
    (cause : Cause k.phys k.tasks self reason regs.rdi regs.rsi (clampLen regs.rdx) resume)
    (call : Rendezvous regs reason)
    (did : returnTo self (match taskBlockAndSwitch k self resume reason regs.rdi regs.rsi (clampLen regs.rdx) with
      | (k, true) => some (k, some (k.tasks.slot self).ipcLen, [.blocked self reason regs.rdi])
      | (k, false) => some (k, none, [.blocked self reason regs.rdi])) = some (k', events)) :
    Effect k.phys k.tasks (.syscall regs) events k'.tasks := by
  rcases taskBlockAndSwitch_cases k self resume reason regs.rdi regs.rsi (clampLen regs.rdx) with
    ⟨alone, ran⟩ | ⟨next, other, picked, ran⟩
  · rw [ran] at did
    cases did
    rw [resumeAt_self (show (k.tasks.block self reason regs.rdi regs.rsi (clampLen regs.rdx)).control self = .user
      from user)]
    have stored : ((k.tasks.block self reason regs.rdi regs.rsi (clampLen regs.rdx)).slot self).ipcLen =
        clampLen regs.rdx := by
      simp [TaskTable.block]
    simp only [stored, List.singleton_append]
    exact .blockAlone regs current user call cause alone
  · rw [ran] at did
    cases did
    rw [switchCurrent_tasks]
    exact .blockSwitch _ current (.inl user) cause other picked

theorem sysSend_effect {regs : SyscallRegs} (current : k.tasks.currentTask = some self)
    (user : k.tasks.control self = .user) (isSend : regs.rax = SYS_SEND)
    (did : returnTo self (sysSend k regs.rdi regs.rsi regs.rdx) = some (k', events)) :
    Effect k.phys k.tasks (.syscall regs) events k'.tasks := by
  simp only [sysSend, current] at did
  cases space : (k.tasks.slot self).pml4 with
  | none => simp [space, returnTo] at did
  | some pml4 =>
    simp only [space] at did
    cases valid : uvaCheckRange k.phys pml4 regs.rsi (clampLen regs.rdx) false with
    | false =>
      simp only [valid, Bool.not_false, if_true] at did
      cases did
      exact returned_effect current user
    | true =>
      simp only [valid, Bool.not_true, Bool.false_eq_true, if_false] at did
      cases found : k.tasks.taskFindById regs.rdi with
      | none =>
        simp only [found] at did
        cases did
        exact returned_effect current user
      | some target =>
        simp only [found, sendTo] at did
        cases awaits : awaitsSender (k.tasks.slot target) (k.tasks.slot self).taskId with
        | false =>
          simp only [awaits, Bool.false_eq_true, if_false] at did
          exact block_effect current user (.send space valid found awaits) isSend did
        | true =>
          simp only [awaits, if_true] at did
          split at did
          · cases did
          · split at did
            · cases did
              exact returned_effect current user
            · split at did
              · cases did
              · split at did
                · cases did
                · cases did
                  dsimp only
                  rw [resumeAt_self (show (k.tasks.taskWake target).control self = .user from user)]
                  exact .deliver regs _ _ current user awaits

theorem sysRecv_effect {regs : SyscallRegs} (current : k.tasks.currentTask = some self)
    (user : k.tasks.control self = .user) (isRecv : regs.rax = SYS_RECV)
    (did : returnTo self (sysRecv k regs.rdi regs.rsi regs.rdx) = some (k', events)) :
    Effect k.phys k.tasks (.syscall regs) events k'.tasks := by
  simp only [sysRecv, current] at did
  cases space : (k.tasks.slot self).pml4 with
  | none => simp [space, returnTo] at did
  | some pml4 =>
    simp only [space] at did
    cases valid : uvaCheckRange k.phys pml4 regs.rsi (clampLen regs.rdx) true with
    | false =>
      simp only [valid, Bool.not_false, if_true] at did
      cases did
      exact returned_effect current user
    | true =>
      simp only [valid, Bool.not_true, Bool.false_eq_true, if_false] at did
      cases found : slots.find? fun t =>
          offersMessage k.phys (k.tasks.slot self).taskId regs.rdi (clampLen regs.rdx) (k.tasks.slot t) with
      | none =>
        simp only [found] at did
        exact block_effect current user (.recv space valid (find_slots_none found)) isRecv did
      | some sender =>
        simp only [found, recvFrom] at did
        split at did
        · cases did
        · split at did
          · cases did
          · split at did
            · cases did
            · cases did
              dsimp only
              rw [resumeAt_self (show (((k.tasks.modify sender _).taskWake sender).control self = .user) from user)]
              exact .collect regs _ _ current user (find_slots_some found)

theorem sysExit_effect {regs : SyscallRegs} {code : U64} (current : k.tasks.currentTask = some self)
    (user : k.tasks.control self = .user) (did : returnTo self (sysExit k code) = some (k', events)) :
    Effect k.phys k.tasks (.syscall regs) events k'.tasks := by
  simp only [sysExit, current] at did
  rw [← TaskTable.exit] at did
  cases found : slots.find? fun t =>
      awaitsChild ((k.tasks.exit self code).slot self) ((k.tasks.exit self code).slot t) with
  | none =>
    simp only [found] at did
    cases did
    exact .exitUnseen regs code current user (find_slots_none found)
  | some waiter =>
    simp only [found] at did
    cases did
    exact .exit regs code current user (find_slots_some found)

theorem sysFork_effect {regs : SyscallRegs} (clean : FreeClean k.tasks) (used : k.tasks.taskFreeList ≠ some self)
    (current : k.tasks.currentTask = some self) (user : k.tasks.control self = .user) (isFork : regs.rax = SYS_FORK)
    (did : returnTo self (sysFork k regs) = some (k', events)) :
    Effect k.phys k.tasks (.syscall regs) events k'.tasks := by
  simp only [sysFork, current] at did
  cases space : (k.tasks.slot self).pml4 with
  | none => simp [space, returnTo] at did
  | some pml4 =>
    simp only [space] at did
    have creation := taskFork_creation clean used pml4 regs
    generalize taskFork k self pml4 regs = out at *
    obtain ⟨k₁, _ | child⟩ := out
    · cases did
      have same := creation.unchanged
      dsimp only at same ⊢
      rw [same]
      exact returned_effect current user
    · cases did
      obtain ⟨task, free, made, parent, filled⟩ := creation.spawned
      have other : self ≠ child := fun same => used (same ▸ free)
      dsimp only at filled ⊢
      rw [filled, resumeAt_self (by rw [spawn_control_other other]; exact user), spawn_slot_same]
      exact .fork regs current user free made parent isFork

theorem sysWrite_effect {regs : SyscallRegs} {userPtr len : U64} (current : k.tasks.currentTask = some self)
    (user : k.tasks.control self = .user) (did : returnTo self (sysWrite k userPtr len) = some (k', events)) :
    Effect k.phys k.tasks (.syscall regs) events k'.tasks := by
  simp only [sysWrite, current] at did
  generalize (if 255 < len then 255 else len) = clamped at did
  split at did
  · cases did
  · split at did
    · cases did
      exact returned_effect current user
    · split at did
      · cases did
      · cases did
        exact returned_effect current user

theorem timerTickHandler_effect (ready : k.tasks.currentTask.all (fun t => (k.tasks.control t).interruptible) = true) :
    Effect k.phys k.tasks .tick [] (timerTickHandler k).tasks := by
  unfold timerTickHandler
  dsimp only
  split
  · exact .quiet _
  · cases current : k.tasks.currentTask with
    | none => exact .quiet _
    | some prev =>
      obtain ⟨next, picked⟩ := schedulerPickNext_some k.tasks prev
      rw [current] at ready
      simp only [picked]
      split
      · exact .quiet _
      · rename_i other
        rw [switchCurrent_tasks, ← TaskTable.preempt]
        exact .switch current ready picked other

/-- Every step of the machine has one of the listed effects on the table. -/
theorem step_effect {a : Action} (clean : FreeClean k.tasks)
    (used : ∀ self, k.tasks.currentTask = some self → k.tasks.taskFreeList ≠ some self)
    (did : step k a = some (k', events)) : Effect k.phys k.tasks a events k'.tasks := by
  cases a with
  | create =>
    cases did
    have creation := taskCreate_creation clean
    generalize taskCreate k = out at *
    obtain ⟨k₁, _ | t⟩ := out
    · rw [creation.unchanged]
      exact .quiet _
    · obtain ⟨task, free, made, orphan, filled⟩ := creation.spawned
      rw [filled]
      exact .create free made orphan
  | createKernel entry =>
    cases did
    have creation := taskCreateKernel_creation clean entry
    generalize taskCreateKernel k entry = out at *
    obtain ⟨k₁, _ | t⟩ := out
    · rw [creation.unchanged]
      exact .quiet _
    · obtain ⟨task, free, made, orphan, filled⟩ := creation.spawned
      rw [filled]
      exact .createKernel entry free made orphan
  | destroy t =>
    simp only [step] at did
    split at did
    · cases did
    · rename_i other
      cases did
      by_cases used : (k.tasks.slot t).state = .unused
      · simp only [taskDestroy, used, if_true]
        exact .quiet _
      · exact .destroy t other used
  | elfLoad t image =>
    simp only [step] at did
    split at did
    · cases did
    · cases did
      exact .quiet _
  | mapStack t vaddr =>
    simp only [step] at did
    split at did
    · cases did
    · cases did
      exact .quiet _
  | prepare t entry userStackTop =>
    simp only [step] at did
    split at did
    · rename_i ready
      cases did
      unfold taskPrepareUserEntry
      cases (k.tasks.slot t).kstackTop with
      | none => exact .quiet _
      | some top =>
        have same : (k.tasks.modify t fun task => { task with
            contextRsp := top - SIZEOF_SYSCALL_REGS - 8 - 48, state := .runnable }) =
            k.tasks.modify t fun task => { task with contextRsp := top - SIZEOF_SYSCALL_REGS - 8 - 48 } := by
          simp only [TaskTable.modify, ← ready.1]
        dsimp only
        rw [same]
        exact .prepare t entry userStackTop _ ready.1 ready.2
    · cases did
  | start t =>
    simp only [step] at did
    split at did
    · rename_i ready
      cases did
      rw [schedulerSwitchTo_tasks]
      exact .start t ready.1 ready.2
    · cases did
  | syscall regs =>
    simp only [step] at did
    split at did
    · cases did
    · rename_i self current
      split at did
      · rename_i user
        unfold syscallDispatch at did
        split at did
        · exact sysWrite_effect current user did
        · split at did
          · exact sysExit_effect current user did
          · split at did
            · rename_i isFork
              exact sysFork_effect clean (used self current) current user isFork did
            · split at did
              · rename_i isSend
                exact sysSend_effect current user isSend did
              · split at did
                · rename_i isRecv
                  exact sysRecv_effect current user isRecv did
                · split at did
                  · simp only [sysWait, current] at did
                    exact sysWaitRound_effect current (.inl user) did
                  · cases did
                    exact returned_effect current user
      · cases did
  | resume =>
    simp only [step] at did
    split at did
    · cases did
    · rename_i self current
      split at did
      · rename_i inside
        cases did
        exact .resumed current (.inl inside)
      · rename_i inside
        cases did
        exact .resumed current (.inr inside)
      · rename_i inside
        exact sysWaitRound_effect current (.inr inside) did
      · cases did
  | tick =>
    simp only [step] at did
    split at did
    · rename_i ready
      cases did
      exact timerTickHandler_effect ready
    · cases did
  | store va b =>
    simp only [step] at did
    split at did
    · cases did
    · split at did
      · obtain ⟨s, _, same⟩ := Option.map_eq_some_iff.mp did
        cases same
        exact .quiet _
      · cases did

end TaskEffects
end HobbyKernel
