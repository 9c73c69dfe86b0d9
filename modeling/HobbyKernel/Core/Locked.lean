import HobbyKernel.Core.Machine
import HobbyKernel.Lib.LockProgram

/-! The same functions with `task_table_lock`, operation by operation, as an
interrupt may find them. What they do to the kernel's data is that of their
namesakes; here it matters where the lock is taken and given back. -/
namespace HobbyKernel.Locked
open LockProgram Prog

/-- Loops that end in no particular number of rounds: that of `sys_wait`, and
the `hlt` loop behind `sys_exit`. -/
inductive Routine where
  | waitLoop (self : Slot) (childId : U64)
  | hltLoop

abbrev P := Prog Kernel Slot Routine U64

/-- Change the task table. -/
def onTasks (effect : TaskTable → TaskTable) : P Unit := modify fun k => { k with tasks := effect k.tasks }

/-- `task_slot_alloc`. -/
def taskSlotAlloc : P (Option Slot) := do
  let f ← lock
  match ← look (·.tasks.taskFreeList) with
  | none =>
    unlock f
    return none
  | some t =>
    onTasks fun T =>
      { T.modify t (fun task => { task with nextFree := none }) with taskFreeList := (T.slot t).nextFree }
    unlock f
    return some t

/-- `task_slot_free`. -/
def taskSlotFree (t : Slot) : P Unit := do
  let f ← lock
  onTasks fun T => T.taskSlotFree t
  unlock f

/-- `task_destroy`. -/
def taskDestroy (t : Slot) : P Unit := do
  if (← look fun k => (k.tasks.slot t).state) = .unused then return
  onTasks fun T => T.modify t fun task => { task with pml4 := none, kstack := none, kstackTop := none, contextRsp := 0 }
  taskSlotFree t

/-- The loop of `task_find_by_id`, which gives the lock back where it ends. -/
def findLoop (taskId : U64) (f : Bool) : List Slot → P (Option Slot)
  | [] => do
    unlock f
    return none
  | t :: rest => do
    if (← look fun k => (k.tasks.slot t).state ≠ .unused && (k.tasks.slot t).taskId = taskId) then
      unlock f
      return some t
    else findLoop taskId f rest

/-- `task_find_by_id`. -/
def taskFindById (taskId : U64) : P (Option Slot) := do
  let f ← lock
  findLoop taskId f TaskTable.slots

/-- The loop of `scheduler_pick_next`. -/
def pickLoop : List Slot → P (Option Slot)
  | [] => return none
  | t :: rest => do
    if (← look fun k => (k.tasks.slot t).state) = .runnable then return some t
    else pickLoop rest

/-- `scheduler_pick_next`. -/
def schedulerPickNext (current : Option Slot) : P (Option Slot) := do
  let f ← lock
  match ← pickLoop (TaskTable.pickOrder current) with
  | some t =>
    unlock f
    return some t
  | none =>
    let found ← look fun k =>
      if current.any (fun t => (k.tasks.slot t).state = .runnable) then current
      else if k.tasks.idleTask.isSome then k.tasks.idleTask
      else current
    unlock f
    return found

/-- `scheduler_switch_to`. -/
def schedulerSwitchTo (old : Option Slot) (new : Slot) : P Unit := do
  modify (HobbyKernel.schedulerSwitchTo · new)
  switch old new (done ())

/-- `task_block_and_switch`. -/
def taskBlockAndSwitch (self : Slot) (resume : Control) (reason : BlockReason) (peer buf len : U64) : P Unit := do
  let f ← lock
  onTasks fun T => T.modify self fun task => { task with
    state := .blocked
    blockReason := reason
    ipcPeer := peer
    ipcBuf := buf
    ipcLen := len }
  unlock f
  match ← schedulerPickNext (some self) with
  | none => return
  | some next =>
    if next = self then return
    onTasks fun T => T.resumeAt self resume
    let f ← lock
    onTasks fun T => { T.modify next (fun task => { task with state := .running }) with currentTask := some next }
    unlock f
    schedulerSwitchTo (some self) next

/-- `timer_tick_handler`. -/
def timerTickHandler : P Unit := do
  modify fun k => { k with gTicks := k.gTicks + 1 }
  if (← look fun k => k.gTicks % TIME_SLICE_TICKS) ≠ 0 then return
  match ← look (·.tasks.currentTask) with
  | none => return
  | some prev =>
    match ← schedulerPickNext (some prev) with
    | none => return
    | some next =>
      if next = prev then return
      let f ← lock
      if (← look fun k => (k.tasks.slot prev).state) = .running then
        onTasks fun T => T.modify prev fun task => { task with state := .runnable }
      onTasks fun T => { T.modify next (fun task => { task with state := .running }) with currentTask := some next }
      unlock f
      schedulerSwitchTo (some prev) next

/-- `task_create`. -/
def taskCreate : P (Option Slot) := do
  match ← taskSlotAlloc with
  | none => return none
  | some t =>
    match ← answer fun k => ({ k with phys := (vmmNewAddressSpace k.phys k.cr3).1 }, (vmmNewAddressSpace k.phys k.cr3).2) with
    | none =>
      taskSlotFree t
      return none
    | some pml4 =>
      match ← answer (taskKstackAlloc · t) with
      | false =>
        taskSlotFree t
        return none
      | true =>
        onTasks fun T => (T.modify t fun task => { task with
          pml4 := some pml4
          state := .runnable
          contextRsp := 0
          parentId := NO_PARENT
          exitCode := 0 }).resumeAt t .fresh
        spawn t none (return some t)

/-- `task_create_kernel`. The trampoline turns interrupts on. -/
def taskCreateKernel (entry : U64) : P (Option Slot) := do
  match ← taskSlotAlloc with
  | none => return none
  | some t =>
    match ← answer (taskKstackAlloc · t) with
    | false =>
      taskSlotFree t
      return none
    | true =>
      modify fun k => taskStackInit { k with tasks := k.tasks.modify t fun task => { task with
        pml4 := some (getCurrentPml4 k.cr3)
        state := .runnable
        parentId := NO_PARENT
        exitCode := 0 } } t entry
      spawn t (some true) (return some t)

/-- The interrupt flag of a saved `rflags`. -/
def interruptFlag (rflags : U64) : Bool := testBit rflags 9

/-- `task_fork`. -/
def taskFork (parent : Slot) (parentPml4 : Frame) (parentRegs : SyscallRegs) : P (Option Slot) := do
  match ← taskSlotAlloc with
  | none => return none
  | some child =>
    match ← answer fun k =>
        ({ k with phys := (vmmCopyAddressSpace k.phys parentPml4).1 }, (vmmCopyAddressSpace k.phys parentPml4).2) with
    | none =>
      taskSlotFree child
      return none
    | some childPml4 =>
      match ← answer (taskKstackAlloc · child) with
      | false =>
        taskSlotFree child
        return none
      | true =>
        modify fun k =>
          let frameTop := ((k.tasks.slot child).kstackTop.getD 0) - SIZEOF_SYSCALL_REGS
          let sp := frameTop - 8 - 48
          { k with
            phys := (k.phys.writeWords frameTop { parentRegs with rax := 0 }.words).writeWords sp
              (contextFrame frameTop k.symbols.syscallEntryReturn)
            tasks := (k.tasks.modify child fun task => { task with
              pml4 := some childPml4
              parentId := (k.tasks.slot parent).taskId
              exitCode := 0
              contextRsp := sp
              state := .runnable }).resumeAt child .user }
        spawn child (some (interruptFlag parentRegs.rflags)) (return some child)

/-- `task_prepare_user_entry`. -/
def prepareUserEntry (t : Slot) (entry userStackTop : U64) : P Unit := do
  modify (taskPrepareUserEntry · t entry userStackTop)
  spawn t (some (interruptFlag 0x202)) (return)

/-- Kernel code reads the bytes of the current address space. -/
def loadBytes (va : U64) (n : Nat) : P (List Byte) :=
  perform fun k => (Cpu.loadBytes k.phys (getCurrentPml4 k.cr3) va n).map fun bytes => (k, bytes)

def storeBytes (va : U64) (bytes : List Byte) : P Unit :=
  perform fun k => (Cpu.storeBytes k.phys (getCurrentPml4 k.cr3) va bytes).map fun s => ({ k with phys := s }, ())

def vmmSwitchAddressSpace (pml4 : Frame) : P Unit := modify fun k => { k with cr3 := pml4Phys pml4 }

/-- `sys_fork`. -/
def sysFork (regs : SyscallRegs) : P U64 := do
  match ← look (·.tasks.currentTask) with
  | none => return SYS_ERROR
  | some self =>
    match ← look fun k => (k.tasks.slot self).pml4 with
    | none => fault
    | some pml4 =>
      match ← taskFork self pml4 regs with
      | none => return SYS_ERROR
      | some child => look fun k => (k.tasks.slot child).taskId

/-- `sys_write`. -/
def sysWrite (userPtr len : U64) : P U64 := do
  let len := if 255 < len then 255 else len
  match ← look (·.tasks.currentTask) with
  | none => return SYS_ERROR
  | some self =>
    match ← look fun k => (k.tasks.slot self).pml4 with
    | none => fault
    | some pml4 =>
      if !(← look fun k => uvaCheckRange k.phys pml4 userPtr len false) then return SYS_ERROR
      else
        let _ ← loadBytes userPtr len.toNat
        return len

/-- `sys_send`, from where it takes the lock. -/
def sendTo (self target : Slot) (targetId userBuf len : U64) : P U64 := do
  let f ← lock
  let receiver ← look fun k => k.tasks.slot target
  if awaitsSender receiver (← look fun k => (k.tasks.slot self).taskId) then
    let copyLen := minLen len receiver.ipcLen
    match receiver.pml4 with
    | none => fault
    | some targetPml4 =>
      if !(← look fun k => uvaCheckRange k.phys targetPml4 receiver.ipcBuf copyLen true) then
        unlock f
        return SYS_ERROR
      else
        let tmp ← loadBytes userBuf copyLen.toNat
        let senderPml4 ← look fun k => getCurrentPml4 k.cr3
        vmmSwitchAddressSpace targetPml4
        storeBytes receiver.ipcBuf tmp
        vmmSwitchAddressSpace senderPml4
        onTasks fun T => T.taskWake target
        unlock f
        return copyLen
  else
    unlock f
    taskBlockAndSwitch self .inSend .onSend targetId userBuf len
    look fun k => (k.tasks.slot self).ipcLen

/-- `sys_send`. -/
def sysSend (targetId userBuf len : U64) : P U64 := do
  match ← look (·.tasks.currentTask) with
  | none => return SYS_ERROR
  | some self =>
    let len := clampLen len
    match ← look fun k => (k.tasks.slot self).pml4 with
    | none => fault
    | some pml4 =>
      if !(← look fun k => uvaCheckRange k.phys pml4 userBuf len false) then return SYS_ERROR
      else
        match ← taskFindById targetId with
        | none => return SYS_ERROR
        | some target => sendTo self target targetId userBuf len

/-- The copy in `sys_recv`, up to its return. -/
def recvFrom (sender : Slot) (userBuf len : U64) (f : Bool) : P U64 := do
  let task ← look fun k => k.tasks.slot sender
  let copyLen := minLen len task.ipcLen
  match task.pml4 with
  | none => fault
  | some senderPml4 =>
    let receiverPml4 ← look fun k => getCurrentPml4 k.cr3
    vmmSwitchAddressSpace senderPml4
    let tmp ← loadBytes task.ipcBuf copyLen.toNat
    vmmSwitchAddressSpace receiverPml4
    storeBytes userBuf tmp
    onTasks fun T => (T.modify sender fun task => { task with ipcLen := copyLen }).taskWake sender
    unlock f
    return copyLen

/-- The loop of `sys_recv` and what follows it. -/
def recvLoop (self : Slot) (fromId userBuf len : U64) (f : Bool) : List Slot → P U64
  | [] => do
    unlock f
    taskBlockAndSwitch self .inRecv .onRecv fromId userBuf len
    look fun k => (k.tasks.slot self).ipcLen
  | t :: rest => do
    if (← look fun k => offersMessage k.phys (k.tasks.slot self).taskId fromId len (k.tasks.slot t)) then
      recvFrom t userBuf len f
    else recvLoop self fromId userBuf len f rest

/-- `sys_recv`. -/
def sysRecv (fromId userBuf len : U64) : P U64 := do
  match ← look (·.tasks.currentTask) with
  | none => return SYS_ERROR
  | some self =>
    let len := clampLen len
    match ← look fun k => (k.tasks.slot self).pml4 with
    | none => fault
    | some pml4 =>
      if !(← look fun k => uvaCheckRange k.phys pml4 userBuf len true) then return SYS_ERROR
      else
        let f ← lock
        recvLoop self fromId userBuf len f TaskTable.slots

/-- The loop of `sys_exit`, which wakes one waiting parent. -/
def wakeLoop (self : Slot) : List Slot → P Unit
  | [] => return
  | t :: rest => do
    if (← look fun k => awaitsChild (k.tasks.slot self) (k.tasks.slot t)) then onTasks fun T => T.taskWake t
    else wakeLoop self rest

/-- `sys_exit`. -/
def sysExit (code : U64) : P U64 := do
  match ← look (·.tasks.currentTask) with
  | none => sti (call .hltLoop done)
  | some self =>
    onTasks fun T => (T.modify self fun task => { task with exitCode := code, state := .dead }).resumeAt self .halted
    let f ← lock
    wakeLoop self TaskTable.slots
    unlock f
    sti (call .hltLoop done)

/-- The first loop of `sys_wait`, which reaps a dead child. -/
def reapLoop (selfId childId : U64) (f : Bool) : List Slot → P (Option U64)
  | [] => do
    unlock f
    return none
  | t :: rest => do
    if (← look fun k => isChild selfId childId (k.tasks.slot t) && (k.tasks.slot t).state = .dead) then
      let id ← look fun k => (k.tasks.slot t).taskId
      unlock f
      taskDestroy t
      return some id
    else reapLoop selfId childId f rest

/-- The second loop of `sys_wait`. -/
def childLoop (selfId childId : U64) : List Slot → P Bool
  | [] => return false
  | t :: rest => do
    if (← look fun k => isChild selfId childId (k.tasks.slot t)) then return true
    else childLoop selfId childId rest

/-- One round of the loop in `sys_wait`. -/
def sysWaitRound (self : Slot) (childId : U64) : P U64 := do
  let selfId ← look fun k => (k.tasks.slot self).taskId
  let f ← lock
  match ← reapLoop selfId childId f TaskTable.slots with
  | some id => return id
  | none =>
    let f ← lock
    let haveChild ← childLoop selfId childId TaskTable.slots
    unlock f
    if !haveChild then return SYS_ERROR
    else
      taskBlockAndSwitch self (.inWait childId) .onWait childId 0 0
      onTasks fun T => T.resumeAt self (.inWait childId)
      call (.waitLoop self childId) done

/-- `sys_wait`. -/
def sysWait (childId : U64) : P U64 := do
  match ← look (·.tasks.currentTask) with
  | none => return SYS_ERROR
  | some self => sysWaitRound self childId

/-- `syscall_dispatch`. -/
def syscallDispatch (regs : SyscallRegs) : P U64 :=
  if regs.rax = SYS_WRITE then sysWrite regs.rdi regs.rsi
  else if regs.rax = SYS_EXIT then sysExit regs.rdi
  else if regs.rax = SYS_FORK then sysFork regs
  else if regs.rax = SYS_SEND then sysSend regs.rdi regs.rsi regs.rdx
  else if regs.rax = SYS_RECV then sysRecv regs.rdi regs.rsi regs.rdx
  else if regs.rax = SYS_WAIT then sysWait regs.rdi
  else return SYS_ERROR

/-- What boot code calls. -/
inductive BootCall where
  | create
  | createKernel (entry : U64)
  | destroy (t : Slot)
  | prepare (t : Slot) (entry userStackTop : U64)
  | start (t : Slot)

/-- All code that takes the lock, or comes in between. -/
def kernelCode : Code Kernel Slot Routine U64 SyscallRegs BootCall where
  body
    | .waitLoop self childId => sysWaitRound self childId
    | .hltLoop => call .hltLoop done
  tick := timerTickHandler
  gate regs := do
    let _ ← syscallDispatch regs
  direct
    | .create => do
      let _ ← taskCreate
    | .createKernel entry => do
      let _ ← taskCreateKernel entry
    | .destroy t => taskDestroy t
    | .prepare t entry userStackTop => prepareUserEntry t entry userStackTop
    | .start t => schedulerSwitchTo none t

end HobbyKernel.Locked
