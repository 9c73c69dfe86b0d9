import HobbyKernel.Core.Task

/-! `syscall.c`. A call either returns a value or leaves the caller suspended; a
fault in ring 0 halts the machine, so it has no result. Interrupts are off from
entry to the point where a call blocks, and the locks only mask them again. -/
namespace HobbyKernel

/-- What a step does that its caller or another task can notice. -/
inductive Event where
  | ret (t : Slot) (value : U64)
  | forked (parent child : Slot)
  | reaped (parent child : Slot)
  | copied (sender receiver : Slot) (bytes : List Byte)
  | woken (t : Slot)
  | blocked (t : Slot) (reason : BlockReason) (peer : U64)
  | exited (t : Slot)
deriving DecidableEq

/-- The kernel after a call, its return value unless the caller is suspended,
and what happened on the way. -/
abbrev SysResult := Option (Kernel × Option U64 × List Event)

def SYS_WRITE : U64 := 0
def SYS_EXIT : U64 := 1
def SYS_FORK : U64 := 2
def SYS_SEND : U64 := 3
def SYS_RECV : U64 := 4
def SYS_WAIT : U64 := 5

/-- `(long)-1` as the caller sees it. -/
def SYS_ERROR : U64 := 0xFFFFFFFFFFFFFFFF

/-- `sys_fork`. -/
def sysFork (k : Kernel) (regs : SyscallRegs) : SysResult :=
  match k.tasks.currentTask with
  | none => some (k, some SYS_ERROR, [])
  | some self =>
    match (k.tasks.slot self).pml4 with
    | none => none
    | some pml4 =>
      match taskFork k self pml4 regs with
      | (k, none) => some (k, some SYS_ERROR, [])
      | (k, some child) => some (k, some (k.tasks.slot child).taskId, [.forked self child])

/-- `sys_write`. What is printed is not part of the state. -/
def sysWrite (k : Kernel) (userPtr len : U64) : SysResult :=
  let len := if 255 < len then 255 else len
  match k.tasks.currentTask with
  | none => some (k, some SYS_ERROR, [])
  | some self =>
    match (k.tasks.slot self).pml4 with
    | none => none
    | some pml4 =>
      if !uvaCheckRange k.phys pml4 userPtr len false then some (k, some SYS_ERROR, [])
      else
        match Cpu.loadBytes k.phys (getCurrentPml4 k.cr3) userPtr len.toNat with
        | none => none
        | some _ => some (k, some len, [])

/-- `if (len > 256) len = 256`. -/
def clampLen (len : U64) : U64 := if 256 < len then 256 else len

/-- `a < b ? a : b`. -/
def minLen (a b : U64) : U64 := if a < b then a else b

/-- Whether a task waits to receive from a sender. -/
def awaitsSender (task : Task) (senderId : U64) : Bool :=
  task.state = .blocked && task.blockReason = .onRecv &&
    (task.ipcPeer = IPC_ANY_SENDER || task.ipcPeer = senderId)

/-- `sys_send`, from the lookup of a waiting receiver on. -/
def sendTo (k : Kernel) (self target : Slot) (targetId userBuf len : U64) : SysResult :=
  let receiver := k.tasks.slot target
  if awaitsSender receiver (k.tasks.slot self).taskId then
    let copyLen := minLen len receiver.ipcLen
    match receiver.pml4 with
    | none => none
    | some targetPml4 =>
      if !uvaCheckRange k.phys targetPml4 receiver.ipcBuf copyLen true then some (k, some SYS_ERROR, [])
      else
        match Cpu.loadBytes k.phys (getCurrentPml4 k.cr3) userBuf copyLen.toNat with
        | none => none
        | some tmp =>
          let senderPml4 := getCurrentPml4 k.cr3
          let k := { k with cr3 := pml4Phys targetPml4 }
          match Cpu.storeBytes k.phys (getCurrentPml4 k.cr3) receiver.ipcBuf tmp with
          | none => none
          | some s =>
            some ({ k with phys := s, cr3 := pml4Phys senderPml4, tasks := k.tasks.taskWake target },
              some copyLen, [.copied self target tmp, .woken target])
  else
    match taskBlockAndSwitch k self .inSend .onSend targetId userBuf len with
    | (k, true) => some (k, some (k.tasks.slot self).ipcLen, [.blocked self .onSend targetId])
    | (k, false) => some (k, none, [.blocked self .onSend targetId])

/-- `sys_send`. -/
def sysSend (k : Kernel) (targetId userBuf len : U64) : SysResult :=
  match k.tasks.currentTask with
  | none => some (k, some SYS_ERROR, [])
  | some self =>
    let len := clampLen len
    match (k.tasks.slot self).pml4 with
    | none => none
    | some pml4 =>
      if !uvaCheckRange k.phys pml4 userBuf len false then some (k, some SYS_ERROR, [])
      else
        match k.tasks.taskFindById targetId with
        | none => some (k, some SYS_ERROR, [])
        | some target => sendTo k self target targetId userBuf len

/-- The tests of the scan in `sys_recv`: a blocked sender to this task that the
call accepts, with a buffer that can still be read. -/
def offersMessage (s : Phys) (selfId fromId len : U64) (sender : Task) : Bool :=
  sender.state = .blocked && sender.blockReason = .onSend && sender.ipcPeer = selfId &&
    (fromId = IPC_ANY_SENDER || sender.taskId = fromId) &&
    sender.pml4.any fun pml4 => uvaCheckRange s pml4 sender.ipcBuf (minLen len sender.ipcLen) false

/-- The copy in `sys_recv`. -/
def recvFrom (k : Kernel) (self sender : Slot) (userBuf len : U64) : SysResult :=
  let copyLen := minLen len (k.tasks.slot sender).ipcLen
  match (k.tasks.slot sender).pml4 with
  | none => none
  | some senderPml4 =>
    let receiverPml4 := getCurrentPml4 k.cr3
    let k := { k with cr3 := pml4Phys senderPml4 }
    match Cpu.loadBytes k.phys (getCurrentPml4 k.cr3) (k.tasks.slot sender).ipcBuf copyLen.toNat with
    | none => none
    | some tmp =>
      let k := { k with cr3 := pml4Phys receiverPml4 }
      match Cpu.storeBytes k.phys (getCurrentPml4 k.cr3) userBuf tmp with
      | none => none
      | some s =>
        let T := k.tasks.modify sender fun task => { task with ipcLen := copyLen }
        some ({ k with phys := s, tasks := T.taskWake sender }, some copyLen,
          [.copied sender self tmp, .woken sender])

/-- `sys_recv`. -/
def sysRecv (k : Kernel) (fromId userBuf len : U64) : SysResult :=
  match k.tasks.currentTask with
  | none => some (k, some SYS_ERROR, [])
  | some self =>
    let len := clampLen len
    match (k.tasks.slot self).pml4 with
    | none => none
    | some pml4 =>
      if !uvaCheckRange k.phys pml4 userBuf len true then some (k, some SYS_ERROR, [])
      else
        match TaskTable.slots.find? fun t =>
            offersMessage k.phys (k.tasks.slot self).taskId fromId len (k.tasks.slot t) with
        | some sender => recvFrom k self sender userBuf len
        | none =>
          match taskBlockAndSwitch k self .inRecv .onRecv fromId userBuf len with
          | (k, true) => some (k, some (k.tasks.slot self).ipcLen, [.blocked self .onRecv fromId])
          | (k, false) => some (k, none, [.blocked self .onRecv fromId])

/-- The tests of the scan in `sys_exit`: a task that waits for this child. -/
def awaitsChild (child : Task) (task : Task) : Bool :=
  task.state = .blocked && task.blockReason = .onWait && task.taskId = child.parentId &&
    (task.ipcPeer = IPC_ANY_SENDER || task.ipcPeer = child.taskId)

/-- `sys_exit`. The call ends in a loop of `hlt` and never returns. -/
def sysExit (k : Kernel) (code : U64) : SysResult :=
  match k.tasks.currentTask with
  | none => some (k, none, [])
  | some self =>
    let T := k.tasks.modify self fun task => { task with exitCode := code, state := .dead }
    let T := T.resumeAt self .halted
    match TaskTable.slots.find? fun t => awaitsChild (T.slot self) (T.slot t) with
    | some waiter => some ({ k with tasks := T.taskWake waiter }, none, [.exited self, .woken waiter])
    | none => some ({ k with tasks := T }, none, [.exited self])

/-- The tests both scans of `sys_wait` share: a child of this task that the
call accepts. -/
def isChild (selfId childId : U64) (task : Task) : Bool :=
  task.state ≠ .unused && task.parentId = selfId && (childId = IPC_ANY_SENDER || task.taskId = childId)

/-- One round of the loop in `sys_wait`. -/
def sysWaitRound (k : Kernel) (self : Slot) (childId : U64) : SysResult :=
  let selfId := (k.tasks.slot self).taskId
  match TaskTable.slots.find? fun t =>
      isChild selfId childId (k.tasks.slot t) && (k.tasks.slot t).state = .dead with
  | some t => some ({ k with tasks := k.tasks.taskDestroy t }, some (k.tasks.slot t).taskId, [.reaped self t])
  | none =>
    if !TaskTable.slots.any (fun t => isChild selfId childId (k.tasks.slot t)) then some (k, some SYS_ERROR, [])
    else
      match taskBlockAndSwitch k self (.inWait childId) .onWait childId 0 0 with
      | (k, true) => some ({ k with tasks := k.tasks.resumeAt self (.inWait childId) }, none, [.blocked self .onWait childId])
      | (k, false) => some (k, none, [.blocked self .onWait childId])

/-- `sys_wait`, up to the end of its first round. -/
def sysWait (k : Kernel) (childId : U64) : SysResult :=
  match k.tasks.currentTask with
  | none => some (k, some SYS_ERROR, [])
  | some self => sysWaitRound k self childId

/-- `syscall_dispatch`. -/
def syscallDispatch (k : Kernel) (regs : SyscallRegs) : SysResult :=
  if regs.rax = SYS_WRITE then sysWrite k regs.rdi regs.rsi
  else if regs.rax = SYS_EXIT then sysExit k regs.rdi
  else if regs.rax = SYS_FORK then sysFork k regs
  else if regs.rax = SYS_SEND then sysSend k regs.rdi regs.rsi regs.rdx
  else if regs.rax = SYS_RECV then sysRecv k regs.rdi regs.rsi regs.rdx
  else if regs.rax = SYS_WAIT then sysWait k regs.rdi
  else some (k, some SYS_ERROR, [])

end HobbyKernel
