import HobbyKernel.Core.Uaccess
import HobbyKernel.Core.Cpu

/-! `task.c` and `scheduler.c`: the task table, its free list, and the switch
from one task to the next. A task that was switched away from resumes where its
kernel stack says; `Control` is that place. Kernel stacks themselves are written
only where the source builds a frame by hand. -/
namespace HobbyKernel

inductive TaskState where
  | unused
  | runnable
  | running
  | blocked
  | dead
deriving DecidableEq

inductive BlockReason where
  | none
  | onRecv
  | onSend
  | onWait
deriving DecidableEq

abbrev MAX_TASKS : Nat := 64

instance slotNeZero : NeZero MAX_TASKS := ⟨by decide⟩

/-- A position in `task_table`. -/
abbrev Slot := Fin MAX_TASKS

def IPC_ANY_SENDER : U64 := 0xFFFFFFFFFFFFFFFF

/-- The parent of a task that no `sys_fork` made: `(uint64_t)-1`. -/
def NO_PARENT : U64 := 0xFFFFFFFFFFFFFFFF

/-- `struct task`. Pointers to pages are the physical addresses behind them. -/
structure Task where
  taskId : U64
  pml4 : Option Frame
  state : TaskState
  nextFree : Option Slot
  contextRsp : U64
  kstack : Option U64
  kstackTop : Option U64
  blockReason : BlockReason
  ipcPeer : U64
  ipcBuf : U64
  ipcLen : U64
  parentId : U64
  exitCode : U64

/-- Where a task goes on when it is switched to: back to ring 3, behind the
`task_block_and_switch` of a system call, into the `hlt` loop of `sys_exit`, at
the entry of a kernel thread, or nowhere, having no context yet. -/
inductive Control where
  | user
  | inSend
  | inRecv
  | inWait (childId : U64)
  | halted
  | thread
  | fresh
deriving DecidableEq

@[ext]
structure TaskTable where
  slot : Slot → Task
  taskFreeList : Option Slot
  currentTask : Option Slot
  idleTask : Option Slot
  control : Slot → Control

/-- Addresses of the assembly entry points, fixed by the linker. -/
structure Symbols where
  syscallEntryReturn : U64
  taskEntryTrampoline : U64

structure Kernel where
  phys : Phys
  cr3 : U64
  rsp0 : U64
  gTicks : U64
  symbols : Symbols
  tasks : TaskTable

/-- `struct syscall_regs`. -/
structure SyscallRegs where
  rax : U64
  rbx : U64
  rcx : U64
  rdx : U64
  rsi : U64
  rdi : U64
  rbp : U64
  r8 : U64
  r9 : U64
  r10 : U64
  r11 : U64
  r12 : U64
  r13 : U64
  r14 : U64
  r15 : U64
  rip : U64
  cs : U64
  rflags : U64
  rsp : U64
  userSs : U64

/-- The register block as it lies in memory, lowest address first. -/
def SyscallRegs.words (r : SyscallRegs) : List U64 :=
  [r.rax, r.rbx, r.rcx, r.rdx, r.rsi, r.rdi, r.rbp, r.r8, r.r9, r.r10, r.r11, r.r12, r.r13, r.r14, r.r15,
    r.rip, r.cs, r.rflags, r.rsp, r.userSs]

/-- `sizeof(struct syscall_regs)`. -/
def SIZEOF_SYSCALL_REGS : U64 := 160

def USER_CS : U64 := 0x23
def USER_DS : U64 := 0x1B

namespace TaskTable

/-- Overwrite the fields of one slot. -/
def modify (T : TaskTable) (t : Slot) (f : Task → Task) : TaskTable :=
  { T with slot := Function.update T.slot t (f (T.slot t)) }

/-- Note where a task goes on. -/
def resumeAt (T : TaskTable) (t : Slot) (c : Control) : TaskTable :=
  { T with control := Function.update T.control t c }

/-- All slots in the order of the scans. -/
def slots : List Slot := List.finRange MAX_TASKS

/-- What `task_table_init` writes to a slot. -/
def initTask (t : Slot) (nextFree : Option Slot) : Task where
  taskId := BitVec.ofNat 64 t.val
  pml4 := none
  state := .unused
  nextFree := nextFree
  contextRsp := 0
  kstack := none
  kstackTop := none
  blockReason := .none
  ipcPeer := 0
  ipcBuf := 0
  ipcLen := 0
  parentId := NO_PARENT
  exitCode := 0

/-- `task_table_init`: slot 0 is reserved, the others go on the free list from
the last to the first. -/
def taskTableInit (T : TaskTable) : TaskTable :=
  let T := { T with taskFreeList := none }
  let T := T.modify 0 fun _ => initTask 0 none
  slots.tail.reverse.foldl (fun T i =>
    { T.modify i (fun _ => initTask i T.taskFreeList) with taskFreeList := some i }) T

/-- `task_slot_alloc`. -/
def taskSlotAlloc (T : TaskTable) : TaskTable × Option Slot :=
  match T.taskFreeList with
  | none => (T, none)
  | some t =>
    ({ T.modify t (fun task => { task with nextFree := none }) with taskFreeList := (T.slot t).nextFree }, some t)

/-- `task_slot_free`. -/
def taskSlotFree (T : TaskTable) (t : Slot) : TaskTable :=
  { T.modify t (fun task => { task with
      state := .unused
      blockReason := .none
      parentId := NO_PARENT
      exitCode := 0
      nextFree := T.taskFreeList }) with taskFreeList := some t }

/-- `task_destroy`. -/
def taskDestroy (T : TaskTable) (t : Slot) : TaskTable :=
  if (T.slot t).state = .unused then T
  else
    (T.modify t fun task => { task with pml4 := none, kstack := none, kstackTop := none, contextRsp := 0 }).taskSlotFree t

/-- `task_find_by_id`. -/
def taskFindById (T : TaskTable) (taskId : U64) : Option Slot :=
  slots.find? fun t => (T.slot t).state ≠ .unused && (T.slot t).taskId = taskId

/-- `task_wake`. -/
def taskWake (T : TaskTable) (t : Slot) : TaskTable :=
  T.modify t fun task => { task with state := .runnable, blockReason := .none }

/-- The slots in the order `scheduler_pick_next` tries them. -/
def pickOrder (current : Option Slot) : List Slot :=
  let start : Nat := match current with
    | some t => t.val
    | none => 0
  (List.range' 1 MAX_TASKS).map fun offset => Fin.ofNat MAX_TASKS (start + offset)

/-- `scheduler_pick_next`. -/
def schedulerPickNext (T : TaskTable) (current : Option Slot) : Option Slot :=
  match (pickOrder current).find? (fun t => (T.slot t).state = .runnable) with
  | some t => some t
  | none =>
    if current.any (fun t => (T.slot t).state = .runnable) then current
    else if T.idleTask.isSome then T.idleTask
    else current

end TaskTable

/-- `scheduler_switch_to`: the address space and the kernel stack of the new
task. What the context switch restores is the new task's `Control`. -/
def schedulerSwitchTo (k : Kernel) (new : Slot) : Kernel :=
  let k := match (k.tasks.slot new).pml4 with
    | some pml4 => { k with cr3 := pml4Phys pml4 }
    | none => k
  match (k.tasks.slot new).kstackTop with
  | some top => { k with rsp0 := top }
  | none => k

/-- `task_kstack_alloc`. -/
def taskKstackAlloc (k : Kernel) (t : Slot) : Kernel × Bool :=
  match pageAlloc k.phys 1#32 with
  | (s, none) => ({ k with phys := s }, false)
  | (s, some pp) =>
    let base := page2pa pp
    ({ k with
      phys := s
      tasks := k.tasks.modify t fun task => { task with kstack := some base, kstackTop := some (base + 4096) } }, true)

/-- `task_create`. -/
def taskCreate (k : Kernel) : Kernel × Option Slot :=
  match k.tasks.taskSlotAlloc with
  | (T, none) => ({ k with tasks := T }, none)
  | (T, some t) =>
    match vmmNewAddressSpace k.phys k.cr3 with
    | (s, none) => ({ k with phys := s, tasks := T.taskSlotFree t }, none)
    | (s, some pml4) =>
      match taskKstackAlloc { k with phys := s, tasks := T } t with
      | (k, false) => ({ k with tasks := k.tasks.taskSlotFree t }, none)
      | (k, true) =>
        ({ k with tasks := (k.tasks.modify t fun task => { task with
            pml4 := some pml4
            state := .runnable
            contextRsp := 0
            parentId := NO_PARENT
            exitCode := 0 }).resumeAt t .fresh }, some t)

/-- The six saved registers below a return address, lowest address first. -/
def contextFrame (r12 returnTo : U64) : List U64 := [0, 0, 0, r12, 0, 0, returnTo]

/-- `task_stack_init`. -/
def taskStackInit (k : Kernel) (t : Slot) (entry : U64) : Kernel :=
  match (k.tasks.slot t).kstackTop with
  | none => k
  | some top =>
    let sp := top - 8 - 48
    { k with
      phys := k.phys.writeWords sp (contextFrame entry k.symbols.taskEntryTrampoline)
      tasks := (k.tasks.modify t fun task => { task with contextRsp := sp }).resumeAt t .thread }

/-- `task_create_kernel`. -/
def taskCreateKernel (k : Kernel) (entry : U64) : Kernel × Option Slot :=
  match k.tasks.taskSlotAlloc with
  | (T, none) => ({ k with tasks := T }, none)
  | (T, some t) =>
    match taskKstackAlloc { k with tasks := T } t with
    | (k, false) => ({ k with tasks := k.tasks.taskSlotFree t }, none)
    | (k, true) =>
      let k := { k with tasks := k.tasks.modify t fun task => { task with
        pml4 := some (getCurrentPml4 k.cr3)
        state := .runnable
        parentId := NO_PARENT
        exitCode := 0 } }
      (taskStackInit k t entry, some t)

/-- `task_fork`. The child's kernel stack returns from the system call with 0. -/
def taskFork (k : Kernel) (parent : Slot) (parentPml4 : Frame) (parentRegs : SyscallRegs) : Kernel × Option Slot :=
  match k.tasks.taskSlotAlloc with
  | (T, none) => ({ k with tasks := T }, none)
  | (T, some child) =>
    match vmmCopyAddressSpace k.phys parentPml4 with
    | (s, none) => ({ k with phys := s, tasks := T.taskSlotFree child }, none)
    | (s, some childPml4) =>
      match taskKstackAlloc { k with phys := s, tasks := T } child with
      | (k, false) => ({ k with tasks := k.tasks.taskSlotFree child }, none)
      | (k, true) =>
        let frameTop := ((k.tasks.slot child).kstackTop.getD 0) - SIZEOF_SYSCALL_REGS
        let sp := frameTop - 8 - 48
        let s := k.phys.writeWords frameTop { parentRegs with rax := 0 }.words
        ({ k with
          phys := s.writeWords sp (contextFrame frameTop k.symbols.syscallEntryReturn)
          tasks := (k.tasks.modify child fun task => { task with
            pml4 := some childPml4
            parentId := (k.tasks.slot parent).taskId
            exitCode := 0
            contextRsp := sp
            state := .runnable }).resumeAt child .user }, some child)

/-- `task_prepare_user_entry`. -/
def taskPrepareUserEntry (k : Kernel) (t : Slot) (entry userStackTop : U64) : Kernel :=
  match (k.tasks.slot t).kstackTop with
  | none => k
  | some top =>
    let frameTop := top - SIZEOF_SYSCALL_REGS
    let regs : SyscallRegs :=
      ⟨0, 0, 0, 0, 0, 0, 0, 0, 0, 0, 0, 0, 0, 0, 0, entry, USER_CS, 0x202, userStackTop, USER_DS⟩
    let sp := frameTop - 8 - 48
    let s := k.phys.writeWords frameTop regs.words
    { k with
      phys := s.writeWords sp (contextFrame frameTop k.symbols.syscallEntryReturn)
      tasks := (k.tasks.modify t fun task => { task with contextRsp := sp, state := .runnable }).resumeAt t .user }

/-- Mark the task that was picked as running and switch to it. -/
def switchCurrent (k : Kernel) (next : Slot) : Kernel :=
  let T := k.tasks.modify next fun task => { task with state := .running }
  schedulerSwitchTo { k with tasks := { T with currentTask := some next } } next

/-- `task_block_and_switch`. `true` says that it came back at once, because
there was nothing else to run; otherwise the caller goes on at `resume` when it
is switched to again. -/
def taskBlockAndSwitch (k : Kernel) (self : Slot) (resume : Control) (reason : BlockReason) (peer buf len : U64) :
    Kernel × Bool :=
  let T := k.tasks.modify self fun task => { task with
    state := .blocked
    blockReason := reason
    ipcPeer := peer
    ipcBuf := buf
    ipcLen := len }
  match T.schedulerPickNext (some self) with
  | none => ({ k with tasks := T }, true)
  | some next =>
    if next = self then ({ k with tasks := T }, true)
    else (switchCurrent { k with tasks := T.resumeAt self resume } next, false)

end HobbyKernel
