import HobbyKernel.Core.Elf
import HobbyKernel.Core.Syscall

/-! The kernel as a state machine. Boot code creates tasks, loads and prepares
them and starts the first one; from then on the running task makes system calls
and the timer switches between tasks. One system call, up to the point where it
returns or blocks, is one step: interrupts are off on the only processor. -/
namespace HobbyKernel

def TIME_SLICE_TICKS : U64 := 20

/-- `timer_tick_handler`. -/
def timerTickHandler (k : Kernel) : Kernel :=
  let k := { k with gTicks := k.gTicks + 1 }
  if k.gTicks % TIME_SLICE_TICKS ≠ 0 then k
  else
    match k.tasks.currentTask with
    | none => k
    | some prev =>
      match k.tasks.schedulerPickNext (some prev) with
      | none => k
      | some next =>
        if next = prev then k
        else
          let T := if (k.tasks.slot prev).state = .running then
              k.tasks.modify prev fun task => { task with state := .runnable }
            else k.tasks
          switchCurrent { k with tasks := T } next

inductive Action where
  | create
  | createKernel (entry : U64)
  | destroy (t : Slot)
  | elfLoad (t : Slot) (image : Image)
  | mapStack (t : Slot) (vaddr : U64)
  | prepare (t : Slot) (entry userStackTop : U64)
  | start (t : Slot)
  | syscall (regs : SyscallRegs)
  | resume
  | tick
  | store (va : U64) (b : Byte)

/-- A return to ring 3: the caller's saved context is its user context again. -/
def returnTo (self : Slot) : SysResult → Option (Kernel × List Event)
  | none => none
  | some (k, none, events) => some (k, events)
  | some (k, some value, events) =>
    some ({ k with tasks := k.tasks.resumeAt self .user }, events ++ [.ret self value])

/-- A freshly allocated page becomes a task's stack. -/
def mapStack (s : Phys) (pml4 : Frame) (vaddr : U64) : Phys :=
  match pageAlloc s 1#32 with
  | (s, none) => s
  | (s, some pp) => vmmMap s pml4 vaddr (page2pa pp) USER_FLAGS

/-- Interrupts are off behind the block point of a system call. -/
def Control.interruptible : Control → Bool
  | .inSend | .inRecv | .inWait _ => false
  | _ => true

/-- One step. `none` says that the action cannot happen, or faults. -/
def step (k : Kernel) : Action → Option (Kernel × List Event)
  | .create => some ((taskCreate k).1, [])
  | .createKernel entry => some ((taskCreateKernel k entry).1, [])
  | .destroy t => if k.tasks.currentTask = some t then none else some ({ k with tasks := k.tasks.taskDestroy t }, [])
  | .elfLoad t image =>
    match (k.tasks.slot t).pml4 with
    | none => none
    | some pml4 => some ({ k with phys := (elfLoad k.phys pml4 image).1 }, [])
  | .mapStack t vaddr =>
    match (k.tasks.slot t).pml4 with
    | none => none
    | some pml4 => some ({ k with phys := mapStack k.phys pml4 vaddr }, [])
  | .prepare t entry userStackTop =>
    if (k.tasks.slot t).state = .runnable ∧ k.tasks.control t = .fresh then
      some (taskPrepareUserEntry k t entry userStackTop, [])
    else none
  | .start t =>
    if k.tasks.currentTask = none ∧ (k.tasks.slot t).state = .runnable then
      some (schedulerSwitchTo { k with tasks := { k.tasks with currentTask := some t } } t, [])
    else none
  | .syscall regs =>
    match k.tasks.currentTask with
    | none => none
    | some self => if k.tasks.control self = .user then returnTo self (syscallDispatch k regs) else none
  | .resume =>
    match k.tasks.currentTask with
    | none => none
    | some self =>
      match k.tasks.control self with
      | .inSend | .inRecv => returnTo self (some (k, some (k.tasks.slot self).ipcLen, []))
      | .inWait childId => returnTo self (sysWaitRound k self childId)
      | _ => none
  | .tick => if k.tasks.currentTask.all fun t => (k.tasks.control t).interruptible then some (timerTickHandler k, []) else none
  | .store va b =>
    match k.tasks.currentTask with
    | none => none
    | some self =>
      if k.tasks.control self = .user ∧ va.toNat < 2 ^ 47 then
        (Cpu.userStore k.phys (getCurrentPml4 k.cr3) va b).map fun s => ({ k with phys := s }, [])
      else none

end HobbyKernel
