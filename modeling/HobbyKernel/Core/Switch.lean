import HobbyKernel.Core.Machine

/-! `context_switch.S` and `syscall_entry.S`, instruction by instruction, over
the words of the kernel stacks. Assembly reaches `struct task` by a byte offset,
so the layout of the structure is part of the model. -/
namespace HobbyKernel

/-- The general registers but `rsp`. -/
inductive Reg where
  | rax | rbx | rcx | rdx | rsi | rdi | rbp | r8 | r9 | r10 | r11 | r12 | r13 | r14 | r15
deriving DecidableEq

/-- The fields of `struct task`, in order. -/
inductive TaskField where
  | taskId | pml4 | state | nextFree | contextRsp | kstack | kstackTop | blockReason | ipcPeer | ipcBuf | ipcLen
  | parentId | exitCode
deriving DecidableEq

def TaskField.all : List TaskField :=
  [.taskId, .pml4, .state, .nextFree, .contextRsp, .kstack, .kstackTop, .blockReason, .ipcPeer, .ipcBuf, .ipcLen,
    .parentId, .exitCode]

/-- The enumerations are `int`s, everything else has eight bytes. -/
def TaskField.size : TaskField → Nat
  | .state | .blockReason => 4
  | _ => 8

/-- The byte offset of a field: each one starts at a multiple of its size. -/
def TaskField.offsetIn (field : TaskField) : List TaskField → Nat → Option Nat
  | [], _ => none
  | first :: rest, free =>
    let start := (free + first.size - 1) / first.size * first.size
    if first = field then some start else field.offsetIn rest (start + first.size)

def TaskField.offset (field : TaskField) : Option Nat := field.offsetIn TaskField.all 0

/-- The word of a task at a byte offset, where the assembly loads one. -/
def Task.wordAt (task : Task) (offset : Nat) : U64 :=
  if TaskField.contextRsp.offset = some offset then task.contextRsp else 0

/-- Store a word at a byte offset of a task. -/
def Task.setWordAt (task : Task) (offset : Nat) (value : U64) : Task :=
  if TaskField.contextRsp.offset = some offset then { task with contextRsp := value } else task

/-- The word at a physical address. -/
def Phys.readWord (s : Phys) (phys : U64) : U64 := s.mem (frameOf phys) (wordOf phys)

/-- Consecutive words from an address upwards. -/
def Phys.readWords (s : Phys) (phys : U64) : Nat → List U64
  | 0 => []
  | n + 1 => s.readWord phys :: s.readWords (phys + 8) n

/-- The processor in front of the kernel's memory. -/
structure Processor where
  reg : Reg → U64
  rsp : U64
  rip : U64
  cs : U64
  rflags : U64
  ss : U64
  dataSegments : U16
  kernel : Kernel

namespace Processor

/-- A word store of the kernel. -/
def storeWord (p : Processor) (phys value : U64) : Processor :=
  { p with kernel := { p.kernel with phys := p.kernel.phys.writeWord phys value } }

def pushWord (p : Processor) (value : U64) : Processor := { p with rsp := p.rsp - 8 }.storeWord (p.rsp - 8) value

/-- The word on top of the stack. -/
def top (p : Processor) : U64 := p.kernel.phys.readWord p.rsp

def setReg (p : Processor) (r : Reg) (value : U64) : Processor := { p with reg := Function.update p.reg r value }

end Processor

/-- The instructions the two files use. `saveRsp` and `loadRsp` are the moves
between `rsp` and a byte offset of the task a register points at. -/
inductive Instr where
  | push (r : Reg)
  | pop (r : Reg)
  | saveRsp (t : Slot) (offset : Nat)
  | loadRsp (t : Slot) (offset : Nat)
  | movAx (value : U16)
  | movSegments
  | movRspRdi
  | ret
  | iretq

def Instr.exec (p : Processor) : Instr → Processor
  | .push r => p.pushWord (p.reg r)
  | .pop r => { p.setReg r p.top with rsp := p.rsp + 8 }
  | .saveRsp t offset =>
    { p with kernel := { p.kernel with tasks := p.kernel.tasks.modify t fun task => task.setWordAt offset p.rsp } }
  | .loadRsp t offset => { p with rsp := (p.kernel.tasks.slot t).wordAt offset }
  | .movAx value => p.setReg .rax (p.reg .rax &&& ~~~0xFFFF ||| value.setWidth 64)
  | .movSegments => { p with dataSegments := (p.reg .rax).setWidth 16 }
  | .movRspRdi => p.setReg .rdi p.rsp
  | .ret => { p with rip := p.top, rsp := p.rsp + 8 }
  | .iretq =>
    let word := fun i => p.kernel.phys.readWord (p.rsp + BitVec.ofNat 64 (8 * i))
    { p with rip := word 0, cs := word 1, rflags := word 2, rsp := word 3, ss := word 4 }

def Processor.exec (p : Processor) (code : List Instr) : Processor := code.foldl Instr.exec p

/-- The first half of `context_switch`. -/
def contextSave (old : Slot) : List Instr :=
  [.push .rbx, .push .rbp, .push .r12, .push .r13, .push .r14, .push .r15, .saveRsp old 32]

/-- `context_switch` from `.load_new` on. -/
def contextLoad (new : Slot) : List Instr :=
  [.loadRsp new 32, .pop .r15, .pop .r14, .pop .r13, .pop .r12, .pop .rbp, .pop .rbx, .ret]

/-- `context_switch`; without an old task it starts at `.load_new`. -/
def contextSwitch (old : Option Slot) (new : Slot) : List Instr :=
  (match old with
    | none => []
    | some t => contextSave t) ++ contextLoad new

def KERNEL_DS : U16 := 0x10
def USER_DATA : U16 := 0x1B

/-- `syscall_entry_asm` up to the call of `syscall_dispatch`. -/
def syscallEntryAsm : List Instr :=
  [.push .r15, .push .r14, .push .r13, .push .r12, .push .r11, .push .r10, .push .r9, .push .r8, .push .rbp,
    .push .rdi, .push .rsi, .push .rdx, .push .rcx, .push .rbx, .push .rax, .movAx KERNEL_DS, .movSegments, .movRspRdi]

/-- `syscall_entry_return`. -/
def syscallEntryReturn : List Instr :=
  [.movAx USER_DATA, .movSegments, .pop .rax, .pop .rbx, .pop .rcx, .pop .rdx, .pop .rsi, .pop .rdi, .pop .rbp,
    .pop .r8, .pop .r9, .pop .r10, .pop .r11, .pop .r12, .pop .r13, .pop .r14, .pop .r15, .iretq]

/-- What `int 0x80` does in ring 3: the stack of the TSS, aligned, gets the five
words an `iretq` takes off again. -/
def Processor.int80 (p : Processor) : Processor :=
  let start := { p with rsp := p.kernel.rsp0 &&& ~~~15 }
  ((((start.pushWord p.ss).pushWord p.rsp).pushWord p.rflags).pushWord p.cs).pushWord p.rip

/-- The register block at an address. -/
def Phys.readRegs (s : Phys) (phys : U64) : SyscallRegs :=
  let word := fun i => s.readWord (phys + BitVec.ofNat 64 (8 * i))
  ⟨word 0, word 1, word 2, word 3, word 4, word 5, word 6, word 7, word 8, word 9, word 10, word 11, word 12, word 13,
    word 14, word 15, word 16, word 17, word 18, word 19⟩

/-- `syscall_dispatch` with the block that its argument in `rdi` points at. The
return value goes to the block; a call that has suspended its caller has not
come back yet. -/
def Processor.callDispatch (p : Processor) : Option (Processor × List Event) :=
  match syscallDispatch p.kernel (p.kernel.phys.readRegs (p.reg .rdi)) with
  | some (k, some value, events) => some ({ p with kernel := k }.storeWord (p.reg .rdi) value, events)
  | _ => none

/-- A step of the kernel on the processor. `sp` is where the kernel's code has
its stack pointer when the step ends; a step that makes another task current
ends in `context_switch`. -/
def processorStep (p : Processor) (move : Action × U64) : Option (Processor × List Event) :=
  match step p.kernel move.1 with
  | none => none
  | some (k, events) =>
    let old := p.kernel.tasks.currentTask
    let p := { p with kernel := k, rsp := move.2 }
    match k.tasks.currentTask with
    | none => some (p, events)
    | some new => if old = some new then some (p, events) else some (p.exec (contextSwitch old new), events)

/-- The frame of the kernel stack that a step runs on: entered from ring 3 it
is the one in the TSS, inside the kernel the one in use. -/
def Processor.stackInUse (p : Processor) (self : Slot) : Frame :=
  if p.kernel.tasks.control self = .user then frameOf (p.kernel.rsp0 - 8) else frameOf (p.rsp - 8)

end HobbyKernel
