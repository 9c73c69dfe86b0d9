import HobbyKernel.Core.Switch

/-! `gdt.c` and `idt.c`: the descriptor tables as packed structures, which is how
the kernel fills them, and as numbers with fields of bits, which is how the
processor reads them when an interrupt comes in and when `iretq` leaves. -/
namespace HobbyKernel

structure GdtEntry where
  limitLow : U16
  baseLow : U16
  baseMid : Byte
  access : Byte
  granularity : Byte
  baseHigh : Byte

/-- The bytes of an entry; the first field is the lowest. -/
def GdtEntry.word (e : GdtEntry) : U64 :=
  e.baseHigh ++ e.granularity ++ e.access ++ e.baseMid ++ e.baseLow ++ e.limitLow

def GDT_ENTRIES : Nat := 7

/-- The entries by their number. -/
abbrev Gdt := Nat → U64

/-- `gdt_set_entry`. -/
def gdtSetEntry (gdt : Gdt) (i : Nat) (base limit : U32) (access granHi : Byte) : Gdt :=
  let limitHigh : Byte := ((limit >>> 16) &&& 0x0F).setWidth 8
  Function.update gdt i (GdtEntry.word {
    limitLow := (limit &&& 0xFFFF).setWidth 16
    baseLow := (base &&& 0xFFFF).setWidth 16
    baseMid := ((base >>> 16) &&& 0xFF).setWidth 8
    access := access
    granularity := (granHi &&& 0xF0) ||| limitHigh
    baseHigh := ((base >>> 24) &&& 0xFF).setWidth 8 })

/-- `tss_set_entry`: an entry of twice the size, at `gdt[i]` and `gdt[i + 1]`. -/
def tssSetEntry (gdt : Gdt) (i : Nat) (base : U64) (limit : U32) : Gdt :=
  let low : GdtEntry := {
    limitLow := (limit &&& 0xFFFF).setWidth 16
    baseLow := (base &&& 0xFFFF).setWidth 16
    baseMid := ((base >>> 16) &&& 0xFF).setWidth 8
    access := 0x89
    granularity := ((limit >>> 16) &&& 0x0F).setWidth 8
    baseHigh := ((base >>> 24) &&& 0xFF).setWidth 8 }
  let baseUpper : U32 := ((base >>> 32) &&& 0xFFFFFFFF).setWidth 32
  let reserved : U32 := 0
  Function.update (Function.update gdt i low.word) (i + 1) (reserved ++ baseUpper)

/-- The first bytes of a number, the lowest one first. -/
def leBytes {n : Nat} (count : Nat) (w : BitVec n) : List Byte :=
  (List.range count).map fun i => w.extractLsb' (8 * i) 8

/-- `struct tss`; the fields that the kernel never sets are zero. -/
structure Tss where
  rsp0 : U64
  iopbOffset : U16

def Tss.bytes (t : Tss) : List Byte :=
  List.replicate 4 0 ++ leBytes 8 t.rsp0 ++ List.replicate 90 0 ++ leBytes 2 t.iopbOffset

def SIZEOF_TSS : Nat := 104

def GDT_KCODE_SEL : U16 := 0x08
def GDT_TSS_SEL : U16 := 0x28

/-- The table that `gdt_init` fills, with `kernel_tss` at an address. -/
def gdtInit (gdt : Gdt) (tss : U64) : Gdt :=
  let gdt := gdtSetEntry gdt 0 0 0 0x00 0x00
  let gdt := gdtSetEntry gdt 1 0 0xFFFFF 0x9A 0xA0
  let gdt := gdtSetEntry gdt 2 0 0xFFFFF 0x92 0xC0
  let gdt := gdtSetEntry gdt 3 0 0xFFFFF 0xF2 0xC0
  let gdt := gdtSetEntry gdt 4 0 0xFFFFF 0xFA 0xA0
  tssSetEntry gdt 5 tss (BitVec.ofNat 32 (SIZEOF_TSS - 1))

/-- `tss_set_rsp0`. -/
def tssSetRsp0 (t : Tss) (rsp0 : U64) : Tss := { t with rsp0 := rsp0 }

structure IdtEntry where
  offsetLow : U16
  selector : U16
  ist : Byte
  typeAttr : Byte
  offsetMid : U16
  offsetHigh : U32
  reserved : U32

def IdtEntry.word (e : IdtEntry) : BitVec 128 :=
  e.reserved ++ e.offsetHigh ++ e.offsetMid ++ e.typeAttr ++ e.ist ++ e.selector ++ e.offsetLow

abbrev Idt := Byte → IdtEntry

/-- A static table before anything is stored in it. -/
def emptyIdt : Idt := fun _ => ⟨0, 0, 0, 0, 0, 0, 0⟩

/-- What `idt_set_gate` stores. -/
def idtGate (handler : U64) (selector : U16) (typeAttr : Byte) : IdtEntry where
  offsetLow := (handler &&& 0xFFFF).setWidth 16
  offsetMid := ((handler >>> 16) &&& 0xFFFF).setWidth 16
  offsetHigh := ((handler >>> 32) &&& 0xFFFFFFFF).setWidth 32
  selector := selector
  ist := 0
  typeAttr := typeAttr
  reserved := 0

/-- `idt_set_gate`. -/
def idtSetGate (idt : Idt) (vector : Byte) (handler : U64) (selector : U16) (typeAttr : Byte) : Idt :=
  Function.update idt vector (idtGate handler selector typeAttr)

/-- `idt_entry_offset`. -/
def idtEntryOffset (e : IdtEntry) : U64 :=
  e.offsetLow.setWidth 64 ||| (e.offsetMid.setWidth 64 <<< 16) ||| (e.offsetHigh.setWidth 64 <<< 32)

def IDT_INTERRUPT_GATE : Byte := 0x8E
def IDT_INTERRUPT_GATE_USER : Byte := 0xEE
def SYSCALL_VECTOR_LOCAL : Byte := 0x80
def PIC_IRQ0_VECTOR : Byte := 0x20

/-- The addresses of the handlers; `isr n` is that of `isr<n>`. -/
structure Handlers where
  isr : Nat → U64
  timerIsr : U64
  syscallEntryAsm : U64

/-- The table that `idt_init` fills. -/
def idtInit (idt : Idt) (h : Handlers) (KERNEL_CS : U16) : Idt :=
  let idt := (List.range 32).foldl
    (fun idt n => idtSetGate idt (BitVec.ofNat 8 n) (h.isr n) KERNEL_CS IDT_INTERRUPT_GATE) idt
  let idt := idtSetGate idt SYSCALL_VECTOR_LOCAL h.syscallEntryAsm KERNEL_CS IDT_INTERRUPT_GATE_USER
  idtSetGate idt PIC_IRQ0_VECTOR h.timerIsr KERNEL_CS IDT_INTERRUPT_GATE

/-- The vectors with a `DEFINE_ISR_ERR`. -/
def isrErr (n : Nat) : Bool := n ∈ [8, 10, 11, 12, 13, 14, 17, 21, 29, 30]

structure InterruptFrame where
  ip : U64
  cs : U64
  flags : U64
  sp : U64
  ss : U64

/-- What `isr<n>` passes to `fault_handler`: with an error code on top of the
stack, or 0 and the frame alone. -/
def isrArguments (n : Nat) (s : Phys) (rsp : U64) : U64 × InterruptFrame :=
  let word := fun i => s.readWord (rsp + BitVec.ofNat 64 (8 * i))
  if isrErr n then (word 0, ⟨word 1, word 2, word 3, word 4, word 5⟩)
  else (0, ⟨word 0, word 1, word 2, word 3, word 4⟩)

namespace Cpu

/-- A gate of the interrupt descriptor table. -/
structure Gate where
  offset : U64
  selector : U16
  ist : BitVec 3
  type : BitVec 4
  system : Bool
  dpl : BitVec 2
  present : Bool
deriving DecidableEq

def gate (w : BitVec 128) : Gate where
  offset := w.extractLsb' 64 32 ++ w.extractLsb' 48 16 ++ w.extractLsb' 0 16
  selector := w.extractLsb' 16 16
  ist := w.extractLsb' 32 3
  type := w.extractLsb' 40 4
  system := w.extractLsb' 44 1 = 0
  dpl := w.extractLsb' 45 2
  present := w.extractLsb' 47 1 = 1

/-- A segment, or the lower half of a system descriptor. -/
structure Descriptor where
  base : U32
  limit : BitVec 20
  type : BitVec 4
  system : Bool
  dpl : BitVec 2
  present : Bool
  long : Bool
  big : Bool
deriving DecidableEq

def descriptor (w : U64) : Descriptor where
  base := w.extractLsb' 56 8 ++ w.extractLsb' 32 8 ++ w.extractLsb' 16 16
  limit := w.extractLsb' 48 4 ++ w.extractLsb' 0 16
  type := w.extractLsb' 40 4
  system := w.extractLsb' 44 1 = 0
  dpl := w.extractLsb' 45 2
  present := w.extractLsb' 47 1 = 1
  long := w.extractLsb' 53 1 = 1
  big := w.extractLsb' 54 1 = 1

def Descriptor.isCode (d : Descriptor) : Bool := !d.system && d.type.getLsbD 3
def Descriptor.conforming (d : Descriptor) : Bool := d.type.getLsbD 2
def Descriptor.isWritableData (d : Descriptor) : Bool := !d.system && !d.type.getLsbD 3 && d.type.getLsbD 1

/-- The requested privilege level of a selector. -/
def rpl (selector : U16) : BitVec 2 := selector.extractLsb' 0 2

/-- The word a selector selects, unless it is null, asks for a local table or is
beyond the limit in `gdtr`. -/
def selected (gdt : Gdt) (selector : U16) : Option U64 :=
  let index := (selector >>> 3).toNat
  if index = 0 ∨ selector.getLsbD 2 then none
  else if index < GDT_ENTRIES then some (gdt index)
  else none

/-- The stack that a handler starts on. -/
inductive HandlerStack where
  | current
  | ofTss
  | ofIst (n : BitVec 3)
deriving DecidableEq

/-- Where an interrupt goes. -/
structure Delivery where
  rip : U64
  cs : U16
  stack : HandlerStack
  masks : Bool
deriving DecidableEq

/-- The delivery of an interrupt in 64-bit mode. `software` is for the `int`
instruction, which needs a gate of its own privilege. `none` is a fault. -/
def deliver (gdt : Gdt) (idt : Idt) (vector : Byte) (software : Bool) (cpl : BitVec 2) : Option Delivery :=
  let g := gate (idt vector).word
  if ¬ (g.system ∧ (g.type = 0xE ∨ g.type = 0xF)) then none
  else if software ∧ g.dpl < cpl then none
  else if ¬ g.present then none
  else
    match selected gdt g.selector with
    | none => none
    | some w =>
      let code := descriptor w
      if ¬ code.isCode ∨ cpl < code.dpl then none
      else if ¬ code.present then none
      else if ¬ code.long ∨ code.big then none
      else
        let level := if code.conforming then cpl else code.dpl
        some {
          rip := g.offset
          cs := (g.selector &&& ~~~3) ||| level.setWidth 16
          stack := if g.ist ≠ 0 then .ofIst g.ist else if level < cpl then .ofTss else .current
          masks := g.type = 0xE }

/-- The privilege level after an `iretq` from ring 0 to a code and a stack
selector, or `none` for a fault. -/
def iretLevel (gdt : Gdt) (cs ss : U16) : Option (BitVec 2) :=
  match selected gdt cs, selected gdt ss with
  | some code, some stack =>
    let code := descriptor code
    let stack := descriptor stack
    if ¬ code.isCode ∨ (if code.conforming then rpl cs < code.dpl else code.dpl ≠ rpl cs) ∨ ¬ code.present then none
    else if ¬ code.long ∨ code.big then none
    else if rpl ss ≠ rpl cs ∨ ¬ stack.isWritableData ∨ stack.dpl ≠ rpl cs ∨ ¬ stack.present then none
    else some (rpl cs)
  | _, _ => none

/-- A data segment can be loaded at a privilege level. -/
def loadsData (gdt : Gdt) (selector : U16) (cpl : BitVec 2) : Bool :=
  (selected gdt selector).any fun w =>
    let d := descriptor w
    d.isWritableData && decide (cpl ≤ d.dpl) && decide (rpl selector ≤ d.dpl) && d.present

/-- A word of memory, byte by byte. -/
def wordAt (mem : U64 → Byte) (a : U64) : U64 :=
  mem (a + 7) ++ mem (a + 6) ++ mem (a + 5) ++ mem (a + 4) ++ mem (a + 3) ++ mem (a + 2) ++ mem (a + 1) ++ mem a

/-- The stack for ring 0, from the task state segment that the task register
selects. -/
def rsp0 (gdt : Gdt) (tr : U16) (mem : U64 → Byte) : Option U64 :=
  match selected gdt tr, selected gdt (tr + 8) with
  | some low, some high =>
    let d := descriptor low
    if ¬ (d.system ∧ d.type = 0x9 ∧ d.present) ∨ d.limit < 11 then none
    else some (wordAt mem (high.setWidth 32 ++ d.base + 4))
  | _, _ => none

end Cpu

/-- The processor takes an interrupt: the stack, aligned, gets the five words that
an `iretq` takes off again, and an error code if there is one. `p` is the
processor as it is saved, for a fault with its resume flag set. No gate of the
kernel has a stack of its own, so `ofIst` is left out. -/
def Processor.interrupt (p : Processor) (d : Cpu.Delivery) (error : Option U64) : Processor :=
  let start := match d.stack with
    | .ofTss => p.kernel.rsp0
    | _ => p.rsp
  let q := { p with rsp := start &&& ~~~15 }
  let q := ((((q.pushWord p.ss).pushWord p.rsp).pushWord p.rflags).pushWord p.cs).pushWord p.rip
  let q := match error with
    | some code => q.pushWord code
    | none => q
  { q with
    rip := d.rip
    cs := d.cs.setWidth 64
    -- TF, NT and RF, and IF for an interrupt gate.
    rflags := p.rflags &&& ~~~(if d.masks then 0x14300 else 0x14100)
    ss := if d.stack = .ofTss then 0 else p.ss }

/-- The exceptions for which the processor pushes an error code. -/
def Cpu.pushesErrorCode (vector : Byte) : Bool := vector ∈ ([8, 10, 11, 12, 13, 14, 17, 21, 29, 30] : List Byte)

end HobbyKernel
