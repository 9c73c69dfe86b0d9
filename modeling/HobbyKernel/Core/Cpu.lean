import HobbyKernel.Core.PageAlloc

/-! The processor's side of memory: the four-level translation of a linear
address, and byte accesses through it. Nothing here is kernel code; the entry
format is the architecture's. -/
namespace HobbyKernel.Cpu

/-- The outcome of a page walk: the byte's place in physical memory and what
the entries on the way allow. -/
structure Translation where
  frame : Frame
  offset : Nat
  user : Bool
  write : Bool
deriving DecidableEq

def isPresent (e : U64) : Bool := e.getLsbD 0
def mayWrite (e : U64) : Bool := e.getLsbD 1
def mayUser (e : U64) : Bool := e.getLsbD 2

/-- The page-size bit: the entry maps a large page instead of naming a table. -/
def pageSize (e : U64) : Bool := e.getLsbD 7

/-- The address field of an entry, as a frame number. -/
def addressOf (e : U64) : Frame := e.toNat / 2 ^ 12 % 2 ^ 40

/-- The nine-bit index of an address at a level. -/
def indexAt (va : U64) (level : Nat) : Index := Fin.ofNat 512 (va.toNat / 2 ^ (12 + 9 * level))

/-- Bits 47 to 63 of a linear address must be equal. -/
def canonical (va : U64) : Bool := va.toNat < 2 ^ 47 || 2 ^ 64 - 2 ^ 47 ≤ va.toNat

/-- Four-level translation with 4 KiB, 2 MiB and 1 GiB pages; `none` is a fault. -/
def translate (mem : PhysMem) (root : Frame) (va : U64) : Option Translation :=
  if !canonical va then none
  else
    let e4 := mem root (indexAt va 3)
    if !isPresent e4 || pageSize e4 then none
    else
      let e3 := mem (addressOf e4) (indexAt va 2)
      let user3 := mayUser e4 && mayUser e3
      let write3 := mayWrite e4 && mayWrite e3
      if !isPresent e3 then none
      else if pageSize e3 then
        some ⟨addressOf e3 / 2 ^ 18 * 2 ^ 18 + va.toNat / 2 ^ 12 % 2 ^ 18, va.toNat % 2 ^ 12, user3, write3⟩
      else
        let e2 := mem (addressOf e3) (indexAt va 1)
        let user2 := user3 && mayUser e2
        let write2 := write3 && mayWrite e2
        if !isPresent e2 then none
        else if pageSize e2 then
          some ⟨addressOf e2 / 2 ^ 9 * 2 ^ 9 + va.toNat / 2 ^ 12 % 2 ^ 9, va.toNat % 2 ^ 12, user2, write2⟩
        else
          let e1 := mem (addressOf e2) (indexAt va 0)
          if !isPresent e1 then none
          else some ⟨addressOf e1, va.toNat % 2 ^ 12, user2 && mayUser e1, write2 && mayWrite e1⟩

/-- Whether ring 3 may read the byte, or write it. -/
def userMayAccess (mem : PhysMem) (root : Frame) (va : U64) (needWrite : Bool) : Bool :=
  match translate mem root va with
  | none => false
  | some t => t.user && (!needWrite || t.write)

/-- A byte load in ring 0. -/
def load (s : Phys) (root : Frame) (va : U64) : Option Byte :=
  (translate s.mem root va).map fun t => s.readByte t.frame t.offset

/-- A byte store in ring 0, with write protection in force. -/
def store (s : Phys) (root : Frame) (va : U64) (b : Byte) : Option Phys :=
  match translate s.mem root va with
  | none => none
  | some t => if t.write then some (s.writeByte t.frame t.offset b) else none

/-- A byte store in ring 3. -/
def userStore (s : Phys) (root : Frame) (va : U64) (b : Byte) : Option Phys :=
  match translate s.mem root va with
  | none => none
  | some t => if t.user && t.write then some (s.writeByte t.frame t.offset b) else none

/-- The loop `for (i = 0; i < n; i++) tmp[i] = src[i]`. -/
def loadBytes (s : Phys) (root : Frame) (va : U64) : Nat → Option (List Byte)
  | 0 => some []
  | n + 1 =>
    match load s root va with
    | none => none
    | some b => (loadBytes s root (va + 1) n).map (b :: ·)

/-- The loop `for (i = 0; i < n; i++) dst[i] = tmp[i]`. -/
def storeBytes (s : Phys) (root : Frame) (va : U64) : List Byte → Option Phys
  | [] => some s
  | b :: rest =>
    match store s root va b with
    | none => none
    | some s => storeBytes s root (va + 1) rest

end HobbyKernel.Cpu
