import Mathlib.Data.Nat.Bitwise
import HobbyKernel.Lib.Chain

/-! Physical memory and the frame allocator of `page_alloc.c`. Memory is held by
frame, as the 512 words of each 4 KiB page; the kernel only reaches it through
the higher-half direct map, so a direct-map pointer is identified with the
physical address behind it. -/
namespace HobbyKernel

abbrev U64 := BitVec 64
abbrev U32 := BitVec 32
abbrev U16 := BitVec 16
abbrev Byte := BitVec 8

/-- A physical frame number: the frame at physical address `4096 * n`. -/
abbrev Frame := Nat

/-- The position of an eight-byte word in a page, or of an entry in a table. -/
abbrev Index := Fin 512

instance indexNeZero : NeZero 512 := ⟨by decide⟩

abbrev PhysMem := Frame → Index → U64

def PGSIZE : U64 := 4096

/-- `ALLOC_ZERO`: the flag that asks `page_alloc` for a cleared page. -/
def ALLOC_ZERO : U32 := 1

/-- The frame a physical address lies in. -/
def frameOf (phys : U64) : Frame := phys.toNat / 4096

/-- The word of its page a physical address lies in. -/
def wordOf (phys : U64) : Index := Fin.ofNat 512 (phys.toNat / 8)

/-- `struct PageInfo`; a page is named by its position in `pages[]`. -/
structure PageInfo where
  ppLink : Option Nat
  ppRef : U16

/-- Physical memory together with the allocator's own state. -/
structure Phys where
  mem : PhysMem
  pages : Nat → PageInfo
  pageFreeList : Option Nat

/-- `page2pa`. -/
def page2pa (pp : Nat) : U64 := BitVec.ofNat 64 pp * PGSIZE

/-- Overwrite the word at entry `i` of frame `f`. -/
def Phys.writeEntry (s : Phys) (f : Frame) (i : Index) (value : U64) : Phys :=
  { s with mem := fun g j => if g = f ∧ j = i then value else s.mem g j }

/-- The clearing loop of `page_alloc`. -/
def Phys.zeroFrame (s : Phys) (f : Frame) : Phys :=
  { s with mem := fun g j => if g = f then 0 else s.mem g j }

/-- `memcpy` of one whole page onto another. -/
def Phys.copyFrame (s : Phys) (dst src : Frame) : Phys :=
  { s with mem := fun g j => if g = dst then s.mem src j else s.mem g j }

/-- Copy the entries from position `start` on of one table into another. -/
def Phys.copyEntries (s : Phys) (dst src : Frame) (start : Nat) : Phys :=
  { s with mem := fun g j => if g = dst ∧ start ≤ j.val then s.mem src j else s.mem g j }

/-- Byte `j` of a little-endian word. -/
def byteOf (word : U64) (j : Nat) : Byte := word.extractLsb' (8 * j) 8

/-- Replace byte `j` of a word. -/
def setByte (word : U64) (j : Nat) (b : Byte) : U64 :=
  (word &&& ~~~((0xFF : U64) <<< (8 * j))) ||| (b.setWidth 64 <<< (8 * j))

/-- Byte `off` of a page. -/
def Phys.readByte (s : Phys) (f : Frame) (off : Nat) : Byte :=
  byteOf (s.mem f (Fin.ofNat 512 (off / 8))) (off % 8)

def Phys.writeByte (s : Phys) (f : Frame) (off : Nat) (b : Byte) : Phys :=
  s.writeEntry f (Fin.ofNat 512 (off / 8)) (setByte (s.mem f (Fin.ofNat 512 (off / 8))) (off % 8) b)

/-- The word stores of kernel code through the direct map. -/
def Phys.writeWord (s : Phys) (phys value : U64) : Phys := s.writeEntry (frameOf phys) (wordOf phys) value

/-- Store consecutive words from an address upwards. -/
def Phys.writeWords (s : Phys) (phys : U64) : List U64 → Phys
  | [] => s
  | value :: rest => (s.writeWord phys value).writeWords (phys + 8) rest

/-- `page_alloc`: unlink the first free page, clear it if asked to. -/
def pageAlloc (s : Phys) (flags : U32) : Phys × Option Nat :=
  match s.pageFreeList with
  | none => (s, none)
  | some pp =>
    let s := { s with
      pageFreeList := (s.pages pp).ppLink
      pages := Function.update s.pages pp { s.pages pp with ppLink := none } }
    let s := if flags &&& ALLOC_ZERO ≠ 0 then s.zeroFrame (frameOf (page2pa pp)) else s
    (s, some pp)

/-- The test for a bad free in `page_free`. -/
def badFree (s : Phys) (pp : Nat) : Bool := (s.pages pp).ppRef ≠ 0 || (s.pages pp).ppLink ≠ none

/-- `page_free`: put a page back in front, unless it is still referenced or
looks as if it were on the list. -/
def pageFree (s : Phys) (pp : Nat) : Phys :=
  if badFree s pp then s
  else
    { s with
      pages := Function.update s.pages pp { s.pages pp with ppLink := s.pageFreeList }
      pageFreeList := some pp }

/-- `count_free`, for at most `fuel` rounds of its loop. -/
def countFreeWithin (fuel : Nat) (s : Phys) : Option Nat :=
  Chain.count (fun p => (s.pages p).ppLink) fuel s.pageFreeList 0

end HobbyKernel
