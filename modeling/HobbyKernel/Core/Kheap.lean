import HobbyKernel.Core.Uaccess

/-! `kheap.c`. The kernel heap is a list of blocks in virtual memory of its own.
Each block starts with its header, so the list lies in the memory it manages.
What maps a new page of it is a parameter; `heap_extend` goes on as long as it
answers `true`. -/
namespace HobbyKernel

def KHEAP_BASE : U64 := 0xffff900000000000
def KHEAP_SIZE : U64 := 512 * 1024 * 1024
def ALIGN : U64 := 16

/-- `sizeof(struct block_header)`. -/
def SIZEOF_HEADER : U64 := 24

/-- The variables of `kheap.c` and the words of the heap, by their addresses. -/
structure Kheap where
  mem : Nat → U64
  heapNext : U64
  heapEnd : U64
  freeList : U64

/-- More rounds than there can be blocks. -/
def LIST_FUEL : Nat := 2 ^ 29 + 1

namespace Kheap

def load (h : Kheap) (address : U64) : U64 := h.mem address.toNat

def store (h : Kheap) (address value : U64) : Kheap := { h with mem := Function.update h.mem address.toNat value }

def size (h : Kheap) (b : U64) : U64 := h.load b

/-- The field `free` is an `int`, with padding behind it. -/
def free (h : Kheap) (b : U64) : Bool := (h.load (b + 8)).setWidth 32 ≠ 0#32

def next (h : Kheap) (b : U64) : U64 := h.load (b + 16)

def setSize (h : Kheap) (b value : U64) : Kheap := h.store b value

def setFree (h : Kheap) (b : U64) (value : U32) : Kheap :=
  h.store (b + 8) ((h.load (b + 8) &&& ~~~0xFFFFFFFF) ||| value.setWidth 64)

def setNext (h : Kheap) (b value : U64) : Kheap := h.store (b + 16) value

/-- `kheap_init`. -/
def kheapInit (h : Kheap) : Kheap := { h with heapNext := KHEAP_BASE, heapEnd := KHEAP_BASE, freeList := 0 }

/-- A page that `page_alloc` cleared. -/
def clearPage (h : Kheap) (address : U64) : Kheap :=
  { h with mem := fun a => if address.toNat ≤ a ∧ a < address.toNat + 4096 then 0 else h.mem a }

variable (extendPage : σ → U64 → σ × Bool)

/-- The loop of `heap_extend`. -/
def heapExtendLoop : Nat → Kheap → σ → Kheap × σ × Bool
  | 0, h, s => (h, s, true)
  | n + 1, h, s =>
    if KHEAP_BASE + KHEAP_SIZE ≤ h.heapNext then (h, s, false)
    else
      match extendPage s h.heapNext with
      | (s, false) => (h, s, false)
      | (s, true) => heapExtendLoop n { h.clearPage h.heapNext with heapNext := h.heapNext + PGSIZE } s

/-- `heap_extend`. -/
def heapExtend (h : Kheap) (s : σ) (npages : U64) : Kheap × σ × Bool :=
  match heapExtendLoop extendPage npages.toNat h s with
  | (h, s, false) => (h, s, false)
  | (h, s, true) => ({ h with heapEnd := h.heapNext }, s, true)

/-- `find_free_block` from `cur` on, for at most `fuel` rounds. -/
def findFreeBlock (h : Kheap) (size : U64) : Nat → U64 → Option U64
  | 0, _ => none
  | fuel + 1, cur =>
    if cur = 0 then some 0
    else if h.free cur ∧ size ≤ h.size cur then some cur
    else h.findFreeBlock size fuel (h.next cur)

/-- `split_block`. -/
def splitBlock (h : Kheap) (b size : U64) : Kheap :=
  let minSplit := SIZEOF_HEADER + ALIGN
  if size + minSplit ≤ h.size b then
    let newb := b + SIZEOF_HEADER + size
    let h := h.setSize newb (h.size b - size - SIZEOF_HEADER)
    let h := h.setFree newb 1
    let h := h.setNext newb (h.next b)
    let h := h.setSize b size
    h.setNext b newb
  else h

/-- `kmalloc`. `none` says that the scan of the list does not end. -/
def kmalloc (h : Kheap) (s : σ) (size : U64) : Option (Kheap × σ × U64) :=
  if size = 0 then some (h, s, 0)
  else
    let size := roundup size ALIGN
    match h.findFreeBlock size LIST_FUEL h.freeList with
    | none => none
    | some b =>
      if b ≠ 0 then some ((h.splitBlock b size).setFree b 0, s, b + SIZEOF_HEADER)
      else
        let needed := size + SIZEOF_HEADER
        let npages := (needed + PGSIZE - 1) / PGSIZE
        let nb := h.heapNext
        match h.heapExtend extendPage s npages with
        | (h, s, false) => some (h, s, 0)
        | (h, s, true) =>
          let h := h.setSize nb (npages * PGSIZE - SIZEOF_HEADER)
          let h := h.setFree nb 0
          let h := h.setNext nb h.freeList
          let h := { h with freeList := nb }
          some (h.splitBlock nb size, s, nb + SIZEOF_HEADER)

/-- `kmalloc` writes to the header of the block it returns. Behind `heap_next` no
page is mapped, so that is a fault there and it does not return. -/
def kmallocOrFault (h : Kheap) (s : σ) (size : U64) : Option (Kheap × σ × U64) :=
  match h.kmalloc extendPage s size with
  | none => none
  | some (h, s, ptr) => if ptr ≠ 0 ∧ h.heapNext ≤ ptr - SIZEOF_HEADER then none else some (h, s, ptr)

/-- The loop of `kfree` from `cur` on, for at most `fuel` rounds. -/
def coalesce : Nat → Kheap → U64 → Option Kheap
  | 0, _, _ => none
  | fuel + 1, h, cur =>
    if cur = 0 then some h
    else if h.free cur ∧ h.next cur ≠ 0 ∧ h.free (h.next cur) ∧ cur + SIZEOF_HEADER + h.size cur = h.next cur then
      let h := h.setSize cur (h.size cur + (SIZEOF_HEADER + h.size (h.next cur)))
      let h := h.setNext cur (h.next (h.next cur))
      coalesce fuel h cur
    else coalesce fuel h (h.next cur)

/-- `kfree`. -/
def kfree (h : Kheap) (ptr : U64) : Option Kheap :=
  if ptr = 0 then some h
  else coalesce LIST_FUEL (h.setFree (ptr - SIZEOF_HEADER) 1) h.freeList

end Kheap

/-- Present and writable: the flags of every page of the heap. -/
def HEAP_FLAGS : U64 := 0 ||| 1 <<< 0 ||| 1 <<< 1

/-- What `heap_extend` does to physical memory for each page. -/
def heapPage (cr3 : U64) (s : Phys) (heapNext : U64) : Phys × Bool :=
  match pageAlloc s 1#32 with
  | (s, none) => (s, false)
  | (s, some pp) => (vmmMap s (getCurrentPml4 cr3) heapNext (page2pa pp) HEAP_FLAGS, true)

end HobbyKernel
