import HobbyKernel.Core.PageAlloc
import HobbyKernel.Lib.Loop

/-! `paging.c`: page-table entries, virtual-address arithmetic, the walker, and
the copy of an address space. Every bit loop runs as the source writes it. -/
namespace HobbyKernel

abbrev PageTableEntry := U64

def PTE_ADDR_MASK : U64 := 0x000FFFFFFFFFF000

/-- `KERNEL_PML4_START`: indices from here on are kernel space. -/
def KERNEL_PML4_START : Nat := 256

/-- The test `(temp << pos) & word` with `temp = 1`. -/
def testBit (word : U64) (pos : Nat) : Bool := 1#64 <<< pos &&& word != 0#64

def present (pte : PageTableEntry) : Bool := pte &&& 1#64 != 0#64

def writable (pte : PageTableEntry) : Bool := testBit pte 1

def userAccessible (pte : PageTableEntry) : Bool := testBit pte 2

/-- The loop `for (pos = 12; pos <= 51; pos++)` that ors the address bits of
`word` into an accumulator. -/
def orAddrBits (word acc : U64) : U64 :=
  (List.range' 12 40).foldl
    (fun acc pos => if testBit word pos then acc ||| 1#64 <<< pos else acc) acc

/-- `pte_get_addr`. -/
def pteGetAddr (pte : PageTableEntry) : U64 := orAddrBits pte 0

/-- `pte_make`. -/
def pteMake (physAddr flags : U64) : PageTableEntry := orAddrBits physAddr flags

/-- `is_canonical`: bits 47 to 63 all equal bit 47. -/
def isCanonical (vaddr : U64) : Bool :=
  (List.range' 47 17).all fun pos => testBit vaddr pos == testBit vaddr 47

/-- The downward loop `for (pos = hi; pos >= lo; pos--)` that shifts nine bits
into a 16-bit index. -/
def indexBits (lo : Nat) (vaddr : U64) : U16 :=
  (List.range' lo 9).reverse.foldl
    (fun index pos => if testBit vaddr pos then index <<< 1 ||| 1 else index <<< 1) 0

def pml4Index (vaddr : U64) : U16 := indexBits 39 vaddr
def pdptIndex (vaddr : U64) : U16 := indexBits 30 vaddr
def pdIndex (vaddr : U64) : U16 := indexBits 21 vaddr
def ptIndex (vaddr : U64) : U16 := indexBits 12 vaddr

/-- Subscripting `entries[512]` with a 16-bit index. -/
def subscript (index : U16) : Index := Fin.ofNat 512 index.toNat

/-- The table an entry points at, through the direct map. -/
def tableOf (pte : PageTableEntry) : Frame := frameOf (pteGetAddr pte)

/-- The flags `vmm_walk` gives a new table: present, writable, user. -/
def WALK_FLAGS : U64 := 0 ||| 1 <<< 0 ||| 1 <<< 1 ||| 1 <<< 2

/-- One of the three equal steps of `vmm_walk`: the next table under an entry,
allocated and hung there if it is missing and `create` is set. -/
def nextTable (s : Phys) (table : Frame) (idx : Index) (create : Bool) : Phys × Option Frame :=
  if present (s.mem table idx) then (s, some (tableOf (s.mem table idx)))
  else if !create then (s, none)
  else
    match pageAlloc s 1#32 with
    | (s, none) => (s, none)
    | (s, some pp) =>
      let s := s.writeEntry table idx (pteMake (page2pa pp) WALK_FLAGS)
      (s, some (tableOf (s.mem table idx)))

/-- `vmm_walk`: the place of the entry that maps an address. -/
def vmmWalk (s : Phys) (pml4 : Frame) (vaddr : U64) (create : Bool) : Phys × Option (Frame × Index) :=
  match nextTable s pml4 (subscript (pml4Index vaddr)) create with
  | (s, none) => (s, none)
  | (s, some pdpt) =>
    match nextTable s pdpt (subscript (pdptIndex vaddr)) create with
    | (s, none) => (s, none)
    | (s, some pd) =>
      match nextTable s pd (subscript (pdIndex vaddr)) create with
      | (s, none) => (s, none)
      | (s, some pt) => (s, some (pt, subscript (ptIndex vaddr)))

/-- `vmm_map`. It returns nothing, also when the walk ran out of frames. -/
def vmmMap (s : Phys) (pml4 : Frame) (vaddr physAddr flags : U64) : Phys :=
  match vmmWalk s pml4 vaddr true with
  | (s, none) => s
  | (s, some (pt, idx)) => s.writeEntry pt idx (pteMake physAddr flags)

/-- `vmm_unmap`. `invlpg` has no effect on memory. -/
def vmmUnmap (s : Phys) (pml4 : Frame) (vaddr : U64) : Phys :=
  match vmmWalk s pml4 vaddr false with
  | (s, none) => s
  | (s, some (pt, idx)) => if present (s.mem pt idx) then s.writeEntry pt idx 0 else s

/-- `get_current_pml4`. -/
def getCurrentPml4 (cr3 : U64) : Frame := frameOf (cr3 &&& PTE_ADDR_MASK)

/-- The value `vmm_switch_address_space` loads into CR3. -/
def pml4Phys (pml4 : Frame) : U64 := BitVec.ofNat 64 (4096 * pml4)

/-- `vmm_new_address_space`: an empty lower half under the running kernel half. -/
def vmmNewAddressSpace (s : Phys) (cr3 : U64) : Phys × Option Frame :=
  match pageAlloc s 1#32 with
  | (s, none) => (s, none)
  | (s, some pp) =>
    let newPml4 := frameOf (page2pa pp)
    (s.copyEntries newPml4 (getCurrentPml4 cr3) KERNEL_PML4_START, some newPml4)

/-- The address the four loop counters of `vmm_copy_address_space` stand for. -/
def composeVaddr (i4 i3 i2 i1 : Index) : U64 :=
  BitVec.ofNat 64 i4.val <<< 39 ||| BitVec.ofNat 64 i3.val <<< 30 |||
    BitVec.ofNat 64 i2.val <<< 21 ||| BitVec.ofNat 64 i1.val <<< 12

/-- The innermost body of `vmm_copy_address_space`: a fresh frame gets the
parent page's bytes and the parent entry's low flags. -/
def copyPage (child : Frame) (vaddr : U64) (parentPte : PageTableEntry) (s : Phys) : Phys × Bool :=
  match pageAlloc s 0#32 with
  | (s, none) => (s, false)
  | (s, some newPp) =>
    let newPhys := page2pa newPp
    let s := s.copyFrame (frameOf newPhys) (frameOf (pteGetAddr parentPte))
    (vmmMap s child vaddr newPhys (parentPte &&& 0xFFF), true)

/-- All 512 positions of a table, in order. -/
def allIndices : List Index := List.finRange 512

/-- The positions `0 .. KERNEL_PML4_START - 1` of a top-level table. -/
def lowerIndices : List Index := allIndices.filter (·.val < KERNEL_PML4_START)

/-- One level of the scan: skip absent entries, descend below present ones. -/
def scanTable (table : Frame) (below : Index → PageTableEntry → Phys → Phys × Bool) (i : Index)
    (s : Phys) : Phys × Bool :=
  let pte := s.mem table i
  if present pte then below i pte s else (s, true)

/-- The four nested loops of `vmm_copy_address_space`. -/
def copyLower (parent child : Frame) : Phys → Phys × Bool :=
  Loop.forEach (scanTable parent fun i4 e4 =>
    Loop.forEach (scanTable (tableOf e4) fun i3 e3 =>
      Loop.forEach (scanTable (tableOf e3) fun i2 e2 =>
        Loop.forEach (scanTable (tableOf e2) fun i1 pte =>
          copyPage child (composeVaddr i4 i3 i2 i1) pte) allIndices) allIndices) allIndices) lowerIndices

/-- `vmm_copy_address_space`. -/
def vmmCopyAddressSpace (s : Phys) (parent : Frame) : Phys × Option Frame :=
  match pageAlloc s 1#32 with
  | (s, none) => (s, none)
  | (s, some pp) =>
    let child := frameOf (page2pa pp)
    match copyLower parent child (s.copyEntries child parent KERNEL_PML4_START) with
    | (s, true) => (s, some child)
    | (s, false) => (s, none)

end HobbyKernel
