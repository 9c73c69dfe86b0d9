import HobbyKernel.Core.Uaccess

/-! `physical_page_management.c` and `frame_alloc_init`: memory is handed out from
the front of the regions of the boot loader's map, until `page_alloc.c` takes
over what is left. A physical address of 0 is also NULL. -/
namespace HobbyKernel

def LIMINE_MEMMAP_USABLE : U64 := 0

/-- `struct limine_memmap_entry`. -/
structure MemmapEntry where
  base : U64
  length : U64
  type : U64

/-- `region_is_usable`. -/
def MemmapEntry.usable (e : MemmapEntry) : Bool := e.type = LIMINE_MEMMAP_USABLE

abbrev Memmap := List MemmapEntry

/-- The variables of `physical_page_management.c`. -/
structure Pmm where
  memmap : Memmap
  currentRegion : Nat
  nextFree : U64

/-- `find_next_usable_region`. -/
def findNextUsableRegion (memmap : Memmap) (startIndex : Nat) : Nat :=
  ((List.range' startIndex (memmap.length - startIndex)).find? fun i => (memmap[i]?).any MemmapEntry.usable).getD memmap.length

/-- The base of a region, where there is one. -/
def Memmap.baseOr (memmap : Memmap) (i : Nat) (otherwise : U64) : U64 :=
  match memmap[i]? with
  | some entry => entry.base
  | none => otherwise

/-- `pmm_init`. -/
def pmmInit (memmap : Memmap) : Pmm :=
  let first := findNextUsableRegion memmap 0
  ⟨memmap, first, Memmap.baseOr memmap first 0⟩

/-- `boot_alloc`, for at most `fuel` rounds of its loop. -/
def bootAllocWithin : Nat → Pmm → U64 → Option (Pmm × U64)
  | 0, _, _ => none
  | fuel + 1, p, n =>
    match p.memmap[p.currentRegion]? with
    | none => some (p, 0)
    | some entry =>
      let regionEnd := entry.base + entry.length
      if p.nextFree + n ≤ regionEnd then some ({ p with nextFree := p.nextFree + n }, p.nextFree)
      else
        let next := findNextUsableRegion p.memmap (p.currentRegion + 1)
        bootAllocWithin fuel { p with currentRegion := next, nextFree := p.memmap.baseOr next p.nextFree } n

/-- `boot_alloc`. There is a round for each region at most, and one to see that
there is no other. -/
def bootAlloc (p : Pmm) (n : U64) : Option (Pmm × U64) := bootAllocWithin (p.memmap.length + 1) p n

/-- `sizeof(struct PageInfo)`. -/
def SIZEOF_PAGE_INFO : U64 := 16

/-- The first loop of `frame_alloc_init`. -/
def maxAddr (memmap : Memmap) : U64 :=
  memmap.foldl (fun highest e =>
    if e.usable then
      let stop := e.base + e.length
      if highest < stop then stop else highest
    else highest) 0

/-- The body of the innermost loop: put a page on the free list. -/
def listPage (npages addr : U64) (s : Phys) : Phys × Bool :=
  let idx := addr.toNat / 4096
  if npages.toNat ≤ idx then (s, true)
  else
    ({ s with
      pages := Function.update s.pages idx { s.pages idx with ppLink := s.pageFreeList }
      pageFreeList := some idx }, true)

/-- The pages of a region that are listed, from an address up to another. -/
def listedRange (p : Pmm) (i : Nat) (entry : MemmapEntry) : U64 × U64 :=
  let start := roundup entry.base PGSIZE
  let stop := rounddown (entry.base + entry.length) PGSIZE
  (if i = p.currentRegion ∧ start < p.nextFree then roundup p.nextFree PGSIZE else start, stop)

/-- One round of the loop over the regions. -/
def listRegion (p : Pmm) (npages : U64) (i : Nat) (s : Phys) : Phys × Bool :=
  match p.memmap[i]? with
  | none => (s, true)
  | some entry =>
    if !entry.usable then (s, true)
    else if i < p.currentRegion then (s, true)
    else
      let (start, stop) := listedRange p i entry
      (pageLoop (listPage npages) stop PAGE_LOOP_FUEL start s).getD (s, false)

/-- `frame_alloc_init`, with `npages` and what its own `boot_alloc` returned. -/
def frameAllocInit (p : Pmm) (s : Phys) : Option (Pmm × Phys × U64 × U64) :=
  let npages := maxAddr p.memmap / PGSIZE
  match bootAlloc p (npages * SIZEOF_PAGE_INFO) with
  | none => none
  | some (p, pagesPhys) =>
    if pagesPhys = 0 ∧ npages ≠ 0 then some (p, s, npages, pagesPhys)
    else
      let s := { s with
        pages := fun i => if i < npages.toNat then ⟨none, 0⟩ else s.pages i
        pageFreeList := none }
      some (p, (Loop.forEach (listRegion p npages) (List.range p.memmap.length) s).1, npages, pagesPhys)

end HobbyKernel
