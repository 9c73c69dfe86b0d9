import HobbyKernel.Core.Uaccess

/-! `elf.c`. An image is the byte at each offset from its base; the boot loader
left it in memory nobody else touches. -/
namespace HobbyKernel

abbrev Image := U64 → Byte

def ELF_MAGIC : U32 := 0x464C457F

def PT_LOAD : U32 := 1

namespace Image

/-- Little-endian fields of an image. -/
def u16 (image : Image) (off : U64) : U16 := image (off + 1) ++ image off
def u32 (image : Image) (off : U64) : U32 := image.u16 (off + 2) ++ image.u16 off
def u64 (image : Image) (off : U64) : U64 := image.u32 (off + 4) ++ image.u32 off

/-- The fields of `struct elf64_ehdr` that are read. -/
def magic (image : Image) : U32 := image.u32 0
def elfClass (image : Image) : Byte := image 4
def ePhoff (image : Image) : U64 := image.u64 32
def eEntry (image : Image) : U64 := image.u64 24
def ePhnum (image : Image) : U16 := image.u16 56

end Image

/-- The fields of `struct elf64_phdr` that are read. -/
structure Segment where
  pType : U32
  pOffset : U64
  pVaddr : U64
  pFilesz : U64
  pMemsz : U64

/-- Program header `i`: entry `i` of an array of 56-byte records. -/
def Image.segment (image : Image) (i : Nat) : Segment :=
  let ph := image.ePhoff + BitVec.ofNat 64 (56 * i)
  ⟨image.u32 ph, image.u64 (ph + 8), image.u64 (ph + 16), image.u64 (ph + 32), image.u64 (ph + 40)⟩

def Image.segments (image : Image) : List Segment := (List.range image.ePhnum.toNat).map image.segment

/-- Store one byte at a physical address. -/
def Phys.storeAt (s : Phys) (phys : U64) (b : Byte) : Phys :=
  s.writeByte (frameOf phys) (phys.toNat % 4096) b

/-- `memcpy` from an image to physical memory. -/
def Phys.copyIn (s : Phys) (dst : U64) (image : Image) (src : U64) : Nat → Phys
  | 0 => s
  | n + 1 => (s.storeAt dst (image src)).copyIn (dst + 1) image (src + 1) n

/-- Present, writable, user: the flags of every page a program is given. -/
def USER_FLAGS : U64 := 1 <<< 0 ||| 1 <<< 1 ||| 1 <<< 2

/-- The copy at the end of the loop body in `elf_load`. -/
def loadBytesOf (seg : Segment) (image : Image) (va phys : U64) (s : Phys) : Phys :=
  let fileStart := seg.pVaddr
  let fileEnd := seg.pVaddr + seg.pFilesz
  let pageStart := va
  let pageEnd := va + PGSIZE
  let copyLo := if pageStart < fileStart then fileStart else pageStart
  let copyHi := if fileEnd < pageEnd then fileEnd else pageEnd
  if copyLo < copyHi then
    s.copyIn (phys + (copyLo - pageStart)) image (seg.pOffset + (copyLo - seg.pVaddr)) (copyHi - copyLo).toNat
  else s

/-- The body of the page loop in `elf_load`. -/
def loadPage (pml4 : Frame) (image : Image) (seg : Segment) (va : U64) (s : Phys) : Phys × Bool :=
  let mapped := match vmmWalk s pml4 va false with
    | (_, none) => none
    | (s, some (pt, idx)) => if present (s.mem pt idx) then some (pteGetAddr (s.mem pt idx)) else none
  match mapped with
  | some phys => (loadBytesOf seg image va phys s, true)
  | none =>
    match pageAlloc s 1#32 with
    | (s, none) => (s, false)
    | (s, some pp) => (loadBytesOf seg image va (page2pa pp) (vmmMap s pml4 va (page2pa pp) USER_FLAGS), true)

/-- One round of the segment loop in `elf_load`. -/
def loadSegment (pml4 : Frame) (image : Image) (seg : Segment) (s : Phys) : Phys × Bool :=
  if seg.pType ≠ PT_LOAD then (s, true)
  else
    let vstart := rounddown seg.pVaddr PGSIZE
    let vend := roundup (seg.pVaddr + seg.pMemsz) PGSIZE
    (pageLoop (loadPage pml4 image seg) vend PAGE_LOOP_FUEL vstart s).getD (s, false)

/-- `elf_load`: the entry point, or `none` where the source returns 0. -/
def elfLoad (s : Phys) (pml4 : Frame) (image : Image) : Phys × Option U64 :=
  if image.magic ≠ ELF_MAGIC then (s, none)
  else if image.elfClass ≠ 2 then (s, none)
  else
    match Loop.forEach (loadSegment pml4 image) image.segments s with
    | (s, true) => (s, some image.eEntry)
    | (s, false) => (s, none)

end HobbyKernel
