import HobbyKernel.Core.PageAlloc
import HobbyKernel.Lib.ByteMemory

/-! `memory.c`, over any memory of bytes, and the direct map of `hhdm.h` as one.
The compiler may call these functions on its own. `memset` and `memcmp`, which
nothing in the kernel calls, are left out. -/
namespace HobbyKernel
open ByteMemory

/-- The counter of `for (size_t i = 0; i < n; i++)`. -/
def counters (n : U64) : List Nat := List.range n.toNat

/-- The address of `p[i]`. -/
def element (p : U64) (i : Nat) : U64 := p + BitVec.ofNat 64 i

section Functions
variable {σ : Type} (M : Memory σ U64 Byte) (s : σ)

def memcpy (dest src n : U64) : σ := M.copy (element dest) (element src) (counters n) s

/-- `memmove`. Downwards it copies from the front, upwards from the back. -/
def memmove (dest src n : U64) : σ :=
  if dest < src then M.copy (element dest) (element src) (counters n) s
  else if src < dest then M.copy (element dest) (element src) (counters n).reverse s
  else s

end Functions

/-- `phys_to_virt`. -/
def physToVirt (hhdmOffset phys : U64) : U64 := phys + hhdmOffset

/-- `virt_to_phys`. -/
def virtToPhys (hhdmOffset virt : U64) : U64 := virt - hhdmOffset

/-- The bytes of physical memory behind the addresses of the direct map. -/
def directMap (hhdmOffset : U64) : Memory Phys U64 Byte where
  read s virt := s.readByte (frameOf (virtToPhys hhdmOffset virt)) ((virtToPhys hhdmOffset virt).toNat % 4096)
  write s virt b := s.writeByte (frameOf (virtToPhys hhdmOffset virt)) ((virtToPhys hhdmOffset virt).toNat % 4096) b

/-- The entries of page tables. -/
def entryMemory : Memory Phys (Frame × Index) U64 where
  read s place := s.mem place.1 place.2
  write s place value := s.writeEntry place.1 place.2 value

/-- The loop of `page_alloc` that clears a page, at the address it takes it from. -/
def clearLoop (hhdmOffset phys : U64) (s : Phys) : Phys :=
  (directMap hhdmOffset).fill (element (physToVirt hhdmOffset phys)) (fun _ _ => 0) (counters PGSIZE) s

/-- The loop that copies the kernel half of a top-level table. -/
def kernelHalfLoop (dst src : Frame) (start : Nat) (s : Phys) : Phys :=
  entryMemory.copy (fun i => (dst, Fin.ofNat 512 i)) (fun i => (src, Fin.ofNat 512 i)) (List.range' start (512 - start)) s

end HobbyKernel
