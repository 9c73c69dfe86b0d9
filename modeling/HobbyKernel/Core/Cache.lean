import HobbyKernel.Core.Paging
import HobbyKernel.Core.Cpu

/-! Translations that the processor remembers. What a page walk has found it may
use until `invlpg` or a new `cr3` takes it away, whatever has become of the
tables; `paging.c` has to see to it that nothing stale is left. Entries of the
upper tables, which it may remember too, are left out: the kernel never changes
one that is present. -/
namespace HobbyKernel

namespace Cpu

/-- What is remembered of a page: the translation of its first byte. -/
abbrev Cache := Nat → Option Translation

def pageNumber (va : U64) : Nat := va.toNat / 2 ^ 12

/-- The effect of `invlpg`, and of a processor that needs the place. -/
def Cache.drop (cache : Cache) (page : Nat) : Cache := Function.update cache page none

/-- A page walk is remembered, unless it ends in a fault. -/
def Cache.fill (cache : Cache) (mem : PhysMem) (root : Frame) (page : Nat) : Cache :=
  Function.update cache page (translate mem root (BitVec.ofNat 64 (2 ^ 12 * page)))

/-- The translation that the processor uses. -/
def Cache.lookup (cache : Cache) (mem : PhysMem) (root : Frame) (va : U64) : Option Translation :=
  match cache (pageNumber va) with
  | some t => some { t with offset := va.toNat % 2 ^ 12 }
  | none => translate mem root va

end Cpu

/-- `vmm_unmap` with its `invlpg`. -/
def vmmUnmapFlush (s : Phys) (cache : Cpu.Cache) (pml4 : Frame) (vaddr : U64) : Phys × Cpu.Cache :=
  match vmmWalk s pml4 vaddr false with
  | (s, none) => (s, cache)
  | (s, some (pt, idx)) =>
    if present (s.mem pt idx) then (s.writeEntry pt idx 0, cache.drop (Cpu.pageNumber vaddr)) else (s, cache)

/-- The address spaces made so far, and the processor in front of them. -/
structure Translating where
  phys : Phys
  spaces : List Frame
  cr3 : U64
  cache : Cpu.Cache

/-- What the kernel does with address spaces, and what the processor does by
itself: a walk may be remembered at any time, also one that nobody asked for. -/
inductive Translating.Action where
  | newSpace
  | copySpace (parent : Frame)
  | map (pml4 : Frame) (vaddr physAddr flags : U64)
  | unmap (pml4 : Frame) (vaddr : U64)
  | take (flags : U32)
  | write (f : Frame) (i : Index) (value : U64)
  | switch (pml4 : Frame)
  | fill (page : Nat)
  | drop (page : Nat)

/-- A move to `cr3` empties the cache; the kernel marks no page as global. -/
def Translating.act (w : Translating) : Translating.Action → Translating
  | .newSpace =>
    let (s, made) := vmmNewAddressSpace w.phys w.cr3
    { w with phys := s, spaces := w.spaces ++ made.toList }
  | .copySpace parent =>
    let (s, made) := vmmCopyAddressSpace w.phys parent
    { w with phys := s, spaces := w.spaces ++ made.toList }
  | .map pml4 vaddr physAddr flags => { w with phys := vmmMap w.phys pml4 vaddr physAddr flags }
  | .unmap pml4 vaddr =>
    let (s, cache) := vmmUnmapFlush w.phys w.cache pml4 vaddr
    { w with phys := s, cache := cache }
  | .take flags => { w with phys := (pageAlloc w.phys flags).1 }
  | .write f i value => { w with phys := w.phys.writeEntry f i value }
  | .switch pml4 => { w with cr3 := pml4Phys pml4, cache := fun _ => none }
  | .fill page => { w with cache := w.cache.fill w.phys.mem (getCurrentPml4 w.cr3) page }
  | .drop page => { w with cache := w.cache.drop page }

end HobbyKernel
