import HobbyKernel.Core.Paging

/-! `uaccess.c`: the check every user pointer goes through, and the page loop it
shares with the ELF loader. The loop counter is a 64-bit word, so the loop is
run with fuel and its end is something to prove. -/
namespace HobbyKernel

def rounddown (v align : U64) : U64 := v &&& ~~~(align - 1)

def roundup (v align : U64) : U64 := (v + align - 1) &&& ~~~(align - 1)

/-- `for (va = start; va < stop; va += PGSIZE)`, for at most `fuel` rounds. The
body answers `false` where the source returns from inside the loop. -/
def pageLoop (body : U64 → σ → σ × Bool) (stop : U64) : Nat → U64 → σ → Option (σ × Bool)
  | 0, _, _ => none
  | fuel + 1, va, s =>
    if va < stop then
      match body va s with
      | (s, true) => pageLoop body stop fuel (va + PGSIZE) s
      | (s, false) => some (s, false)
    else some (s, true)

/-- More rounds than there are page addresses. -/
def PAGE_LOOP_FUEL : Nat := 2 ^ 52 + 1

/-- The body of the loop in `uva_check_range`. -/
def uvaCheckPage (pml4 : Frame) (needWrite : Bool) (va : U64) (s : Phys) : Phys × Bool :=
  match vmmWalk s pml4 va false with
  | (s, none) => (s, false)
  | (s, some (pt, idx)) =>
    if !present (s.mem pt idx) then (s, false)
    else if !userAccessible (s.mem pt idx) then (s, false)
    else if needWrite && !writable (s.mem pt idx) then (s, false)
    else (s, true)

/-- `uva_check_range`, for at most `fuel` rounds of its loop. -/
def uvaCheckRangeWithin (fuel : Nat) (s : Phys) (pml4 : Frame) (uva len : U64) (needWrite : Bool) :
    Option Bool :=
  if len = 0 then some true
  else
    let stop := uva + len
    if stop < uva then some false
    else
      let lastByte := stop - 1
      if !isCanonical uva || !isCanonical lastByte then some false
      else if KERNEL_PML4_START ≤ (pml4Index uva).toNat || KERNEL_PML4_START ≤ (pml4Index lastByte).toNat then
        some false
      else
        let pageStart := rounddown uva PGSIZE
        let pageEndExcl := rounddown lastByte PGSIZE + PGSIZE
        (pageLoop (uvaCheckPage pml4 needWrite) pageEndExcl fuel pageStart s).map (·.2)

/-- `uva_check_range`. -/
def uvaCheckRange (s : Phys) (pml4 : Frame) (uva len : U64) (needWrite : Bool) : Bool :=
  (uvaCheckRangeWithin PAGE_LOOP_FUEL s pml4 uva len needWrite).getD false

end HobbyKernel
