import HobbyKernel.Core.Boot
import HobbyKernel.Core.Switch

/-! `stress_test.c`, the kernel's test of its own frames and page tables. A
failed check halts the machine, and so does a page fault: both are `none`. -/
namespace HobbyKernel

/-- The address of a page's entry in `pages[]`, which begins at `pages`. -/
def pageInfoPtr (pages : U64) (pp : Nat) : U64 := pages + SIZEOF_PAGE_INFO * BitVec.ofNat 64 pp

/-- The subtraction of two pointers into `pages[]`. -/
def pageOfPtr (pages ptr : U64) : Nat := ((ptr - pages) / SIZEOF_PAGE_INFO).toNat

/-- `pa2page`. -/
def pa2page (pa : U64) : Nat := (pa / PGSIZE).toNat

/-- `pp->pp_ref = 0`. -/
def Phys.clearRef (s : Phys) (pp : Nat) : Phys :=
  { s with pages := Function.update s.pages pp { s.pages pp with ppRef := 0 } }

/-- `stress_alloc_all`, for at most `fuel` rounds: each page taken holds a pointer
to the one before. -/
def stressAllocAll (pages : U64) : Nat → U64 → Phys → Option (Phys × U64)
  | 0, _, _ => none
  | fuel + 1, head, s =>
    match pageAlloc s 0#32 with
    | (s, none) => some (s, head)
    | (s, some pp) => stressAllocAll pages fuel (pageInfoPtr pages pp) (s.writeWord (page2pa pp) head)

/-- `stress_free_all`, for at most `fuel` rounds. -/
def stressFreeAll (pages : U64) : Nat → U64 → Phys → Option Phys
  | 0, _, _ => none
  | fuel + 1, head, s =>
    if head = 0 then some s
    else
      let pp := pageOfPtr pages head
      let next := s.readWord (page2pa pp)
      stressFreeAll pages fuel next (pageFree (s.clearRef pp) pp)

abbrev STRESS_TEST_PAGES : Nat := 64

def STRESS_TEST_VBASE : U64 := 0x0000700000000000

/-- Memory with `g_stress_mapped` and `g_rng_state`. -/
structure Stress where
  phys : Phys
  mapped : Fin STRESS_TEST_PAGES → Bool
  rngState : U32

/-- `stress_rand`: the next state, which is the number too. -/
def stressRand (x : U32) : U32 :=
  let x := x ^^^ x <<< 13
  let x := x ^^^ x >>> 17
  x ^^^ x <<< 5

/-- The page of the scratch region at a position. -/
def stressAddr (idx : Fin STRESS_TEST_PAGES) : U64 := STRESS_TEST_VBASE + BitVec.ofNat 64 idx.val * 4096

/-- What a page of the region holds while it is mapped. -/
def stressPattern (idx : Fin STRESS_TEST_PAGES) : U32 := 0xA5A50000 ||| BitVec.ofNat 32 idx.val

/-- The four bytes of a word, lowest first. -/
def bytesOfU32 (w : U32) : List Byte := [w.extractLsb' 0 8, w.extractLsb' 8 8, w.extractLsb' 16 8, w.extractLsb' 24 8]

/-- `stress_unmap_idx`. -/
def stressUnmapIdx (pml4 : Frame) (idx : Fin STRESS_TEST_PAGES) (st : Stress) : Option Stress :=
  match vmmWalk st.phys pml4 (stressAddr idx) false with
  | (_, none) => none
  | (s, some (pt, i)) =>
    if !present (s.mem pt i) then none
    else
      let pp := pa2page (pteGetAddr (s.mem pt i))
      let s := vmmUnmap s pml4 (stressAddr idx)
      some { st with phys := pageFree (s.clearRef pp) pp, mapped := Function.update st.mapped idx false }

/-- One round of the loop in `stress_random_map_unmap`. -/
def stressRound (cr3 : U64) (pml4 : Frame) (st : Stress) : Option Stress :=
  let st := { st with rngState := stressRand st.rngState }
  let idx : Fin STRESS_TEST_PAGES := ⟨st.rngState.toNat % STRESS_TEST_PAGES, Nat.mod_lt _ (by decide)⟩
  if !st.mapped idx then
    match pageAlloc st.phys 1#32 with
    | (s, none) => some { st with phys := s }
    | (s, some pp) =>
      let s := vmmMap s pml4 (stressAddr idx) (page2pa pp) 3
      match Cpu.storeBytes s (getCurrentPml4 cr3) (stressAddr idx) (bytesOfU32 (stressPattern idx)) with
      | none => none
      | some s => some { st with phys := s, mapped := Function.update st.mapped idx true }
  else
    match Cpu.loadBytes st.phys (getCurrentPml4 cr3) (stressAddr idx) 4 with
    | none => none
    | some actual => if actual ≠ bytesOfU32 (stressPattern idx) then none else stressUnmapIdx pml4 idx st

/-- The loop that unmaps what is left at the end. -/
def stressCleanUp (pml4 : Frame) : List (Fin STRESS_TEST_PAGES) → Stress → Option Stress
  | [], st => some st
  | idx :: rest, st =>
    if st.mapped idx then
      match stressUnmapIdx pml4 idx st with
      | none => none
      | some st => stressCleanUp pml4 rest st
    else stressCleanUp pml4 rest st

def stressRounds (cr3 : U64) (pml4 : Frame) : Nat → Stress → Option Stress
  | 0, st => some st
  | iterations + 1, st =>
    match stressRound cr3 pml4 st with
    | none => none
    | some st => stressRounds cr3 pml4 iterations st

/-- `stress_random_map_unmap`. -/
def stressRandomMapUnmap (cr3 : U64) (pml4 : Frame) (iterations : Nat) (st : Stress) : Option Stress :=
  match stressRounds cr3 pml4 iterations { st with mapped := fun _ => false } with
  | none => none
  | some st => stressCleanUp pml4 (List.finRange STRESS_TEST_PAGES) st

/-- The first half of `phase1_stress_test`. The checks count the free pages. -/
def stressRoundTrip (fuel : Nat) (pages : U64) (s : Phys) : Option (Phys × Nat) :=
  match countFreeWithin fuel s with
  | none => none
  | some freeStart =>
    match stressAllocAll pages fuel 0 s with
    | none => none
    | some (s, all) =>
      if countFreeWithin fuel s ≠ some 0 then none
      else
        match stressFreeAll pages fuel all s with
        | none => none
        | some s => if countFreeWithin fuel s ≠ some freeStart then none else some (s, freeStart)

/-- `phase1_stress_test`, with the number of rounds and the loops over pages
bounded by `fuel`. -/
def phase1StressTest (fuel : Nat) (pages cr3 : U64) (iterations : Nat) (st : Stress) : Option Stress :=
  match stressRoundTrip fuel pages st.phys with
  | none => none
  | some (s, freeStart) =>
    match stressRandomMapUnmap cr3 (getCurrentPml4 cr3) iterations { st with phys := s } with
    | none => none
    | some st =>
      match countFreeWithin fuel st.phys with
      | none => none
      | some freeAfterRandom =>
        let consumed : Int := (freeStart : Int) - freeAfterRandom
        if consumed < 0 ∨ 8 < consumed then none else some st

end HobbyKernel
