import HobbyKernel.KheapRuns
import HobbyKernel.MapRefinement

/-! What a single request gets from the kernel heap: a pointer that is aligned or
not, a block that is large enough or not, and what is left when it fails. -/
namespace HobbyKernel.KheapRequests
open Blocks Kheap KheapProofs KheapRuns UaccessProofs Runs WalkProofs PageAllocProofs

variable {extendPage : σ → U64 → σ × Bool} {h h' : Kheap} {s s' : σ} {w : HeapState σ} {n ptr : U64} {blocks pre post : List Block}
  {b : Block} {events : List Unit}

/-- A reachable heap has a list of blocks. -/
theorem run_inv (run : Run (heapStep extendPage) Sized ⟨h.kheapInit, s, []⟩ events w) : ∃ blocks, HeapInv w blocks :=
  run.invariant (fun _ w => ∃ blocks, HeapInv w blocks) ⟨[], kheapInit_inv h s⟩
    fun _ _ _ _ _ ⟨_, inv⟩ sized did => heapStep_inv inv sized did

section Alignment

/-- The block is free and holds so many bytes. -/
def fits (size : Nat) (b : Block) : Bool := b.free && decide (size ≤ b.size)

theorem find_none {size : Nat} (full : NoneFits size blocks) : blocks.find? (fits size) = none := by
  refine List.find?_eq_none.mpr fun b member fit => ?_
  simp only [fits, Bool.and_eq_true, decide_eq_true_eq] at fit
  exact Nat.not_lt.mpr fit.2 (full b member fit.1)

theorem find_first {size : Nat} (isFree : b.free = true) (enough : size ≤ b.size) (first : NoneFits size pre) :
    (pre ++ b :: post).find? (fits size) = some b := by
  have fit : fits size b = true := by simp [fits, isFree, enough]
  rw [List.find?_append, find_none first, Option.none_or, List.find?_cons_of_pos fit]

/-- A payload begins 24 bytes behind its header, and a region at a page. -/
theorem payload_aligned_iff {size : Nat} (inv : HeapInv w blocks) {blocks' : List Block}
    (allocates : Allocates w.heap h' size ptr blocks blocks') (notNull : ptr ≠ 0) :
    16 ∣ ptr.toNat ↔ ∃ b, blocks.find? (fits size) = some b ∧ b.base % 16 = 8 := by
  cases allocates with
  | null isNull => exact absurd isNull notNull
  | reuse pre b post split isFree enough first isPtr =>
    rw [split, find_first isFree enough first, isPtr]
    constructor
    · intro aligned
      exact ⟨b, rfl, by omega⟩
    · rintro ⟨c, same, odd⟩
      cases same
      omega
  | extend left full enough isPtr =>
    have pages := inv.pages
    rw [find_none full, isPtr]
    constructor
    · intro aligned
      omega
    · rintro ⟨_, found, _⟩
      cases found

/-- A pointer is a multiple of 16 exactly if a free block is large enough and the
first such block has its header 8 bytes behind one. -/
theorem kmalloc_aligned_iff (extendPage : σ → U64 → σ × Bool) (run : Run (heapStep extendPage) Proper ⟨h.kheapInit, s, []⟩ events w) :
    ∃ blocks, Chained w.heap.mem w.heap.freeList blocks 0 ∧ ∀ n h' s' ptr, n ≤ KHEAP_SIZE →
      w.heap.kmalloc extendPage w.supply n = some (h', s', ptr) → ptr ≠ 0 →
      (16 ∣ ptr.toNat ↔ ∃ b, blocks.find? (fits (roundup n ALIGN).toNat) = some b ∧ b.base % 16 = 8) := by
  obtain ⟨blocks, inv⟩ := run_inv (run.mono fun _ _ => Proper.sized)
  refine ⟨blocks, inv.chain, fun n h' s' ptr small ran notNull => ?_⟩
  have sized : Sized w (.kmalloc n) := Proper.sized (a := .kmalloc n) small
  obtain ⟨_, _, _, ran', blocks', _, _, allocates⟩ := kmalloc_spec extendPage inv sized
  rw [ran] at ran'
  cases ran'
  exact payload_aligned_iff inv allocates notNull

/-- The rest of a page, behind a first block of 16 bytes, is aligned. -/
theorem kmalloc_aligned_second : ∃ (w : HeapState Nat) (events : List Unit) (h' : Kheap) (s' : Nat) (blocks : List Block) (b : Block),
    Run (heapStep countdown) Proper ⟨kheapInit ⟨fun _ => 0, 0, 0, 0⟩, 1, []⟩ events w ∧
      w.heap.kmalloc countdown w.supply 16 = some (h', s', 0xffff900000000040) ∧
      Chained w.heap.mem w.heap.freeList blocks 0 ∧ blocks.find? (fits 16) = some b ∧ b.base % 16 = 8 := by
  have first : (exec isProper (heapStep countdown) ⟨kheapInit ⟨fun _ => 0, 0, 0, 0⟩, 1, []⟩ [.kmalloc 16]).bind
      (fun (w, _) => (w.heap.kmalloc countdown w.supply 16).map fun out => out.2.2) = some 0xffff900000000040 := by
    decide +kernel
  obtain ⟨⟨w, events⟩, did, second⟩ := Option.bind_eq_some_iff.mp first
  obtain ⟨⟨h', s', ptr⟩, ran, isPtr⟩ := Option.map_eq_some_iff.mp second
  dsimp only at isPtr
  have run : Run (heapStep countdown) Proper ⟨kheapInit ⟨fun _ => 0, 0, 0, 0⟩, 1, []⟩ events w :=
    run_of_exec (fun w a _ passed => proper_of_isProper w a passed) did
  obtain ⟨blocks, chain, aligned⟩ := kmalloc_aligned_iff countdown run
  rw [isPtr] at ran
  obtain ⟨b, found, odd⟩ := (aligned 16 h' s' _ (by decide) ran (by decide)).mp (by decide)
  exact ⟨w, events, h', s', blocks, b, run, ran, chain, found, odd⟩

/-- The first block of all is not. -/
theorem kmalloc_unaligned : ¬ ∀ (w : HeapState Nat) (events : List Unit),
    Run (heapStep countdown) Proper ⟨kheapInit ⟨fun _ => 0, 0, 0, 0⟩, 1, []⟩ events w → ∀ n h' s' ptr, n ≤ KHEAP_SIZE →
      w.heap.kmalloc countdown w.supply n = some (h', s', ptr) → 16 ∣ ptr.toNat := by
  intro all
  have ran : ((kheapInit ⟨fun _ => 0, 0, 0, 0⟩).kmalloc countdown 1 16).map (fun out => out.2.2) = some 0xffff900000000018 := by
    decide +kernel
  obtain ⟨⟨h', s', ptr⟩, ran, isPtr⟩ := Option.map_eq_some_iff.mp ran
  have aligned := all _ _ .start 16 h' s' ptr (by decide) ran
  dsimp only at isPtr
  rw [isPtr] at aligned
  exact absurd aligned (by decide)

end Alignment

section Sizes

/-- The list ends at `heap_end`. -/
structure Ended (w : HeapState σ) (blocks : List Block) : Prop where
  packed : Packed 24 KHEAP_BASE.toNat w.heap.heapEnd.toNat blocks
  below : w.heap.heapEnd.toNat ≤ w.heap.heapNext.toNat

theorem Ended.allocates {size : Nat} {blocks' : List Block} {live : List (U64 × U64)} (inv : HeapInv w blocks) (ended : Ended w blocks)
    (allocates : Allocates w.heap h' size ptr blocks blocks') :
    Ended ⟨h', s', live⟩ blocks' := by
  have below := ended.below
  have grows := allocates.grows
  cases allocates with
  | null isNull ends =>
    refine ⟨?_, ?_⟩
    · show Packed _ _ h'.heapEnd.toNat _
      rw [ends]
      exact ended.packed
    · show h'.heapEnd.toNat ≤ h'.heapNext.toNat
      rw [ends]
      omega
  | reuse pre b post split isFree enough first isPtr next ends =>
    refine ⟨?_, ?_⟩
    · show Packed _ _ h'.heapEnd.toNat _
      rw [ends]
      exact cut_packed 16 (flag_packed (split ▸ ended.packed) false) enough
    · show h'.heapEnd.toNat ≤ h'.heapNext.toNat
      rw [ends]
      omega
  | extend left full enough isPtr next ends =>
    refine ⟨?_, Nat.le_of_eq (congrArg BitVec.toNat ends)⟩
    show Packed _ _ h'.heapEnd.toNat _
    rw [ends, next]
    have grown := ended.packed.grow (b := ⟨w.heap.heapNext.toNat, left, false⟩) below inv.bottom (Nat.le_refl _)
      (by simp only [Block.stop]; omega)
    exact cut_packed 16 (show Packed 24 _ _ ([] ++ _ :: blocks) from grown) enough

theorem Ended.releases {blocks' : List Block} {mem' : Nat → U64} {live : List (U64 × U64)} (ended : Ended w blocks)
    (releases : Releases ptr blocks blocks') : Ended ⟨{ w.heap with mem := mem' }, s', live⟩ blocks' := by
  cases releases with
  | null isNull => exact ⟨ended.packed, ended.below⟩
  | merged pre b post split isPtr => exact ⟨(merge_packed (by decide) (flag_packed (split ▸ ended.packed) true)).1, ended.below⟩

/-- The next page of the heap can be had. -/
def PageToHave (extendPage : σ → U64 → σ × Bool) (w : HeapState σ) : Prop :=
  w.heap.heapNext < KHEAP_BASE + KHEAP_SIZE ∧ (extendPage w.supply w.heap.heapNext).2 = true

/-- There is nothing that a request could get whose size wrapped around. -/
def Starved (extendPage : σ → U64 → σ × Bool) (w : HeapState σ) (blocks : List Block) (n : U64) : Prop :=
  ¬ PageToHave extendPage w ∧ (n.toNat + 15 < 2 ^ 64 ∨ ∀ b ∈ blocks, b.free = false)

theorem roundup_toNat (n : U64) : (roundup n ALIGN).toNat = (n.toNat + 15) % 2 ^ 64 / 16 * 16 := by
  have down := rounddown_pow (n + ALIGN - 1) (by decide : 4 < 64)
  have less : (n + ALIGN - 1).toNat = (n.toNat + 15) % 2 ^ 64 := by
    rw [BitVec.toNat_sub, BitVec.toNat_add, show ALIGN.toNat = 16 from rfl, show (1 : U64).toNat = 1 from rfl]
    omega
  rw [less, show 2 ^ 4 = 16 from rfl] at down
  exact down

theorem npages_toNat (size : U64) : ((size + SIZEOF_HEADER + PGSIZE - 1) / PGSIZE).toNat = (size.toNat + 4119) % 2 ^ 64 / 4096 := by
  rw [BitVec.toNat_udiv, BitVec.toNat_sub, BitVec.toNat_add, BitVec.toNat_add, show SIZEOF_HEADER.toNat = 24 from rfl,
    show PGSIZE.toNat = 4096 from rfl, show (1 : U64).toNat = 1 from rfl]
  omega

/-- `heap_extend` for one page. -/
theorem heapExtend_one {npages : U64} (extendPage : σ → U64 → σ × Bool) (one : npages.toNat = 1) :
    (PageToHave extendPage w → w.heap.heapExtend extendPage w.supply npages =
      ({ w.heap.clearPage w.heap.heapNext with heapNext := w.heap.heapNext + PGSIZE, heapEnd := w.heap.heapNext + PGSIZE },
        (extendPage w.supply w.heap.heapNext).1, true)) ∧
    (¬ PageToHave extendPage w → ∃ s', w.heap.heapExtend extendPage w.supply npages = (w.heap, s', false)) := by
  rw [heapExtend, one, heapExtendLoop, PageToHave, BitVec.not_le.symm]
  by_cases full : KHEAP_BASE + KHEAP_SIZE ≤ w.heap.heapNext
  · rw [if_pos full]
    exact ⟨fun toHave => absurd full toHave.1, fun _ => ⟨_, rfl⟩⟩
  · rw [if_neg full]
    rcases extendPage w.supply w.heap.heapNext with ⟨s', _ | _⟩
    · exact ⟨fun toHave => absurd toHave.2 Bool.false_ne_true, fun _ => ⟨_, rfl⟩⟩
    · exact ⟨fun _ => rfl, fun not => absurd ⟨full, rfl⟩ not⟩

/-- A request whose size wraps around gets what there is, of whatever size. -/
theorem wrapped_spec (extendPage : σ → U64 → σ × Bool) (inv : HeapInv w blocks) (wraps : 2 ^ 64 ≤ n.toNat + 31) :
    (Starved extendPage w blocks n ∧ ∃ s', w.heap.kmalloc extendPage w.supply n = some (w.heap, s', 0)) ∨
      (¬ Starved extendPage w blocks n ∧ ∃ h' s' ptr, w.heap.kmalloc extendPage w.supply n = some (h', s', ptr) ∧
        KHEAP_BASE.toNat + 24 ≤ ptr.toNat ∧ (ptr - SIZEOF_HEADER).toNat < h'.heapNext.toNat) := by
  obtain ⟨low, high, count⟩ := inv.bounds
  have top := inv.top
  rw [top_toNat] at top
  have bottom := inv.bottom
  rw [base_toNat] at bottom
  have bound := n.isLt
  have header : SIZEOF_HEADER.toNat = 24 := rfl
  have isSize := roundup_toNat n
  have positive : n ≠ 0 := by
    rintro rfl
    exact absurd wraps (by decide)
  have one : ((roundup n ALIGN + SIZEOF_HEADER + PGSIZE - 1) / PGSIZE).toNat = 1 := by
    rw [npages_toNat, isSize]
    omega
  have behind : ∀ p : U64, p.toNat + 24 < 2 ^ 64 → (p + SIZEOF_HEADER).toNat = p.toNat + 24 ∧ p + SIZEOF_HEADER - SIZEOF_HEADER = p := by
    intro p room
    exact ⟨by rw [add_toNat (by rw [header]; omega), header], BitVec.add_sub_cancel p _⟩
  unfold kmalloc
  rw [if_neg positive]
  dsimp only
  generalize roundup n ALIGN = size at *
  rcases findFreeBlock_spec size low high inv.chain inv.packed count with
    ⟨missing, full⟩ | ⟨pre, b, post, p, rfl, found, notNull, isBase, isFree, enough, _⟩
  · rw [missing]
    simp only [ne_eq, not_true_eq_false, if_false]
    have noneFree : n.toNat + 15 < 2 ^ 64 ∨ ∀ b ∈ blocks, b.free = false := by
      by_cases exact' : n.toNat + 15 < 2 ^ 64
      · exact .inl exact'
      · refine .inr fun b member => ?_
        cases isFree : b.free with
        | false => rfl
        | true =>
          have small := full b member isFree
          omega
    obtain ⟨extends', fails⟩ := heapExtend_one (w := w) extendPage one
    by_cases toHave : PageToHave extendPage w
    · rw [extends' toHave]
      refine .inr ⟨fun starved => starved.1 toHave, _, _, _, rfl, ?_, ?_⟩
      · rw [(behind w.heap.heapNext (by omega)).1, base_toNat]
        omega
      · have step : (w.heap.heapNext + PGSIZE).toNat = w.heap.heapNext.toNat + 4096 := by
          rw [add_toNat (by rw [show PGSIZE.toNat = 4096 from rfl]; omega), show PGSIZE.toNat = 4096 from rfl]
        rw [(behind w.heap.heapNext (by omega)).2, (splitBlock_fields _ _ _).2.1]
        show _ < (w.heap.heapNext + PGSIZE).toNat
        omega
    · obtain ⟨s', failed⟩ := fails toHave
      rw [failed]
      exact .inl ⟨⟨toHave, noneFree⟩, s', rfl⟩
  · rw [found]
    simp only [ne_eq, notNull, not_false_eq_true, if_true]
    have inside := inv.packed.inside b (by simp)
    simp only [Block.stop, base_toNat] at inside
    have wrapped : ¬ n.toNat + 15 < 2 ^ 64 := by
      intro exact'
      rw [Nat.mod_eq_of_lt exact'] at isSize
      omega
    refine .inr ⟨fun starved => ?_, _, _, _, rfl, ?_, ?_⟩
    · rcases starved.2 with exact' | allUsed
      · exact wrapped exact'
      · rw [allUsed b (by simp)] at isFree
        cases isFree
    · rw [(behind p (by omega)).1, base_toNat]
      omega
    · rw [(behind p (by omega)).2]
      show _ < ((w.heap.splitBlock p size).setFree p 0).heapNext.toNat
      rw [show ((w.heap.splitBlock p size).setFree p 0).heapNext = w.heap.heapNext from (splitBlock_fields _ _ _).2.1]
      omega

/-- The block that a pointer belongs to is as large as asked for, and its bytes
are in the heap. -/
def NotSmaller (h : Kheap) (n ptr : U64) : Prop :=
  n ≤ h.size (ptr - SIZEOF_HEADER) ∧ KHEAP_BASE.toNat ≤ ptr.toNat ∧ ptr.toNat + n.toNat ≤ h.heapEnd.toNat

/-- A call, where one that faults does not return. -/
def requestStep (extendPage : σ → U64 → σ × Bool) (w : HeapState σ) : HeapAction → Option (HeapState σ × List Unit)
  | .kmalloc n => (w.heap.kmallocOrFault extendPage w.supply n).map fun (h, s, ptr) =>
    (⟨h, s, if ptr = 0 then w.live else (ptr, n) :: w.live⟩, [])
  | a => heapStep extendPage w a

/-- Sizes are asked for that do not wrap around when they are rounded up, unless
there is nothing to be had. -/
def Meets (extendPage : σ → U64 → σ × Bool) (w : HeapState σ) : HeapAction → Prop
  | .kmalloc n => n.toNat + 31 < 2 ^ 64 ∨ ∃ blocks, Chained w.heap.mem w.heap.freeList blocks 0 ∧ Starved extendPage w blocks n
  | a => Proper w a

theorem chained_size {mem : Nat → U64} {head last : U64} (chain : Chained mem head blocks last) (member : b ∈ blocks) :
    (mem b.base).toNat = b.size := by
  induction blocks generalizing head with
  | nil => cases member
  | cons c rest ih =>
    obtain ⟨_, isSize, _, tail⟩ := chain
    rcases List.mem_cons.mp member with rfl | later
    · exact isSize
    · exact ih tail later

/-- The header of a block that is given out is mapped. -/
theorem allocates_mapped {size : Nat} {blocks' : List Block} (inv : HeapInv w blocks)
    (allocates : Allocates w.heap h' size ptr blocks blocks') : ¬ (ptr ≠ 0 ∧ h'.heapNext ≤ ptr - SIZEOF_HEADER) := by
  have header : SIZEOF_HEADER.toNat = 24 := rfl
  rintro ⟨notNull, behind⟩
  rw [BitVec.le_def] at behind
  cases allocates with
  | null isNull => exact notNull isNull
  | reuse pre b post split isFree enough first isPtr next =>
    have inside := inv.packed.inside b (by simp [split])
    simp only [Block.stop] at inside
    rw [next, sub_toNat (by omega), header] at behind
    omega
  | extend left full enough isPtr next =>
    rw [sub_toNat (by omega), header] at behind
    omega

/-- A request that does not wrap around gets a block that is large enough. -/
theorem served_spec (extendPage : σ → U64 → σ × Bool) (inv : HeapInv w blocks) (ended : Ended w blocks) (small : n.toNat + 4127 < 2 ^ 64) :
    ∃ h s ptr, w.heap.kmallocOrFault extendPage w.supply n = some (h, s, ptr) ∧ (ptr ≠ 0 → NotSmaller h n ptr) := by
  obtain ⟨h, s, ptr, ran, blocks', inv', _, allocates⟩ := kmalloc_spec extendPage inv small
  have ended' : Ended ⟨h, s, if ptr = 0 then w.live else (ptr, n) :: w.live⟩ blocks' := ended.allocates inv allocates
  refine ⟨h, s, ptr, ?_, fun notNull => ?_⟩
  · rw [kmallocOrFault, ran]
    exact if_neg (allocates_mapped inv allocates)
  · rw [if_neg notNull] at inv' ended'
    obtain ⟨b, isBlock, isUsed, isPtr, enough⟩ := inv'.room (ptr, n) List.mem_cons_self
    have inside := ended'.packed.inside b isBlock
    have header : SIZEOF_HEADER.toNat = 24 := rfl
    dsimp only at isPtr enough
    simp only [Block.stop] at inside
    refine ⟨?_, by omega, by omega⟩
    rw [BitVec.le_def, Kheap.size, Kheap.load, sub_toNat (by omega), header, isPtr, Nat.add_sub_cancel, chained_size inv'.chain isBlock]
    exact enough

/-- Sizes in between need no pages at all: the new block has no memory. -/
theorem faults (extendPage : σ → U64 → σ × Bool) (inv : HeapInv w blocks) (large : 2 ^ 64 ≤ n.toNat + 4127) (exact' : n.toNat + 31 < 2 ^ 64) :
    w.heap.kmallocOrFault extendPage w.supply n = none := by
  obtain ⟨low, high, count⟩ := inv.bounds
  have top := inv.top
  have bottom := inv.bottom
  rw [top_toNat] at top
  rw [base_toNat] at bottom
  have header : SIZEOF_HEADER.toNat = 24 := rfl
  have isSize := roundup_toNat n
  rw [Nat.mod_eq_of_lt (by omega)] at isSize
  have positive : n ≠ 0 := by
    rintro rfl
    exact absurd large (by decide)
  have nothing : ((roundup n ALIGN + SIZEOF_HEADER + PGSIZE - 1) / PGSIZE).toNat = 0 := by
    rw [npages_toNat, isSize]
    omega
  unfold kmallocOrFault kmalloc
  rw [if_neg positive]
  dsimp only
  generalize roundup n ALIGN = size at *
  rcases findFreeBlock_spec size low high inv.chain inv.packed count with
    ⟨missing, _⟩ | ⟨pre, b, post, _, rfl, _, _, _, _, enough, _⟩
  · rw [missing]
    simp only [ne_eq, not_true_eq_false, if_false]
    rw [heapExtend, nothing, heapExtendLoop]
    refine if_pos ⟨?_, ?_⟩
    · intro null
      have isPtr : (w.heap.heapNext + SIZEOF_HEADER).toNat = w.heap.heapNext.toNat + 24 := by
        rw [add_toNat (by rw [header]; omega), header]
      rw [null, show (0 : U64).toNat = 0 from rfl] at isPtr
      omega
    · rw [BitVec.add_sub_cancel, (splitBlock_fields _ _ _).2.1]
      exact BitVec.le_refl _
  · have inside := inv.packed.inside b (by simp)
    simp only [Block.stop, base_toNat] at inside
    omega

theorem base_ne_zero {base : Nat} (low : KHEAP_BASE.toNat ≤ base) : base ≠ 0 := by
  rintro rfl
  exact absurd low (by decide)

/-- A list can only be read in one way, up to NULL. -/
theorem chained_begins {mem : Nat → U64} {head : U64} {blocks₁ : List Block} (chain : Chained mem head blocks 0)
    (notNull : ∀ b ∈ blocks, b.base ≠ 0) (chain₁ : Chained mem head blocks₁ 0) : blocks <+: blocks₁ := by
  induction blocks generalizing head blocks₁ with
  | nil => exact List.nil_prefix
  | cons b rest ih =>
    obtain ⟨isHead, isSize, flag, tail⟩ := chain
    cases blocks₁ with
    | nil =>
      rw [show head = 0 from chain₁] at isHead
      exact absurd isHead.symm (notNull b List.mem_cons_self)
    | cons c rest₁ =>
      obtain ⟨isHead₁, isSize₁, flag₁, tail₁⟩ := chain₁
      have sameBase : b.base = c.base := isHead.symm.trans isHead₁
      rw [sameBase] at isSize flag tail
      have same : b = c := by
        cases b
        cases c
        simp_all
      rw [same]
      exact List.cons_prefix_cons.mpr ⟨rfl, ih tail (fun d later => notNull d (List.mem_cons_of_mem _ later)) tail₁⟩

theorem Starved.shorter {blocks₁ : List Block} (starved : Starved extendPage w blocks₁ n) (shorter : blocks <+: blocks₁) :
    Starved extendPage w blocks n :=
  ⟨starved.1, starved.2.imp_right fun used b member => used b (shorter.subset member)⟩

/-- A request that does not get less than it asks for allocates, or changes
nothing. -/
theorem request_allocates {w' : HeapState σ} {events : List Unit} (inv : HeapInv w blocks) (meets : Meets extendPage w (.kmalloc n))
    (did : requestStep extendPage w (.kmalloc n) = some (w', events)) :
    ∃ size ptr blocks', HeapInv w' blocks' ∧ Allocates w.heap w'.heap size ptr blocks blocks' := by
  rw [requestStep] at did
  by_cases exact' : n.toNat + 31 < 2 ^ 64
  · by_cases small : n.toNat + 4127 < 2 ^ 64
    · obtain ⟨h, s, ptr, ran, blocks', inv', _, allocates⟩ := kmalloc_spec extendPage inv small
      rw [kmallocOrFault, ran] at did
      dsimp only at did
      rw [if_neg (allocates_mapped inv allocates)] at did
      cases did
      exact ⟨_, ptr, blocks', inv', allocates⟩
    · rw [faults extendPage inv (by omega) exact'] at did
      cases did
  · obtain ⟨blocks₁, chain, starved⟩ := meets.resolve_left exact'
    have inside : ∀ b ∈ blocks, b.base ≠ 0 := fun b member => base_ne_zero (inv.packed.inside b member).1
    rcases wrapped_spec extendPage inv (Nat.not_lt.mp exact') with ⟨_, s', ran⟩ | ⟨served, _⟩
    · rw [kmallocOrFault, ran] at did
      cases did
      exact ⟨0, 0, blocks, ⟨inv.chain, inv.packed, inv.aligned, inv.pages, inv.bottom, inv.top, inv.used, inv.room, inv.distinct⟩,
        .null rfl rfl (Nat.le_refl _)⟩
    · exact absurd (starved.shorter (chained_begins inv.chain inside chain)) served

theorem requestStep_inv {w' : HeapState σ} {a : HeapAction} {events : List Unit} (inv : HeapInv w blocks) (ended : Ended w blocks)
    (meets : Meets extendPage w a) (did : requestStep extendPage w a = some (w', events)) :
    ∃ blocks', HeapInv w' blocks' ∧ Ended w' blocks' := by
  cases a with
  | kmalloc n =>
    obtain ⟨_, _, blocks', inv', allocates⟩ := request_allocates inv meets did
    exact ⟨blocks', inv', ended.allocates inv allocates⟩
  | kfree ptr =>
    obtain ⟨mem', ran, blocks', inv', _, releases⟩ := kfree_spec inv meets
    simp only [requestStep, heapStep, ran, Option.map_some] at did
    cases did
    exact ⟨blocks', inv', ended.releases releases⟩
  | write address value =>
    cases did
    exact ⟨blocks, write_inv value inv meets.2, ended.packed, ended.below⟩

theorem requests_inv (run : Run (requestStep extendPage) (Meets extendPage) ⟨h.kheapInit, s, []⟩ events w) :
    ∃ blocks, HeapInv w blocks ∧ Ended w blocks :=
  run.invariant (fun _ w => ∃ blocks, HeapInv w blocks ∧ Ended w blocks)
    ⟨[], kheapInit_inv h s, ⟨fun b member => absurd member (by simp), .nil⟩, Nat.le_refl _⟩
    fun _ _ _ _ _ ⟨_, inv, ended⟩ meets did => requestStep_inv inv ended meets did

/-- A request for any size but 0 is met exactly if it does not wrap around when
it is rounded up, or gets nothing. -/
theorem kmalloc_met_iff (extendPage : σ → U64 → σ × Bool)
    (run : Run (requestStep extendPage) (Meets extendPage) ⟨h.kheapInit, s, []⟩ events w) :
    ∃ blocks, HeapSound w blocks ∧ ∀ n ≠ 0,
      ((∀ h' s' ptr, w.heap.kmallocOrFault extendPage w.supply n = some (h', s', ptr) → ptr ≠ 0 → NotSmaller h' n ptr) ↔
        n.toNat + 31 < 2 ^ 64 ∨ Starved extendPage w blocks n) := by
  obtain ⟨blocks, inv, ended⟩ := requests_inv run
  refine ⟨blocks, inv.sound, fun n positive => ?_⟩
  by_cases exact' : n.toNat + 31 < 2 ^ 64
  · refine iff_of_true (fun h' s' ptr ran notNull => ?_) (.inl exact')
    by_cases small : n.toNat + 4127 < 2 ^ 64
    · obtain ⟨_, _, _, ran', met⟩ := served_spec extendPage inv ended small
      rw [ran] at ran'
      cases ran'
      exact met notNull
    · rw [faults extendPage inv (by omega) exact'] at ran
      cases ran
  · rcases wrapped_spec extendPage inv (Nat.not_lt.mp exact') with ⟨starved, s', ran⟩ | ⟨served, h', s', ptr, ran, low, below⟩
    · refine iff_of_true (fun h' s'' ptr ran' notNull => ?_) (.inr starved)
      rw [kmallocOrFault, ran] at ran'
      cases ran'
      exact absurd rfl notNull
    · refine iff_of_false (fun all => ?_) (fun either => either.elim exact' served)
      have notNull : ptr ≠ 0 := by
        rintro rfl
        exact absurd low (by decide)
      have returns : w.heap.kmallocOrFault extendPage w.supply n = some (h', s', ptr) := by
        rw [kmallocOrFault, ran]
        refine if_neg fun ⟨_, behind⟩ => ?_
        rw [BitVec.le_def] at behind
        omega
      obtain ⟨_, _, inside⟩ := all h' s' ptr returns notNull
      have bound := h'.heapEnd.isLt
      rw [base_toNat] at low
      omega

theorem proper_meets {w : HeapState σ} {a : HeapAction} (proper : Proper w a) : Meets extendPage w a := by
  cases a with
  | kmalloc n =>
    have bound : n.toNat ≤ 2 ^ 29 := proper
    exact .inl (by omega)
  | kfree ptr => exact proper
  | write address value => exact proper

/-- In a heap of one page, what was given back serves a smaller request. -/
theorem kmalloc_met_again : ∃ (w : HeapState Nat) (events : List Unit) (h' : Kheap) (s' : Nat),
    Run (requestStep countdown) (Meets countdown) ⟨kheapInit ⟨fun _ => 0, 0, 0, 0⟩, 1, []⟩ events w ∧
      w.heap.kmallocOrFault countdown w.supply 90 = some (h', s', 0xffff900000000018) ∧ NotSmaller h' 90 0xffff900000000018 := by
  have ran : (exec isProper (requestStep countdown) ⟨kheapInit ⟨fun _ => 0, 0, 0, 0⟩, 1, []⟩
      [.kmalloc 100, .kmalloc 40, .kfree 0xffff900000000018]).bind
      (fun (w, _) => (w.heap.kmallocOrFault countdown w.supply 90).map fun out => out.2.2) = some 0xffff900000000018 := by
    decide +kernel
  obtain ⟨⟨w, events⟩, did, again⟩ := Option.bind_eq_some_iff.mp ran
  obtain ⟨⟨h', s', ptr⟩, ran, isPtr⟩ := Option.map_eq_some_iff.mp again
  dsimp only at isPtr
  subst isPtr
  have run : Run (requestStep countdown) (Meets countdown) ⟨kheapInit ⟨fun _ => 0, 0, 0, 0⟩, 1, []⟩ events w :=
    run_of_exec (fun w a _ passed => proper_meets (proper_of_isProper w a passed)) did
  obtain ⟨blocks, _, met⟩ := kmalloc_met_iff countdown run
  exact ⟨w, events, h', s', run, ran, (met 90 (by decide)).mpr (.inl (by decide)) h' s' _ ran (by decide)⟩

/-- The largest size there is gets a block of no bytes. -/
theorem kmalloc_smaller : ¬ ∀ (w : HeapState Nat) (events : List Unit),
    Run (requestStep countdown) (Meets countdown) ⟨kheapInit ⟨fun _ => 0, 0, 0, 0⟩, 1, []⟩ events w → ∀ n ≠ 0, ∀ h' s' ptr,
      w.heap.kmallocOrFault countdown w.supply n = some (h', s', ptr) → ptr ≠ 0 → NotSmaller h' n ptr := by
  intro all
  have ran : ((kheapInit ⟨fun _ => 0, 0, 0, 0⟩).kmallocOrFault countdown 1 0xffffffffffffffff).map
      (fun out => (out.2.2, out.1.size 0xffff900000000000)) = some (0xffff900000000018, 0) := by
    decide +kernel
  obtain ⟨⟨h', s', ptr⟩, ran, isPtr⟩ := Option.map_eq_some_iff.mp ran
  obtain ⟨isPtr, isSize⟩ := Prod.mk.inj isPtr
  dsimp only at isPtr isSize
  subst isPtr
  have enough := (all _ _ .start 0xffffffffffffffff (by decide) h' s' _ ran (by decide)).1
  rw [show (0xffff900000000018 - SIZEOF_HEADER : U64) = 0xffff900000000000 from rfl, isSize] at enough
  exact absurd enough (by decide)

end Sizes

section Failures

/-- Nothing is changed that a later request or another user of memory can see. -/
structure NoEffect (cr3 : U64) (h h' : Kheap) (s s' : Phys) (blocks : List Block) : Prop where
  next : h'.heapNext = h.heapNext
  ends : h'.heapEnd = h.heapEnd
  list : Chained h'.mem h'.freeList blocks 0
  frames : ∀ fuel, countFreeWithin fuel s' = countFreeWithin fuel s
  leaves : ∀ va, leafEntry s' (getCurrentPml4 cr3) va = leafEntry s (getCurrentPml4 cr3) va
  served : ∀ m h₁ s₁ ptr, h.kmallocOrFault (heapPage cr3) s m = some (h₁, s₁, ptr) → ptr ≠ 0 →
    ∃ h₂ s₂ ptr₂, h'.kmallocOrFault (heapPage cr3) s' m = some (h₂, s₂, ptr₂) ∧ ptr₂ ≠ 0

/-- The first page decides whether `heap_next` moves. -/
theorem heapExtend_first {w : HeapState τ} {npages : U64} (extendPage : σ → U64 → σ × Bool) (s : σ) (inv : HeapInv w blocks) (some : npages ≠ 0) :
    (KHEAP_BASE + KHEAP_SIZE ≤ w.heap.heapNext → w.heap.heapExtend extendPage s npages = (w.heap, s, false)) ∧
    (w.heap.heapNext < KHEAP_BASE + KHEAP_SIZE →
      ((extendPage s w.heap.heapNext).2 = false →
        w.heap.heapExtend extendPage s npages = (w.heap, (extendPage s w.heap.heapNext).1, false)) ∧
      ((extendPage s w.heap.heapNext).2 = true →
        w.heap.heapNext.toNat < (w.heap.heapExtend extendPage s npages).1.heapNext.toNat)) := by
  obtain ⟨k, isCount⟩ : ∃ k, npages.toNat = k + 1 :=
    Nat.exists_eq_succ_of_ne_zero fun zero => some (BitVec.eq_of_toNat_eq zero)
  rw [heapExtend, isCount, heapExtendLoop]
  refine ⟨fun full => by rw [if_pos full], fun below => ?_⟩
  rw [if_neg (BitVec.not_le.mpr below)]
  rcases extendPage s w.heap.heapNext with ⟨s₁, _ | _⟩
  · exact ⟨fun _ => rfl, fun done => by cases done⟩
  · refine ⟨fun failed => (by cases failed), fun _ => ?_⟩
    rw [BitVec.lt_def, top_toNat] at below
    have pages := inv.pages
    have page : PGSIZE.toNat = 4096 := rfl
    have next : (w.heap.heapNext + PGSIZE).toNat = w.heap.heapNext.toNat + 4096 := by rw [add_toNat (by omega), page]
    obtain ⟨mem', next', s', ok, ran, _, _, more, _⟩ := heapExtendLoop_spec extendPage k
      { w.heap.clearPage w.heap.heapNext with heapNext := w.heap.heapNext + PGSIZE } s₁
      (by dsimp only; omega) (by dsimp only; rw [next, top_toNat]; omega)
    dsimp only at more ran ⊢
    rw [ran]
    cases ok <;> (dsimp only; omega)

/-- A page can be had as long as there is a free frame, whether or not it can
be mapped. -/
theorem heapPage_fails_iff (cr3 : U64) (s : Phys) (va : U64) : (heapPage cr3 s va).2 = false ↔ s.pageFreeList = none := by
  unfold heapPage pageAlloc
  cases s.pageFreeList with
  | none => exact iff_of_true rfl rfl
  | some pp => exact iff_of_false (by simp) (by simp)

theorem heapPage_none (cr3 va : U64) {s : Phys} (empty : s.pageFreeList = none) : (heapPage cr3 s va).1 = s := by
  rw [heapPage, pageAlloc, empty]

/-- `kmalloc` answers NULL only if `heap_extend` failed. -/
theorem kmalloc_null {w : HeapState τ} (inv : HeapInv w blocks) (extendPage : σ → U64 → σ × Bool) (s : σ) (positive : n ≠ 0)
    (ran : w.heap.kmallocOrFault extendPage s n = some (h', s', 0)) :
    ∃ npages : U64, npages ≠ 0 ∧ w.heap.heapExtend extendPage s npages = (h', s', false) := by
  obtain ⟨low, high, count⟩ := inv.bounds
  have top := inv.top
  rw [top_toNat] at top
  have header : SIZEOF_HEADER.toNat = 24 := rfl
  have notNull : ∀ p : U64, p.toNat + 24 < 2 ^ 64 → p + SIZEOF_HEADER ≠ 0 := by
    intro p room null
    have sum : (p + SIZEOF_HEADER).toNat = p.toNat + 24 := by rw [add_toNat (by omega), header]
    rw [null, show (0 : U64).toNat = 0 from rfl] at sum
    omega
  -- The check for a fault is passed with what `kmalloc` returns.
  have returned : w.heap.kmalloc extendPage s n = some (h', s', 0) := by
    rw [kmallocOrFault] at ran
    rcases same : w.heap.kmalloc extendPage s n with _ | ⟨h₁, s₁, ptr⟩
    · rw [same] at ran
      cases ran
    · rw [same] at ran
      dsimp only at ran
      split at ran
      · cases ran
      · exact ran
  unfold kmalloc at returned
  rw [if_neg positive] at returned
  dsimp only at returned
  rcases findFreeBlock_spec (roundup n ALIGN) low high inv.chain inv.packed count with
    ⟨missing, _⟩ | ⟨pre, b, post, p, rfl, found, isBlock, isBase, _⟩
  · rw [missing] at returned
    simp only [ne_eq, not_true_eq_false, if_false] at returned
    rcases extended : w.heap.heapExtend extendPage s ((roundup n ALIGN + SIZEOF_HEADER + PGSIZE - 1) / PGSIZE) with ⟨h₁, s₁, _ | _⟩
    · rw [extended] at returned
      cases returned
      refine ⟨_, fun zero => ?_, extended⟩
      rw [zero, heapExtend] at extended
      cases extended
    · rw [extended] at returned
      simp only [Option.some.injEq, Prod.mk.injEq] at returned
      exact absurd returned.2.2 (notNull _ (by omega))
  · have inside := inv.packed.inside b (by simp)
    simp only [Block.stop] at inside
    rw [found] at returned
    simp only [ne_eq, isBlock, not_false_eq_true, if_true, Option.some.injEq, Prod.mk.injEq] at returned
    exact absurd returned.2.2 (notNull p (by omega))

/-- A request that fails leaves everything as it was exactly if it was for
nothing, or if not even its first page could be had. -/
theorem failed_kmalloc_iff {extendPage : σ → U64 → σ × Bool}
    (run : Run (requestStep extendPage) (Meets extendPage) ⟨h.kheapInit, s₀, []⟩ events w) :
    ∃ blocks, HeapSound w blocks ∧ ∀ cr3 (s s' : Phys) n h', w.heap.kmallocOrFault (heapPage cr3) s n = some (h', s', 0) →
      (NoEffect cr3 w.heap h' s s' blocks ↔ n = 0 ∨ KHEAP_BASE + KHEAP_SIZE ≤ w.heap.heapNext ∨ s.pageFreeList = none) := by
  obtain ⟨blocks, inv, _⟩ := requests_inv run
  refine ⟨blocks, inv.sound, fun cr3 s s' n h' ran => ?_⟩
  have unchanged : NoEffect cr3 w.heap w.heap s s blocks :=
    ⟨rfl, rfl, inv.chain, fun _ => rfl, fun _ => rfl, fun _ _ _ _ served notNull => ⟨_, _, _, served, notNull⟩⟩
  by_cases nothing : n = 0
  · subst nothing
    cases ran
    exact iff_of_true unchanged (.inl rfl)
  obtain ⟨npages, some, extended⟩ := kmalloc_null inv (heapPage cr3) s nothing ran
  obtain ⟨full, room⟩ := heapExtend_first (heapPage cr3) s inv some
  rw [extended] at full room
  by_cases below : w.heap.heapNext < KHEAP_BASE + KHEAP_SIZE
  · obtain ⟨first, later⟩ := room below
    by_cases empty : s.pageFreeList = none
    · have failed := first ((heapPage_fails_iff cr3 s _).mpr empty)
      rw [heapPage_none cr3 _ empty] at failed
      cases failed
      exact iff_of_true unchanged (.inr (.inr empty))
    · have moved := later (Bool.eq_true_of_not_eq_false fun failed => empty ((heapPage_fails_iff cr3 s _).mp failed))
      refine iff_of_false (fun noEffect => ?_) ?_
      · rw [noEffect.next] at moved
        exact Nat.lt_irrefl _ moved
      · rintro (zero | atLimit | none)
        · exact nothing zero
        · exact BitVec.not_le.mpr below atLimit
        · exact empty none
  · cases full (BitVec.not_lt.mp below)
    exact iff_of_true unchanged (.inr (.inl (BitVec.not_lt.mp below)))

/-- With no frame left, a second request fails and changes nothing. -/
theorem failed_kmalloc_empty : ∃ (w : HeapState Nat) (events : List Unit) (h' : Kheap) (s' : Phys) (blocks : List Block),
    Run (requestStep countdown) (Meets countdown) ⟨kheapInit ⟨fun _ => 0, 0, 0, 0⟩, 1, []⟩ events w ∧
      w.heap.heapNext = KHEAP_BASE + 0x1000 ∧ HeapSound w blocks ∧
      w.heap.kmallocOrFault (heapPage 0) (clearedPhys 1 0) 5000 = some (h', s', 0) ∧
      NoEffect 0 w.heap h' (clearedPhys 1 0) s' blocks := by
  have ran : (exec isProper (requestStep countdown) ⟨kheapInit ⟨fun _ => 0, 0, 0, 0⟩, 1, []⟩ [.kmalloc 100]).bind
      (fun (w, _) => (w.heap.kmallocOrFault (heapPage 0) (clearedPhys 1 0) 5000).map fun out => (out.2.2, w.heap.heapNext)) =
      some (0, KHEAP_BASE + 0x1000) := by
    decide +kernel
  obtain ⟨⟨w, events⟩, did, again⟩ := Option.bind_eq_some_iff.mp ran
  obtain ⟨⟨h', s', ptr⟩, ran, now⟩ := Option.map_eq_some_iff.mp again
  obtain ⟨isPtr, next⟩ := Prod.mk.inj now
  dsimp only at isPtr next
  subst isPtr
  have run : Run (requestStep countdown) (Meets countdown) ⟨kheapInit ⟨fun _ => 0, 0, 0, 0⟩, 1, []⟩ events w :=
    run_of_exec (fun w a _ passed => proper_meets (proper_of_isProper w a passed)) did
  obtain ⟨blocks, sound, fails⟩ := failed_kmalloc_iff run
  exact ⟨w, events, h', s', blocks, run, next, sound, ran, (fails 0 (clearedPhys 1 0) s' 5000 h' ran).mpr (.inr (.inr rfl))⟩

/-- With frames for one page and its tables, a request for two pages fails and
keeps what it got. -/
theorem failed_kmalloc_moves : ¬ ∀ (w : HeapState Phys) (events : List Unit),
    Run (requestStep (heapPage 0)) (Meets (heapPage 0)) ⟨kheapInit ⟨fun _ => 0, 0, 0, 0⟩, clearedPhys 1 4, []⟩ events w →
      ∃ blocks, ∀ n h' s', w.heap.kmallocOrFault (heapPage 0) w.supply n = some (h', s', 0) →
        NoEffect 0 w.heap h' w.supply s' blocks := by
  intro all
  have ran : ((kheapInit ⟨fun _ => 0, 0, 0, 0⟩).kmallocOrFault (heapPage 0) (clearedPhys 1 4) 5000).map
      (fun out => (out.2.2, out.1.heapNext)) = some (0, 0xffff900000001000) := by
    decide +kernel
  obtain ⟨⟨h', s', ptr⟩, ran, isPtr⟩ := Option.map_eq_some_iff.mp ran
  obtain ⟨isNull, moved⟩ := Prod.mk.inj isPtr
  dsimp only at isNull moved
  subst isNull
  obtain ⟨blocks, noEffect⟩ := all _ _ .start
  have next := (noEffect 5000 h' s' ran).next
  rw [moved] at next
  exact absurd next (by decide)

end Failures

end HobbyKernel.KheapRequests
