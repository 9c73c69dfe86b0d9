import HobbyKernel.Core.Elf
import HobbyKernel.Core.Kheap
import HobbyKernel.CopyExact
import HobbyKernel.ElfProofs
import HobbyKernel.KheapProofs
import HobbyKernel.MapSupply

/-! What a reported success is worth. Three loops take a frame for each page and
have `vmm_map` hang it up, which does not say when there are no frames left for
its tables. If it fails for any page but the last, the next `page_alloc` fails
and the loop gives up; so the loops succeed with a page missing exactly when the
frames last for the last page and not for its tables. -/
namespace HobbyKernel.ReportedSuccess
open AddressBits PageAllocProofs WalkProofs CopyProofs CopyExact MapRefinement UaccessProofs MapSupply Radix Supplies
open KheapProofs (top_toNat)

variable {s s' : Phys} {free : List Nat} {r : Frame} {va cr3 : U64} {supply : FrameSupply} {h : Kheap} {n : Nat}
  {admits : Index → Prop}

/-- The top-level entries that some addresses go through. -/
def slotsOf (addrs : List U64) (j : Index) : Prop := ∃ va ∈ addrs, subscript (pml4Index va) = j

theorem slotsOf_member {addrs : List U64} (member : va ∈ addrs) : slotsOf addrs (subscript (pml4Index va)) := ⟨va, member, rfl⟩

theorem pml4Index_of_same {a : U64} (same : pageOf va = pageOf a) : subscript (pml4Index va) = subscript (pml4Index a) := by
  have path := ((same_page_iff va a).mpr same).1
  rw [tablePath, tablePath] at path
  exact (List.cons.inj path).1

section Heap

/-- The limit of the heap does not stop the loop. -/
def HeapFits (h : Kheap) (n : Nat) : Prop := n = 0 ∨ h.heapNext.toNat + 4096 * (n - 1) < (KHEAP_BASE + KHEAP_SIZE).toNat

theorem heapNext_step (small : h.heapNext.toNat < 0xffff900020000000) : (h.heapNext + PGSIZE).toNat = h.heapNext.toNat + 4096 := by
  rw [BitVec.toNat_add, show PGSIZE.toNat = 4096 from rfl]
  omega

/-- The loop of `heap_extend` below the limit: one round for each page. -/
theorem heapExtendLoop_pages {σ : Type} (extendPage : σ → U64 → σ × Bool) (h : Kheap) (s : σ) (fits : HeapFits h n) :
    (h.heapExtendLoop extendPage n s).2 = Loop.forEach (fun va s => extendPage s va) (pageAddrs h.heapNext n) s ∧
      ((h.heapExtendLoop extendPage n s).2.2 = true →
        (h.heapExtendLoop extendPage n s).1.heapNext.toNat = h.heapNext.toNat + 4096 * n) := by
  induction n generalizing h s with
  | zero => exact ⟨rfl, fun _ => rfl⟩
  | succ n ih =>
    rw [HeapFits, top_toNat] at fits
    have below : ¬ KHEAP_BASE + KHEAP_SIZE ≤ h.heapNext := by
      rw [BitVec.le_def, top_toNat]
      omega
    have next := heapNext_step (h := h) (by omega)
    rw [Kheap.heapExtendLoop, if_neg below, pageAddrs_succ, Loop.forEach_cons]
    rcases extendPage s h.heapNext with ⟨s', _ | _⟩
    · exact ⟨rfl, nofun⟩
    · obtain ⟨same, moved⟩ := ih { h.clearPage h.heapNext with heapNext := h.heapNext + PGSIZE } s'
        (by rw [HeapFits, top_toNat]; dsimp only; omega)
      refine ⟨same, fun ended => (moved ended).trans ?_⟩
      dsimp only
      omega

/-- Beyond the limit the loop gives up. -/
theorem heapExtendLoop_limit {σ : Type} (extendPage : σ → U64 → σ × Bool) (h : Kheap) (s : σ) (beyond : ¬ HeapFits h n) :
    (h.heapExtendLoop extendPage n s).2.2 = false := by
  induction n generalizing h s with
  | zero => exact absurd (.inl rfl) beyond
  | succ n ih =>
    rw [HeapFits, top_toNat] at beyond
    rw [Kheap.heapExtendLoop]
    split
    · rfl
    · next below =>
      rw [BitVec.le_def, top_toNat] at below
      have next := heapNext_step (h := h) (by omega)
      rcases extendPage s h.heapNext with ⟨s', _ | _⟩
      · rfl
      · refine ih _ s' ?_
        rw [HeapFits, top_toNat]
        dsimp only
        omega

/-- Physical memory and the supply of frames, as one goes on. -/
def Keeps (admits : Index → Prop) (r : Frame) (s : Phys) (supply : FrameSupply) : Prop :=
  ∃ free, WellFormedIn admits s r free ∧ Supplied admits s r free supply

theorem heap_flags_present : present HEAP_FLAGS = true := by decide

/-- A round of `heap_extend` is a round of the supply. -/
theorem heapPage_serves (keeps : Keeps admits (getCurrentPml4 cr3) s supply) (lower : admits (subscript (pml4Index va))) :
    (heapPage cr3 s va).2 = (serve pageOf tablePrefixes false va supply).2 ∧
      Keeps admits (getCurrentPml4 cr3) (heapPage cr3 s va).1 (serve pageOf tablePrefixes false va supply).1 := by
  obtain ⟨free, wf, supplied⟩ := keeps
  rw [heapPage]
  rcases mapPage_supplied false va heap_flags_present wf lower supplied (by simp) with
    ⟨failed, same⟩ | ⟨pp, s₁, took, served, rest, wf', supplied', _⟩
  · rw [failed, same]
    exact ⟨rfl, free, wf, supplied⟩
  · rw [took, served]
    exact ⟨rfl, rest, wf', supplied'⟩

/-- A page address of the range of a loop. -/
theorem page_of_range {start : U64} {count : Nat} (aligned : start.toNat % 4096 = 0)
    {a : U64} (low : start.toNat ≤ a.toNat) (high : a.toNat < start.toNat + 4096 * count) :
    pageOf a ∈ (pageAddrs start count).map pageOf := by
  have bound := a.isLt
  refine List.mem_map.mpr ⟨start + BitVec.ofNat 64 (4096 * (a.toNat / 4096 - start.toNat / 4096)),
    List.mem_map.mpr ⟨_, List.mem_range.mpr (by omega), rfl⟩, ?_⟩
  rw [← BitVec.toNat_inj, pageOf_toNat, pageOf_toNat, BitVec.toNat_add, BitVec.toNat_ofNat]
  omega

/-- The page addresses of a loop stay in its range. -/
theorem range_of_page {start : U64} {count : Nat} (fits : start.toNat + 4096 * count < 2 ^ 64) (member : va ∈ pageAddrs start count) :
    start.toNat ≤ va.toNat ∧ va.toNat + 4096 ≤ start.toNat + 4096 * count := by
  obtain ⟨i, inside, rfl⟩ := List.mem_map.mp member
  rw [List.mem_range] at inside
  rw [BitVec.toNat_add, BitVec.toNat_ofNat]
  omega

/-- `heap_extend` is its loop, and moves `heap_end` if that came to its end. -/
theorem heapExtend_loop {σ : Type} (extendPage : σ → U64 → σ × Bool) (h : Kheap) (s : σ) (npages : U64) :
    h.heapExtend extendPage s npages =
      ((if (h.heapExtendLoop extendPage npages.toNat s).2.2 = true then
        { (h.heapExtendLoop extendPage npages.toNat s).1 with
          heapEnd := (h.heapExtendLoop extendPage npages.toNat s).1.heapNext }
      else (h.heapExtendLoop extendPage npages.toNat s).1), (h.heapExtendLoop extendPage npages.toNat s).2) := by
  rw [Kheap.heapExtend]
  rcases h.heapExtendLoop extendPage npages.toNat s with ⟨h₁, s₁, _ | _⟩ <;> rfl

/-- `heap_extend` has mapped all its pages when it says so, unless the frames
last for the last page and not for its tables. -/
theorem heap_extend_mapped_iff (npages : U64)
    (wf : WellFormedIn (slotsOf (pageAddrs h.heapNext npages.toNat)) s (getCurrentPml4 cr3) free)
    (aligned : h.heapNext.toNat % 4096 = 0) :
    (∀ h' s', h.heapExtend (heapPage cr3) s npages = (h', s', true) → ∀ a : U64, h.heapNext ≤ a → a < h'.heapNext →
      present (leafEntry s' (getCurrentPml4 cr3) a) = true) ↔
    ¬ (HeapFits h npages.toNat ∧ LastShort tablePrefixes (fun q => (tableAt s (getCurrentPml4 cr3) q).isSome) free.length
      (pageAddrs h.heapNext npages.toNat)) := by
  have looped := heapExtend_loop (heapPage cr3) h s npages
  by_cases fits : HeapFits h npages.toNat
  · obtain ⟨loop, moved⟩ := heapExtendLoop_pages (heapPage cr3) h s fits
    have rounds : ∀ va ∈ pageAddrs h.heapNext npages.toNat, ∀ s supply,
        Keeps (slotsOf (pageAddrs h.heapNext npages.toNat)) (getCurrentPml4 cr3) s supply →
        (heapPage cr3 s va).2 = (serve pageOf tablePrefixes false va supply).2 ∧
          Keeps (slotsOf (pageAddrs h.heapNext npages.toNat)) (getCurrentPml4 cr3) (heapPage cr3 s va).1
            (serve pageOf tablePrefixes false va supply).1 :=
      fun va member s supply keeps => heapPage_serves keeps (slotsOf_member member)
    obtain ⟨alike, rest, wf', supplied⟩ := Loop.forEach_simulates _ ⟨free, wf, supplied_start _ _ _ _⟩ rounds
    have anywhere := supplied_start (fun _ => True) s (getCurrentPml4 cr3) free
    have lastShort := all_served_iff pageOf tablePrefixes (pageAddrs h.heapNext npages.toNat) (supplyOf s (getCurrentPml4 cr3) free.length)
      needs_determined fun va isServed => coherent_view (tablesView_start s _ _) anywhere.served trivial isServed
    have range : h.heapNext.toNat + 4096 * npages.toNat < 2 ^ 64 := by
      rw [HeapFits, top_toNat] at fits
      have := h.heapNext.isLt
      omega
    rw [← loop] at alike supplied
    rw [not_and, imp_iff_right fits]
    refine Iff.trans ?_ lastShort
    rw [← alike, looped]
    generalize h.heapExtendLoop (heapPage cr3) npages.toNat s = out at *
    obtain ⟨h₁, s₁, ok⟩ := out
    dsimp only at *
    constructor
    · intro all ended va member
      subst ended
      obtain ⟨low, high⟩ := range_of_page range member
      rw [supplied.served va (slotsOf_member member)]
      refine all _ _ rfl va (BitVec.le_def.mpr low) ?_
      rw [BitVec.lt_def, if_pos rfl]
      dsimp only
      rw [moved rfl]
      omega
    · intro all h' s' isEnd a low high
      cases isEnd
      rw [BitVec.le_def] at low
      rw [BitVec.lt_def, if_pos rfl] at high
      dsimp only at high
      rw [moved rfl] at high
      obtain ⟨va, member, same⟩ := List.mem_map.mp (page_of_range aligned low high)
      rw [← supplied.served a ⟨va, member, pml4Index_of_same same⟩, ← same]
      exact all rfl va member
  · have stopped := heapExtendLoop_limit (heapPage cr3) h s fits
    refine ⟨fun _ both => fits both.1, fun _ h' s' isEnd => ?_⟩
    rw [looped] at isEnd
    have ended := congrArg (fun out : Kheap × Phys × Bool => out.2.2) isEnd
    dsimp only at ended
    rw [stopped] at ended
    cases ended

end Heap

section Elf
variable {image : Image} {seg : Segment}

/-- The pages that the loop of `elf_load` goes through for a segment. Both its
bounds are computed modulo 2^64. -/
def segmentPages (seg : Segment) : List U64 :=
  if seg.pType ≠ PT_LOAD then []
  else
    let vstart := rounddown seg.pVaddr PGSIZE
    let vend := roundup (seg.pVaddr + seg.pMemsz) PGSIZE
    pageAddrs vstart ((vend.toNat - vstart.toNat) / 4096)

def imagePages (image : Image) : List U64 := image.segments.flatMap segmentPages

theorem rounddown_aligned (v : U64) : (rounddown v PGSIZE).toNat % 4096 = 0 := by
  rw [rounddown_toNat]
  omega

theorem roundup_aligned (v : U64) : (roundup v PGSIZE).toNat % 4096 = 0 := rounddown_aligned (v + PGSIZE - 1)

/-- The page loop of a segment ends, wherever its bounds are. -/
theorem loadSegment_pages (r : Frame) (image : Image) (seg : Segment) (s : Phys) :
    loadSegment r image seg s = Loop.forEach (loadPage r image seg) (segmentPages seg) s := by
  rw [loadSegment, segmentPages]
  split
  · rfl
  · have first := rounddown_aligned seg.pVaddr
    have last := roundup_aligned (seg.pVaddr + seg.pMemsz)
    dsimp only
    generalize roundup (seg.pVaddr + seg.pMemsz) PGSIZE = vend at *
    generalize rounddown seg.pVaddr PGSIZE = vstart at *
    have bound := vend.isLt
    by_cases empty : vend.toNat ≤ vstart.toNat
    · rw [Nat.sub_eq_zero_of_le empty, PAGE_LOOP_FUEL, pageLoop, if_neg (by rw [BitVec.lt_def]; omega)]
      rfl
    · rw [pageLoop_eq _ _ _ ((vend.toNat - vstart.toNat) / 4096) (by omega) (by rw [PAGE_LOOP_FUEL]; omega), Option.getD_some]

theorem segmentPages_small (member : va ∈ segmentPages seg) : va.toNat + 4096 < 2 ^ 64 := by
  rw [segmentPages] at member
  split at member
  · cases member
  · have first := rounddown_aligned seg.pVaddr
    have last := roundup_aligned (seg.pVaddr + seg.pMemsz)
    dsimp only at member
    generalize roundup (seg.pVaddr + seg.pMemsz) PGSIZE = vend at *
    generalize rounddown seg.pVaddr PGSIZE = vstart at *
    have bound := vend.isLt
    by_cases empty : vend.toNat ≤ vstart.toNat
    · rw [Nat.sub_eq_zero_of_le empty] at member
      cases member
    · obtain ⟨_, high⟩ := range_of_page (by omega) member
      omega

/-- A frame that is written to is no table, and stays out of the way. -/
theorem confined_keeps (supply : FrameSupply) {f : Frame} (wf : WellFormedIn admits s r free) (plain : Plain admits s r free f)
    (confined : PageWrites.Confined f s s') :
    WellFormedIn admits s' r free ∧ (∀ w, admits (subscript (pml4Index w)) → leafEntry s' r w = leafEntry s r w) ∧
      (∀ g, Plain admits s r free g → Plain admits s' r free g) ∧ (Supplied admits s r free supply → Supplied admits s' r free supply) := by
  have same : ∀ path t, Node (layout admits) s.mem (alone r) 3 () path t → s'.mem t = s.mem t := by
    intro path t node
    obtain ⟨short, admitted, reached⟩ := (tableNode_iff path t).mp node
    refine confined.elsewhere t ?_
    rintro rfl
    exact plain.2 path admitted short reached
  obtain ⟨wf', leaves, plains⟩ := wf.frame (confined.list wf.list) (fun _ member => member) same
  exact ⟨wf', leaves, plains, fun supplied => supplied.frame (alone_self r) same⟩

/-- The top-level entries that a load goes through: those of the pages of its
loops, and those of the bytes of the segments. -/
def imageSlots (image : Image) (j : Index) : Prop :=
  slotsOf (imagePages image) j ∨ ∃ seg ∈ image.segments, seg.pType = PT_LOAD ∧ ∃ a : Nat,
    seg.pVaddr.toNat ≤ a ∧ a < seg.pVaddr.toNat + seg.pMemsz.toNat ∧ a < 2 ^ 64 ∧ subscript (pml4Index (BitVec.ofNat 64 a)) = j

theorem imageSlots_page (member : va ∈ imagePages image) : imageSlots image (subscript (pml4Index va)) := .inl (slotsOf_member member)

/-- The pages of an image that are mapped already lie on frames that are neither
free nor tables below the entries that the load goes through. -/
def PlainPages (s : Phys) (r : Frame) (free : List Nat) (image : Image) : Prop :=
  ∀ va ∈ imagePages image, present (leafEntry s r va) = true → Plain (imageSlots image) s r free (tableOf (leafEntry s r va))

def KeepsPlain (r : Frame) (image : Image) (s : Phys) (supply : FrameSupply) : Prop :=
  ∃ free, WellFormedIn (imageSlots image) s r free ∧ Supplied (imageSlots image) s r free supply ∧ PlainPages s r free image

/-- A round of the page loop is a round of the supply. -/
theorem loadPage_serves (keeps : KeepsPlain r image s supply) (member : va ∈ imagePages image) (small : va.toNat + 4096 < 2 ^ 64) :
    (loadPage r image seg va s).2 = (serve pageOf tablePrefixes true va supply).2 ∧
      KeepsPlain r image (loadPage r image seg va s).1 (serve pageOf tablePrefixes true va supply).1 := by
  obtain ⟨free, wf, supplied, plain⟩ := keeps
  have inSlots : ∀ w ∈ imagePages image, imageSlots image (subscript (pml4Index w)) := fun _ => imageSlots_page
  have served := supplied.served va (inSlots va member)
  cases isPresent : present (leafEntry s r va) with
  | true =>
    rw [isPresent] at served
    have confined : PageWrites.Confined (tableOf (leafEntry s r va)) s _ :=
      ElfProofs.loadBytesOf_confined va _ s image seg (ElfProofs.pteGetAddr_aligned (leafEntry s r va)) small
    obtain ⟨wf', leaves, plains, supplies⟩ := confined_keeps supply wf (plain va member isPresent) confined
    rw [ElfProofs.loadPage_mapped isPresent, serve, if_pos (by rw [served]; rfl)]
    refine ⟨rfl, ?_⟩
    dsimp only
    refine ⟨free, wf', supplies supplied, fun w inside isPresent' => ?_⟩
    rw [leaves w (inSlots w inside)] at isPresent' ⊢
    exact plains _ (plain w inside isPresent')
  | false =>
    rw [isPresent] at served
    rw [ElfProofs.loadPage_missing isPresent]
    rcases mapPage_supplied true va (show present USER_FLAGS = true by decide) wf (inSlots va member) supplied
      (by rw [served]; simp) with
      ⟨failed, same⟩ | ⟨pp, s₁, took, ok, rest, wf', supplied', small', isPlain, plains, leaves⟩
    · rw [failed, same]
      exact ⟨rfl, free, wf, supplied, plain⟩
    · have page := page2pa_toNat small'
      have confined := ElfProofs.loadBytesOf_confined va (page2pa pp) (vmmMap s₁ r va (page2pa pp) USER_FLAGS) image seg
        (by omega) small
      rw [frameOf_page2pa small'] at confined
      obtain ⟨wf'', leaves', plains', supplies⟩ := confined_keeps (serve pageOf tablePrefixes true va supply).1 wf' isPlain confined
      rw [took, ok]
      refine ⟨rfl, ?_⟩
      dsimp only
      refine ⟨rest, wf'', supplies supplied', fun w inside isPresent' => ?_⟩
      rw [leaves' w (inSlots w inside)] at isPresent' ⊢
      apply plains'
      rcases leaves w (inSlots w inside) with old | new
      · rw [old] at isPresent' ⊢
        exact plains _ (plain w inside isPresent')
      · rw [new, tableOf_make_page SpaceEvolution.user_flags_plain small']
        exact isPlain

/-- A segment takes a round of the supply for each of its pages. -/
theorem loadSegment_serves (keeps : KeepsPlain r image s supply) (member : seg ∈ image.segments) :
    (loadSegment r image seg s).2 = (Loop.forEach (serve pageOf tablePrefixes true) (segmentPages seg) supply).2 ∧
      KeepsPlain r image (loadSegment r image seg s).1 (Loop.forEach (serve pageOf tablePrefixes true) (segmentPages seg) supply).1 := by
  rw [loadSegment_pages]
  exact Loop.forEach_simulates (KeepsPlain r image) keeps fun va inside s supply keeps =>
    loadPage_serves keeps (List.mem_flatMap.mpr ⟨seg, member, inside⟩) (segmentPages_small inside)

/-- Something holds of every byte of every segment that is loaded, with the
addresses taken as integers. -/
def EveryByte (image : Image) (holds : Nat → Prop) : Prop :=
  ∀ seg ∈ image.segments, seg.pType = PT_LOAD → ∀ a : Nat, seg.pVaddr.toNat ≤ a → a < seg.pVaddr.toNat + seg.pMemsz.toNat → holds a

/-- Every byte is on a page with a present leaf entry. -/
def ElfMapped (s : Phys) (r : Frame) (image : Image) : Prop :=
  EveryByte image fun a => a < 2 ^ 64 ∧ present (leafEntry s r (BitVec.ofNat 64 a)) = true

/-- Every byte is on a page that was mapped before, or on one of these. -/
def ElfCovers (s : Phys) (r : Frame) (image : Image) (pages : List U64) : Prop :=
  EveryByte image fun a => a < 2 ^ 64 ∧
    (present (leafEntry s r (BitVec.ofNat 64 a)) = true ∨ pageOf (BitVec.ofNat 64 a) ∈ pages.map pageOf)

/-- The loops go through all pages of the segments, if there are frames for all
of them; and a page that is left without its tables has no byte of a segment. -/
def ElfReady (s : Phys) (r : Frame) (image : Image) (frames : Nat) : Prop :=
  (demand tablePrefixes (supplyOf s r frames).parts (takers pageOf true (supplyOf s r frames).served (imagePages image)) ≤ frames →
    ElfCovers s r image (imagePages image)) ∧
  ∀ before last, GivesOut pageOf tablePrefixes true (supplyOf s r frames) (imagePages image) before last →
    ElfCovers s r image before

theorem everyByte_congr {holds holds' : Nat → Prop} (same : EveryByte image fun a => (holds a ↔ holds' a)) :
    EveryByte image holds ↔ EveryByte image holds' := by
  constructor
  · intro all seg member isLoad a low high
    exact (same seg member isLoad a low high).mp (all seg member isLoad a low high)
  · intro all seg member isLoad a low high
    exact (same seg member isLoad a low high).mpr (all seg member isLoad a low high)

/-- After the loops the mapped pages are the old ones and the ones served. -/
theorem elfMapped_iff {pages : List U64} (supplied : Supplied (imageSlots image) s' r free supply)
    (result : ∀ k, supply.served k = (present (leavesOf s r k) || decide (k ∈ pages.map pageOf))) :
    ElfMapped s' r image ↔ ElfCovers s r image pages := by
  refine everyByte_congr fun seg member isLoad a low high => and_congr_right fun small => ?_
  have inSlots : imageSlots image (subscript (pml4Index (BitVec.ofNat 64 a))) := .inr ⟨seg, member, isLoad, a, low, high, small, rfl⟩
  rw [← supplied.served _ inSlots, result, leavesOf_page, Bool.or_eq_true, decide_eq_true_eq]

/-- `elf_load` has mapped every byte of every segment when it says so, exactly
under the condition on its pages. -/
theorem elf_load_mapped_iff (image : Image) (wf : WellFormedIn (imageSlots image) s r free) (plain : PlainPages s r free image) :
    (∀ s' entry, elfLoad s r image = (s', some entry) → ElfMapped s' r image) ↔
      (image.magic = ELF_MAGIC → image.elfClass = 2 → ElfReady s r image free.length) := by
  by_cases magic : image.magic = ELF_MAGIC
  swap
  · rw [elfLoad, if_pos magic]
    exact ⟨fun _ good => absurd good magic, fun _ _ _ => nofun⟩
  by_cases elfClass : image.elfClass = 2
  swap
  · rw [elfLoad, if_neg (not_not.mpr magic), if_pos elfClass]
    exact ⟨fun _ _ good => absurd good elfClass, fun _ _ _ => nofun⟩
  rw [imp_iff_right magic, imp_iff_right elfClass]
  have rounds : ∀ seg ∈ image.segments, ∀ s supply, KeepsPlain r image s supply →
      (loadSegment r image seg s).2 = (Loop.forEach (serve pageOf tablePrefixes true) (segmentPages seg) supply).2 ∧
        KeepsPlain r image (loadSegment r image seg s).1
          (Loop.forEach (serve pageOf tablePrefixes true) (segmentPages seg) supply).1 :=
    fun seg isSegment s supply keeps => loadSegment_serves keeps isSegment
  obtain ⟨alike, rest, _, supplied, _⟩ :=
    Loop.forEach_simulates (KeepsPlain r image) ⟨free, wf, supplied_start _ _ _ _, plain⟩ rounds
  rw [Loop.forEach_flatMap] at alike supplied
  have ran : ∀ s' entry, elfLoad s r image = (s', some entry) ↔ (Loop.forEach (loadSegment r image) image.segments s).2 = true ∧
        s' = (Loop.forEach (loadSegment r image) image.segments s).1 ∧ entry = image.eEntry := by
    intro s' entry
    rw [elfLoad, if_neg (not_not.mpr magic), if_neg (not_not.mpr elfClass)]
    rcases Loop.forEach (loadSegment r image) image.segments s with ⟨s₁, _ | _⟩
    · simp
    · simp only [Prod.mk.injEq, Option.some.injEq, true_and]
      exact and_congr eq_comm eq_comm
  have onSuccess : (∀ s' entry, (Loop.forEach (loadSegment r image) image.segments s).2 = true ∧
      s' = (Loop.forEach (loadSegment r image) image.segments s).1 ∧ entry = image.eEntry → ElfMapped s' r image) ↔
      ((Loop.forEach (serve pageOf tablePrefixes true) (imagePages image) (supplyOf s r free.length)).2 = true →
        ElfMapped (Loop.forEach (loadSegment r image) image.segments s).1 r image) := by
    rw [imagePages, ← alike]
    exact ⟨fun all ended => all _ _ ⟨ended, rfl, rfl⟩, fun all s' entry ⟨ended, same, _⟩ => same ▸ all ended⟩
  simp only [ran]
  rw [onSuccess]
  rcases serve_cases pageOf tablePrefixes true (imagePages image) (supplyOf s r free.length) with
    ⟨paid, ended, result⟩ | ⟨before, last, out, ended, result⟩ | ⟨stopped, unpaid, never⟩
  · rw [imp_iff_right ended, elfMapped_iff supplied fun k => (result k).trans (mem_takers k)]
    refine ⟨fun covers => ⟨fun _ => covers, fun before last out => ?_⟩, fun ready => ready.1 paid⟩
    have short := out.short
    rw [← out.ends] at short
    exact absurd paid (Nat.not_le.mpr short)
  · rw [imp_iff_right ended, elfMapped_iff supplied result]
    have short := out.short
    rw [← out.ends] at short
    refine ⟨fun covers => ⟨fun paid => absurd paid (Nat.not_le.mpr short), fun before' last' out' => ?_⟩,
      fun ready => ready.2 before last out⟩
    obtain ⟨rfl, _⟩ := List.append_inj' (out.ends.symm.trans out'.ends) rfl
    exact covers
  · rw [stopped]
    exact ⟨fun _ => ⟨fun paid => absurd paid (Nat.not_le.mpr unpaid), fun before last out => absurd out (never before last)⟩,
      fun _ => nofun⟩

end Elf

section Copy
variable {upper : Index → U64} {parent child : Frame} {s₀ : Phys} {free₀ : List Nat} {leaf : Leaf}

/-- A child under construction and the supply of frames, as one goes on. -/
def KeepsChild (upper : Index → U64) (s₀ : Phys) (free₀ : List Nat) (child : Frame) (s : Phys) (supply : FrameSupply) : Prop :=
  ∃ rest, Building upper s₀ free₀ child s rest ∧ Supplied Lower s child rest supply

def leafPage (leaf : Leaf) : BitVec 36 := pageOf leaf.vaddr

def leafTables (leaf : Leaf) : List (List Index) := tablePrefixes leaf.vaddr

/-- Copying a page is a round of the supply. -/
theorem copyLeaf_serves (keeps : KeepsChild upper s₀ free₀ child s supply) (lower : Lower leaf.i4)
    (isPresent : present leaf.pte = true) : (copyLeaf child leaf s).2 = (serve leafPage leafTables false leaf supply).2 ∧
      KeepsChild upper s₀ free₀ child (copyLeaf child leaf s).1 (serve leafPage leafTables false leaf supply).1 := by
  obtain ⟨rest, building, supplied⟩ := keeps
  have left := supplied.left
  have lowerVaddr : Lower (subscript (pml4Index leaf.vaddr)) := lower_composeVaddr lower _ _ _
  have same : serve leafPage leafTables false leaf supply = serve pageOf tablePrefixes false leaf.vaddr supply := rfl
  rw [copyLeaf, copyPage, same]
  rcases pageAlloc_cases building.list 0#32 with ⟨rfl, failed⟩ | ⟨pp, rest, s₁, rfl, took, list, mem⟩
  · have none : supply.left = 0 := left.symm
    rw [failed, serve, if_neg (by simp), if_pos none]
    exact ⟨rfl, [], building, supplied⟩
  · rw [List.length_cons] at left
    have small := building.list.small pp List.mem_cons_self
    have elsewhere : ∀ f, f ≠ pp → (s₁.copyFrame (frameOf (page2pa pp)) (frameOf (pteGetAddr leaf.pte))).mem f = s.mem f := by
      intro f other
      funext i
      simp [Phys.copyFrame, frameOf_page2pa small, other, alloc_elsewhere mem other]
    have tables : ∀ path t, Node (layout Lower) s.mem (alone child) 3 () path t →
        (s₁.copyFrame (frameOf (page2pa pp)) (frameOf (pteGetAddr leaf.pte))).mem t = s.mem t := by
      intro path t node
      refine elsewhere t ?_
      rintro rfl
      exact building.exclusive.node_unfree (node.mono (by decide)) List.mem_cons_self
    have exclusive := ((building.exclusive.frame fun _ => tables).mono (by decide : 3 ≤ 4)).subset
      fun f member => List.mem_cons_of_mem pp member
    have list' : FreeList (s₁.copyFrame (frameOf (page2pa pp)) (frameOf (pteGetAddr leaf.pte))) rest := list.mem_congr _
    have flags : present (leaf.pte &&& 0xFFF) = true := (present_low_flags leaf.pte).trans isPresent
    obtain ⟨_, rest', _, mapped⟩ := building.map list' elsewhere (low_flags_plain leaf.pte) lowerVaddr
    obtain ⟨served, rest'', list'', supplied'⟩ := map_supplied (k := ()) false (page2pa pp) flags list' exclusive rfl lowerVaddr left
      ((supplied.parts (by omega)).frame rfl tables) (supplied.served.frame rfl tables) (by simp)
    cases mapped.list.unique list''
    rw [took, served]
    exact ⟨rfl, rest', mapped, supplied'⟩

/-- A new child has no tables and no pages of its own. -/
theorem keepsChild_start {rest : List Nat} (building : Building upper s₀ free₀ child s rest)
    (empty : ∀ j, Lower j → s.mem child j = 0) :
    KeepsChild upper s₀ free₀ child s ⟨rest.length, fun _ => false, fun _ => false⟩ := by
  have none : ∀ q, q ≠ [] → (layout Lower).Admitted q → follow (layout Lower) s.mem child q = none := by
    intro q nonempty admitted
    cases reached : follow (layout Lower) s.mem child q with
    | none => rfl
    | some t =>
      have node : Node (layout Lower) s.mem (alone child) q.length () q t := ⟨Nat.le_refl _, admitted, child, rfl, reached⟩
      exact absurd (alone_empty empty node).1 nonempty
  refine ⟨rest, building, rfl, fun _ q nonempty admitted _ => by rw [none q nonempty admitted]; rfl, fun va lower => ?_⟩
  rw [leafEntry_eq Lower, entry, none _ (by simp [tablePath]) (admitted_tablePath lower)]
  exact (show false = present 0#64 by decide)

theorem leaf_small (lower : Lower leaf.i4) : leaf.vaddr.toNat < 2 ^ 47 := by
  have below : leaf.i4.val < 256 := lower
  have := leaf.i3.isLt
  have := leaf.i2.isLt
  have := leaf.i1.isLt
  rw [Leaf.vaddr, composeVaddr_toNat]
  omega

/-- `vmm_copy_address_space` has copied every page when it returns a child,
unless the frames last for the last page and not for its tables. -/
theorem copy_mapped_iff (list : FreeList s free) (unfree : Unfree s.mem parent free) :
    (∀ s' child, vmmCopyAddressSpace s parent = (s', some child) → ∀ va : U64, va.toNat < 2 ^ 47 →
      present (leafEntry s parent va) = true → present (leafEntry s' child va) = true) ↔
    ¬ LastShort leafTables (fun _ => false) (free.length - 1) (lowerLeaves s.mem parent) := by
  rcases pageAlloc_cases list 1#32 with ⟨rfl, failed⟩ | ⟨pp, rest, s₁, rfl, took, list₁, cleared⟩
  · rw [vmmCopyAddressSpace, failed]
    constructor
    · rintro _ ⟨_, _, _, begun, _⟩
      simp at begun
    · intro _ s' child made
      cases made
  have parentOther : parent ≠ pp := fun same => unfree [] parent (by simp) (by simp [Layout.Admitted]) rfl (same ▸ List.mem_cons_self)
  have building := (building_start parent list list₁ cleared).upper_congr
    (fun j upper => copyEntries_upper cleared parentOther upper)
  have start := keepsChild_start building fun j => copyEntries_lower cleared
  have rounds : ∀ leaf ∈ lowerLeaves s.mem parent, ∀ s' supply, KeepsChild (s.mem parent) s (pp :: rest) pp s' supply →
      (copyLeaf pp leaf s').2 = (serve leafPage leafTables false leaf supply).2 ∧
        KeepsChild (s.mem parent) s (pp :: rest) pp (copyLeaf pp leaf s').1 (serve leafPage leafTables false leaf supply).1 :=
    fun leaf member s' supply keeps => copyLeaf_serves keeps (mem_lowerLeaves.mp member).1 (mem_lowerLeaves.mp member).2.2
  obtain ⟨alike, rest', _, supplied⟩ := Loop.forEach_simulates (KeepsChild (s.mem parent) s (pp :: rest) pp) start rounds
  have lastShort := all_served_iff leafPage leafTables (lowerLeaves s.mem parent)
    (⟨rest.length, fun _ => false, fun _ => false⟩ : FrameSupply) (fun leaf leaf' => needs_determined _ _)
    (fun _ served => by cases served)
  rw [← copyLower_eq building unfree] at alike supplied
  have isChild := frameOf_page2pa (list.small pp List.mem_cons_self)
  have ran : ∀ s' child, vmmCopyAddressSpace s parent = (s', some child) ↔
      (copyLower parent pp (s₁.copyEntries pp parent KERNEL_PML4_START)).2 = true ∧
        s' = (copyLower parent pp (s₁.copyEntries pp parent KERNEL_PML4_START)).1 ∧ child = pp := by
    intro s' child
    rw [vmmCopyAddressSpace, took]
    simp only [isChild]
    rcases copyLower parent pp (s₁.copyEntries pp parent KERNEL_PML4_START) with ⟨s₂, _ | _⟩
    · simp
    · simp only [Prod.mk.injEq, Option.some.injEq, true_and]
      exact and_congr eq_comm eq_comm
  refine Iff.trans ?_ lastShort
  rw [← alike]
  simp only [ran]
  clear lastShort
  generalize copyLower parent pp (s₁.copyEntries pp parent KERNEL_PML4_START) = out at *
  generalize Loop.forEach (serve leafPage leafTables false) (lowerLeaves s.mem parent)
    (⟨rest.length, fun _ => false, fun _ => false⟩ : FrameSupply) = supply at *
  obtain ⟨s₂, ok⟩ := out
  dsimp only at *
  constructor
  · intro all ended leaf member
    obtain ⟨lower, value, isPresent⟩ := mem_lowerLeaves.mp member
    have lowerVaddr : Lower (subscript (pml4Index leaf.vaddr)) := lower_composeVaddr lower _ _ _
    have parents : leafEntry s parent leaf.vaddr = leaf.pte := by
      rw [leafEntry_eq Lower, leaf.path_vaddr.1, leaf.path_vaddr.2, value]
    have isThere : present (leafEntry s parent leaf.vaddr) = true := parents.symm ▸ isPresent
    exact (supplied.served leaf.vaddr lowerVaddr).trans (all s₂ pp ⟨ended, rfl, rfl⟩ leaf.vaddr (leaf_small lower) isThere)
  · rintro all s' child ⟨ended, rfl, rfl⟩ va small isPresent
    obtain ⟨leaf, member, tables, index, _⟩ := leaf_of_present small isPresent
    have samePage : leafPage leaf = pageOf va :=
      (same_page_iff leaf.vaddr va).mp ⟨leaf.path_vaddr.1.trans tables, leaf.path_vaddr.2.trans index⟩
    rw [← supplied.served va (lower_of_small small), ← samePage]
    exact all ended leaf member

end Copy

/-- Each of the three, in any memory and with any number of free frames, keeps
its word exactly when the frames do not give out between the last page and its
tables; and `elf_load` besides only when its loops go through every byte. The
tables are those below the top-level entries that the call goes through. -/
theorem success_is_mapped_iff (s : Phys) (free : List Nat) :
    (∀ (r : Frame) (image : Image), WellFormedIn (imageSlots image) s r free → PlainPages s r free image →
      ((∀ s' entry, elfLoad s r image = (s', some entry) → ElfMapped s' r image) ↔
        (image.magic = ELF_MAGIC → image.elfClass = 2 → ElfReady s r image free.length))) ∧
    (∀ (cr3 : U64) (h : Kheap) (npages : U64),
      WellFormedIn (slotsOf (pageAddrs h.heapNext npages.toNat)) s (getCurrentPml4 cr3) free → h.heapNext.toNat % 4096 = 0 →
      ((∀ h' s', h.heapExtend (heapPage cr3) s npages = (h', s', true) → ∀ a : U64, h.heapNext ≤ a → a < h'.heapNext →
        present (leafEntry s' (getCurrentPml4 cr3) a) = true) ↔
        ¬ (HeapFits h npages.toNat ∧ LastShort tablePrefixes (fun q => (tableAt s (getCurrentPml4 cr3) q).isSome) free.length
          (pageAddrs h.heapNext npages.toNat)))) ∧
    (∀ parent : Frame, FreeList s free → Unfree s.mem parent free →
      ((∀ s' child, vmmCopyAddressSpace s parent = (s', some child) → ∀ va : U64, va.toNat < 2 ^ 47 →
        present (leafEntry s parent va) = true → present (leafEntry s' child va) = true) ↔
        ¬ LastShort leafTables (fun _ => false) (free.length - 1) (lowerLeaves s.mem parent))) :=
  ⟨fun _ image wf plain => elf_load_mapped_iff image wf plain, fun _ _ npages wf aligned => heap_extend_mapped_iff npages wf aligned,
    fun _ list unfree => copy_mapped_iff list unfree⟩

theorem returned {out : σ × α} {result : α} (same : out.2 = result) : out = (out.1, result) := by rw [← same]

/-- An image with one segment: a byte of zeros at 0x400000. -/
def oneByteImage : Image := fun off =>
  (([(0, 0x7F), (1, 0x45), (2, 0x4C), (3, 0x46), (4, 2), (32, 64), (56, 1), (64, 1), (82, 0x40), (104, 1)] :
    List (U64 × Byte)).lookup off).getD 0

theorem oneByteImage_segments : oneByteImage.segments = [oneByteImage.segment 0] := by
  rw [Image.segments, show oneByteImage.ePhnum.toNat = 1 by decide +kernel]
  rfl

theorem oneByteImage_first : oneByteImage.segment 0 ∈ oneByteImage.segments :=
  oneByteImage_segments ▸ List.mem_singleton_self _

theorem oneByteImage_plain {count : Nat} : PlainPages (clearedPhys 1 count) 0 (List.range' 1 count) oneByteImage := by
  intro va _ isPresent
  rw [leafEntry_eq fun _ => True, entry] at isPresent
  cases reached : follow (layout fun _ => True) (clearedPhys 1 count).mem 0 (tablePath va) with
  | none =>
    rw [reached] at isPresent
    exact absurd isPresent (show ¬ present 0#64 = true by decide)
  | some t =>
    have top := (tableAt_cleared reached).1
    rw [tablePath] at top
    cases top

theorem oneByteImage_ready : ElfReady (clearedPhys 1 4) 0 oneByteImage 4 := by
  have cost : demand tablePrefixes (supplyOf (clearedPhys 1 4) 0 4).parts
      (takers pageOf true (supplyOf (clearedPhys 1 4) 0 4).served (imagePages oneByteImage)) = 4 := by decide +kernel
  refine ⟨fun _ seg member isLoad a low high => ?_, fun before last out => ?_⟩
  · rw [oneByteImage_segments, List.mem_singleton] at member
    subst member
    rw [show (oneByteImage.segment 0).pVaddr.toNat = 0x400000 by decide +kernel] at low high
    rw [show (oneByteImage.segment 0).pMemsz.toNat = 1 by decide +kernel] at high
    obtain rfl : a = 0x400000 := by omega
    exact ⟨by decide, .inr (by decide +kernel)⟩
  · have short := out.short
    rw [← out.ends, cost] at short
    exact absurd short (by decide)

theorem success_is_mapped_plenty :
    present (leafEntry (elfLoad (clearedPhys 1 4) 0 oneByteImage).1 0 0x400000) = true ∧
      present (leafEntry ((⟨fun _ => 0, KHEAP_BASE, KHEAP_BASE, 0⟩ : Kheap).heapExtend (heapPage 0) (clearedPhys 1 4) 1).2.1 0
        KHEAP_BASE) = true ∧
      present (leafEntry (vmmCopyAddressSpace onePage 0).1 5 0x1000) = true := by
  have wf := clearedPhys_wellFormed (by decide : 1 + 4 ≤ 2 ^ 40)
  refine ⟨?_, ?_, ?_⟩
  · have loaded : elfLoad (clearedPhys 1 4) 0 oneByteImage = ((elfLoad (clearedPhys 1 4) 0 oneByteImage).1, some 0) :=
      returned (by decide +kernel)
    have mapped := ((success_is_mapped_iff _ _).1 _ oneByteImage (wellFormed_inSlots wf _) oneByteImage_plain).mpr (fun _ _ => oneByteImage_ready) _ _ loaded
    exact (mapped _ oneByteImage_first (by decide +kernel) 0x400000 (by decide +kernel) (by decide +kernel)).2
  · let h : Kheap := ⟨fun _ => 0, KHEAP_BASE, KHEAP_BASE, 0⟩
    have extended : h.heapExtend (heapPage 0) (clearedPhys 1 4) 1 = ((h.heapExtend (heapPage 0) (clearedPhys 1 4) 1).1,
        (h.heapExtend (heapPage 0) (clearedPhys 1 4) 1).2.1, true) := Prod.ext rfl (returned (by decide +kernel))
    refine ((success_is_mapped_iff (clearedPhys 1 4) _).2.1 0 h 1 (wellFormed_inSlots wf _) (by decide)).mpr ?_ _ _ extended KHEAP_BASE (by decide) (by decide +kernel)
    rintro ⟨_, _, _, _, _, short⟩
    exact absurd short (by decide +kernel)
  · have list : FreeList onePage [5, 6, 7, 8, 9] := ⟨by simp [onePage], by simp⟩
    have copied : vmmCopyAddressSpace onePage 0 = ((vmmCopyAddressSpace onePage 0).1, some 5) := returned (by decide +kernel)
    refine ((success_is_mapped_iff onePage _).2.2 0 list onePage_unfree).mpr ?_ _ _ copied 0x1000 (by decide) (by decide +kernel)
    rintro ⟨_, _, _, _, short⟩
    exact absurd short (by decide +kernel)

/-- A frame for the page and none for its tables: none of the three notices. -/
theorem success_not_mapped :
    ¬ (∀ (s : Phys) (r : Frame) (free : List Nat) (image : Image), WellFormed s r free → PlainPages s r free image →
      ∀ s' entry, elfLoad s r image = (s', some entry) → ElfMapped s' r image) ∧
    ¬ (∀ (s : Phys) (cr3 : U64) (free : List Nat) (h : Kheap) (npages : U64), WellFormed s (getCurrentPml4 cr3) free →
      h.heapNext.toNat % 4096 = 0 → ∀ h' s', h.heapExtend (heapPage cr3) s npages = (h', s', true) →
      ∀ a : U64, h.heapNext ≤ a → a < h'.heapNext → present (leafEntry s' (getCurrentPml4 cr3) a) = true) ∧
    ¬ (∀ (s : Phys) (parent : Frame) (free : List Nat), FreeList s free → Unfree s.mem parent free →
      ∀ s' child, vmmCopyAddressSpace s parent = (s', some child) → ∀ va : U64, va.toNat < 2 ^ 47 →
        present (leafEntry s parent va) = true → present (leafEntry s' child va) = true) := by
  have wf := clearedPhys_wellFormed (by decide : 1 + 1 ≤ 2 ^ 40)
  refine ⟨fun all => ?_, fun all => ?_, fun all => ?_⟩
  · have loaded : elfLoad (clearedPhys 1 1) 0 oneByteImage = ((elfLoad (clearedPhys 1 1) 0 oneByteImage).1, some 0) :=
      returned (by decide +kernel)
    have mapped := all _ _ _ _ wf oneByteImage_plain _ _ loaded _ oneByteImage_first (by decide +kernel)
      0x400000 (by decide +kernel) (by decide +kernel)
    exact absurd mapped.2 (by decide +kernel)
  · let h : Kheap := ⟨fun _ => 0, KHEAP_BASE, KHEAP_BASE, 0⟩
    have extended : h.heapExtend (heapPage 0) (clearedPhys 1 1) 1 = ((h.heapExtend (heapPage 0) (clearedPhys 1 1) 1).1,
        (h.heapExtend (heapPage 0) (clearedPhys 1 1) 1).2.1, true) := Prod.ext rfl (returned (by decide +kernel))
    have mapped := all (clearedPhys 1 1) 0 _ h 1 wf (by decide) _ _ extended KHEAP_BASE (by decide) (by decide +kernel)
    exact absurd mapped (by decide +kernel)
  · let s : Phys := { onePage with pageFreeList := some 8 }
    have list : FreeList s [8, 9] := ⟨by simp [s, onePage], by simp⟩
    have unfree : Unfree s.mem 0 [8, 9] := fun path f short admitted reached member =>
      onePage_unfree path f short admitted reached ((by decide : [8, 9] ⊆ [5, 6, 7, 8, 9]) member)
    have copied : vmmCopyAddressSpace s 0 = ((vmmCopyAddressSpace s 0).1, some 8) := returned (by decide +kernel)
    have mapped := all s 0 _ list unfree _ _ copied 0x1000 (by decide) (by decide +kernel)
    exact absurd mapped (by decide +kernel)

end HobbyKernel.ReportedSuccess
