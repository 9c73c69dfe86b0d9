import HobbyKernel.Core.Memory
import HobbyKernel.UserBytes

/-! `memory.c` moves and compares bytes as C says, and where the rest of the
model copies or clears a whole page, the loops of the source do the same byte by
byte. -/
namespace HobbyKernel.MemoryLoops
open ByteMemory AddressBits PageAllocProofs UserBytes

variable {σ : Type} {M : Memory σ U64 Byte} {s : σ} {dest src n p : U64} {i j : Nat}

theorem same_place {a b : U64} (frame : frameOf a = frameOf b) (place : a.toNat % 4096 = b.toNat % 4096) : a = b := by
  have quotient : a.toNat / 4096 = b.toNat / 4096 := frame
  apply BitVec.eq_of_toNat_eq
  omega

/-- Different addresses of the direct map are different bytes of memory. -/
theorem directMap_lawful (hhdmOffset : U64) : (directMap hhdmOffset).Lawful := by
  refine ⟨fun s a b c => ?_⟩
  have place : (frameOf (virtToPhys hhdmOffset c) = frameOf (virtToPhys hhdmOffset a) ∧
      (virtToPhys hhdmOffset c).toNat % 4096 = (virtToPhys hhdmOffset a).toNat % 4096) ↔ c = a := by
    refine ⟨?_, fun same => by rw [same]; exact ⟨rfl, rfl⟩⟩
    rintro ⟨frame, place⟩
    exact (BitVec.sub_left_inj _).mp (same_place frame place)
  simp only [directMap]
  rw [readByte_writeByte s b (Nat.mod_lt _ (by decide)) (Nat.mod_lt _ (by decide))]
  simp only [place]

theorem element_toNat (inside : p.toNat + i < 2 ^ 64) : (element p i).toNat = p.toNat + i := by
  rw [element, BitVec.toNat_add, BitVec.toNat_ofNat, Nat.mod_eq_of_lt (show i < 2 ^ 64 by omega), Nat.mod_eq_of_lt inside]

/-- The elements of an object are different cells. -/
theorem element_ne (small : i < 2 ^ 64) (small' : j < 2 ^ 64) (other : i ≠ j) : element p i ≠ element p j := by
  intro same
  rw [element, element, BitVec.add_right_inj] at same
  have numbers := congrArg BitVec.toNat same
  rw [BitVec.toNat_ofNat, BitVec.toNat_ofNat, Nat.mod_eq_of_lt small, Nat.mod_eq_of_lt small'] at numbers
  exact other numbers

theorem mem_counters : i ∈ counters n ↔ i < n.toNat := List.mem_range

theorem counters_pairwise {R : Nat → Nat → Prop} (rising : ∀ i j, i < j → j < n.toNat → R i j) :
    (counters n).Pairwise R :=
  List.pairwise_lt_range.imp_of_mem fun _ member below => rising _ _ below (mem_counters.mp member)

/-- Two elements of different objects are the same cell where their addresses
are. -/
theorem element_eq (destEnd : dest.toNat + n.toNat ≤ 2 ^ 64) (srcEnd : src.toNat + n.toNat ≤ 2 ^ 64)
    (inside : i < n.toNat) (inside' : j < n.toNat) (same : element src j = element dest i) :
    src.toNat + j = dest.toNat + i := by
  have numbers := congrArg BitVec.toNat same
  rwa [element_toNat (by omega), element_toNat (by omega)] at numbers

/-- Copying from the front is right unless the destination begins inside the
source. -/
theorem copy_forward (lawful : M.Lawful) (destEnd : dest.toNat + n.toNat ≤ 2 ^ 64)
    (srcEnd : src.toNat + n.toNat ≤ 2 ^ 64) (clear : ¬ (src < dest ∧ dest.toNat < src.toNat + n.toNat)) (inside : i < n.toNat) :
    M.read (M.copy (element dest) (element src) (counters n) s) (element dest i) = M.read s (element src i) := by
  refine copy_inside lawful (mem_counters.mpr inside) (counters_pairwise ?_)
  intro i j below inside
  refine ⟨element_ne (by omega) (by omega) (by omega), fun same => clear ?_⟩
  have met := element_eq destEnd srcEnd (by omega) inside same
  exact ⟨BitVec.lt_def.mpr (by omega), by omega⟩

/-- Copying from the back is right where the destination lies above. -/
theorem copy_backward (lawful : M.Lawful) (destEnd : dest.toNat + n.toNat ≤ 2 ^ 64)
    (srcEnd : src.toNat + n.toNat ≤ 2 ^ 64) (above : src < dest) (inside : i < n.toNat) :
    M.read (M.copy (element dest) (element src) (counters n).reverse s) (element dest i) = M.read s (element src i) := by
  refine copy_inside lawful (List.mem_reverse.mpr (mem_counters.mpr inside)) (List.pairwise_reverse.mpr (counters_pairwise ?_))
  intro j i below inside
  refine ⟨element_ne (by omega) (by omega) (by omega), fun same => ?_⟩
  have met := element_eq destEnd srcEnd inside (by omega) same
  have below := BitVec.lt_def.mp above
  omega

/-- **memmove.** Wherever source and destination lie, overlapping or not, the
destination ends up with the bytes the source had, and nothing else changes. -/
theorem memmove_moves (lawful : M.Lawful) (destEnd : dest.toNat + n.toNat ≤ 2 ^ 64) (srcEnd : src.toNat + n.toNat ≤ 2 ^ 64) :
    (∀ i < n.toNat, M.read (memmove M s dest src n) (element dest i) = M.read s (element src i)) ∧
      ∀ a, (∀ i < n.toNat, a ≠ element dest i) → M.read (memmove M s dest src n) a = M.read s a := by
  unfold memmove
  split
  · rename_i below
    refine ⟨fun i inside => copy_forward lawful destEnd srcEnd (fun overlap => BitVec.lt_asymm below overlap.1) inside, ?_⟩
    exact fun a outside => fill_outside lawful fun i member => outside i (mem_counters.mp member)
  · rename_i notBelow
    split
    · rename_i above
      refine ⟨fun i inside => copy_backward lawful destEnd srcEnd above inside, ?_⟩
      exact fun a outside => fill_outside lawful fun i member => outside i (mem_counters.mp (List.mem_reverse.mp member))
    · rename_i notAbove
      have same : dest = src := BitVec.le_antisymm (BitVec.not_lt.mp notAbove) (BitVec.not_lt.mp notBelow)
      exact ⟨fun i _ => by rw [same], fun a _ => rfl⟩

/-- Moving three bytes one address up, onto two of their own. -/
theorem memmove_moves_up : (directMap 0).read (memmove (directMap 0) ((clearedPhys 1 3).writeByte 1 1 7) 0x1001 0x1000 3)
    (element 0x1001 1) = 7 :=
  ((memmove_moves (directMap_lawful 0) (by decide) (by decide)).1 1 (by decide)).trans (by decide)

/-- Into the middle of its own source `memcpy` puts the first byte twice. -/
theorem memcpy_smears (lawful : M.Lawful) (destEnd : dest.toNat + n.toNat ≤ 2 ^ 64) (srcEnd : src.toNat + n.toNat ≤ 2 ^ 64)
    (above : src < dest) (overlap : dest.toNat < src.toNat + n.toNat) :
    M.read (memcpy M s dest src n) (element dest (dest.toNat - src.toNat)) = M.read s src := by
  have lower := BitVec.lt_def.mp above
  have met : element src (dest.toNat - src.toNat) = element dest 0 := by
    apply BitVec.eq_of_toNat_eq
    rw [element_toNat (by omega), element_toNat (by omega)]
    omega
  obtain ⟨before, after, parts⟩ := List.append_of_mem (mem_counters.mpr (show dest.toNat - src.toNat < n.toNat by omega))
  have rising : (before ++ (dest.toNat - src.toNat) :: after).Pairwise fun i j => i < j ∧ j < n.toNat :=
    parts ▸ counters_pairwise fun i j below inside => ⟨below, inside⟩
  obtain ⟨early, late, _⟩ := List.pairwise_append.mp rising
  obtain ⟨beyond, _⟩ := List.pairwise_cons.mp late
  have first : 0 ∈ before := by
    have member : 0 ∈ before ++ (dest.toNat - src.toNat) :: after := parts ▸ mem_counters.mpr (show 0 < n.toNat by omega)
    rcases List.mem_append.mp member with member | member
    · exact member
    · rcases List.mem_cons.mp member with same | member
      · omega
      · exact absurd (beyond 0 member).1 (Nat.not_lt_zero _)
  have inside : ∀ i ∈ before, i < dest.toNat - src.toNat := fun i member =>
    ((List.pairwise_append.mp rising).2.2 i member _ (by simp)).1
  have last : ∀ j ∈ after, element dest (dest.toNat - src.toNat) ≠ element dest j := by
    intro j member
    obtain ⟨later, small⟩ := beyond j member
    exact element_ne (by omega) (by omega) later.ne
  rw [memcpy, Memory.copy, parts, fill_round lawful after last, met]
  refine (copy_inside lawful first (early.imp_of_mem ?_)).trans (by simp [element])
  intro i j member member' order
  have below := order.1
  have small := inside i member
  have small' := inside j member'
  refine ⟨element_ne (by omega) (by omega) below.ne, fun same => ?_⟩
  have numbers := element_eq destEnd srcEnd (by omega) (by omega) same
  omega

/-- `memcpy` copies every memory right just where its destination does not begin
behind the start of its source and inside it. -/
theorem memcpy_copies_iff (lawful : M.Lawful) (s₀ : σ) (destEnd : dest.toNat + n.toNat ≤ 2 ^ 64)
    (srcEnd : src.toNat + n.toNat ≤ 2 ^ 64) :
    (∀ s, ∀ i < n.toNat, M.read (memcpy M s dest src n) (element dest i) = M.read s (element src i)) ↔
      ¬ (src < dest ∧ dest.toNat < src.toNat + n.toNat) := by
  refine ⟨?_, fun clear s i inside => copy_forward lawful destEnd srcEnd clear inside⟩
  rintro copies ⟨above, overlap⟩
  have lower := BitVec.lt_def.mp above
  have different : src ≠ dest := fun same => by
    rw [same] at lower
    exact Nat.lt_irrefl _ lower
  have met : element src (dest.toNat - src.toNat) = dest := by
    apply BitVec.eq_of_toNat_eq
    rw [element_toNat (by omega)]
    omega
  -- a memory with different bytes at the start of the two objects
  have copied := copies (M.write (M.write s₀ src 0) dest 1) (dest.toNat - src.toNat) (by omega)
  rw [memcpy_smears lawful destEnd srcEnd above overlap, met, lawful.read_write, lawful.read_write, lawful.read_write,
    if_neg different, if_pos rfl, if_pos rfl] at copied
  exact absurd copied (by decide)

/-- The same three bytes are too much for `memcpy`. -/
theorem memcpy_copies_iff_up : ¬ ∀ s : Phys, ∀ i < (3 : U64).toNat,
    (directMap 0).read (memcpy (directMap 0) s 0x1001 0x1000 3) (element 0x1001 i) =
      (directMap 0).read s (element 0x1000 i) :=
  fun copies =>
    (memcpy_copies_iff (directMap_lawful 0) (clearedPhys 1 3) (by decide) (by decide)).mp copies (by decide)

section Pages
variable {hhdmOffset phys src : U64}

theorem entryMemory_lawful : entryMemory.Lawful := by
  refine ⟨fun s a b c => ?_⟩
  simp only [entryMemory, Phys.writeEntry, Prod.ext_iff]

theorem word_ext {word word' : U64} (bytes : ∀ j < 8, byteOf word j = byteOf word' j) : word = word' := by
  apply BitVec.eq_of_getLsbD_eq
  intro i inside
  have bit := congrArg (fun b : Byte => b.getLsbD (i % 8)) (bytes (i / 8) (by omega))
  simp only [byteOf, BitVec.getLsbD_extractLsb', Nat.div_add_mod] at bit
  simpa [Nat.mod_lt] using bit

/-- Physical memory is its bytes. -/
theorem phys_ext {s t : Phys} (bytes : ∀ f off, off < 4096 → t.readByte f off = s.readByte f off)
    (pages : t.pages = s.pages) (list : t.pageFreeList = s.pageFreeList) : t = s := by
  have mem : t.mem = s.mem := by
    funext f index
    apply word_ext
    intro j small
    have byte := bytes f (8 * index.val + j) (by omega)
    have word : Fin.ofNat 512 ((8 * index.val + j) / 8) = index := by
      apply Fin.ext
      rw [Fin.val_ofNat]
      omega
    have place : (8 * index.val + j) % 8 = j := by omega
    rwa [Phys.readByte, Phys.readByte, word, place] at byte
  cases s
  cases t
  simp_all

/-- Byte `i` of a page. -/
theorem page_element (hhdmOffset : U64) (aligned : phys.toNat % 4096 = 0) (small : i < 4096) :
    frameOf (virtToPhys hhdmOffset (element (physToVirt hhdmOffset phys) i)) = frameOf phys ∧
      (virtToPhys hhdmOffset (element (physToVirt hhdmOffset phys) i)).toNat % 4096 = i := by
  have back : virtToPhys hhdmOffset (element (physToVirt hhdmOffset phys) i) = element phys i := by
    simp only [virtToPhys, element, physToVirt]
    grind
  have inside := phys.isLt
  have place : (element phys i).toNat = phys.toNat + i := element_toNat (by omega)
  rw [back]
  refine ⟨show (element phys i).toNat / 4096 = phys.toNat / 4096 from ?_, ?_⟩ <;> omega

/-- A loop over the bytes of a page whose rounds do not disturb each other makes
the state that has the stored bytes there and the old ones elsewhere. -/
theorem fill_page {s t : Phys} {value : Phys → Nat → Byte} (aligned : phys.toNat % 4096 = 0)
    (apart : ∀ i j, i < j → j < 4096 → ∀ s b,
      value ((directMap hhdmOffset).write s (element (physToVirt hhdmOffset phys) i) b) j = value s j)
    (bytes : ∀ i < 4096, t.readByte (frameOf phys) i = value s i) (others : ∀ g, g ≠ frameOf phys → t.mem g = s.mem g)
    (pages : t.pages = s.pages) (list : t.pageFreeList = s.pageFreeList) :
    (directMap hhdmOffset).fill (element (physToVirt hhdmOffset phys)) value (counters PGSIZE) s = t := by
  have small : ∀ i ∈ counters PGSIZE, i < 4096 := fun i member => mem_counters.mp member
  have rounds : (counters PGSIZE).Pairwise
      (Apart (directMap hhdmOffset) (element (physToVirt hhdmOffset phys)) value) :=
    counters_pairwise fun i j below inside =>
      have small : j < 4096 := inside
      ⟨element_ne (by omega) (by omega) below.ne, apart i j below small⟩
  refine phys_ext (fun g off inside => ?_) ?_ ?_
  · by_cases here : g = frameOf phys
    · have stored := fill_inside (s := s) (directMap_lawful hhdmOffset) rounds (mem_counters.mpr (show off < PGSIZE.toNat from inside))
      obtain ⟨frame, place⟩ := page_element hhdmOffset aligned inside
      simp only [directMap, frame, place] at stored
      rw [here, bytes off inside, ← stored]
      rfl
    · have kept : ((directMap hhdmOffset).fill (element (physToVirt hhdmOffset phys)) value (counters PGSIZE) s).mem g = s.mem g := by
        refine fill_keeps (fun s' : Phys => s'.mem g = s.mem g) rfl fun i member s' b kept => ?_
        obtain ⟨frame, _⟩ := page_element hhdmOffset aligned (small i member)
        simp only [directMap, frame, Phys.writeByte, Phys.writeEntry]
        rw [← kept]
        funext index
        simp [here]
      rw [Phys.readByte, Phys.readByte, kept, others g here]
  · exact (fill_keeps (fun s' : Phys => s'.pages = s.pages) rfl fun _ _ _ _ kept => kept).trans pages.symm
  · exact (fill_keeps (fun s' : Phys => s'.pageFreeList = s.pageFreeList) rfl fun _ _ _ _ kept => kept).trans list.symm

theorem page2pa_aligned (pp : Nat) : (page2pa pp).toNat % 4096 = 0 := by
  rw [page2pa, BitVec.toNat_mul, BitVec.toNat_ofNat, show PGSIZE.toNat = 4096 from rfl]
  omega

theorem pteGetAddr_aligned (pte : PageTableEntry) : (pteGetAddr pte).toNat % 4096 = 0 := by
  rw [pteGetAddr_eq, addr_mask_toNat]
  omega

theorem clear_page (s : Phys) (aligned : phys.toNat % 4096 = 0) :
    clearLoop hhdmOffset phys s = s.zeroFrame (frameOf phys) := by
  refine fill_page aligned (fun _ _ _ _ _ _ => rfl) (fun i small => ?_) (fun g other => ?_) rfl rfl
  · simp [Phys.readByte, Phys.zeroFrame, byteOf]
  · simp [Phys.zeroFrame, other]

theorem copy_page (s : Phys) (aligned : phys.toNat % 4096 = 0) (aligned' : src.toNat % 4096 = 0) :
    memcpy (directMap hhdmOffset) s (physToVirt hhdmOffset phys) (physToVirt hhdmOffset src) PGSIZE =
      s.copyFrame (frameOf phys) (frameOf src) := by
  rw [memcpy, Memory.copy]
  refine fill_page aligned (fun i j below inside s b => ?_) (fun i small => ?_) (fun g other => ?_) rfl rfl
  · rw [(directMap_lawful hhdmOffset).read_write, if_neg]
    intro same
    have place := (page_element hhdmOffset aligned' inside).2
    rw [same, (page_element hhdmOffset aligned (show i < 4096 by omega)).2] at place
    omega
  · obtain ⟨frame, place⟩ := page_element hhdmOffset aligned' small
    simp only [directMap, frame, place]
    simp [Phys.readByte, Phys.copyFrame]
  · simp [Phys.copyFrame, other]

theorem copy_entries (s : Phys) (dst src : Frame) (start : Nat) :
    kernelHalfLoop dst src start s = s.copyEntries dst src start := by
  have inside : ∀ i ∈ List.range' start (512 - start), i < 512 := by
    intro i member
    have := List.mem_range'_1.mp member
    omega
  have rounds : (List.range' start (512 - start)).Pairwise fun i j =>
      (dst, (Fin.ofNat 512 i : Index)) ≠ (dst, Fin.ofNat 512 j) ∧ (src, (Fin.ofNat 512 j : Index)) ≠ (dst, Fin.ofNat 512 i) := by
    refine (List.pairwise_lt_range' 1).imp_of_mem ?_
    intro i j member member' below
    have other : (Fin.ofNat 512 i : Index) ≠ Fin.ofNat 512 j := fun same => by
      have numbers := congrArg Fin.val same
      rw [Fin.val_ofNat, Fin.val_ofNat, Nat.mod_eq_of_lt (inside i member), Nat.mod_eq_of_lt (inside j member')] at numbers
      omega
    exact ⟨fun same => other (Prod.ext_iff.mp same).2, fun same => other (Prod.ext_iff.mp same).2.symm⟩
  have mem : (kernelHalfLoop dst src start s).mem = (s.copyEntries dst src start).mem := by
    funext g j
    have whole : (Fin.ofNat 512 j.val : Index) = j := Fin.ext (by rw [Fin.val_ofNat, Nat.mod_eq_of_lt j.isLt])
    by_cases here : g = dst ∧ start ≤ j.val
    · obtain ⟨rfl, listed⟩ := here
      have member : j.val ∈ List.range' start (512 - start) := List.mem_range'_1.mpr (by omega)
      have copied := copy_inside (s := s) entryMemory_lawful member rounds
      rw [whole] at copied
      exact copied.trans (if_pos ⟨rfl, listed⟩).symm
    · refine (fill_outside (a := (g, j)) entryMemory_lawful fun i member same => here ?_).trans (if_neg here).symm
      obtain ⟨frame, index⟩ := Prod.ext_iff.mp same
      have listed := List.mem_range'_1.mp member
      refine ⟨frame, ?_⟩
      rw [show j = Fin.ofNat 512 i from index, Fin.val_ofNat, Nat.mod_eq_of_lt (inside i member)]
      exact listed.1
  have pages : (kernelHalfLoop dst src start s).pages = s.pages :=
    fill_keeps (fun s' : Phys => s'.pages = s.pages) rfl fun _ _ _ _ kept => kept
  have list : (kernelHalfLoop dst src start s).pageFreeList = s.pageFreeList :=
    fill_keeps (fun s' : Phys => s'.pageFreeList = s.pageFreeList) rfl fun _ _ _ _ kept => kept
  exact phys_ext (fun g off _ => by rw [Phys.readByte, Phys.readByte, mem]) pages list

/-- **Page loops.** Clearing a page, copying one and copying the kernel half of a
table word by word have the effect that the model gives them, wherever the direct
map begins. -/
theorem page_loops (hhdmOffset : U64) (s : Phys) (pp : Nat) (pte : PageTableEntry) (dst src : Frame) :
    clearLoop hhdmOffset (page2pa pp) s = s.zeroFrame (frameOf (page2pa pp)) ∧
      memcpy (directMap hhdmOffset) s (physToVirt hhdmOffset (page2pa pp)) (physToVirt hhdmOffset (pteGetAddr pte)) PGSIZE =
        s.copyFrame (frameOf (page2pa pp)) (frameOf (pteGetAddr pte)) ∧
      kernelHalfLoop dst src KERNEL_PML4_START s = s.copyEntries dst src KERNEL_PML4_START :=
  ⟨clear_page s (page2pa_aligned pp), copy_page s (page2pa_aligned pp) (pteGetAddr_aligned pte), copy_entries s dst src _⟩

end Pages

end HobbyKernel.MemoryLoops
