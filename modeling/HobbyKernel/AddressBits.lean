import Mathlib.Data.Nat.Bitwise
import HobbyKernel.Core.Paging

/-! What the bit loops of `paging.c` compute: the address field of an entry is
bits 12 to 51, and the four indices of an address are its bits 12 to 47 cut
into nine-bit pieces. -/
namespace HobbyKernel.AddressBits

theorem testBit_eq (word : U64) (inside : pos < 64) : testBit word pos = word.getLsbD pos := by
  unfold testBit
  rw [← BitVec.twoPow_eq, BitVec.and_comm, BitVec.and_twoPow]
  cases word.getLsbD pos with
  | false => rfl
  | true =>
    have nonzero : BitVec.twoPow 64 pos ≠ 0 := by
      intro zero
      have := congrArg (fun b : U64 => b.getLsbD pos) zero
      simp [inside] at this
    simpa using nonzero

theorem present_eq (pte : PageTableEntry) : present pte = pte.getLsbD 0 := by
  have := testBit_eq pte (by decide : 0 < 64)
  rw [← this]
  unfold present testBit
  rw [BitVec.and_comm]
  rfl

private theorem fold_or_bits (word acc : U64) (start count : Nat) (inside : start + count ≤ 64) (i : Nat) :
    ((List.range' start count).foldl
      (fun acc pos => if testBit word pos then acc ||| 1#64 <<< pos else acc) acc).getLsbD i =
      (acc.getLsbD i || (decide (start ≤ i ∧ i < start + count) && word.getLsbD i)) := by
  induction count generalizing start acc with
  | zero => simp
  | succ count ih =>
    rw [List.range'_succ, List.foldl_cons, ih _ _ (by omega), testBit_eq word (by omega)]
    have shifted : (1#64 <<< start).getLsbD i = decide (start = i) := by
      rw [← BitVec.twoPow_eq, BitVec.getLsbD_twoPow]
      simp [show start < 64 by omega]
    by_cases here : start = i
    · subst here
      cases word.getLsbD start <;> simp [shifted]
    · have same : decide (start + 1 ≤ i ∧ i < start + 1 + count) = decide (start ≤ i ∧ i < start + (count + 1)) :=
        decide_eq_decide.mpr (by omega)
      rw [same]
      cases word.getLsbD start <;> simp [shifted, here]

/-- The address loops or bits 12 to 51 of one word into another. -/
theorem getLsbD_orAddrBits (word acc : U64) (i : Nat) : (orAddrBits word acc).getLsbD i =
    (acc.getLsbD i || (decide (12 ≤ i ∧ i < 52) && word.getLsbD i)) :=
  fold_or_bits word acc 12 40 (by decide) i

/-- Which bits a mask sets is decided by its 64 bits. -/
theorem mask_bits {mask : U64} (upto : top ≤ 64)
    (ones : ∀ pos : Fin 64, mask.getLsbD pos.val = decide (12 ≤ pos.val ∧ pos.val < top)) (i : Nat) :
    mask.getLsbD i = decide (12 ≤ i ∧ i < top) := by
  by_cases inside : i < 64
  · exact ones ⟨i, inside⟩
  · rw [BitVec.getLsbD_of_ge _ _ (by omega)]
    simp
    omega

theorem getLsbD_addr_mask (i : Nat) : PTE_ADDR_MASK.getLsbD i = decide (12 ≤ i ∧ i < 52) :=
  mask_bits (by decide) (by decide) i

/-- `pte_get_addr` masks out bits 12 to 51. -/
theorem pteGetAddr_eq (pte : PageTableEntry) : pteGetAddr pte = pte &&& PTE_ADDR_MASK := by
  apply BitVec.eq_of_getLsbD_eq
  intro i _
  rw [pteGetAddr, getLsbD_orAddrBits, BitVec.getLsbD_and, getLsbD_addr_mask]
  simp [Bool.and_comm]

/-- `pte_make` ors the masked address into the flags. -/
theorem pteMake_eq (physAddr flags : U64) : pteMake physAddr flags = (physAddr &&& PTE_ADDR_MASK) ||| flags := by
  apply BitVec.eq_of_getLsbD_eq
  intro i _
  rw [pteMake, getLsbD_orAddrBits, BitVec.getLsbD_or, BitVec.getLsbD_and, getLsbD_addr_mask,
    Bool.or_comm, Bool.and_comm (decide _)]

/-- Masking with ones from bit 12 on keeps the field they cover. -/
theorem mask_toNat {mask : U64} (ones : ∀ i, mask.getLsbD i = decide (12 ≤ i ∧ i < 12 + width)) (word : U64) :
    (word &&& mask).toNat = word.toNat / 2 ^ 12 % 2 ^ width * 2 ^ 12 := by
  apply Nat.eq_of_testBit_eq
  intro i
  rw [BitVec.testBit_toNat, BitVec.getLsbD_and, ones, Nat.testBit_mul_two_pow,
    Nat.testBit_mod_two_pow, Nat.testBit_div_two_pow, BitVec.testBit_toNat]
  by_cases low : 12 ≤ i
  · simp only [low, true_and, decide_true, Bool.true_and, show i - 12 + 12 = i by omega]
    by_cases high : i < 12 + width
    · simp [high, show i - 12 < width by omega]
    · simp [high, show ¬ i - 12 < width by omega]
  · simp [low]

theorem addr_mask_toNat (word : U64) : (word &&& PTE_ADDR_MASK).toNat = word.toNat / 2 ^ 12 % 2 ^ 40 * 2 ^ 12 :=
  mask_toNat getLsbD_addr_mask word

/-- The frame named by an entry is its address field. -/
theorem tableOf_eq (pte : PageTableEntry) : tableOf pte = pte.toNat / 2 ^ 12 % 2 ^ 40 := by
  rw [tableOf, frameOf, pteGetAddr_eq, addr_mask_toNat]
  exact Nat.mul_div_cancel _ (by decide)

theorem page2pa_toNat (small : pp < 2 ^ 40) : (page2pa pp).toNat = pp * 4096 := by
  have scale : PGSIZE.toNat = 4096 := rfl
  rw [page2pa, BitVec.toNat_mul, BitVec.toNat_ofNat, scale]
  omega

@[simp] theorem frameOf_page2pa (small : pp < 2 ^ 40) : frameOf (page2pa pp) = pp := by
  rw [frameOf, page2pa_toNat small]
  exact Nat.mul_div_cancel _ (by decide)

/-- Flags that do not reach into the address field of an entry. -/
def PlainFlags (flags : U64) : Prop := flags &&& PTE_ADDR_MASK = 0

instance : Decidable (PlainFlags flags) := inferInstanceAs (Decidable (_ = _))

theorem pteGetAddr_make (plain : PlainFlags flags) :
    pteGetAddr (pteMake physAddr flags) = physAddr &&& PTE_ADDR_MASK := by
  rw [pteGetAddr_eq, pteMake_eq, BitVec.and_or_distrib_right, plain, BitVec.and_assoc]
  simp

theorem present_make (physAddr flags : U64) : present (pteMake physAddr flags) = present flags := by
  rw [present_eq, present_eq, pteMake, getLsbD_orAddrBits]
  simp

theorem pteGetAddr_make_page (plain : PlainFlags flags) (small : pp < 2 ^ 40) :
    pteGetAddr (pteMake (page2pa pp) flags) = page2pa pp := by
  apply BitVec.eq_of_toNat_eq
  rw [pteGetAddr_make plain, addr_mask_toNat, page2pa_toNat small]
  omega

/-- An entry made for a page names that page's frame. -/
theorem tableOf_make_page (plain : PlainFlags flags) (small : pp < 2 ^ 40) :
    tableOf (pteMake (page2pa pp) flags) = pp := by
  rw [tableOf, pteGetAddr_make_page plain small, frameOf_page2pa small]

private theorem fold_index_bits (vaddr : U64) (start count : Nat) (inside : start + count ≤ 64)
    (narrow : count ≤ 16) (i : Nat) :
    ((List.range' start count).reverse.foldl (fun (index : U16) pos =>
      if testBit vaddr pos then index <<< 1 ||| 1 else index <<< 1) 0).getLsbD i =
      (decide (i < count) && vaddr.getLsbD (start + i)) := by
  induction count generalizing start i with
  | zero => simp
  | succ count ih =>
    rw [List.range'_succ, List.reverse_cons, List.foldl_append, List.foldl_cons, List.foldl_nil,
      testBit_eq vaddr (by omega)]
    have inner := fun i => ih (start + 1) (by omega) (by omega) i
    generalize (List.range' (start + 1) count).reverse.foldl (fun (index : U16) pos =>
      if testBit vaddr pos then index <<< 1 ||| 1 else index <<< 1) 0 = index at inner ⊢
    cases i with
    | zero => cases vaddr.getLsbD start <;> simp
    | succ i =>
      have one : (1#16).getLsbD (i + 1) = false := by
        rw [BitVec.getLsbD_one]
        simp
      have up : (index <<< 1).getLsbD (i + 1) = (decide (i < count) && vaddr.getLsbD (start + (i + 1))) := by
        rw [BitVec.getLsbD_shiftLeft, Nat.add_sub_cancel, inner, show start + 1 + i = start + (i + 1) by omega]
        by_cases small : i < count
        · simp [small, show i + 1 < 16 by omega]
        · simp [small]
      split <;> simp [up, one]

/-- The index loops read nine consecutive bits. -/
theorem indexBits_toNat (vaddr : U64) (inside : lo + 9 ≤ 64) :
    (indexBits lo vaddr).toNat = vaddr.toNat / 2 ^ lo % 512 := by
  apply Nat.eq_of_testBit_eq
  intro i
  rw [BitVec.testBit_toNat, indexBits, fold_index_bits vaddr lo 9 inside (by decide),
    show 512 = 2 ^ 9 from rfl, Nat.testBit_mod_two_pow, Nat.testBit_div_two_pow, BitVec.testBit_toNat,
    Nat.add_comm]

/-- Subscripting with an index stays inside the table. -/
theorem subscript_indexBits (vaddr : U64) (inside : lo + 9 ≤ 64) :
    (subscript (indexBits lo vaddr)).val = vaddr.toNat / 2 ^ lo % 512 := by
  rw [subscript, Fin.val_ofNat, indexBits_toNat vaddr inside]
  omega

theorem isCanonical_bits (vaddr : U64) :
    isCanonical vaddr = true ↔ ∀ pos, 47 ≤ pos → pos < 64 → vaddr.getLsbD pos = vaddr.getLsbD 47 := by
  simp only [isCanonical, List.all_eq_true, List.mem_range'_1, beq_iff_eq, testBit_eq vaddr (show 47 < 64 by decide)]
  constructor
  · intro all pos low high
    rw [← all pos ⟨low, by omega⟩, testBit_eq vaddr high]
  · intro all pos range
    rw [testBit_eq vaddr (by omega), all pos range.1 (by omega)]

/-- A canonical address in the lower half of the top-level table is an address
below 2^47, and every such address is canonical. -/
theorem canonical_lower_iff (vaddr : U64) :
    (isCanonical vaddr = true ∧ (pml4Index vaddr).toNat < KERNEL_PML4_START) ↔ vaddr.toNat < 2 ^ 47 := by
  have bound := vaddr.isLt
  have top : (pml4Index vaddr).toNat < KERNEL_PML4_START ↔ vaddr.getLsbD 47 = false := by
    rw [pml4Index, indexBits_toNat vaddr (by decide), KERNEL_PML4_START, ← BitVec.testBit_toNat,
      Nat.testBit_eq_decide_div_mod_eq]
    simp only [decide_eq_false_iff_not]
    omega
  rw [top, isCanonical_bits]
  constructor
  · rintro ⟨all, clear⟩
    apply Nat.lt_pow_two_of_testBit
    intro pos low
    rw [BitVec.testBit_toNat]
    by_cases high : pos < 64
    · rw [all pos low high, clear]
    · exact BitVec.getLsbD_of_ge _ _ (by omega)
  · intro small
    have zero : ∀ pos, 47 ≤ pos → vaddr.getLsbD pos = false := by
      intro pos low
      rw [← BitVec.testBit_toNat]
      exact Nat.testBit_lt_two_pow (Nat.lt_of_lt_of_le small (Nat.pow_le_pow_right (by decide) low))
    exact ⟨fun pos low _ => by rw [zero pos low, zero 47 (by decide)], zero 47 (by decide)⟩

/-- Gluing two disjoint bit fields together adds them. -/
private theorem or_field_toNat (shift high : Nat) (low : U64) (small : low.toNat < 2 ^ shift)
    (fits : high * 2 ^ shift < 2 ^ 64) :
    ((BitVec.ofNat 64 high <<< shift) ||| low).toNat = high * 2 ^ shift + low.toNat := by
  have inside : high < 2 ^ 64 := Nat.lt_of_le_of_lt (Nat.le_mul_of_pos_right _ (Nat.two_pow_pos _)) fits
  rw [BitVec.toNat_or, BitVec.toNat_shiftLeft, BitVec.toNat_ofNat, Nat.mod_eq_of_lt inside,
    Nat.shiftLeft_eq, Nat.mod_eq_of_lt fits, ← Nat.shiftLeft_eq, ← Nat.shiftLeft_add_eq_or_of_lt small]

/-- The recomposed address is the sum of its four index fields. -/
theorem composeVaddr_toNat (i4 i3 i2 i1 : Index) : (composeVaddr i4 i3 i2 i1).toNat =
    i4.val * 2 ^ 39 + (i3.val * 2 ^ 30 + (i2.val * 2 ^ 21 + i1.val * 2 ^ 12)) := by
  have := i4.isLt
  have := i3.isLt
  have := i2.isLt
  have := i1.isLt
  have pt : (BitVec.ofNat 64 i1.val <<< 12).toNat = i1.val * 2 ^ 12 := by
    rw [BitVec.toNat_shiftLeft, BitVec.toNat_ofNat, Nat.shiftLeft_eq]
    omega
  have pd := or_field_toNat 21 i2.val (BitVec.ofNat 64 i1.val <<< 12) (by omega) (by omega)
  have pdpt := or_field_toNat 30 i3.val _ (show _ < 2 ^ 30 by rw [pd]; omega) (by omega)
  have pml4 := or_field_toNat 39 i4.val _ (show _ < 2 ^ 39 by rw [pdpt]; omega) (by omega)
  rw [composeVaddr, BitVec.or_assoc, BitVec.or_assoc, pml4, pdpt, pd, pt]

/-- The tables on the way to an address, and its place in the last of them. -/
def tablePath (vaddr : U64) : List Index :=
  [subscript (pml4Index vaddr), subscript (pdptIndex vaddr), subscript (pdIndex vaddr)]

def leafIndex (vaddr : U64) : Index := subscript (ptIndex vaddr)

/-- The index functions invert the recomposition. -/
theorem path_composeVaddr (i4 i3 i2 i1 : Index) :
    tablePath (composeVaddr i4 i3 i2 i1) = [i4, i3, i2] ∧ leafIndex (composeVaddr i4 i3 i2 i1) = i1 := by
  have sum := composeVaddr_toNat i4 i3 i2 i1
  have := i4.isLt
  have := i3.isLt
  have := i2.isLt
  have := i1.isLt
  refine ⟨?_, ?_⟩
  · simp only [tablePath, List.cons.injEq, and_true]
    refine ⟨?_, ?_, ?_⟩
    · apply Fin.ext
      rw [pml4Index, subscript_indexBits _ (by decide), sum]
      omega
    · apply Fin.ext
      rw [pdptIndex, subscript_indexBits _ (by decide), sum]
      omega
    · apply Fin.ext
      rw [pdIndex, subscript_indexBits _ (by decide), sum]
      omega
  · apply Fin.ext
    rw [leafIndex, ptIndex, subscript_indexBits _ (by decide), sum]
    omega

/-- The page number of an address: bits 12 to 47. -/
def pageOf (vaddr : U64) : BitVec 36 := vaddr.extractLsb' 12 36

theorem pageOf_toNat (vaddr : U64) : (pageOf vaddr).toNat = vaddr.toNat / 2 ^ 12 % 2 ^ 36 := by
  rw [pageOf, BitVec.extractLsb'_toNat, Nat.shiftRight_eq_div_pow]

/-- Two addresses meet the same entry exactly when their page numbers agree. -/
theorem same_page_iff (va va' : U64) :
    (tablePath va = tablePath va' ∧ leafIndex va = leafIndex va') ↔ pageOf va = pageOf va' := by
  rw [← BitVec.toNat_inj, pageOf_toNat, pageOf_toNat]
  simp only [tablePath, leafIndex, List.cons.injEq, and_true, ← Fin.val_inj, pml4Index, pdptIndex, pdIndex,
    ptIndex, subscript_indexBits _ (show 39 + 9 ≤ 64 by decide), subscript_indexBits _ (show 30 + 9 ≤ 64 by decide),
    subscript_indexBits _ (show 21 + 9 ≤ 64 by decide), subscript_indexBits _ (show 12 + 9 ≤ 64 by decide)]
  omega

end HobbyKernel.AddressBits
