import HobbyKernel.AddressBits

/-! Taking addresses and entries apart and putting them together again. The bit
loops of `paging.c` agree with shifting and masking, and each of the two ways of
composing a word is undone by the functions that read its fields. -/
namespace HobbyKernel.AddressRoundTrip
open AddressBits

variable {va phys flags : U64} {lo : Nat}

/-- The bits of an address that the four indices hold. -/
def INDEX_MASK : U64 := 0x0000FFFFFFFFF000

/-- An index is a field of nine bits. -/
theorem indexBits_eq (va : U64) (inside : lo + 9 ≤ 64) : indexBits lo va = (va.extractLsb' lo 9).setWidth 16 := by
  apply BitVec.eq_of_toNat_eq
  rw [indexBits_toNat va inside, BitVec.toNat_setWidth, BitVec.extractLsb'_toNat, Nat.shiftRight_eq_div_pow]
  omega

/-- An address is canonical when its upper bits extend the sign of the others. -/
theorem isCanonical_iff (va : U64) : isCanonical va = true ↔ (va.setWidth 48).signExtend 64 = va := by
  have extended : ∀ pos, pos < 64 → ((va.setWidth 48).signExtend 64).getLsbD pos =
      if pos < 48 then va.getLsbD pos else va.getLsbD 47 := by
    intro pos inside
    rw [BitVec.getLsbD_signExtend, decide_eq_true inside, Bool.true_and, BitVec.getLsbD_setWidth, BitVec.msb_setWidth]
    split <;> simp_all
  rw [isCanonical_bits]
  constructor
  · intro all
    apply BitVec.eq_of_getLsbD_eq
    intro pos inside
    rw [extended pos inside]
    split
    · rfl
    · exact (all pos (by omega) inside).symm
  · intro same pos low inside
    have last := extended 47 (by decide)
    rw [if_pos (by decide)] at last
    rw [← same, last, extended pos inside]
    split
    · rw [show pos = 47 by omega]
    · rfl

theorem indexBits_compose {i : Index} {word : U64} (inside : lo + 9 ≤ 64) (field : word.toNat / 2 ^ lo % 512 = i.val) :
    indexBits lo word = BitVec.ofNat 16 i.val := by
  have := i.isLt
  apply BitVec.eq_of_toNat_eq
  rw [indexBits_toNat word inside, field, BitVec.toNat_ofNat]
  omega

/-- The index functions read back the loop counters of the copy. -/
theorem indices_compose (i4 i3 i2 i1 : Index) : pml4Index (composeVaddr i4 i3 i2 i1) = BitVec.ofNat 16 i4.val ∧
    pdptIndex (composeVaddr i4 i3 i2 i1) = BitVec.ofNat 16 i3.val ∧
    pdIndex (composeVaddr i4 i3 i2 i1) = BitVec.ofNat 16 i2.val ∧
    ptIndex (composeVaddr i4 i3 i2 i1) = BitVec.ofNat 16 i1.val := by
  have sum := composeVaddr_toNat i4 i3 i2 i1
  have := i4.isLt
  have := i3.isLt
  have := i2.isLt
  have := i1.isLt
  refine ⟨indexBits_compose (by decide) ?_, indexBits_compose (by decide) ?_, indexBits_compose (by decide) ?_,
    indexBits_compose (by decide) ?_⟩
  all_goals
    rw [sum]
    omega

theorem getLsbD_index_mask (pos : Nat) : INDEX_MASK.getLsbD pos = decide (12 ≤ pos ∧ pos < 48) :=
  mask_bits (by decide) (by decide) pos

/-- Composing the indices of an address gives its page in the lower 48 bits. -/
theorem compose_indices (va : U64) : composeVaddr (subscript (pml4Index va)) (subscript (pdptIndex va)) (subscript (pdIndex va))
    (subscript (ptIndex va)) = va &&& INDEX_MASK := by
  have page : (va &&& INDEX_MASK).toNat = va.toNat / 2 ^ 12 % 2 ^ 36 * 2 ^ 12 := mask_toNat getLsbD_index_mask va
  apply BitVec.eq_of_toNat_eq
  rw [composeVaddr_toNat, page, pml4Index, pdptIndex, pdIndex, ptIndex, subscript_indexBits _ (by decide),
    subscript_indexBits _ (by decide), subscript_indexBits _ (by decide), subscript_indexBits _ (by decide)]
  omega

/-- The flags of an entry are what is left of it beside its address field. -/
theorem pteMake_flags (phys : U64) (plain : PlainFlags flags) : pteMake phys flags &&& ~~~PTE_ADDR_MASK = flags := by
  apply BitVec.eq_of_getLsbD_eq
  intro pos inside
  have clear := congrArg (fun word : U64 => word.getLsbD pos) plain
  rw [pteMake_eq]
  simp only [BitVec.getLsbD_and, BitVec.getLsbD_or, BitVec.getLsbD_not] at clear ⊢
  generalize PTE_ADDR_MASK.getLsbD pos = mask at clear ⊢
  generalize flags.getLsbD pos = flag at clear ⊢
  cases mask <;> cases flag <;> simp_all

/-- Every entry is made of its address field and its flags. -/
theorem pteMake_parts (e : PageTableEntry) : pteMake (pteGetAddr e) (e &&& ~~~PTE_ADDR_MASK) = e := by
  apply BitVec.eq_of_getLsbD_eq
  intro pos inside
  rw [pteMake_eq, pteGetAddr_eq]
  simp only [BitVec.getLsbD_and, BitVec.getLsbD_or, BitVec.getLsbD_not]
  cases PTE_ADDR_MASK.getLsbD pos <;> simp [inside]

/-- The bit loops are shifts and masks, and composing and reading are inverses. -/
theorem bit_arithmetic_round_trips :
    (∀ va : U64, pml4Index va = (va.extractLsb' 39 9).setWidth 16 ∧ pdptIndex va = (va.extractLsb' 30 9).setWidth 16 ∧
      pdIndex va = (va.extractLsb' 21 9).setWidth 16 ∧ ptIndex va = (va.extractLsb' 12 9).setWidth 16) ∧
    (∀ va : U64, isCanonical va = true ↔ (va.setWidth 48).signExtend 64 = va) ∧
    (∀ i4 i3 i2 i1 : Index, pml4Index (composeVaddr i4 i3 i2 i1) = BitVec.ofNat 16 i4.val ∧
      pdptIndex (composeVaddr i4 i3 i2 i1) = BitVec.ofNat 16 i3.val ∧
      pdIndex (composeVaddr i4 i3 i2 i1) = BitVec.ofNat 16 i2.val ∧
      ptIndex (composeVaddr i4 i3 i2 i1) = BitVec.ofNat 16 i1.val) ∧
    (∀ va : U64, composeVaddr (subscript (pml4Index va)) (subscript (pdptIndex va)) (subscript (pdIndex va))
      (subscript (ptIndex va)) = va &&& INDEX_MASK) ∧
    (∀ phys flags : U64, PlainFlags flags → pteGetAddr (pteMake phys flags) = phys &&& PTE_ADDR_MASK ∧
      pteMake phys flags &&& ~~~PTE_ADDR_MASK = flags) ∧
    (∀ e : PageTableEntry, pteMake (pteGetAddr e) (e &&& ~~~PTE_ADDR_MASK) = e) := by
  refine ⟨?_, isCanonical_iff, indices_compose, compose_indices, ?_, pteMake_parts⟩
  · intro va
    exact ⟨indexBits_eq va (by decide), indexBits_eq va (by decide), indexBits_eq va (by decide),
      indexBits_eq va (by decide)⟩
  · intro phys flags plain
    exact ⟨pteGetAddr_make plain, pteMake_flags phys plain⟩

end HobbyKernel.AddressRoundTrip
