import HobbyKernel.Core.Cpu
import HobbyKernel.Core.Uaccess
import HobbyKernel.WalkProofs

/-! `uva_check_range` looks at the ends of a range, at one address in each page,
and at leaf entries only. For lower-half tables made by the walker that is the
whole of what the processor checks for each byte. -/
namespace HobbyKernel.UaccessProofs
open AddressBits WalkProofs Radix

/-- Rounding down to a multiple of a power of two clears the bits below it. -/
theorem rounddown_pow (v : U64) {n : Nat} (small : n < 64) :
    (rounddown v (BitVec.ofNat 64 (2 ^ n))).toNat = v.toNat / 2 ^ n * 2 ^ n := by
  have power : 2 ^ n < 2 ^ 64 := Nat.pow_lt_pow_right (by decide) small
  have positive : 0 < 2 ^ n := Nat.two_pow_pos n
  have ones : (BitVec.ofNat 64 (2 ^ n) - 1).toNat = 2 ^ n - 1 := by
    rw [BitVec.toNat_sub, BitVec.toNat_ofNat, show (1 : U64).toNat = 1 from rfl]
    omega
  apply Nat.eq_of_testBit_eq
  intro i
  rw [BitVec.testBit_toNat, rounddown, BitVec.getLsbD_and, Nat.testBit_mul_two_pow, Nat.testBit_div_two_pow,
    BitVec.getLsbD_not, ← BitVec.testBit_toNat, ← BitVec.testBit_toNat, ones, Nat.testBit_two_pow_sub_one]
  by_cases low : n ≤ i
  · have reached := v.isLt
    rw [Nat.sub_add_cancel low]
    by_cases inside : i < 64
    · simp [low, inside]
    · have short : 2 ^ 64 ≤ 2 ^ i := Nat.pow_le_pow_right (by decide) (by omega)
      have above : v.toNat.testBit i = false := Nat.testBit_lt_two_pow (by omega)
      simp [above]
  · simp [low]
    omega

theorem rounddown_toNat (v : U64) : (rounddown v PGSIZE).toNat = v.toNat / 4096 * 4096 := by
  have page : PGSIZE = BitVec.ofNat 64 (2 ^ 12) := rfl
  have power : 2 ^ 12 = 4096 := rfl
  rw [page, rounddown_pow v (by decide), power]

theorem roundup_page (v : U64) (small : v.toNat ≤ 2 ^ 64 - 4096) :
    (roundup v PGSIZE).toNat = (v.toNat + 4095) / 4096 * 4096 := by
  have sum : (v + PGSIZE - 1).toNat = v.toNat + 4095 := by
    rw [BitVec.toNat_sub, BitVec.toNat_add, show PGSIZE.toNat = 4096 from rfl, show (1 : U64).toNat = 1 from rfl]
    omega
  rw [← sum]
  exact rounddown_toNat (v + PGSIZE - 1)

/-- The page addresses a loop visits, `count` of them. -/
def pageAddrs (va : U64) (count : Nat) : List U64 :=
  (List.range count).map fun n => va + BitVec.ofNat 64 (4096 * n)

theorem pageAddrs_succ (va : U64) (count : Nat) :
    pageAddrs va (count + 1) = va :: pageAddrs (va + PGSIZE) count := by
  rw [pageAddrs, pageAddrs, List.range_succ_eq_map, List.map_cons, List.map_map]
  refine congrArg₂ List.cons (BitVec.add_zero va) (List.map_congr_left fun n _ => ?_)
  have step : BitVec.ofNat 64 (4096 * (n + 1)) = PGSIZE + BitVec.ofNat 64 (4096 * n) := by
    apply BitVec.eq_of_toNat_eq
    rw [BitVec.toNat_add, BitVec.toNat_ofNat, BitVec.toNat_ofNat, show PGSIZE.toNat = 4096 from rfl]
    omega
  rw [Function.comp, step, BitVec.add_assoc]

/-- Between two page boundaries the loop runs once for each page and ends: the
counter meets its bound exactly and never wraps. -/
theorem pageLoop_eq (body : U64 → σ → σ × Bool) (va stop : U64) (count : Nat)
    (span : va.toNat + 4096 * count = stop.toNat) (more : count < fuel) (s : σ) :
    pageLoop body stop fuel va s = some (Loop.forEach body (pageAddrs va count) s) := by
  have bound := stop.isLt
  induction count generalizing va fuel s with
  | zero =>
    obtain ⟨fuel, rfl⟩ : ∃ n, fuel = n + 1 := ⟨fuel - 1, by omega⟩
    have stopped : ¬ va < stop := by
      rw [BitVec.lt_def]
      omega
    rw [pageLoop, if_neg stopped]
    rfl
  | succ count ih =>
    obtain ⟨fuel, rfl⟩ : ∃ n, fuel = n + 1 := ⟨fuel - 1, by omega⟩
    have runs : va < stop := by
      rw [BitVec.lt_def]
      omega
    have next : (va + PGSIZE).toNat = va.toNat + 4096 := by
      rw [BitVec.toNat_add, show PGSIZE.toNat = 4096 from rfl]
      omega
    rw [pageLoop, if_pos runs, pageAddrs_succ, Loop.forEach_cons]
    rcases body va s with ⟨s', _ | _⟩
    · rfl
    · exact ih _ (by omega) (by omega) s'

/-- What the check demands of a leaf entry. -/
def permits (pte : PageTableEntry) (needWrite : Bool) : Bool :=
  present pte && userAccessible pte && (!needWrite || writable pte)

theorem uvaCheckPage_eq (s : Phys) (pml4 : Frame) (needWrite : Bool) (va : U64) :
    uvaCheckPage pml4 needWrite va s = (s, permits (leafEntry s pml4 va) needWrite) := by
  rw [uvaCheckPage, leafEntry, vmmWalk_read fun _ => True]
  cases follow (layout fun _ => True) s.mem pml4 (tablePath va) with
  | none => simp [permits, show present 0#64 = false by decide]
  | some pt =>
    simp only [Option.map_some, permits]
    cases present (s.mem pt (leafIndex va)) <;> cases userAccessible (s.mem pt (leafIndex va)) <;>
      cases needWrite <;> cases writable (s.mem pt (leafIndex va)) <;> rfl

theorem leafEntry_page {s : Phys} {pml4 : Frame} {va : U64} (va' : U64) (same : va.toNat / 4096 = va'.toNat / 4096) :
    leafEntry s pml4 va = leafEntry s pml4 va' := by
  obtain ⟨path, index⟩ := (same_page_iff va va').mpr (by
    rw [← BitVec.toNat_inj, pageOf_toNat, pageOf_toNat]
    omega)
  rw [leafEntry_eq fun _ => True, leafEntry_eq fun _ => True, path, index]

/-- Every byte of a range is a lower-half address whose leaf entry permits the
access. -/
def RangePermitted (s : Phys) (pml4 : Frame) (uva len : U64) (needWrite : Bool) : Prop :=
  uva.toNat + len.toNat < 2 ^ 64 ∧ ∀ a : U64, uva.toNat ≤ a.toNat → a.toNat < uva.toNat + len.toNat →
    a.toNat < 2 ^ 47 ∧ permits (leafEntry s pml4 a) needWrite = true

/-- The pages of a range, checked one by one, cover its bytes. -/
private theorem pages_cover {s : Phys} {pml4 : Frame} {uva last : U64} {needWrite : Bool}
    (ordered : uva.toNat ≤ last.toNat) (count : Nat) (counted : count = last.toNat / 4096 - uva.toNat / 4096 + 1) :
    (pageAddrs (rounddown uva PGSIZE) count).all (fun va => permits (leafEntry s pml4 va) needWrite) = true ↔
      ∀ a : U64, uva.toNat ≤ a.toNat → a.toNat ≤ last.toNat → permits (leafEntry s pml4 a) needWrite = true := by
  have uBound := uva.isLt
  have lBound := last.isLt
  have address : ∀ n, n < count →
      (rounddown uva PGSIZE + BitVec.ofNat 64 (4096 * n)).toNat = (uva.toNat / 4096 + n) * 4096 := by
    intro n inside
    rw [BitVec.toNat_add, rounddown_toNat, BitVec.toNat_ofNat]
    omega
  simp only [pageAddrs, List.all_map, List.all_eq_true, List.mem_range, Function.comp]
  constructor
  · intro all a low high
    have page := all (a.toNat / 4096 - uva.toNat / 4096) (by omega)
    rwa [leafEntry_page a] at page
    rw [address _ (by omega)]
    omega
  · intro all n inside
    -- The first page is met at `uva` itself, every later page at its first byte.
    by_cases first : n = 0
    · rw [leafEntry_page uva]
      · exact all uva (Nat.le_refl _) ordered
      · rw [address n inside]
        omega
    · apply all
      · rw [address n inside]
        omega
      · rw [address n inside]
        omega

/-- `uva_check_range` ends within 2^35 rounds, and accepts exactly the ranges
whose every byte is permitted. -/
theorem uvaCheckRangeWithin_iff (s : Phys) (pml4 : Frame) (uva len : U64) (needWrite : Bool)
    (more : 2 ^ 35 < fuel) :
    ∃ ok, uvaCheckRangeWithin fuel s pml4 uva len needWrite = some ok ∧
      (ok = true ↔ len = 0 ∨ RangePermitted s pml4 uva len needWrite) := by
  by_cases empty : len = 0
  · exact ⟨true, by simp [uvaCheckRangeWithin, empty], by simp [empty]⟩
  have uBound := uva.isLt
  have lBound := len.isLt
  have positive : 0 < len.toNat := by
    rw [Nat.pos_iff_ne_zero]
    exact fun zero => empty (BitVec.eq_of_toNat_eq zero)
  simp only [uvaCheckRangeWithin, empty, if_false, false_or]
  by_cases wraps : uva + len < uva
  · refine ⟨false, if_pos wraps, ?_⟩
    rw [BitVec.lt_def, BitVec.toNat_add] at wraps
    simp only [Bool.false_eq_true, RangePermitted, false_iff]
    rintro ⟨small, _⟩
    omega
  rw [if_neg wraps]
  have sum : (uva + len).toNat = uva.toNat + len.toNat := by
    rw [BitVec.lt_def, BitVec.toNat_add] at wraps
    rw [BitVec.toNat_add]
    omega
  have last : (uva + len - 1).toNat = uva.toNat + len.toNat - 1 := by
    rw [BitVec.toNat_sub, sum, show (1 : U64).toNat = 1 from rfl]
    have := (uva + len).isLt
    omega
  have fits := (uva + len).isLt
  rw [sum] at fits
  generalize uva + len - 1 = lastByte at *
  -- The two zone tests together say that both ends are below 2^47.
  by_cases zone : uva.toNat < 2 ^ 47 ∧ lastByte.toNat < 2 ^ 47
  · obtain ⟨canon, index⟩ := (canonical_lower_iff uva).mpr zone.1
    obtain ⟨canon', index'⟩ := (canonical_lower_iff lastByte).mpr zone.2
    have stop : (rounddown lastByte PGSIZE + PGSIZE).toNat = lastByte.toNat / 4096 * 4096 + 4096 := by
      rw [BitVec.toNat_add, rounddown_toNat, show PGSIZE.toNat = 4096 from rfl]
      omega
    let count := lastByte.toNat / 4096 - uva.toNat / 4096 + 1
    have ran := pageLoop_eq (uvaCheckPage pml4 needWrite) (rounddown uva PGSIZE)
      (rounddown lastByte PGSIZE + PGSIZE) count
      (by rw [rounddown_toNat, stop]; omega) (by omega : count < fuel) s
    have body : uvaCheckPage pml4 needWrite = fun va s => (s, permits (leafEntry s pml4 va) needWrite) :=
      funext fun va => funext fun s => uvaCheckPage_eq s pml4 needWrite va
    rw [body, Loop.forEach_test] at ran
    refine ⟨(pageAddrs (rounddown uva PGSIZE) count).all fun va => permits (leafEntry s pml4 va) needWrite,
      by simp [canon, canon', Nat.not_le.mpr index, Nat.not_le.mpr index', body, ran], ?_⟩
    rw [pages_cover (by omega) count rfl, RangePermitted]
    exact ⟨fun all => ⟨fits, fun a low high => ⟨by omega, all a low (by omega)⟩⟩,
      fun ⟨_, all⟩ a low high => (all a low (by omega)).2⟩
  · refine ⟨false, ?_, ?_⟩
    · by_cases canon : isCanonical uva = true ∧ isCanonical lastByte = true
      · have high : ¬ ((pml4Index uva).toNat < KERNEL_PML4_START ∧ (pml4Index lastByte).toNat < KERNEL_PML4_START) :=
          fun low => zone ⟨(canonical_lower_iff uva).mp ⟨canon.1, low.1⟩,
            (canonical_lower_iff lastByte).mp ⟨canon.2, low.2⟩⟩
        rw [not_and_or, Nat.not_lt, Nat.not_lt] at high
        rw [canon.1, canon.2, if_neg (by simp), if_pos (by simpa using high)]
      · rw [if_pos]
        rw [not_and_or, Bool.not_eq_true, Bool.not_eq_true] at canon
        simpa using canon
    · simp only [Bool.false_eq_true, RangePermitted, false_iff]
      rintro ⟨_, all⟩
      exact zone ⟨(all uva (Nat.le_refl _) (by omega)).1, (all lastByte (by omega) (by omega)).1⟩

theorem uvaCheckRange_iff (s : Phys) (pml4 : Frame) (uva len : U64) (needWrite : Bool) :
    uvaCheckRange s pml4 uva len needWrite = true ↔ len = 0 ∨ RangePermitted s pml4 uva len needWrite := by
  obtain ⟨ok, ran, correct⟩ := uvaCheckRangeWithin_iff s pml4 uva len needWrite (by decide : 2 ^ 35 < PAGE_LOOP_FUEL)
  rw [uvaCheckRange, ran]
  exact correct

end HobbyKernel.UaccessProofs
