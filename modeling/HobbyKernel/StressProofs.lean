import Mathlib.Data.Fintype.Card
import HobbyKernel.Core.StressTest
import HobbyKernel.ElfImage
import HobbyKernel.MapSupply
import HobbyKernel.ScratchPages

/-! The kernel's own stress test passes: for every seed, for any number of rounds
and on every free list that is long enough. -/
namespace HobbyKernel.StressProofs
open AddressBits PageAllocProofs WalkProofs CopyProofs AddressSpaces SpaceEvolution PageWrites UserBytes UserAccess
open ElfImage MapRefinement MapSupply TableOverhead ScratchPages Radix

variable {pages ptr head : U64} {pp fuel : Nat} {s s' s₀ : Phys} {free taken rest : List Nat}

/-- The entry of a page in `pages[]` has an address, and it is not NULL. -/
def Addressable (pages : U64) (pp : Nat) : Prop := 0 < pages.toNat ∧ pages.toNat + 16 * pp < 2 ^ 64

theorem pageInfoPtr_toNat (there : Addressable pages pp) : (pageInfoPtr pages pp).toNat = pages.toNat + 16 * pp := by
  obtain ⟨_, inside⟩ := there
  rw [pageInfoPtr, BitVec.toNat_add, BitVec.toNat_mul, BitVec.toNat_ofNat, show SIZEOF_PAGE_INFO.toNat = 16 from rfl]
  omega

theorem pageOfPtr_pageInfoPtr (there : Addressable pages pp) : pageOfPtr pages (pageInfoPtr pages pp) = pp := by
  have place := pageInfoPtr_toNat there
  have distance : (pageInfoPtr pages pp - pages).toNat = 16 * pp := by
    obtain ⟨_, inside⟩ := there
    rw [BitVec.toNat_sub, place]
    omega
  rw [pageOfPtr, BitVec.toNat_udiv, distance, show SIZEOF_PAGE_INFO.toNat = 16 from rfl]
  omega

theorem pageInfoPtr_ne_zero (there : Addressable pages pp) : pageInfoPtr pages pp ≠ 0 := by
  intro isNull
  have place := pageInfoPtr_toNat there
  rw [isNull, show (0 : U64).toNat = 0 from rfl] at place
  have positive := there.1
  omega

/-- The pages below a pointer, each holding the pointer to the next. -/
def Stacked (pages : U64) (s : Phys) : U64 → List Nat → Prop
  | head, [] => head = 0
  | head, pp :: below => head = pageInfoPtr pages pp ∧ Stacked pages s (s.readWord (page2pa pp)) below

theorem stacked_frame (small : ∀ pp ∈ taken, pp < 2 ^ 40) (same : ∀ pp ∈ taken, s'.mem pp = s.mem pp)
    (stacked : Stacked pages s head taken) : Stacked pages s' head taken := by
  induction taken generalizing head with
  | nil => exact stacked
  | cons pp below ih =>
    obtain ⟨isTop, deeper⟩ := stacked
    have word : s'.readWord (page2pa pp) = s.readWord (page2pa pp) := by
      rw [Phys.readWord, Phys.readWord, frameOf_page2pa (small pp (by simp)), same pp (by simp)]
    refine ⟨isTop, ?_⟩
    rw [word]
    exact ih (fun q member => small q (by simp [member])) (fun q member => same q (by simp [member])) deeper

/-- Between taking all pages and giving them back: some are stacked, the others
still free. -/
structure Drained (pages : U64) (s₀ s : Phys) (free taken : List Nat) (head : U64) : Prop where
  list : FreeList s free
  stacked : Stacked pages s head taken
  unlinked : ∀ pp ∈ taken, (s.pages pp).ppLink = none
  distinct : (taken ++ free).Nodup
  small : ∀ pp ∈ taken, pp < 2 ^ 40
  elsewhere : ∀ f, f ∉ taken ++ free → s.mem f = s₀.mem f

/-- One page is taken and put on the stack. -/
theorem Drained.take (drained : Drained pages s₀ s (pp :: free) taken head) :
    ∃ s₁, pageAlloc s 0#32 = (s₁, some pp) ∧
      Drained pages s₀ (s₁.writeWord (page2pa pp) head) free (pp :: taken) (pageInfoPtr pages pp) := by
  obtain ⟨isEmpty, _⟩ | ⟨pp', rest, s₁, split, took, list, mem⟩ := pageAlloc_cases drained.list 0#32
  · cases isEmpty
  · cases split
    have small : pp < 2 ^ 40 := drained.list.small pp List.mem_cons_self
    obtain ⟨_, alone, disjoint⟩ := List.nodup_append.mp drained.distinct
    have fresh : pp ∉ taken := fun member => disjoint pp member pp List.mem_cons_self rfl
    have frame : frameOf (page2pa pp) = pp := frameOf_page2pa small
    have mem : s₁.mem = s.mem := mem
    have others : ∀ f, f ≠ pp → (s₁.writeWord (page2pa pp) head).mem f = s.mem f := by
      intro f other
      rw [← mem]
      funext i
      simp [Phys.writeWord, Phys.writeEntry, frame, other]
    have links : ∀ q, q ≠ pp → (s₁.pages q).ppLink = (s.pages q).ppLink := by
      intro q other
      have updated := ((pageAlloc_pages s 0#32).2 pp (drained.list.linked.1)).2
      rw [took] at updated
      rw [updated, Function.update_of_ne other]
    have unlinked : (s₁.pages pp).ppLink = none := by
      have updated := ((pageAlloc_pages s 0#32).2 pp (drained.list.linked.1)).2
      rw [took] at updated
      rw [updated, Function.update_self]
    refine ⟨s₁, took, ⟨list.linked, list.small⟩, ⟨rfl, ?_⟩, fun q member => ?_, ?_, fun q member => ?_, fun f outside => ?_⟩
    · have word : (s₁.writeWord (page2pa pp) head).readWord (page2pa pp) = head := by
        simp [Phys.readWord, Phys.writeWord, Phys.writeEntry]
      rw [word]
      exact stacked_frame drained.small (fun q member => others q fun same => fresh (same ▸ member)) drained.stacked
    · rcases List.mem_cons.mp member with rfl | below
      · exact unlinked
      · exact (links q fun same => fresh (same ▸ below)).trans (drained.unlinked q below)
    · have swapped := List.perm_middle.nodup_iff.mp drained.distinct
      exact swapped
    · rcases List.mem_cons.mp member with rfl | below
      · exact small
      · exact drained.small q below
    · rw [others f fun same => outside (by simp [same])]
      exact drained.elsewhere f fun member => outside (List.perm_middle.mem_iff.mp member)

/-- Taking pages until there are none stacks all of them. -/
theorem allocAll_drains (drained : Drained pages s₀ s free taken head) (enough : free.length < fuel) :
    ∃ s' head', stressAllocAll pages fuel head s = some (s', head') ∧ Drained pages s₀ s' [] (free.reverse ++ taken) head' := by
  induction free generalizing s taken head fuel with
  | nil =>
    obtain ⟨fuel, rfl⟩ := Nat.exists_eq_add_of_lt enough
    obtain ⟨_, failed⟩ | ⟨_, _, _, split, _⟩ := pageAlloc_cases drained.list 0#32
    · exact ⟨s, head, by simp [stressAllocAll, failed], drained⟩
    · cases split
  | cons pp rest ih =>
    cases fuel with
    | zero => cases enough
    | succ fuel =>
      obtain ⟨s₁, took, next⟩ := drained.take
      obtain ⟨s', head', ran, done⟩ := ih next (Nat.lt_of_succ_lt_succ enough)
      refine ⟨s', head', by simp only [stressAllocAll, took, ran], ?_⟩
      rwa [List.reverse_cons, List.append_assoc]

/-- A page that looks as if it had just been taken is put back in front. -/
theorem freePage (list : FreeList s free) (small : pp < 2 ^ 40) (fresh : pp ∉ free) (unlinked : (s.pages pp).ppLink = none) :
    FreeList (pageFree (s.clearRef pp) pp) (pp :: free) ∧ (pageFree (s.clearRef pp) pp).mem = s.mem ∧
      ∀ q, q ≠ pp → ((pageFree (s.clearRef pp) pp).pages q).ppLink = (s.pages q).ppLink := by
  have good : badFree (s.clearRef pp) pp = false := by simp [badFree, Phys.clearRef, unlinked]
  have freed : pageFree (s.clearRef pp) pp = { s.clearRef pp with
      pages := Function.update (s.clearRef pp).pages pp { (s.clearRef pp).pages pp with ppLink := s.pageFreeList }
      pageFreeList := some pp } := by
    rw [pageFree, good]
    rfl
  have links : (fun q => ((pageFree (s.clearRef pp) pp).pages q).ppLink) =
      Function.update (fun q => (s.pages q).ppLink) pp s.pageFreeList := by
    funext q
    by_cases same : q = pp
    · subst same
      simp [freed]
    · rw [freed]
      simp [Phys.clearRef, same]
  refine ⟨⟨?_, fun q member => ?_⟩, by rw [freed]; rfl, fun q other => ?_⟩
  · rw [links, freed]
    exact Chain.linked_push list.linked fresh
  · rcases List.mem_cons.mp member with rfl | old
    · exact small
    · exact list.small q old
  · rw [congrFun links q, Function.update_of_ne other]

/-- Giving them back puts them on the free list in the order they had. -/
theorem freeAll_restores (drained : Drained pages s₀ s free taken head) (there : ∀ pp ∈ taken, Addressable pages pp)
    (enough : taken.length < fuel) :
    ∃ s', stressFreeAll pages fuel head s = some s' ∧ FreeList s' (taken.reverse ++ free) ∧ s'.mem = s.mem := by
  induction taken generalizing s free head fuel with
  | nil =>
    obtain ⟨fuel, rfl⟩ := Nat.exists_eq_add_of_lt enough
    have isNull : head = 0 := drained.stacked
    exact ⟨s, by simp [stressFreeAll, isNull], drained.list, rfl⟩
  | cons pp below ih =>
    cases fuel with
    | zero => cases enough
    | succ fuel =>
      obtain ⟨rfl, deeper⟩ := drained.stacked
      have addressable := there pp List.mem_cons_self
      have small := drained.small pp List.mem_cons_self
      obtain ⟨fresh, apart⟩ := List.nodup_cons.mp drained.distinct
      obtain ⟨list, mem, links⟩ := freePage drained.list small (fun member => fresh (List.mem_append_right _ member))
        (drained.unlinked pp List.mem_cons_self)
      have next : Drained pages s₀ (pageFree (s.clearRef pp) pp) (pp :: free) below (s.readWord (page2pa pp)) := by
        refine ⟨list, ?_, fun q member => ?_, ?_, fun q member => drained.small q (by simp [member]), ?_⟩
        · exact stacked_frame (fun q member => drained.small q (by simp [member])) (fun q _ => congrFun mem q) deeper
        · rw [links q fun same => fresh (same ▸ List.mem_append_left _ member)]
          exact drained.unlinked q (by simp [member])
        · exact List.perm_middle.nodup_iff.mpr drained.distinct
        · intro f outside
          rw [mem]
          exact drained.elsewhere f fun member => outside (List.perm_middle.mem_iff.mpr member)
      obtain ⟨s', ran, list', mem'⟩ := ih next (fun q member => there q (by simp [member])) (Nat.lt_of_succ_lt_succ enough)
      refine ⟨s', ?_, ?_, mem'.trans mem⟩
      · rw [stressFreeAll, if_neg (pageInfoPtr_ne_zero addressable), pageOfPtr_pageInfoPtr addressable]
        exact ran
      · rwa [List.reverse_cons, List.append_assoc]

/-- Taking all pages and giving them back leaves the free list as it was. -/
theorem allocAll_freeAll (list : FreeList s free) (there : ∀ pp ∈ free, Addressable pages pp) (enough : free.length < fuel) :
    ∃ s₁ head s₂, stressAllocAll pages fuel 0 s = some (s₁, head) ∧ FreeList s₁ [] ∧
      stressFreeAll pages fuel head s₁ = some s₂ ∧ FreeList s₂ free ∧ ∀ f, f ∉ free → s₂.mem f = s.mem f := by
  have start : Drained pages s s free [] 0 := ⟨list, rfl, by simp, list.nodup, by simp, fun _ _ => rfl⟩
  obtain ⟨s₁, head, took, drained⟩ := allocAll_drains start enough
  rw [List.append_nil] at drained
  obtain ⟨s₂, gave, list', mem⟩ := freeAll_restores drained (fun pp member => there pp (List.mem_reverse.mp member))
    (by rwa [List.length_reverse])
  rw [List.append_nil, List.reverse_reverse] at list'
  refine ⟨s₁, head, s₂, took, drained.list, gave, list', fun f outside => ?_⟩
  rw [mem]
  exact drained.elsewhere f fun member => outside (by simpa using member)

/-- The counts that the test makes on the way come out right. -/
theorem roundTrip_counts {s₁ s₂ : Phys} (list : FreeList s free) (enough : free.length < fuel)
    (took : stressAllocAll pages fuel 0 s = some (s₁, head)) (empty : FreeList s₁ [])
    (gave : stressFreeAll pages fuel head s₁ = some s₂) (list' : FreeList s₂ free) :
    stressRoundTrip fuel pages s = some (s₂, free.length) := by
  have before : countFreeWithin fuel s = some free.length :=
    (Chain.count_linked list.linked enough 0).trans (by rw [Nat.zero_add])
  have between : countFreeWithin fuel s₁ = some 0 :=
    Chain.count_linked empty.linked (show ([] : List Nat).length < fuel from Nat.zero_lt_of_lt enough) 0
  have after : countFreeWithin fuel s₂ = some free.length :=
    (Chain.count_linked list'.linked enough 0).trans (by rw [Nat.zero_add])
  simp only [stressRoundTrip, before, took, between, gave, after]
  simp

/-- **The round trip.** All pages are taken and given back: the free list is what it
was, in the same order, and only pages on it have been written to. -/
theorem stress_round_trip (list : FreeList s free) (there : ∀ pp ∈ free, Addressable pages pp) (enough : free.length < fuel) :
    ∃ s', stressRoundTrip fuel pages s = some (s', free.length) ∧ FreeList s' free ∧ ∀ f, f ∉ free → s'.mem f = s.mem f := by
  obtain ⟨_, _, s₂, took, empty, gave, list', same⟩ := allocAll_freeAll list there enough
  exact ⟨s₂, roundTrip_counts list enough took empty gave list', list', same⟩

theorem addressable_range {first count : Nat} (positive : 0 < pages.toNat)
    (inside : pages.toNat + 16 * (first + count) < 2 ^ 64) : ∀ pp ∈ List.range' first count, Addressable pages pp := by
  intro pp member
  have bounds := List.mem_range'_1.mp member
  exact ⟨positive, by omega⟩

/-- Three pages make the trip. -/
theorem stress_round_trip_three : ∃ s, stressRoundTrip 4 0x100000 (clearedPhys 1 3) = some (s, 3) ∧ FreeList s [1, 2, 3] := by
  have tripped : ∃ s, stressRoundTrip 4 0x100000 (clearedPhys 1 3) = some (s, 3) ∧ FreeList s [1, 2, 3] ∧
      ∀ f, f ∉ [1, 2, 3] → s.mem f = (clearedPhys 1 3).mem f :=
    stress_round_trip (clearedPhys_free (by decide)) (addressable_range (by decide) (by decide)) (by decide)
  obtain ⟨s, ran, list, _⟩ := tripped
  exact ⟨s, ran, list⟩

section Scratch
variable {ι : Type} {others : ι → Frame → Prop} {r : Frame} {idx idx' : Fin STRESS_TEST_PAGES} {va a flags : U64} {st st' : Stress}
  {total missing₀ : Nat}

theorem stressAddr_toNat (idx : Fin STRESS_TEST_PAGES) : (stressAddr idx).toNat = 0x700000000000 + idx.val * 4096 := by
  have inside : idx.val < 64 := idx.isLt
  rw [stressAddr, BitVec.toNat_add, BitVec.toNat_mul, BitVec.toNat_ofNat, show STRESS_TEST_VBASE.toNat = 0x700000000000 from rfl,
    show (4096 : U64).toNat = 4096 from rfl]
  omega

theorem stressAddr_small (idx : Fin STRESS_TEST_PAGES) : (stressAddr idx).toNat < 2 ^ 47 := by
  have inside : idx.val < 64 := idx.isLt
  rw [stressAddr_toNat]
  omega

theorem stressAddr_page : (stressAddr idx').toNat / 4096 = (stressAddr idx).toNat / 4096 ↔ idx' = idx := by
  rw [stressAddr_toNat, stressAddr_toNat, Fin.ext_iff]
  omega

/-- All pages of the region hang below the same tables. -/
def scratchTables : List (List Index) := tablePrefixes STRESS_TEST_VBASE

theorem tablePrefixes_stressAddr (idx : Fin STRESS_TEST_PAGES) : tablePrefixes (stressAddr idx) = scratchTables := by
  have paths : ∀ idx, tablePath (stressAddr idx) = tablePath STRESS_TEST_VBASE := by decide +kernel
  rw [tablePrefixes, paths idx]
  rfl

theorem missing_congr (same : ∀ q, (layout Lower).Admitted q → q.length ≤ 3 →
    (follow (layout Lower) s'.mem r q = none ↔ follow (layout Lower) s.mem r q = none)) :
    missing s'.mem r scratchTables = missing s.mem r scratchTables := by
  refine List.countP_congr fun q member => ?_
  let first : Fin STRESS_TEST_PAGES := ⟨0, by decide⟩
  rw [← tablePrefixes_stressAddr first] at member
  obtain ⟨_, admitted, short⟩ := tablePrefixes_spec (lower_of_small (stressAddr_small first)) member
  rw [Option.isNone_iff_eq_none, Option.isNone_iff_eq_none, follow_admits (fun _ => True) Lower, follow_admits (fun _ => True) Lower]
  exact same q admitted short

/-- The number of mapped pages. -/
def held (mapped : Fin STRESS_TEST_PAGES → Bool) : Nat := (Finset.univ.filter fun idx => mapped idx = true).card

theorem held_map {mapped : Fin STRESS_TEST_PAGES → Bool} (absent : mapped idx = false) :
    held (Function.update mapped idx true) = held mapped + 1 ∧ held mapped < STRESS_TEST_PAGES := by
  have unmarked : idx ∉ Finset.univ.filter fun idx => mapped idx = true := by simp [absent]
  have more : (Finset.univ.filter fun i => Function.update mapped idx true i = true) =
      insert idx (Finset.univ.filter fun i => mapped i = true) := by
    ext i
    by_cases same : i = idx <;> simp [same]
  rw [held, more, Finset.card_insert_of_notMem unmarked]
  refine ⟨rfl, ?_⟩
  have proper := Finset.card_lt_univ_of_notMem unmarked
  rwa [Fintype.card_fin] at proper

theorem held_unmap {mapped : Fin STRESS_TEST_PAGES → Bool} (isMapped : mapped idx = true) :
    held (Function.update mapped idx false) + 1 = held mapped := by
  have again : Function.update (Function.update mapped idx false) idx true = mapped := by
    rw [Function.update_idem, ← isMapped, Function.update_eq_self]
  rw [← (held_map (Function.update_self idx false mapped)).1, again]

/-- The kernel's page at a position of the region. -/
structure Scratch (s : Phys) (r : Frame) (idx : Fin STRESS_TEST_PAGES) (pp : Nat) : Prop where
  leaf : leafEntry s r (stressAddr idx) = pteMake (page2pa pp) 3
  small : pp < 2 ^ 40
  unlinked : (s.pages pp).ppLink = none
  bytes : bytesAt s r (stressAddr idx) 4 = bytesOfU32 (stressPattern idx)

/-- What holds between two rounds of the test. -/
structure StressInv (others : ι → Frame → Prop) (r : Frame) (total missing₀ : Nat) (st : Stress) (rest : List Nat) : Prop where
  forest : Forest (alone r) others 4 st.phys rest
  page : ∀ idx, st.mapped idx = true → ∃ pp, Scratch st.phys r idx pp
  absent : ∀ idx, st.mapped idx = false → present (leafEntry st.phys r (stressAddr idx)) = false
  fewer : missing st.phys.mem r scratchTables ≤ missing₀
  spent : total + missing st.phys.mem r scratchTables = rest.length + held st.mapped + missing₀

theorem scratch_flags_plain : PlainFlags 3 := by
  unfold PlainFlags
  decide

theorem vmmMap_spares (list : FreeList s free) (physAddr : U64) {q : Nat} (unlisted : q ∉ free) :
    (vmmMap s r va physAddr flags).pages q = s.pages q := by
  rw [vmmMap, vmmWalk_create]
  have spared := walkTables_spares (t := r) (tablePath va) list unlisted
  generalize walkTables s r (tablePath va) = out at *
  obtain ⟨s', _ | t⟩ := out <;> exact spared

/-- The four bytes at the start of a page. -/
theorem scratch_range (low : (stressAddr idx).toNat ≤ a.toNat) (high : a.toNat < (stressAddr idx).toNat + 4) :
    a.toNat < 2 ^ 47 ∧ pageOf a = pageOf (stressAddr idx) ∧ a.toNat / 4096 = (stressAddr idx).toNat / 4096 := by
  have inside : idx.val < 64 := idx.isLt
  have start := stressAddr_toNat idx
  refine ⟨by omega, ?_, by omega⟩
  apply BitVec.eq_of_toNat_eq
  rw [pageOf_toNat, pageOf_toNat]
  omega

theorem accessible_of_leaf {pte : PageTableEntry} {n : Nat} {needWrite : Bool} (leaf : leafEntry s r (stressAddr idx) = pte)
    (few : n ≤ 4) (isPresent : present pte = true) (mayWrite : writable pte = true) :
    Accessible s r (stressAddr idx) n needWrite := by
  intro a low high
  obtain ⟨small, samePage, _⟩ := scratch_range low (show a.toNat < (stressAddr idx).toNat + 4 by omega)
  rw [leafEntry_congr samePage, leaf]
  exact ⟨small, isPresent, fun _ => mayWrite⟩

theorem writable_scratch (physAddr : U64) : present (pteMake physAddr 3) = true ∧ writable (pteMake physAddr 3) = true := by
  refine ⟨by rw [present_make]; decide, ?_⟩
  rw [writable, testBit_eq _ (by decide), pteMake, getLsbD_orAddrBits]
  rfl

/-- Byte `i` of the pattern on a page. -/
theorem patternAddr (idx : Fin STRESS_TEST_PAGES) {i : Nat} (few : i < 4) :
    (stressAddr idx + BitVec.ofNat 64 i).toNat = (stressAddr idx).toNat + i := by
  have small := stressAddr_small idx
  rw [BitVec.toNat_add, BitVec.toNat_ofNat]
  omega

theorem bytesAt_congr (same : ∀ a : U64, (stressAddr idx).toNat ≤ a.toNat → a.toNat < (stressAddr idx).toNat + 4 →
    byteAt s' r a = byteAt s r a) : bytesAt s' r (stressAddr idx) 4 = bytesAt s r (stressAddr idx) 4 := by
  refine List.map_congr_left fun i member => ?_
  have few := List.mem_range.mp member
  have place := patternAddr idx few
  exact same _ (by omega) (by omega)

/-- Another page of the region is left alone. -/
theorem Scratch.kept (scratch : Scratch s r idx pp) (links : (s'.pages pp).ppLink = (s.pages pp).ppLink)
    (leaf : leafEntry s' r (stressAddr idx) = leafEntry s r (stressAddr idx))
    (bytes : ∀ a : U64, (stressAddr idx).toNat ≤ a.toNat → a.toNat < (stressAddr idx).toNat + 4 → byteAt s' r a = byteAt s r a) :
    Scratch s' r idx pp :=
  ⟨leaf.trans scratch.leaf, scratch.small, links.trans scratch.unlinked, (bytesAt_congr bytes).trans scratch.bytes⟩

theorem Scratch.isPresent (scratch : Scratch s r idx pp) (low : (stressAddr idx).toNat ≤ a.toNat)
    (high : a.toNat < (stressAddr idx).toNat + 4) : present (leafEntry s r a) = true := by
  rw [leafEntry_congr (scratch_range low high).2.1, scratch.leaf]
  exact (writable_scratch _).1

/-- The frame of a page in use is not free. -/
theorem Scratch.unlisted (scratch : Scratch s r idx pp) (forest : Forest (alone r) others 4 s free) : pp ∉ free := by
  have isPresent := scratch.isPresent (Nat.le_refl _) (by omega)
  have page := leaf_node (alone_self r) (lower_of_small (stressAddr_small idx)) isPresent
  rw [scratch.leaf, tableOf_make_page scratch_flags_plain scratch.small] at page
  exact forest.exclusive.node_unfree page

/-- A page of the region is mapped and marked. -/
theorem mapRound (inv : StressInv others r total missing₀ st rest) (room : STRESS_TEST_PAGES + missing₀ ≤ total)
    (absent : st.mapped idx = false) :
    ∃ s₁ pp s₂ rest', pageAlloc st.phys 1#32 = (s₁, some pp) ∧
      Cpu.storeBytes (vmmMap s₁ r (stressAddr idx) (page2pa pp) 3) r (stressAddr idx) (bytesOfU32 (stressPattern idx)) = some s₂ ∧
      StressInv others r total missing₀ ⟨s₂, Function.update st.mapped idx true, st.rngState⟩ rest' := by
  obtain ⟨more, few⟩ := held_map absent
  have spent := inv.spent
  obtain ⟨isEmpty, _⟩ | ⟨pp, free, s₁, rfl, took, list, mem⟩ := pageAlloc_cases inv.forest.list 1#32
  · rw [isEmpty, List.length_nil] at spent
    omega
  have elsewhere : ∀ g, g ≠ pp → s₁.mem g = st.phys.mem g := fun g other => alloc_elsewhere mem other
  obtain ⟨same, tables⟩ := inv.forest.take elsewhere
  have before : missing s₁.mem r scratchTables = missing st.phys.mem r scratchTables :=
    missing_congr fun q admitted short => by rw [follow_frame (alone_self r) admitted (by omega) (same ())]
  have enough : missing s₁.mem r (tablePrefixes (stressAddr idx)) ≤ free.length := by
    rw [tablePrefixes_stressAddr, before]
    rw [List.length_cons] at spent
    omega
  obtain ⟨found, rest₂, list₂, left, reached⟩ := vmmMap_tables (stressAddr idx) (page2pa pp) 3 list tables (alone_self r)
    (lower_of_small (stressAddr_small idx)) enough
  obtain ⟨rest', forest, leaves⟩ := mapPage_leaves scratch_flags_plain inv.forest list elsewhere (alone_self r)
    (stressAddr_small idx) found
  obtain rfl := list₂.unique forest.list
  have spares : ∀ q, q ∉ pp :: free → (vmmMap s₁ r (stressAddr idx) (page2pa pp) 3).pages q = st.phys.pages q := by
    intro q unlisted
    rw [vmmMap_spares list _ fun member => unlisted (List.mem_cons_of_mem _ member)]
    have spared := pageAlloc_spares inv.forest.list 1#32 unlisted
    rwa [took] at spared
  have unlinked : ((vmmMap s₁ r (stressAddr idx) (page2pa pp) 3).pages pp).ppLink = none := by
    rw [vmmMap_spares list _ (List.nodup_cons.mp inv.forest.list.nodup).1]
    have updated := ((pageAlloc_pages st.phys 1#32).2 pp inv.forest.list.linked.1).2
    rw [took] at updated
    rw [updated, Function.update_self]
  have none : missing (vmmMap s₁ r (stressAddr idx) (page2pa pp) 3).mem r scratchTables = 0 := by
    refine List.countP_eq_zero.mpr fun q member => ?_
    rw [← tablePrefixes_stressAddr idx] at member
    obtain ⟨_, admitted, short⟩ := tablePrefixes_spec (lower_of_small (stressAddr_small idx)) member
    rw [Option.isNone_iff_eq_none, follow_admits (fun _ => True) Lower, reached q admitted short]
    exact fun both => both.2 member
  generalize isMap : vmmMap s₁ r (stressAddr idx) (page2pa pp) 3 = s₂ at *
  have leaf := (leaves _ (stressAddr_small idx)).1 rfl
  obtain ⟨isPresent, mayWrite⟩ := writable_scratch (page2pa pp)
  obtain ⟨s₃, stored, forest', wrote, read, pages⟩ := storeBytes_kernel forest (alone_self r)
    (show Accessible s₂ r (stressAddr idx) (bytesOfU32 (stressPattern idx)).length true from
      accessible_of_leaf leaf (Nat.le_refl 4) isPresent mayWrite)
  have tables' : ∀ path t, Node (layout Lower) s₂.mem (alone r) 3 () path t → s₃.mem t = s₂.mem t :=
    fun path t table => storeBytes_tables forest (alone_self r) (fun _ => by
      have inside : idx.val < 64 := idx.isLt
      rw [stressAddr_toNat, show (bytesOfU32 (stressPattern idx)).length = 4 from rfl]
      omega) stored table
  have now : missing s₃.mem r scratchTables = 0 := by
    rw [← none]
    exact missing_congr fun q admitted short => by rw [follow_frame (alone_self r) admitted (by omega) tables']
  refine ⟨s₁, pp, s₃, rest₂, took, by rw [isMap]; exact stored, forest',
    fun idx' (isMapped : Function.update st.mapped idx true idx' = true) => ?_,
    fun idx' (isAbsent : Function.update st.mapped idx true idx' = false) => ?_, ?_, ?_⟩
  · by_cases same : idx' = idx
    · subst same
      exact ⟨pp, (wrote.leaf () r _ (alone_self r) (stressAddr_small _)).trans leaf, inv.forest.list.small pp List.mem_cons_self,
        by rw [pages]; exact unlinked, read⟩
    · rw [Function.update_of_ne same] at isMapped
      obtain ⟨pp', scratch⟩ := inv.page idx' isMapped
      have unlisted := scratch.unlisted inv.forest
      obtain ⟨_, kept⟩ := leaves _ (stressAddr_small idx')
      refine ⟨pp', scratch.kept (by rw [pages, spares pp' unlisted]) ?_ fun a low high => ?_⟩
      · rw [wrote.leaf () r _ (alone_self r) (stressAddr_small _)]
        exact (kept (mt stressAddr_page.mp same)).1
      · obtain ⟨small, _, samePage⟩ := scratch_range low high
        have apart : a.toNat / 4096 ≠ (stressAddr idx).toNat / 4096 := by
          rw [samePage]
          exact mt stressAddr_page.mp same
        obtain ⟨leaf', byte⟩ := (leaves a small).2 apart
        have present' := scratch.isPresent low high
        rw [wrote.rest () r a (alone_self r) small (by rw [leaf']; exact present') fun _ => ?_, byte present']
        have start := stressAddr_toNat idx
        rw [show (bytesOfU32 (stressPattern idx)).length = 4 from rfl]
        omega
  · have same : idx' ≠ idx := fun same => by
      rw [same, Function.update_self] at isAbsent
      cases isAbsent
    rw [Function.update_of_ne same] at isAbsent
    rw [wrote.leaf () r _ (alone_self r) (stressAddr_small _), ((leaves _ (stressAddr_small idx')).2 (mt stressAddr_page.mp same)).1]
    exact inv.absent idx' isAbsent
  · simp only [now, Nat.zero_le]
  · rw [tablePrefixes_stressAddr, before] at left
    rw [List.length_cons] at spent
    simp only [now, more]
    omega

theorem pa2page_page2pa (small : pp < 2 ^ 40) : pa2page (page2pa pp) = pp := by
  rw [pa2page, BitVec.toNat_udiv, page2pa_toNat small, show PGSIZE.toNat = 4096 from rfl]
  omega

theorem vmmUnmap_pages (s : Phys) (r : Frame) (va : U64) :
    (vmmUnmap s r va).pages = s.pages ∧ (vmmUnmap s r va).pageFreeList = s.pageFreeList := by
  obtain ⟨_, same⟩ | ⟨_, t, _, cleared⟩ := vmmUnmap_cases Lower s r va
  · rw [same]
    exact ⟨rfl, rfl⟩
  · rw [cleared]
    exact ⟨rfl, rfl⟩

/-- A mapped page is unmapped and its frame given back. -/
theorem unmapRound (inv : StressInv others r total missing₀ st rest) (isMapped : st.mapped idx = true) :
    ∃ s' rest', stressUnmapIdx r idx st = some ⟨s', Function.update st.mapped idx false, st.rngState⟩ ∧
      StressInv others r total missing₀ ⟨s', Function.update st.mapped idx false, st.rngState⟩ rest' := by
  obtain ⟨pp, scratch⟩ := inv.page idx isMapped
  have isPresent := scratch.isPresent (Nat.le_refl _) (by omega)
  have frame : tableOf (leafEntry st.phys r (stressAddr idx)) = pp := by
    rw [scratch.leaf, tableOf_make_page scratch_flags_plain scratch.small]
  have unlisted := scratch.unlisted inv.forest
  obtain ⟨pages, head⟩ := vmmUnmap_pages st.phys r (stressAddr idx)
  have list : FreeList (vmmUnmap st.phys r (stressAddr idx)) rest :=
    ⟨by rw [pages, head]; exact inv.forest.list.linked, inv.forest.list.small⟩
  obtain ⟨list', mem, links⟩ := freePage list scratch.small unlisted (by rw [pages]; exact scratch.unlinked)
  have ran : stressUnmapIdx r idx st =
      some ⟨pageFree ((vmmUnmap st.phys r (stressAddr idx)).clearRef pp) pp, Function.update st.mapped idx false, st.rngState⟩ := by
    have entry := scratch.leaf
    rw [leafEntry] at entry isPresent
    rw [stressUnmapIdx]
    rw [vmmWalk_read Lower] at entry isPresent ⊢
    cases found : follow (layout Lower) st.phys.mem r (tablePath (stressAddr idx)) with
    | none =>
      rw [found] at isPresent
      have empty : present (0 : U64) = true := isPresent
      exact absurd empty (by decide)
    | some t =>
      simp only [found, Option.map_some] at entry isPresent ⊢
      rw [isPresent, entry, pteGetAddr_make_page scratch_flags_plain scratch.small, pa2page_page2pa scratch.small]
      rfl
  rw [← frame] at list'
  obtain ⟨forest, reached, leaves⟩ := unmapPage_leaves inv.forest (alone_self r) (stressAddr_small idx) isPresent list'
    (by rw [frame]; exact mem)
  rw [frame] at forest reached leaves
  generalize pageFree ((vmmUnmap st.phys r (stressAddr idx)).clearRef pp) pp = s' at *
  have now : missing s'.mem r scratchTables = missing st.phys.mem r scratchTables :=
    missing_congr fun q admitted short => by rw [reached q admitted short]
  refine ⟨s', pp :: rest, ran, forest, fun idx' (isMapped' : Function.update st.mapped idx false idx' = true) => ?_,
    fun idx' (isAbsent : Function.update st.mapped idx false idx' = false) => ?_, ?_, ?_⟩
  · have same : idx' ≠ idx := fun same => by
      rw [same, Function.update_self] at isMapped'
      cases isMapped'
    rw [Function.update_of_ne same] at isMapped'
    obtain ⟨pp', scratch'⟩ := inv.page idx' isMapped'
    have other : pp' ≠ pp := by
      rintro rfl
      have here := scratch'.isPresent (Nat.le_refl _) (by omega)
      have met : tableOf (leafEntry st.phys r (stressAddr idx')) = tableOf (leafEntry st.phys r (stressAddr idx)) := by
        rw [frame, scratch'.leaf, tableOf_make_page scratch_flags_plain scratch.small]
      exact same (stressAddr_page.mp (page_of_frame inv.forest (alone_self r) (alone_self r) (stressAddr_small idx)
        (stressAddr_small idx') isPresent here met).2)
    refine ⟨pp', scratch'.kept (by rw [links pp' other, pages]) ((leaves _ (stressAddr_small idx')).2 (mt stressAddr_page.mp same)).1
      fun a low high => ?_⟩
    obtain ⟨small, _, samePage⟩ := scratch_range low high
    exact ((leaves a small).2 (by rw [samePage]; exact mt stressAddr_page.mp same)).2 (scratch'.isPresent low high)
  · by_cases same : idx' = idx
    · subst same
      rw [(leaves _ (stressAddr_small idx')).1 rfl]
      decide
    · rw [Function.update_of_ne same] at isAbsent
      rw [((leaves _ (stressAddr_small idx')).2 (mt stressAddr_page.mp same)).1]
      exact inv.absent idx' isAbsent
  · simp only [now]
    exact inv.fewer
  · have spent := inv.spent
    have fewer := held_unmap isMapped
    simp only [now, List.length_cons]
    omega

/-- One round of the test. -/
theorem round_inv {cr3 : U64} (isRoot : getCurrentPml4 cr3 = r) (inv : StressInv others r total missing₀ st rest)
    (room : STRESS_TEST_PAGES + missing₀ ≤ total) :
    ∃ st' rest', stressRound cr3 r st = some st' ∧ StressInv others r total missing₀ st' rest' := by
  unfold stressRound
  dsimp only
  generalize (⟨(stressRand st.rngState).toNat % STRESS_TEST_PAGES, _⟩ : Fin STRESS_TEST_PAGES) = idx
  have inv' : StressInv others r total missing₀ { st with rngState := stressRand st.rngState } rest :=
    ⟨inv.forest, inv.page, inv.absent, inv.fewer, inv.spent⟩
  cases mapped : st.mapped idx with
  | false =>
    obtain ⟨s₁, pp, s₂, rest', took, stored, next⟩ := mapRound inv' room mapped
    refine ⟨_, rest', ?_, next⟩
    simp only [took, isRoot, stored, Bool.not_false, if_true]
  | true =>
    obtain ⟨s', rest', ran, next⟩ := unmapRound inv' mapped
    obtain ⟨pp, scratch⟩ := inv.page idx mapped
    obtain ⟨isPresent, mayWrite⟩ := writable_scratch (page2pa pp)
    have loaded : Cpu.loadBytes st.phys r (stressAddr idx) 4 = some (bytesOfU32 (stressPattern idx)) := by
      rw [← scratch.bytes]
      exact loadBytes_kernel inv.forest.walkable (alone_self r)
        (show Accessible st.phys r (stressAddr idx) 4 true from accessible_of_leaf scratch.leaf (Nat.le_refl 4) isPresent mayWrite)
    refine ⟨_, rest', ?_, next⟩
    simp [isRoot, loaded, ran]

theorem rounds_inv {cr3 : U64} (isRoot : getCurrentPml4 cr3 = r) (room : STRESS_TEST_PAGES + missing₀ ≤ total) (iterations : Nat)
    (inv : StressInv others r total missing₀ st rest) :
    ∃ st' rest', stressRounds cr3 r iterations st = some st' ∧ StressInv others r total missing₀ st' rest' := by
  induction iterations generalizing st rest with
  | zero => exact ⟨st, rest, rfl, inv⟩
  | succ iterations ih =>
    obtain ⟨st₁, rest₁, ran, inv₁⟩ := round_inv isRoot inv room
    obtain ⟨st', rest', ran', inv'⟩ := ih inv₁
    exact ⟨st', rest', by simp only [stressRounds, ran, ran'], inv'⟩

/-- What is left is unmapped in the end. -/
theorem cleanUp_inv (todo : List (Fin STRESS_TEST_PAGES)) (inv : StressInv others r total missing₀ st rest)
    (done : ∀ idx, idx ∉ todo → st.mapped idx = false) :
    ∃ st' rest', stressCleanUp r todo st = some st' ∧ StressInv others r total missing₀ st' rest' ∧
      ∀ idx, st'.mapped idx = false := by
  induction todo generalizing st rest with
  | nil => exact ⟨st, rest, rfl, inv, fun idx => done idx (by simp)⟩
  | cons idx todo ih =>
    cases mapped : st.mapped idx with
    | false =>
      have done' : ∀ idx, idx ∉ todo → st.mapped idx = false := by
        intro idx' outside
        by_cases same : idx' = idx
        · rw [same, mapped]
        · exact done idx' (by simp [same, outside])
      obtain ⟨st', rest', ran, inv', empty⟩ := ih inv done'
      exact ⟨st', rest', by simp [stressCleanUp, mapped, ran], inv', empty⟩
    | true =>
      obtain ⟨s₁, rest₁, freed, inv₁⟩ := unmapRound inv mapped
      have done' : ∀ idx', idx' ∉ todo → Function.update st.mapped idx false idx' = false := by
        intro idx' outside
        by_cases same : idx' = idx
        · rw [same, Function.update_self]
        · rw [Function.update_of_ne same]
          exact done idx' (by simp [same, outside])
      obtain ⟨st', rest', ran, inv', empty⟩ := ih inv₁ done'
      exact ⟨st', rest', by simp [stressCleanUp, mapped, freed, ran], inv', empty⟩

/-- **The stress test passes**, for every seed and any number of rounds, on every
memory where the region is unused and there are frames for its pages and its
tables. It leaves the region as empty as it was and keeps nothing but the tables. -/
theorem stress_test_passes {cr3 : U64} (forest : Forest (alone r) others 4 st.phys free) (isRoot : getCurrentPml4 cr3 = r)
    (unused : ∀ idx, present (leafEntry st.phys r (stressAddr idx)) = false) (there : ∀ pp ∈ free, Addressable pages pp)
    (room : STRESS_TEST_PAGES + missing st.phys.mem r scratchTables ≤ free.length) (enough : free.length < fuel) (iterations : Nat) :
    ∃ st' rest, phase1StressTest fuel pages cr3 iterations st = some st' ∧ Forest (alone r) others 4 st'.phys rest ∧
      (∀ idx, present (leafEntry st'.phys r (stressAddr idx)) = false) ∧
      free.length + missing st'.phys.mem r scratchTables = rest.length + missing st.phys.mem r scratchTables := by
  obtain ⟨_, _, s₁, took, none, gave, list₁, same⟩ := allocAll_freeAll forest.list there enough
  have tripped := roundTrip_counts forest.list enough took none gave list₁
  have tables : ∀ path t, Node (layout Lower) st.phys.mem (alone r) 3 () path t → s₁.mem t = st.phys.mem t :=
    fun path t node => same t (forest.exclusive.node_unfree (node.mono (by decide)))
  have forest₁ : Forest (alone r) others 4 s₁ free := forest.retouch (by decide : 1 ≤ 2) list₁ (fun _ member => member) same
  have before : missing s₁.mem r scratchTables = missing st.phys.mem r scratchTables :=
    missing_congr fun q admitted short => by rw [follow_frame (alone_self r) admitted (by omega) tables]
  have start : StressInv others r free.length (missing st.phys.mem r scratchTables)
      ⟨s₁, fun _ => false, st.rngState⟩ free := by
    refine ⟨forest₁, fun idx isMapped => (Bool.noConfusion isMapped), fun idx _ => ?_, Nat.le_of_eq before, ?_⟩
    · rw [leafEntry_frame (alone_self r) (lower_of_small (stressAddr_small idx)) tables]
      exact unused idx
    · simp [before, held]
  obtain ⟨st₂, rest₂, ran, inv₂⟩ := rounds_inv isRoot room iterations start
  obtain ⟨st', rest, cleaned, inv, empty⟩ := cleanUp_inv (List.finRange STRESS_TEST_PAGES) inv₂ (by simp)
  have none : held st'.mapped = 0 := by simp [held, empty]
  have spent := inv.spent
  have fewer := inv.fewer
  have few : missing st.phys.mem r scratchTables ≤ 3 := List.countP_le_length
  have counted : countFreeWithin fuel st'.phys = some rest.length :=
    (Chain.count_linked inv.forest.list.linked (by omega) 0).trans (by rw [Nat.zero_add])
  refine ⟨st', rest, ?_, inv.forest, fun idx => inv.absent idx (empty idx), by omega⟩
  simp only [phase1StressTest, tripped, stressRandomMapUnmap, isRoot, ran, cleaned, counted]
  rw [if_neg]
  omega

/-- The run of the source, 5000 rounds from its seed, on seventy free pages. -/
theorem stress_test_passes_cleared : ∃ st' rest,
    phase1StressTest 71 0x100000 0 5000 ⟨clearedPhys 1 70, fun _ => false, 88172645⟩ = some st' ∧
      FreeList st'.phys rest ∧ 67 ≤ rest.length := by
  have list : FreeList (clearedPhys 1 70) (List.range' 1 70) := clearedPhys_free (by decide)
  have fresh : Fresh (clearedPhys 1 70) 0 (List.range' 1 70) :=
    ⟨list, by simp, fun _ _ => show present 0 = false by decide⟩
  have few : missing (clearedPhys 1 70).mem 0 scratchTables ≤ 3 := List.countP_le_length
  have length : (List.range' 1 70).length = 70 := List.length_range'
  have there : ∀ pp ∈ List.range' 1 70, Addressable 0x100000 pp := addressable_range (by decide) (by decide)
  generalize clearedPhys 1 70 = s at list fresh few ⊢
  generalize List.range' 1 70 = free at list fresh length there ⊢
  have room : STRESS_TEST_PAGES + missing s.mem 0 scratchTables ≤ free.length := by
    rw [length]
    exact (Nat.add_le_add_left few 64).trans (by decide)
  have unused : ∀ idx, present (leafEntry s 0 (stressAddr idx)) = false := fun idx => fresh.leaf (stressAddr_small idx)
  have passed : ∃ st' rest, phase1StressTest 71 0x100000 0 5000 ⟨s, fun _ => false, 88172645⟩ = some st' ∧
      Forest (alone 0) UserAccess.nobody 4 st'.phys rest ∧ (∀ idx, present (leafEntry st'.phys 0 (stressAddr idx)) = false) ∧
      free.length + missing st'.phys.mem 0 scratchTables = rest.length + missing s.mem 0 scratchTables := by
    refine stress_test_passes ?_ ?_ ?_ ?_ ?_ ?_ 5000
    · exact fresh.forest
    · rfl
    · exact unused
    · exact there
    · exact room
    · omega
  obtain ⟨st', rest, ran, forest, _, spent⟩ := passed
  refine ⟨st', rest, ran, forest.list, ?_⟩
  have left := Nat.le_of_add_right_le (Nat.le_of_eq spent)
  rw [length] at left
  generalize missing s.mem 0 scratchTables = tables at *
  omega

end Scratch

end HobbyKernel.StressProofs
