import HobbyKernel.Lib.Sorts
import HobbyKernel.LargePages
import HobbyKernel.MapRefinement

/-! The kernel half is shared: a new address space copies the top-level entries
of another one, and never looks back. It stays the same half, because a
top-level entry that is present is never written again, and because the tables
of the two halves never mix. -/
namespace HobbyKernel.KernelHalf
open AddressBits PageAllocProofs WalkProofs CopyProofs UserAccess MapRefinement LargePages Radix Runs

/-- What a table is used for: at the top of an address space, or at a level of
one of the halves. -/
inductive TableSort where
  | top
  | table (level : Nat) (kernel : Bool)

/-- Address spaces may meet in tables of one level and one half only. -/
def below : TableSort → Index → Option TableSort
  | .top, i => some (.table 2 (KERNEL_PML4_START ≤ i.val))
  | .table (level + 1) kernel, _ => some (.table level kernel)
  | .table 0 _, _ => none

/-- The places that kernel addresses are translated through. -/
def KernelPlace : TableSort → Index → Prop
  | .top, i => KERNEL_PML4_START ≤ i.val
  | .table _ kernel, _ => kernel = true

instance (i : Index) : Decidable (Lower i) := inferInstanceAs (Decidable (i.val < KERNEL_PML4_START))

abbrev pageTables : Layout Frame Index U64 := layout fun _ => True

/-- A free list apart from all tables. -/
structure Sorted (s : Phys) (sort : Frame → Option TableSort) (free : List Nat) : Prop where
  list : FreeList s free
  well : WellSorted pageTables below s.mem sort
  unfree : ∀ f ∈ free, sort f = none

/-- Tables may be added, from the free list. -/
structure Moves (zone : TableSort → Index → Prop) (s s' : Phys) (sort sort' : Frame → Option TableSort)
    (free free' : List Nat) : Prop where
  sorted : Sorted s' sort' free'
  extension : Extends pageTables below zone s.mem s'.mem sort sort'
  fewer : ∀ f ∈ free', f ∈ free
  fresh : ∀ f, sort f = none → f ∉ free → sort' f = none

variable {zone zone' : TableSort → Index → Prop} {s s' s'' : Phys} {sort sort' sort'' : Frame → Option TableSort}
  {free free' free'' : List Nat} {σ τ : TableSort} {t pml4 : Frame} {i : Index} {va vaddr physAddr flags : U64}

theorem Moves.refl (sorted : Sorted s sort free) : Moves zone s s sort sort free free :=
  ⟨sorted, .refl sort, fun _ member => member, fun _ none _ => none⟩

theorem Moves.trans (first : Moves zone s s' sort sort' free free') (second : Moves zone s' s'' sort' sort'' free' free'') :
    Moves zone s s'' sort sort'' free free'' :=
  ⟨second.sorted, first.extension.trans second.extension, fun f member => first.fewer f (second.fewer f member),
    fun f none outside => second.fresh f (first.fresh f none outside) fun member => outside (first.fewer f member)⟩

theorem Moves.weaken (moves : Moves zone s s' sort sort' free free') (fewer : ∀ σ i, zone' σ i → zone σ i) :
    Moves zone' s s' sort sort' free free' :=
  ⟨moves.sorted, moves.extension.weaken fewer, moves.fewer, moves.fresh⟩

/-- One level of a creating walk. -/
theorem nextTable_moves (sorted : Sorted s sort free) (known : sort t = some σ) (place : below σ i = some τ)
    (outside : ¬ zone σ i) : ∃ sort' free', Moves zone s (nextTable s t i true).1 sort sort' free free' ∧
      ∀ t', (nextTable s t i true).2 = some t' → sort' t' = some τ := by
  rcases nextTable_cases (fun _ => True) sorted.list t i with ⟨isPresent, same⟩ | ⟨_, _, same⟩ |
    ⟨absent, pp, rest, s', rfl, list, same, written⟩
  · rw [same]
    refine ⟨sort, free, .refl sorted, fun t' found => ?_⟩
    cases found
    exact sorted.well t σ i τ _ known place (by rw [layout_dec, isPresent]; rfl)
  · rw [same]
    exact ⟨sort, free, .refl sorted, nofun⟩
  · rw [same]
    have new := sorted.unfree pp List.mem_cons_self
    have small := sorted.list.small pp List.mem_cons_self
    obtain ⟨well, extension⟩ := sorted.well.graft zone known place (by rw [layout_dec, absent]; rfl) new
      (dec_walk_entry (fun _ => True) small) outside
    rw [← written] at well extension
    refine ⟨_, rest, ⟨⟨list, well, fun f member => ?_⟩, extension, fun f member => List.mem_cons_of_mem _ member,
      fun f none outside => ?_⟩, fun t' found => ?_⟩
    · rw [Function.update_of_ne]
      · exact sorted.unfree f (List.mem_cons_of_mem _ member)
      · rintro rfl
        exact (List.nodup_cons.mp sorted.list.nodup).1 member
    · rw [Function.update_of_ne]
      · exact none
      · rintro rfl
        exact outside List.mem_cons_self
    · cases found
      exact Function.update_self ..

/-- The walk along a path that avoids the zone arrives at a table whose entry
for the last index is outside the zone. -/
theorem walkTables_moves (todo : List Index) (last : Index) (sorted : Sorted s sort free) (known : sort t = some σ)
    (clear : Inside below (fun σ i => ¬ zone σ i) σ (todo ++ [last])) :
    ∃ sort' free', Moves zone s (walkTables s t todo).1 sort sort' free free' ∧
      ∀ t', (walkTables s t todo).2 = some t' → ∃ τ, sort' t' = some τ ∧ below τ last = none ∧ ¬ zone τ last := by
  induction todo generalizing s t σ sort free with
  | nil =>
    refine ⟨sort, free, .refl sorted, fun t' found => ?_⟩
    cases found
    exact ⟨σ, known, clear.2, clear.1⟩
  | cons i todo ih =>
    obtain ⟨j, rest, tail⟩ : ∃ j rest, todo ++ [last] = j :: rest := by
      cases todo with
      | nil => exact ⟨last, [], rfl⟩
      | cons j todo => exact ⟨j, todo ++ [last], rfl⟩
    rw [List.cons_append, tail] at clear
    obtain ⟨outside, τ, place, deeper⟩ := clear
    obtain ⟨sort', free', moves, found⟩ := nextTable_moves sorted known place outside
    rw [walkTables]
    generalize nextTable s t i true = out at *
    obtain ⟨s', _ | t'⟩ := out
    · exact ⟨sort', free', moves, fun _ stopped => by cases stopped⟩
    · obtain ⟨sort'', free'', moves', found'⟩ := ih moves.sorted (found t' rfl) (tail ▸ deeper)
      exact ⟨sort'', free'', moves.trans moves', found'⟩

/-- The places an address is translated through. -/
def placesOf (va : U64) : List Index := tablePath va ++ [leafIndex va]

theorem inside_lower (lower : Lower (subscript (pml4Index va))) :
    Inside below (fun σ i => ¬ KernelPlace σ i) .top (placesOf va) := by
  have half : decide (KERNEL_PML4_START ≤ (subscript (pml4Index va)).val) = false :=
    decide_eq_false (Nat.not_le.mpr lower)
  refine ⟨Nat.not_le.mpr lower, _, rfl, ?_⟩
  rw [half]
  exact ⟨nofun, _, rfl, nofun, _, rfl, nofun, rfl⟩

theorem inside_kernel (upper : ¬ Lower (subscript (pml4Index va))) : Inside below KernelPlace .top (placesOf va) := by
  have half : decide (KERNEL_PML4_START ≤ (subscript (pml4Index va)).val) = true :=
    decide_eq_true (Nat.not_lt.mp upper)
  refine ⟨Nat.not_lt.mp upper, _, rfl, ?_⟩
  rw [half]
  exact ⟨rfl, _, rfl, rfl, _, rfl, rfl, rfl⟩

theorem inside_any (va : U64) : Inside below (fun _ _ => ¬ False) .top (placesOf va) :=
  ⟨not_false, _, rfl, not_false, _, rfl, not_false, _, rfl, not_false, rfl⟩

/-- The effect of `vmm_map`, with a zone that the address is not translated
through. -/
theorem vmmMap_moves (physAddr flags : U64) (sorted : Sorted s sort free) (known : sort pml4 = some .top)
    (clear : Inside below (fun σ i => ¬ zone σ i) .top (placesOf vaddr)) :
    ∃ sort' free', Moves zone s (vmmMap s pml4 vaddr physAddr flags) sort sort' free free' := by
  obtain ⟨sort', free', moves, found⟩ := walkTables_moves (tablePath vaddr) (leafIndex vaddr) sorted known clear
  rw [vmmMap, vmmWalk_create]
  generalize walkTables s pml4 (tablePath vaddr) = out at *
  obtain ⟨s', _ | pt⟩ := out
  · exact ⟨sort', free', moves⟩
  · obtain ⟨τ, isSort, bottom, outside⟩ := found pt rfl
    obtain ⟨well, extension⟩ := moves.sorted.well.leaf zone (pteMake physAddr flags) isSort bottom outside
    exact ⟨sort', free', moves.trans ⟨⟨moves.sorted.list.mem_congr _, well, moves.sorted.unfree⟩, extension,
      fun _ member => member, fun _ none _ => none⟩⟩

theorem vmmUnmap_moves (sorted : Sorted s sort free) (known : sort pml4 = some .top)
    (clear : Inside below (fun σ i => ¬ zone σ i) .top (placesOf vaddr)) :
    Moves zone s (vmmUnmap s pml4 vaddr) sort sort free free := by
  rcases vmmUnmap_cases (fun _ => True) s pml4 vaddr with ⟨_, same⟩ | ⟨_, pt, reached, written⟩
  · rw [same]
    exact .refl sorted
  · rw [written]
    obtain ⟨τ, isSort, bottom, outside⟩ := sorted.well.leafTable known clear reached
    obtain ⟨well, extension⟩ := sorted.well.leaf zone 0 isSort bottom outside
    exact ⟨⟨sorted.list.mem_congr _, well, sorted.unfree⟩, extension, fun _ member => member, fun _ none _ => none⟩

/-- Other code takes frames off the free list, and writes to frames that are no
tables. -/
theorem elsewhere_moves (sorted : Sorted s sort free) (list : FreeList s' free') (fewer : ∀ f ∈ free', f ∈ free)
    (same : ∀ f, sort f ≠ none → s'.mem f = s.mem f) : Moves zone s s' sort sort free free' := by
  obtain ⟨well, extension⟩ := sorted.well.elsewhere zone same
  exact ⟨⟨list, well, fun f member => sorted.unfree f (fewer f member)⟩, extension, fewer, fun _ none _ => none⟩

/-- A new top-level table with the kernel half of another one. -/
theorem newTop_moves (zone : TableSort → Index → Prop) {parent : Frame} {pp : Nat} {rest : List Nat} (sorted : Sorted s sort (pp :: rest))
    (list : FreeList s' rest) (cleared : s'.mem = (s.zeroFrame pp).mem) (known : sort parent = some .top) :
    Moves zone s (s'.copyEntries pp parent KERNEL_PML4_START) sort (Function.update sort pp (some .top)) (pp :: rest) rest ∧
      ∀ i, ¬ Lower i → (s'.copyEntries pp parent KERNEL_PML4_START).mem pp i = s.mem parent i := by
  have new := sorted.unfree pp List.mem_cons_self
  have apart : parent ≠ pp := by
    rintro rfl
    rw [new] at known
    cases known
  have upper : ∀ i, ¬ Lower i → (s'.copyEntries pp parent KERNEL_PML4_START).mem pp i = s.mem parent i :=
    fun i high => copyEntries_upper cleared apart high
  have same : ∀ g, sort g ≠ none → (s'.copyEntries pp parent KERNEL_PML4_START).mem g = s.mem g := by
    intro g isTable
    have other : g ≠ pp := by
      rintro rfl
      exact isTable new
    funext j
    simp [Phys.copyEntries, Phys.zeroFrame, cleared, other]
  obtain ⟨well, extension⟩ := sorted.well.adopt zone .top new same fun i σ' g place edge => by
    by_cases low : Lower i
    · rw [copyEntries_lower cleared low] at edge
      cases edge
    · rw [upper i low] at edge
      exact sorted.well parent .top i σ' g known place edge
  refine ⟨⟨⟨list.mem_congr _, well, fun f member => ?_⟩, extension, fun f member => List.mem_cons_of_mem _ member,
    fun f none outside => ?_⟩, upper⟩
  · rw [Function.update_of_ne]
    · exact sorted.unfree f (List.mem_cons_of_mem _ member)
    · rintro rfl
      exact (List.nodup_cons.mp sorted.list.nodup).1 member
  · rw [Function.update_of_ne]
    · exact none
    · rintro rfl
      exact outside List.mem_cons_self

/-- One page of the lower half is copied. -/
theorem copyPage_moves {child : Frame} (pte : PageTableEntry) {i4 : Index} (lower : Lower i4) (i3 i2 i1 : Index)
    (sorted : Sorted s sort free) (known : sort child = some .top) :
    ∃ sort' free', Moves KernelPlace s (copyPage child (composeVaddr i4 i3 i2 i1) pte s).1 sort sort' free free' := by
  rcases pageAlloc_cases sorted.list 0#32 with ⟨_, failed⟩ | ⟨pp, rest, s', rfl, took, list, mem⟩
  · rw [copyPage, failed]
    exact ⟨sort, free, .refl sorted⟩
  · rw [copyPage, took]
    dsimp only
    rw [frameOf_page2pa (sorted.list.small pp List.mem_cons_self)]
    have first : Moves KernelPlace s (s'.copyFrame pp (frameOf (pteGetAddr pte))) sort sort (pp :: rest) rest := by
      refine elsewhere_moves sorted (list.mem_congr _) (fun f member => List.mem_cons_of_mem _ member) fun f isTable => ?_
      have other : f ≠ pp := by
        rintro rfl
        exact isTable (sorted.unfree f List.mem_cons_self)
      funext j
      simp [Phys.copyFrame, other, alloc_elsewhere mem other]
    obtain ⟨sort', free', moves⟩ := vmmMap_moves (page2pa pp) (pte &&& 0xFFF) first.sorted known
      (inside_lower (lower_composeVaddr lower i3 i2 i1))
    exact ⟨sort', free', first.trans moves⟩

theorem scanTable_moves {table : Frame} {under : Index → PageTableEntry → Phys → Phys × Bool} {s₀ : Phys}
    {sort₀ : Frame → Option TableSort} {free₀ : List Nat}
    (held : ∃ sort free, Moves KernelPlace s₀ s sort₀ sort free₀ free)
    (keep : ∀ pte s, (∃ sort free, Moves KernelPlace s₀ s sort₀ sort free₀ free) →
      ∃ sort free, Moves KernelPlace s₀ (under i pte s).1 sort₀ sort free₀ free) :
    ∃ sort free, Moves KernelPlace s₀ (scanTable table under i s).1 sort₀ sort free₀ free := by
  rw [scanTable]
  split
  · exact keep _ s held
  · exact held

theorem copyLower_moves (parent : Frame) {child : Frame} (sorted : Sorted s sort free) (known : sort child = some .top) :
    ∃ sort' free', Moves KernelPlace s (copyLower parent child s).1 sort sort' free free' := by
  let inv (s' : Phys) : Prop := ∃ sort' free', Moves KernelPlace s s' sort sort' free free'
  refine Loop.forEach_invariant inv ⟨sort, free, .refl sorted⟩ fun i4 first _ held => scanTable_moves held fun e4 _ held => ?_
  refine Loop.forEach_invariant inv held fun i3 _ _ held => scanTable_moves held fun e3 _ held => ?_
  refine Loop.forEach_invariant inv held fun i2 _ _ held => scanTable_moves held fun e2 _ held => ?_
  refine Loop.forEach_invariant inv held fun i1 _ _ held => scanTable_moves held fun pte _ held => ?_
  obtain ⟨sort', free', moves⟩ := held
  obtain ⟨sort'', free'', last⟩ := copyPage_moves pte (mem_lowerIndices.mp first) i3 i2 i1 moves.sorted
    (moves.extension.mono child _ known)
  exact ⟨sort'', free'', moves.trans last⟩

/-- Physical memory, the top-level tables of the address spaces in it, and the
pages that other code has taken. -/
structure Halves where
  phys : Phys
  tops : List Frame
  held : List Nat

inductive HalfAction where
  | newSpace (cr3 : U64)
  | copySpace (parent : Frame)
  | map (pml4 : Frame) (vaddr physAddr flags : U64)
  | unmap (pml4 : Frame) (vaddr : U64)
  | take (flags : U32)
  | release (pp : Nat)

def halfStep (s : Halves) : HalfAction → Option (Halves × List Empty)
  | .newSpace cr3 =>
    let (phys, made) := vmmNewAddressSpace s.phys cr3
    some (⟨phys, made.toList ++ s.tops, s.held⟩, [])
  | .copySpace parent =>
    let (phys, made) := vmmCopyAddressSpace s.phys parent
    some (⟨phys, made.toList ++ s.tops, s.held⟩, [])
  | .map pml4 vaddr physAddr flags => some ({ s with phys := vmmMap s.phys pml4 vaddr physAddr flags }, [])
  | .unmap pml4 vaddr => some ({ s with phys := vmmUnmap s.phys pml4 vaddr }, [])
  | .take flags =>
    let (phys, taken) := pageAlloc s.phys flags
    some (⟨phys, s.tops, taken.toList ++ s.held⟩, [])
  | .release pp => some (⟨pageFree s.phys pp, s.tops, s.held.erase pp⟩, [])

/-- Only address spaces are worked on, and only pages that were taken are given
back. -/
def HalfAllowed (s : Halves) : HalfAction → Prop
  | .newSpace cr3 => getCurrentPml4 cr3 ∈ s.tops
  | .copySpace parent => parent ∈ s.tops
  | .map pml4 _ _ _ => pml4 ∈ s.tops
  | .unmap pml4 _ => pml4 ∈ s.tops
  | .take _ => True
  | .release pp => pp ∈ s.held

instance (s : Halves) : (a : HalfAction) → Decidable (HalfAllowed s a)
  | .newSpace cr3 => inferInstanceAs (Decidable (getCurrentPml4 cr3 ∈ s.tops))
  | .copySpace parent => inferInstanceAs (Decidable (parent ∈ s.tops))
  | .map pml4 _ _ _ => inferInstanceAs (Decidable (pml4 ∈ s.tops))
  | .unmap pml4 _ => inferInstanceAs (Decidable (pml4 ∈ s.tops))
  | .take _ => .isTrue trivial
  | .release pp => inferInstanceAs (Decidable (pp ∈ s.held))

/-- The address space whose kernel half a new one is given. -/
def HalfAction.source : HalfAction → Option Frame
  | .newSpace cr3 => some (getCurrentPml4 cr3)
  | .copySpace parent => some parent
  | _ => none

/-- The address that is mapped or unmapped. -/
def HalfAction.address : HalfAction → Option U64
  | .map _ vaddr _ _ => some vaddr
  | .unmap _ vaddr => some vaddr
  | _ => none

/-- An address of the kernel half is neither mapped nor unmapped. -/
def HalfAction.SparesKernel (a : HalfAction) : Prop := ∀ va ∈ a.address, Lower (subscript (pml4Index va))

structure HalvesInv (s : Halves) (sort : Frame → Option TableSort) (free : List Nat) : Prop where
  sorted : Sorted s.phys sort free
  tops : ∀ r ∈ s.tops, sort r = some .top
  unsorted : ∀ pp ∈ s.held, sort pp = none ∧ pp < 2 ^ 40
  distinct : (free ++ s.held).Nodup

/-- What one step does for a zone that no address of it is translated through. -/
structure HalfMoves (zone : TableSort → Index → Prop) (s s' : Halves) (sort sort' : Frame → Option TableSort) (free' : List Nat) :
    Prop where
  inv : HalvesInv s' sort' free'
  extension : Extends pageTables below zone s.phys.mem s'.phys.mem sort sort'
  tops : ∀ r ∈ s.tops, r ∈ s'.tops

variable {h h' h'' : Halves} {a : HalfAction} {new events : List Empty} {src child kernel : Frame}

theorem HalfMoves.trans (first : HalfMoves zone h h' sort sort' free') (second : HalfMoves zone h' h'' sort' sort'' free'') :
    HalfMoves zone h h'' sort sort'' free'' :=
  ⟨second.inv, first.extension.trans second.extension, fun r member => second.tops r (first.tops r member)⟩

/-- Tables were added from the free list; the pages that others hold are not
among them. -/
theorem HalvesInv.moves {phys : Phys} (made : List Frame) (inv : HalvesInv h sort free)
    (moves : Moves zone h.phys phys sort sort' free free') (distinct : free'.Nodup)
    (isTop : ∀ r ∈ made, sort' r = some .top) : HalfMoves zone h ⟨phys, made ++ h.tops, h.held⟩ sort sort' free' := by
  obtain ⟨_, heldDistinct, apart⟩ := List.nodup_append.mp inv.distinct
  refine ⟨⟨moves.sorted, fun r member => ?_, fun pp member => ⟨?_, (inv.unsorted pp member).2⟩, ?_⟩, moves.extension,
    fun r member => List.mem_append_right _ member⟩
  · rcases List.mem_append.mp member with new | old
    · exact isTop r new
    · exact moves.extension.mono r _ (inv.tops r old)
  · exact moves.fresh pp (inv.unsorted pp member).1 fun listed => apart pp listed pp member rfl
  · exact List.nodup_append.mpr ⟨distinct, heldDistinct, fun f listed pp member => apart f (moves.fewer f listed) pp member⟩

/-- The new table of either kind of creation, with what it was given. -/
theorem create_moves (inv : HalvesInv h sort free) (allowed : HalfAllowed h a) (isSource : a.source = some src)
    (did : halfStep h a = some (h', new)) : ∃ sort' free', HalfMoves KernelPlace h h' sort sort' free' ∧
      ∀ child, h'.tops = child :: h.tops → ∀ i, ¬ Lower i → h'.phys.mem child i = h.phys.mem src i := by
  have unchanged (same : h' = ⟨h.phys, [] ++ h.tops, h.held⟩) : ∃ sort' free', HalfMoves KernelPlace h h' sort sort' free' ∧
      ∀ child, h'.tops = child :: h.tops → ∀ i, ¬ Lower i → h'.phys.mem child i = h.phys.mem src i := by
    refine ⟨sort, free, same ▸ inv.moves [] (.refl inv.sorted) inv.sorted.list.nodup nofun, fun child grown => ?_⟩
    have := congrArg List.length (same ▸ grown)
    simp at this
  cases a with
  | newSpace cr3 =>
    cases isSource
    simp only [halfStep, Option.some.injEq, Prod.mk.injEq] at did
    obtain ⟨rfl, rfl⟩ := did
    rcases pageAlloc_cases inv.sorted.list 1#32 with ⟨_, failed⟩ | ⟨pp, rest, s', rfl, took, list, cleared⟩
    · rw [vmmNewAddressSpace, failed] at unchanged ⊢
      exact unchanged rfl
    · obtain ⟨moves, upper⟩ := newTop_moves KernelPlace inv.sorted list cleared (inv.tops _ allowed)
      rw [vmmNewAddressSpace, took]
      dsimp only
      rw [frameOf_page2pa (inv.sorted.list.small pp List.mem_cons_self)]
      refine ⟨_, rest, inv.moves [pp] moves list.nodup fun r member => ?_, fun child grown => ?_⟩
      · rw [List.mem_singleton.mp member, Function.update_self]
      · cases grown
        exact upper
  | copySpace parent =>
    cases isSource
    simp only [halfStep, Option.some.injEq, Prod.mk.injEq] at did
    obtain ⟨rfl, rfl⟩ := did
    rcases pageAlloc_cases inv.sorted.list 1#32 with ⟨_, failed⟩ | ⟨pp, rest, s', rfl, took, list, cleared⟩
    · rw [vmmCopyAddressSpace, failed] at unchanged ⊢
      exact unchanged rfl
    · obtain ⟨moves, upper⟩ := newTop_moves KernelPlace inv.sorted list cleared (inv.tops _ allowed)
      obtain ⟨sort', free', copied⟩ := copyLower_moves src moves.sorted (Function.update_self pp (some .top) sort)
      have all := moves.trans copied
      have kept := copied.extension.kept pp .top
      rw [vmmCopyAddressSpace, took]
      dsimp only
      rw [frameOf_page2pa (inv.sorted.list.small pp List.mem_cons_self)]
      generalize copyLower src pp (s'.copyEntries pp src KERNEL_PML4_START) = out at *
      obtain ⟨s'', _ | _⟩ := out
      · refine ⟨sort', free', inv.moves [] all all.sorted.list.nodup nofun, fun child grown => ?_⟩
        have := congrArg List.length grown
        simp at this
      · refine ⟨sort', free', inv.moves [pp] all all.sorted.list.nodup fun r member => ?_, fun child grown i high => ?_⟩
        · rw [List.mem_singleton.mp member]
          exact copied.extension.mono pp _ (Function.update_self ..)
        · cases grown
          exact (kept i (Function.update_self ..) (Nat.not_lt.mp high)).trans (upper i high)
  | map | unmap | take | release => cases isSource

/-- Giving back a page puts it in front of the free list, or does nothing. -/
theorem pageFree_moves (zone : TableSort → Index → Prop) {pp : Nat} (inv : HalvesInv h sort free) (member : pp ∈ h.held) :
    ∃ free', HalfMoves zone h ⟨pageFree h.phys pp, h.tops, h.held.erase pp⟩ sort sort free' := by
  obtain ⟨freeDistinct, heldDistinct, apart⟩ := List.nodup_append.mp inv.distinct
  have others : ∀ q ∈ h.held.erase pp, q ≠ pp ∧ q ∈ h.held := fun q kept => (List.Nodup.mem_erase_iff heldDistinct).mp kept
  have unlisted : pp ∉ free := fun listed => apart pp listed pp member rfl
  have unsorted : ∀ q ∈ h.held.erase pp, sort q = none ∧ q < 2 ^ 40 := fun q kept => inv.unsorted q (others q kept).2
  by_cases bad : badFree h.phys pp = true
  · rw [pageFree, if_pos bad]
    refine ⟨free, ⟨inv.sorted, inv.tops, unsorted, ?_⟩, .refl sort, fun _ top => top⟩
    exact List.nodup_append.mpr ⟨freeDistinct, heldDistinct.erase pp, fun f listed q kept => apart f listed q (others q kept).2⟩
  · rw [pageFree, if_neg bad]
    have pushed := Chain.linked_push inv.sorted.list.linked unlisted
    refine ⟨pp :: free, ⟨⟨⟨Chain.linked_congr pushed fun q _ => ?_, fun q listed => ?_⟩, inv.sorted.well, fun q listed => ?_⟩,
      inv.tops, unsorted, ?_⟩, .refl sort, fun _ top => top⟩
    · by_cases same : q = pp
      · subst same
        simp
      · simp [same]
    · rcases List.mem_cons.mp listed with rfl | old
      · exact (inv.unsorted q member).2
      · exact inv.sorted.list.small q old
    · rcases List.mem_cons.mp listed with rfl | old
      · exact (inv.unsorted q member).1
      · exact inv.sorted.unfree q old
    · refine List.nodup_append.mpr ⟨List.nodup_cons.mpr ⟨unlisted, freeDistinct⟩, heldDistinct.erase pp, fun f listed q kept => ?_⟩
      rcases List.mem_cons.mp listed with rfl | old
      · exact (others q kept).1.symm
      · exact apart f old q (others q kept).2

/-- Every step keeps the tables of the two halves apart, and writes to no place
that is in the zone. -/
theorem halfStep_moves (inv : HalvesInv h sort free) (allowed : HalfAllowed h a) (did : halfStep h a = some (h', new))
    (within : ∀ σ i, zone σ i → KernelPlace σ i)
    (avoids : ∀ va ∈ a.address, Inside below (fun σ i => ¬ zone σ i) .top (placesOf va)) :
    ∃ sort' free', HalfMoves zone h h' sort sort' free' := by
  have created (src : Frame) (isSource : a.source = some src) : ∃ sort' free', HalfMoves zone h h' sort sort' free' := by
    obtain ⟨sort', free', moves, _⟩ := create_moves inv allowed isSource did
    exact ⟨sort', free', moves.inv, moves.extension.weaken within, moves.tops⟩
  cases a with
  | newSpace cr3 => exact created _ rfl
  | copySpace parent => exact created _ rfl
  | map pml4 vaddr physAddr flags =>
    cases did
    obtain ⟨sort', free', moves⟩ := vmmMap_moves physAddr flags inv.sorted (inv.tops pml4 allowed) (avoids vaddr rfl)
    exact ⟨sort', free', inv.moves [] moves moves.sorted.list.nodup nofun⟩
  | unmap pml4 vaddr =>
    cases did
    exact ⟨sort, free, inv.moves [] (vmmUnmap_moves inv.sorted (inv.tops pml4 allowed) (avoids vaddr rfl))
      inv.sorted.list.nodup nofun⟩
  | take flags =>
    simp only [halfStep, Option.some.injEq, Prod.mk.injEq] at did
    obtain ⟨rfl, rfl⟩ := did
    rcases pageAlloc_cases inv.sorted.list flags with ⟨_, failed⟩ | ⟨pp, rest, s', rfl, took, list, mem⟩
    · rw [failed]
      exact ⟨sort, free, inv.moves [] (.refl inv.sorted) inv.sorted.list.nodup nofun⟩
    · rw [took]
      have new := inv.sorted.unfree pp List.mem_cons_self
      have moves : Moves zone h.phys s' sort sort (pp :: rest) rest := by
        refine elsewhere_moves inv.sorted list (fun f member => List.mem_cons_of_mem _ member) fun f isTable => ?_
        refine alloc_elsewhere mem ?_
        rintro rfl
        exact isTable new
      refine ⟨sort, rest, ⟨moves.sorted, inv.tops, fun q member => ?_, ?_⟩, moves.extension, fun _ top => top⟩
      · rcases List.mem_cons.mp member with rfl | old
        · exact ⟨new, inv.sorted.list.small q List.mem_cons_self⟩
        · exact inv.unsorted q old
      · exact List.perm_middle.nodup_iff.mpr inv.distinct
  | release pp =>
    cases did
    obtain ⟨free', moves⟩ := pageFree_moves zone inv allowed
    exact ⟨sort, free', moves⟩

theorem run_moves (zone : TableSort → Index → Prop) {allowed : Halves → HalfAction → Prop} (inv : HalvesInv h sort free)
    (within : ∀ σ i, zone σ i → KernelPlace σ i) (legal : ∀ h a, allowed h a → HalfAllowed h a)
    (avoids : ∀ h a, allowed h a → ∀ va ∈ a.address, Inside below (fun σ i => ¬ zone σ i) .top (placesOf va))
    (run : Run halfStep allowed h events h') : ∃ sort' free', HalfMoves zone h h' sort sort' free' := by
  refine run.invariant (fun _ h' => ∃ sort' free', HalfMoves zone h h' sort sort' free') ?_ ?_
  · exact ⟨sort, free, inv, .refl sort, fun _ member => member⟩
  · rintro _ h₁ a h₂ new ⟨sort₁, free₁, moves⟩ may did
    obtain ⟨sort₂, free₂, moves'⟩ := halfStep_moves moves.inv (legal _ _ may) did within (avoids _ _ may)
    exact ⟨sort₂, free₂, moves.trans moves'⟩

/-- The sort of the table at a path. -/
def sortAt : List Index → TableSort
  | [] => .top
  | i :: path => .table (2 - path.length) (KERNEL_PML4_START ≤ i.val)

theorem below_sortAt {path : List Index} (short : path.length ≤ 3) (i : Index) :
    below (sortAt path) i = if path.length ≤ 2 then some (sortAt (path ++ [i])) else none := by
  match path, short with
  | [], _ => rfl
  | [_], _ => rfl
  | [_, _], _ => rfl
  | [_, _, _], _ => rfl

open Classical in
/-- The sorts of the tables of one hierarchy. -/
noncomputable def initialSort (s : Phys) (kernel : Frame) (f : Frame) : Option TableSort :=
  if at_ : ∃ path, path.length ≤ 3 ∧ tableAt s kernel path = some f then some (sortAt at_.choose) else none

theorem initialSort_eq (wf : WellFormed s kernel free) (path : List Index) {f : Frame} (short : path.length ≤ 3)
    (reached : tableAt s kernel path = some f) : initialSort s kernel f = some (sortAt path) := by
  have place : ∃ path, path.length ≤ 3 ∧ tableAt s kernel path = some f := ⟨path, short, reached⟩
  rw [initialSort, dif_pos place,
    wf.noSharing _ path f place.choose_spec.1 short place.choose_spec.2 reached]

theorem initialSort_known {f : Frame} (known : initialSort s kernel f = some σ) :
    ∃ path, path.length ≤ 3 ∧ tableAt s kernel path = some f ∧ σ = sortAt path := by
  rw [initialSort] at known
  split at known
  · next place =>
    cases known
    exact ⟨_, place.choose_spec.1, place.choose_spec.2, rfl⟩
  · cases known

theorem initial_inv (wf : WellFormed s kernel free) : HalvesInv ⟨s, [kernel], []⟩ (initialSort s kernel) free := by
  refine ⟨⟨wf.list, fun f σ i σ' g known place edge => ?_, fun f member => ?_⟩, fun r member => ?_, nofun, ?_⟩
  · obtain ⟨path, short, reached, rfl⟩ := initialSort_known known
    rw [below_sortAt short] at place
    split at place
    · cases place
      refine initialSort_eq wf (path ++ [i]) (by simp; omega) ?_
      rw [tableAt, follow_concat, show follow pageTables s.mem kernel path = some f from reached]
      exact edge
    · cases place
  · cases known : initialSort s kernel f with
    | none => rfl
    | some σ =>
      obtain ⟨path, short, reached, _⟩ := initialSort_known known
      exact absurd member (wf.notFree path f short reached)
  · rw [List.mem_singleton.mp member]
    exact initialSort_eq wf [] (by simp) rfl
  · rw [List.append_nil]
    exact wf.list.nodup

/-- An address is translated alike, by the processor and by the kernel's own
walk. -/
def SameTranslation (s s' : Phys) (r r' : Frame) (va : U64) : Prop :=
  Cpu.translate s'.mem r' va = Cpu.translate s.mem r va ∧ leafEntry s' r' va = leafEntry s r va

/-- An address is translated as before when no entry on its path was written. -/
theorem sameTranslation_of_path {r : Frame}
    (same : ∀ before j after t, placesOf va = before ++ j :: after → follow pageTables s.mem r before = some t →
      s'.mem t j = s.mem t j) : SameTranslation s s' r r va := by
  have reach : follow pageTables s'.mem r (tablePath va) = follow pageTables s.mem r (tablePath va) := by
    refine follow_congr fun before j after t split reached => ?_
    rw [same before j (after ++ [leafIndex va]) t (by rw [placesOf, split, List.append_assoc]; rfl) reached]
  refine ⟨translate_congr fun before j after t split reached => same before j after t split (walked_of_paged reached), ?_⟩
  rw [leafEntry_eq fun _ => True, leafEntry_eq fun _ => True, entry, entry, reach]
  cases reached : follow pageTables s.mem r (tablePath va) with
  | none => rfl
  | some t => exact same _ _ [] t rfl reached

/-- Top-level tables with the same entry for an address translate it alike. -/
theorem sameTranslation_of_top {r r' : Frame}
    (same : s.mem r' (subscript (pml4Index va)) = s.mem r (subscript (pml4Index va))) : SameTranslation s s r r' va := by
  have index : Cpu.indexAt va 3 = subscript (pml4Index va) := (List.cons.inj (indexAt_path va).1).1
  refine ⟨by simp only [Cpu.translate, index, same], ?_⟩
  simp only [leafEntry, vmmWalk_read fun _ => True, tablePath, follow, same]

/-- The kernel half of an address space is that of its source, for every entry
that was present when it was made, at every later time; and what is done to
lower halves changes no kernel half. -/
theorem kernel_half_coherent (wf : WellFormed s kernel free) (run : Run halfStep HalfAllowed ⟨s, [kernel], []⟩ events h) :
    (∀ a src h₁ new, HalfAllowed h a → a.source = some src → halfStep h a = some (h₁, new) →
      ∀ child, h₁.tops = child :: h.tops → ∀ later h₂, Run halfStep HalfAllowed h₁ later h₂ → ∀ va,
        ¬ Lower (subscript (pml4Index va)) → present (h.phys.mem src (subscript (pml4Index va))) = true →
          SameTranslation h₂.phys h₂.phys src child va) ∧
    ∀ later h₂, Run halfStep (fun h a => HalfAllowed h a ∧ a.SparesKernel) h later h₂ → ∀ r ∈ h.tops, ∀ va,
      ¬ Lower (subscript (pml4Index va)) → SameTranslation h.phys h₂.phys r r va := by
  obtain ⟨sort, free', start⟩ := run_moves (fun _ _ => False) (initial_inv wf) (fun _ _ => False.elim)
    (fun _ _ => id) (fun _ _ _ va _ => inside_any va) run
  constructor
  · intro a src h₁ new allowed isSource did child grown later h₂ run' va upper isPresent
    obtain ⟨sort₁, free₁, made, given⟩ := create_moves start.inv allowed isSource did
    obtain ⟨sort₂, free₂, rest⟩ := run_moves (fun _ _ => False) made.inv (fun _ _ => False.elim)
      (fun _ _ => id) (fun _ _ _ va _ => inside_any va) run'
    have isTop : sort src = some .top := by
      cases a with
      | newSpace | copySpace =>
        cases isSource
        exact start.inv.tops _ allowed
      | map | unmap | take | release => cases isSource
    have edge : ∀ e, present e = true → pageTables.dec e ≠ none := by
      intro e isPresent
      rw [layout_dec, isPresent]
      simp
    -- Both top-level entries are the one that was copied, ever since.
    have copied := given child grown (subscript (pml4Index va)) upper
    have source := made.extension.edges src .top _ isTop nofun (edge _ isPresent)
    have childKept := rest.extension.edges child .top (subscript (pml4Index va))
      (made.inv.tops child (by rw [grown]; exact List.mem_cons_self)) nofun (edge _ (by rw [copied]; exact isPresent))
    have sourceKept := rest.extension.edges src .top (subscript (pml4Index va))
      (made.extension.mono src _ isTop) nofun (edge _ (by rw [source]; exact isPresent))
    exact sameTranslation_of_top (by rw [childKept, sourceKept, copied, source])
  · intro later h₂ run' r member va upper
    obtain ⟨sort₂, free₂, rest⟩ := run_moves KernelPlace start.inv (fun _ _ => id) (fun _ _ may => may.1)
      (fun _ _ may va isAddress => inside_lower (may.2 va isAddress)) run'
    exact sameTranslation_of_path fun before j after t split reached =>
      rest.extension.visited start.inv.sorted.well (start.inv.tops r member) (inside_kernel upper) split reached

/-- A kernel page that is mapped through the new address space is found through
the old one, and a user page of the new one changes nothing for either. -/
theorem kernel_half_coherent_mapped : ∃ h h' : Halves, h.tops = [4, 0] ∧
    leafEntry h.phys 4 0xFFFF800000002000 = 0x7003 ∧ SameTranslation h.phys h.phys 0 4 0xFFFF800000002000 ∧
    leafEntry h'.phys 4 0x3000 = 0x8007 ∧ SameTranslation h.phys h'.phys 0 0 0xFFFF800000002000 := by
  have wf := clearedPhys_wellFormed (by decide : 1 + 9 ≤ 2 ^ 40)
  have one : Run halfStep HalfAllowed ⟨clearedPhys 1 9, [0], []⟩ _ _ :=
    .next (.map 0 0xFFFF800000001000 0x5000 3) .start List.mem_cons_self rfl
  have all : Run halfStep HalfAllowed ⟨clearedPhys 1 9, [0], []⟩ _ _ :=
    .next (.map 4 0xFFFF800000002000 0x7000 3) (one.next (.newSpace (pml4Phys 0)) (by decide +kernel) rfl)
      (by decide +kernel) rfl
  refine ⟨_, _, ?_, ?_, (kernel_half_coherent wf one).1 (.newSpace (pml4Phys 0)) 0 _ _ (by decide +kernel) (by decide +kernel) rfl 4
    (by decide +kernel) _ _ (.next (.map 4 0xFFFF800000002000 0x7000 3) .start (by decide +kernel) rfl) 0xFFFF800000002000
    (by decide +kernel) (by decide +kernel), ?_, (kernel_half_coherent wf all).2 _ _
    (.next (.map 4 0x3000 0x8000 7) .start ⟨by decide +kernel, ?_⟩ rfl) 0 (by decide +kernel) _ (by decide +kernel)⟩
  · decide +kernel
  · decide +kernel
  · decide +kernel
  · rintro va isAddress
    cases isAddress
    decide +kernel

end HobbyKernel.KernelHalf
