import HobbyKernel.PageOwnership

/-! Address spaces under construction. `vmm_new_address_space` and
`vmm_copy_address_space` take every frame they write from the free list, so
while a child is being built nothing outside that list changes, and no frame of
the child has a second owner. Running out of frames stops the copy without
disturbing anything else. -/
namespace HobbyKernel.CopyProofs
open AddressBits PageAllocProofs WalkProofs PageOwnership Radix

/-- The forest that consists of one address space. -/
def alone (child : Frame) : Unit → Option Frame := fun _ => some child

theorem alone_self (r : Frame) : alone r () = some r := rfl

/-- All frames that were not free when the construction began belong to others. -/
def Outside (free₀ : List Nat) : Unit → Frame → Prop := fun _ f => f ∉ free₀

/-- What holds between two steps of a construction that began in memory `s₀`
with free list `free₀`, of which `rest` is left. -/
structure Building (upper : Index → U64) (s₀ : Phys) (free₀ : List Nat) (child : Frame) (s : Phys)
    (rest : List Nat) : Prop where
  list : FreeList s rest
  suffix : rest <:+ free₀
  exclusive : Exclusive (layout Lower) s.mem (alone child) 4 (Outside free₀) rest
  outside : ∀ f, f ∉ free₀ → s.mem f = s₀.mem f
  kernelHalf : ∀ j : Index, ¬ Lower j → s.mem child j = upper j
  walkable : Walkable Lower s.mem (alone child)

variable {upper : Index → U64} {parent child : Frame} {s₀ s : Phys} {free₀ rest : List Nat}

theorem Building.root (_ : Building upper s₀ free₀ child s rest) :
    Node (layout Lower) s.mem (alone child) 4 () [] child :=
  ⟨by simp, by simp [Layout.Admitted], child, rfl, rfl⟩

/-- The tables and pages of the child were free when its construction began. -/
theorem Building.node_mem (building : Building upper s₀ free₀ child s rest) {path : List Index} {f : Frame}
    (node : Node (layout Lower) s.mem (alone child) 4 () path f) : f ∈ free₀ := by
  by_contra outside
  have same := building.exclusive.unique (.node () path) (.other ()) f node outside
  cases same

theorem alone_empty {mem : PhysMem} {path : List Index} {f : Frame} {depth : Nat}
    (empty : ∀ j, Lower j → mem child j = 0)
    (node : Node (layout Lower) mem (alone child) depth () path f) : path = [] ∧ f = child := by
  obtain ⟨_, admitted, r, isRoot, reached⟩ := node
  cases isRoot
  cases path with
  | nil => exact ⟨rfl, (Option.some.inj reached).symm⟩
  | cons i path =>
    rw [follow, empty i (admitted i rfl)] at reached
    cases reached

/-- The lower half of a new top-level table is empty. -/
theorem copyEntries_lower {c : Frame} (cleared : s.mem = (s₀.zeroFrame c).mem) {j : Index} (lower : Lower j) :
    (s.copyEntries c parent KERNEL_PML4_START).mem c j = 0 := by
  have below : ¬ KERNEL_PML4_START ≤ j.val := Nat.not_le.mpr lower
  simp [Phys.copyEntries, Phys.zeroFrame, cleared, below]

/-- The upper half of a new top-level table is that of a table in use. -/
theorem copyEntries_upper {c : Frame} (cleared : s.mem = (s₀.zeroFrame c).mem) (apart : parent ≠ c) {j : Index}
    (upper : ¬ Lower j) : (s.copyEntries c parent KERNEL_PML4_START).mem c j = s₀.mem parent j := by
  have above : KERNEL_PML4_START ≤ j.val := Nat.not_lt.mp upper
  simp [Phys.copyEntries, Phys.zeroFrame, cleared, above, apart]

/-- A cleared top-level table with the kernel half of another is an address
space with nothing in it. -/
theorem building_start (parent : Frame) {c : Nat} (list₀ : FreeList s₀ (c :: rest)) (list : FreeList s rest)
    (cleared : s.mem = (s₀.zeroFrame c).mem) :
    Building ((s.copyEntries c parent KERNEL_PML4_START).mem c) s₀ (c :: rest) c
      (s.copyEntries c parent KERNEL_PML4_START) rest := by
  have elsewhere : ∀ f, f ≠ c → (s.copyEntries c parent KERNEL_PML4_START).mem f = s₀.mem f := by
    intro f other
    funext j
    simp [Phys.copyEntries, Phys.zeroFrame, cleared, other]
  have lowerEmpty : ∀ j : Index, Lower j → (s.copyEntries c parent KERNEL_PML4_START).mem c j = 0 :=
    fun j => copyEntries_lower cleared
  have fresh : c ∉ rest := (List.nodup_cons.mp list₀.nodup).1
  refine ⟨list.mem_congr _, List.suffix_cons c rest, ⟨fun o o' f owns owns' => ?_, fun o f owns member => ?_⟩,
    fun f other => elsewhere f (fun same => other (same ▸ List.mem_cons_self)), fun _ _ => rfl, ?_⟩
  · cases o with
    | node u path =>
      obtain ⟨rfl, rfl⟩ := alone_empty lowerEmpty owns
      cases o' with
      | node u' path' => rw [(alone_empty lowerEmpty owns').1]
      | other u' => exact absurd List.mem_cons_self owns'
    | other u =>
      cases o' with
      | node u' path' => exact absurd ((alone_empty lowerEmpty owns').2 ▸ List.mem_cons_self) owns
      | other u' => rfl
  · cases o with
    | node u path => exact fresh ((alone_empty lowerEmpty owns).2 ▸ member)
    | other u => exact owns (List.mem_cons_of_mem _ member)
  · intro u path t i node admitted isPresent
    obtain ⟨rfl, rfl⟩ := alone_empty lowerEmpty node
    rw [lowerEmpty i (admitted i rfl)] at isPresent
    exact absurd isPresent (show ¬ present 0#64 = true by decide)

/-- Mapping a frame taken off the free list into the child, whatever was
written to that frame in between. -/
theorem Building.map (building : Building upper s₀ free₀ child s (pp :: rest)) {s' : Phys}
    (list : FreeList s' rest) (same : ∀ f, f ≠ pp → s'.mem f = s.mem f) (plain : PlainFlags flags)
    (lower : Lower (subscript (pml4Index vaddr))) :
    ∃ taken rest', rest = taken ++ rest' ∧
      Building upper s₀ free₀ child (vmmMap s' child vaddr (page2pa pp) flags) rest' := by
  have small : pp < 2 ^ 40 := building.list.small pp List.mem_cons_self
  have fresh : pp ∉ rest := (List.nodup_cons.mp building.list.nodup).1
  have wasFree : ∀ f ∈ pp :: rest, f ∈ free₀ := fun f member => building.suffix.subset member
  have tables : ∀ (u : Unit) path t, Node (layout Lower) s.mem (alone child) 3 u path t → s'.mem t = s.mem t := by
    intro u path t node
    refine same t (fun isPp => building.exclusive.node_unfree (node.mono (by decide)) ?_)
    exact isPp ▸ List.mem_cons_self
  have exclusive := building.exclusive.frame tables
  obtain ⟨taken, rest', split, grows, exclusive', _⟩ := vmmMap_fresh vaddr (k := ()) list fresh small
    exclusive plain (r := child) rfl lower
  have takenFree : ∀ f ∈ taken, f ∈ free₀ := fun f member =>
    wasFree f (List.mem_cons_of_mem _ (by rw [split]; exact List.mem_append_left _ member))
  have childNotPp : child ≠ pp := by
    intro isPp
    exact building.exclusive.node_unfree building.root (isPp ▸ List.mem_cons_self)
  refine ⟨taken, rest', split, grows.list, ?_, exclusive', fun f outside => ?_, fun j upperHalf => ?_, ?_⟩
  · have tail : rest' <:+ pp :: rest := by
      rw [split]
      exact ⟨pp :: taken, rfl⟩
    exact tail.trans building.suffix
  · rw [← building.outside f outside, ← same f (fun isPp => outside (wasFree f (isPp ▸ List.mem_cons_self)))]
    funext i
    by_contra changed
    rcases grows.frame f i changed with new | ⟨path, node, _⟩
    · exact outside (takenFree f new)
    · have owned := exclusive.unique (.node () path) (.other ()) f (node.mono (by decide)) outside
      cases owned
  · rw [← building.kernelHalf j upperHalf, ← congrFun (same child childNotPp) j]
    by_contra changed
    have top : Node (layout Lower) s'.mem (alone child) 4 () [] child :=
      ⟨by simp, by simp [Layout.Admitted], child, rfl, rfl⟩
    rcases grows.frame child j changed with new | ⟨path, node, admitted⟩
    · refine exclusive.node_unfree top (List.mem_cons_of_mem _ ?_)
      rw [split]
      exact List.mem_append_left _ new
    · obtain ⟨_, isRoot⟩ := exclusive.node_unique top (node.mono (by decide))
      subst isRoot
      exact upperHalf (admitted j rfl)
  · refine grows.walkable (fun u path t i node admitted isPresent => ?_)
    have nodeBefore : Node (layout Lower) s.mem (alone child) 3 u path t :=
      (node_frame 2 (fun u path t node => tables u path t (node.mono (by decide)))).mp
        (node.mono (by decide))
    rw [tables u path t nodeBefore] at isPresent ⊢
    exact building.walkable u path t i ⟨node.1, nodeBefore.2⟩ admitted isPresent

theorem low_flags_plain (pte : PageTableEntry) : PlainFlags (pte &&& 0xFFF) := by
  have disjoint : (0xFFF#64 &&& PTE_ADDR_MASK) = 0#64 := by decide
  show pte &&& 0xFFF#64 &&& PTE_ADDR_MASK = 0#64
  rw [BitVec.and_assoc, disjoint, BitVec.and_zero]

/-- One page of the copy keeps the construction sound, with or without a frame
for it. -/
theorem copyPage_building (building : Building upper s₀ free₀ child s rest)
    (lower : Lower (subscript (pml4Index vaddr))) :
    ∃ rest', Building upper s₀ free₀ child (copyPage child vaddr parentPte s).1 rest' := by
  rcases pageAlloc_cases building.list 0#32 with ⟨_, failed⟩ | ⟨pp, left, s', split, took, list, sameMem⟩
  · exact ⟨rest, by rw [copyPage, failed]; exact building⟩
  · subst split
    have small : pp < 2 ^ 40 := building.list.small pp List.mem_cons_self
    have untouched : s'.mem = s.mem := sameMem
    have elsewhere : ∀ f, f ≠ pp →
        (s'.copyFrame (frameOf (page2pa pp)) (frameOf (pteGetAddr parentPte))).mem f = s.mem f := by
      intro f other
      funext i
      simp [Phys.copyFrame, frameOf_page2pa small, other, untouched]
    obtain ⟨_, rest', _, mapped⟩ := building.map (list.mem_congr _) elsewhere (low_flags_plain parentPte) lower
    exact ⟨rest', by rw [copyPage, took]; exact mapped⟩

/-- Scanning a table changes nothing by itself. -/
theorem scanTable_building {table : Frame} {below : Index → PageTableEntry → Phys → Phys × Bool} {i : Index}
    (keep : ∀ pte s, (∃ rest, Building upper s₀ free₀ child s rest) →
      ∃ rest, Building upper s₀ free₀ child (below i pte s).1 rest)
    (s : Phys) (building : ∃ rest, Building upper s₀ free₀ child s rest) :
    ∃ rest, Building upper s₀ free₀ child (scanTable table below i s).1 rest := by
  rw [scanTable]
  split
  · exact keep _ s building
  · exact building

theorem mem_lowerIndices {i : Index} : i ∈ lowerIndices ↔ Lower i := by
  simp [lowerIndices, allIndices, Lower]

theorem lower_composeVaddr {i4 : Index} (lower : Lower i4) (i3 i2 i1 : Index) :
    Lower (subscript (pml4Index (composeVaddr i4 i3 i2 i1))) := by
  have path := (path_composeVaddr i4 i3 i2 i1).1
  rw [tablePath, List.cons.injEq] at path
  rw [path.1]
  exact lower

/-- The four loops keep the construction sound wherever they stop. -/
theorem copyLower_building (building : Building upper s₀ free₀ child s rest) (parent : Frame) :
    ∃ rest', Building upper s₀ free₀ child (copyLower parent child s).1 rest' := by
  let inv (s : Phys) : Prop := ∃ rest, Building upper s₀ free₀ child s rest
  refine Loop.forEach_invariant inv ⟨rest, building⟩ (fun i4 first => scanTable_building fun e4 s held => ?_)
  refine Loop.forEach_invariant inv held (fun i3 _ => scanTable_building fun e3 s held => ?_)
  refine Loop.forEach_invariant inv held (fun i2 _ => scanTable_building fun e2 s held => ?_)
  refine Loop.forEach_invariant inv held (fun i1 _ => scanTable_building fun pte s held => ?_)
  obtain ⟨_, building⟩ := held
  exact copyPage_building building (lower_composeVaddr (mem_lowerIndices.mp first) i3 i2 i1)

/-- Replacing the description of the kernel half by one that agrees with it. -/
theorem Building.upper_congr {upper' : Index → U64} (building : Building upper s₀ free₀ child s rest)
    (agree : ∀ j, ¬ Lower j → upper j = upper' j) : Building upper' s₀ free₀ child s rest :=
  { building with kernelHalf := fun j upperHalf => (building.kernelHalf j upperHalf).trans (agree j upperHalf) }

/-- Every outcome of `vmm_new_address_space`. -/
theorem vmmNewAddressSpace_cases (list : FreeList s free₀) (cr3 : U64) :
    (free₀ = [] ∧ vmmNewAddressSpace s cr3 = (s, none)) ∨
      ∃ child rest s', vmmNewAddressSpace s cr3 = (s', some child) ∧ free₀ = child :: rest ∧
        Building (s'.mem child) s free₀ child s' rest ∧ (∀ j, Lower j → s'.mem child j = 0) ∧
        ∀ j, ¬ Lower j → getCurrentPml4 cr3 ≠ child → s'.mem child j = s.mem (getCurrentPml4 cr3) j := by
  rcases pageAlloc_cases list 1#32 with ⟨empty, failed⟩ | ⟨pp, rest, s₁, rfl, took, list₁, cleared⟩
  · exact .inl ⟨empty, by rw [vmmNewAddressSpace, failed]⟩
  · refine .inr ⟨pp, rest, _, ?_, rfl, building_start _ list list₁ cleared,
      fun j => copyEntries_lower cleared, fun j upper apart => copyEntries_upper cleared apart upper⟩
    rw [vmmNewAddressSpace, took]
    simp only [frameOf_page2pa (list.small pp List.mem_cons_self)]

/-- Every outcome of `vmm_copy_address_space`: without a frame for the top-level
table nothing happens, and a failure further on leaves a half-built child that
only holds frames of the free list. -/
theorem vmmCopyAddressSpace_cases (list : FreeList s free₀) (apart : parent ∉ free₀) :
    (free₀ = [] ∧ vmmCopyAddressSpace s parent = (s, none)) ∨
      ∃ child rest s' result, vmmCopyAddressSpace s parent = (s', result) ∧ child ∈ free₀ ∧
        (result = none ∨ result = some child) ∧ Building (s.mem parent) s free₀ child s' rest := by
  rcases pageAlloc_cases list 1#32 with ⟨empty, failed⟩ | ⟨pp, rest, s₁, rfl, took, list₁, cleared⟩
  · exact .inl ⟨empty, by rw [vmmCopyAddressSpace, failed]⟩
  · have parentOther : parent ≠ pp := fun same => apart (same ▸ List.mem_cons_self)
    have start := (building_start parent list list₁ cleared).upper_congr
      (fun j upper => copyEntries_upper cleared parentOther upper)
    obtain ⟨rest', building⟩ := copyLower_building start parent
    have isChild := frameOf_page2pa (list.small pp List.mem_cons_self)
    rw [vmmCopyAddressSpace, took]
    simp only [isChild]
    generalize copyLower parent pp (s₁.copyEntries pp parent KERNEL_PML4_START) = out at *
    obtain ⟨s', _ | _⟩ := out
    · exact .inr ⟨pp, rest', s', none, rfl, List.mem_cons_self, .inl rfl, building⟩
    · exact .inr ⟨pp, rest', s', some pp, rfl, List.mem_cons_self, .inr rfl, building⟩

end HobbyKernel.CopyProofs
