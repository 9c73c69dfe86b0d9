import HobbyKernel.AddressSpaces
import HobbyKernel.UaccessProofs

/-! What the processor makes of the lower half of an address space. All its
tables were hung up by the walker, with every permission, so the leaf entry
alone decides; this is what lets `uva_check_range` look at leaf entries only. -/
namespace HobbyKernel.UserAccess
open AddressBits PageAllocProofs WalkProofs CopyProofs AddressSpaces UaccessProofs Radix

theorem indexAt_path (va : U64) :
    [Cpu.indexAt va 3, Cpu.indexAt va 2, Cpu.indexAt va 1] = tablePath va ∧ Cpu.indexAt va 0 = leafIndex va := by
  have index : ∀ level, level ≤ 3 → Cpu.indexAt va level = subscript (indexBits (12 + 9 * level) va) := by
    intro level top
    apply Fin.ext
    rw [subscript_indexBits va (by omega), Cpu.indexAt, Fin.val_ofNat]
  exact ⟨by rw [index 3 (by decide), index 2 (by decide), index 1 (by decide)]; rfl, index 0 (by decide)⟩

theorem cpu_present (e : U64) : Cpu.isPresent e = present e := (present_eq e).symm

theorem cpu_address (e : U64) : Cpu.addressOf e = tableOf e := (tableOf_eq e).symm

theorem cpu_user (e : U64) : Cpu.mayUser e = userAccessible e := (testBit_eq e (by decide)).symm

theorem cpu_write (e : U64) : Cpu.mayWrite e = writable e := (testBit_eq e (by decide)).symm

/-- An entry the walker made names a table and withholds nothing. -/
theorem walk_entry_open (pp : Nat) : Cpu.pageSize (pteMake (page2pa pp) WALK_FLAGS) = false ∧
    Cpu.mayUser (pteMake (page2pa pp) WALK_FLAGS) = true ∧ Cpu.mayWrite (pteMake (page2pa pp) WALK_FLAGS) = true := by
  have bit : ∀ i, i < 12 → (pteMake (page2pa pp) WALK_FLAGS).getLsbD i = WALK_FLAGS.getLsbD i := by
    intro i low
    rw [pteMake, getLsbD_orAddrBits, decide_eq_false (by omega), Bool.false_and, Bool.or_false]
  rw [Cpu.pageSize, Cpu.mayUser, Cpu.mayWrite, bit 7 (by decide), bit 2 (by decide), bit 1 (by decide)]
  decide

theorem cpu_canonical {va : U64} (small : va.toNat < 2 ^ 47) : Cpu.canonical va = true := by
  rw [Cpu.canonical, decide_eq_true small, Bool.true_or]

section Translation
variable {κ : Type} {root : κ → Option Frame} {k : κ} {s : Phys} {r : Frame} {va : U64}

/-- The processor's translation of an address is its leaf entry, where the
walker made the tables. -/
theorem translate_leaf {admits : Index → Prop} (walkable : Walkable admits s.mem root) (isRoot : root k = some r)
    (admitted : admits (subscript (pml4Index va))) (canon : Cpu.canonical va = true) :
    Cpu.translate s.mem r va = if present (leafEntry s r va) then
      some ⟨tableOf (leafEntry s r va), va.toNat % 2 ^ 12, userAccessible (leafEntry s r va), writable (leafEntry s r va)⟩
    else none := by
  obtain ⟨path, index⟩ := indexAt_path va
  rw [tablePath, List.cons.injEq, List.cons.injEq, List.cons.injEq] at path
  obtain ⟨i4, i3, i2, _⟩ := path
  have edge : ∀ path t i, path.length ≤ 2 → (layout admits).Admitted (path ++ [i]) →
      follow (layout admits) s.mem r path = some t → present (s.mem t i) = true →
      Cpu.pageSize (s.mem t i) = false ∧ userAccessible (s.mem t i) = true ∧ writable (s.mem t i) = true := by
    intro path t i short onward reached isPresent
    obtain ⟨pp, made⟩ := walkable k path t i ⟨short, admitted_of_append onward, r, isRoot, reached⟩ onward isPresent
    rw [made, ← cpu_user, ← cpu_write]
    exact walk_entry_open pp
  have head : ∀ rest, (layout admits).Admitted (subscript (pml4Index va) :: rest) := by
    intro rest i first
    cases first
    exact admitted
  have absent : present (layout admits).empty = false := show present 0#64 = false by decide
  rw [leafEntry_eq admits, entry, tablePath]
  have t4 := edge [] r (subscript (pml4Index va)) (by simp) (head []) rfl
  have f4 : present (s.mem r (subscript (pml4Index va))) = true →
      follow (layout admits) s.mem r [subscript (pml4Index va)] =
        some (tableOf (s.mem r (subscript (pml4Index va)))) := by
    intro p4
    simp [follow, layout_dec, p4]
  obtain ⟨e4, at4⟩ : ∃ e4, s.mem r (subscript (pml4Index va)) = e4 := ⟨_, rfl⟩
  rw [at4] at t4 f4
  by_cases p4 : present e4 = true
  · obtain ⟨size4, user4, write4⟩ := t4 p4
    have t3 := edge [_] _ (subscript (pdptIndex va)) (by simp) (head _) (f4 p4)
    have f3 : present (s.mem (tableOf e4) (subscript (pdptIndex va))) = true →
        follow (layout admits) s.mem r ([subscript (pml4Index va)] ++ [subscript (pdptIndex va)]) =
          some (tableOf (s.mem (tableOf e4) (subscript (pdptIndex va)))) := by
      intro p3
      rw [follow_concat, f4 p4, Option.bind_some, layout_dec, p3]
      rfl
    obtain ⟨e3, at3⟩ : ∃ e3, s.mem (tableOf e4) (subscript (pdptIndex va)) = e3 := ⟨_, rfl⟩
    rw [at3] at t3 f3
    by_cases p3 : present e3 = true
    · obtain ⟨size3, user3, write3⟩ := t3 p3
      have t2 := edge _ _ (subscript (pdIndex va)) (by simp) (head _) (f3 p3)
      obtain ⟨e2, at2⟩ : ∃ e2, s.mem (tableOf e3) (subscript (pdIndex va)) = e2 := ⟨_, rfl⟩
      rw [at2] at t2
      by_cases p2 : present e2 = true
      · obtain ⟨size2, user2, write2⟩ := t2 p2
        by_cases p1 : present (s.mem (tableOf e2) (leafIndex va)) = true <;>
          simp [Cpu.translate, follow, layout_dec, canon, i4, i3, i2, index, cpu_present, cpu_address, cpu_user,
            cpu_write, at4, at3, at2, p4, p3, p2, p1, size4, size3, size2, user4, user3, user2, write4, write3, write2]
      · simp [Cpu.translate, follow, layout_dec, canon, i4, i3, i2, cpu_present, cpu_address, at4, at3, at2, p4, p3, p2,
          size4, size3, absent]
    · simp [Cpu.translate, follow, layout_dec, canon, i4, i3, cpu_present, cpu_address, at4, at3, p4, p3, size4, absent]
  · simp [Cpu.translate, follow, layout_dec, canon, i4, cpu_present, at4, p4, absent]

/-- Addresses of the lower half. -/
theorem translate_lower (walkable : Walkable Lower s.mem root) (isRoot : root k = some r)
    (small : va.toNat < 2 ^ 47) :
    Cpu.translate s.mem r va = if present (leafEntry s r va) then
      some ⟨tableOf (leafEntry s r va), va.toNat % 2 ^ 12, userAccessible (leafEntry s r va), writable (leafEntry s r va)⟩
    else none :=
  translate_leaf walkable isRoot (lower_of_small small) (cpu_canonical small)

/-- What the leaf entry permits is what ring 3 may do. -/
theorem userMayAccess_eq (walkable : Walkable Lower s.mem root) (isRoot : root k = some r)
    (small : va.toNat < 2 ^ 47) (needWrite : Bool) :
    Cpu.userMayAccess s.mem r va needWrite = permits (leafEntry s r va) needWrite := by
  rw [Cpu.userMayAccess, translate_lower walkable isRoot small, permits]
  cases present (leafEntry s r va) with
  | false => rfl
  | true => simp

end Translation

/-- The life of address spaces: they are made empty or as copies, and mappings
come and go in their lower halves, while anybody may take frames. -/
inductive SpaceStep : Phys × List Frame → Phys × List Frame → Prop where
  | new (cr3 : U64) (made : vmmNewAddressSpace s cr3 = (s', some r)) :
      SpaceStep (s, spaces) (s', spaces ++ [r])
  | newFails (cr3 : U64) (failed : vmmNewAddressSpace s cr3 = (s', none)) : SpaceStep (s, spaces) (s', spaces)
  | copy (member : parent ∈ spaces) (made : vmmCopyAddressSpace s parent = (s', some r)) :
      SpaceStep (s, spaces) (s', spaces ++ [r])
  | copyFails (member : parent ∈ spaces) (failed : vmmCopyAddressSpace s parent = (s', none)) :
      SpaceStep (s, spaces) (s', spaces)
  | map (member : r ∈ spaces) (vaddr physAddr flags : U64) (lower : (pml4Index vaddr).toNat < KERNEL_PML4_START) :
      SpaceStep (s, spaces) (vmmMap s r vaddr physAddr flags, spaces)
  | unmap (member : r ∈ spaces) (vaddr : U64) (lower : (pml4Index vaddr).toNat < KERNEL_PML4_START) :
      SpaceStep (s, spaces) (vmmUnmap s r vaddr, spaces)
  | take (flags : U32) : SpaceStep (s, spaces) ((pageAlloc s flags).1, spaces)

/-- Nobody but the address spaces owns frames here. -/
def nobody : Empty → Frame → Prop := fun _ _ => False

def Spaces (s : Phys) (spaces : List Frame) : Prop :=
  ∃ free, Forest (fun n : Nat => spaces[n]?) nobody 3 s free

theorem lower_subscript {index : U16} (lower : index.toNat < KERNEL_PML4_START) : Lower (subscript index) := by
  rw [Lower, subscript, Fin.val_ofNat]
  exact Nat.lt_of_le_of_lt (Nat.mod_le _ _) lower

theorem spaces_append {spaces : List Frame} {free rest : List Nat} {s s' : Phys} {child : Frame} {upper : Index → U64}
    (forest : Forest (fun n : Nat => spaces[n]?) nobody 3 s free)
    (building : Building upper s free child s' rest) : Spaces s' (spaces ++ [child]) := by
  refine ⟨rest, forest.join (k := spaces.length) (by decide : 1 ≤ 1 ∧ 1 ≤ 2) building (by simp) (fun n other => ?_)⟩
  rcases Nat.lt_or_gt_of_ne other with inside | beyond
  · exact List.getElem?_append_left inside
  · rw [List.getElem?_eq_none (by simp; omega), List.getElem?_eq_none (by omega)]

theorem spaceStep_spaces {before after : Phys × List Frame} (spaces : Spaces before.1 before.2)
    (step : SpaceStep before after) : Spaces after.1 after.2 := by
  obtain ⟨free, forest⟩ := spaces
  cases step with
  | new cr3 made =>
    rcases vmmNewAddressSpace_cases forest.list cr3 with ⟨_, failed⟩ | ⟨child, rest, s', ran, _, building, _⟩
    · rw [failed] at made
      cases made
    · rw [ran] at made
      cases made
      exact spaces_append forest building
  | newFails cr3 failed =>
    rcases vmmNewAddressSpace_cases forest.list cr3 with ⟨_, same⟩ | ⟨child, rest, s', ran, _⟩
    · rw [same] at failed
      cases failed
      exact ⟨free, forest⟩
    · rw [ran] at failed
      cases failed
  | copy member made =>
    obtain ⟨n, isRoot⟩ := List.mem_iff_getElem?.mp member
    rcases vmmCopyAddressSpace_cases forest.list (forest.root_unfree isRoot) with
      ⟨_, failed⟩ | ⟨child, rest, s', result, ran, _, isResult, building⟩
    · rw [failed] at made
      cases made
    · rw [ran] at made
      cases made
      rcases isResult with failed | same
      · cases failed
      · cases same
        exact spaces_append forest building
  | copyFails member failed =>
    obtain ⟨n, isRoot⟩ := List.mem_iff_getElem?.mp member
    rcases vmmCopyAddressSpace_cases forest.list (forest.root_unfree isRoot) with
      ⟨_, same⟩ | ⟨child, rest, s', result, ran, _, _, building⟩
    · rw [same] at failed
      cases failed
      exact ⟨free, forest⟩
    · rw [ran] at failed
      cases failed
      exact ⟨rest, forest.abandon (by decide : 1 ≤ 1) building⟩
  | map member vaddr physAddr flags lower =>
    obtain ⟨n, isRoot⟩ := List.mem_iff_getElem?.mp member
    obtain ⟨_, rest, _, grows, _⟩ := vmmMap_grows vaddr physAddr flags forest.list forest.exclusive
      isRoot (lower_subscript lower)
    exact ⟨rest, forest.grows grows⟩
  | @unmap _ r s member vaddr lower =>
    obtain ⟨n, isRoot⟩ := List.mem_iff_getElem?.mp member
    rcases vmmUnmap_cases Lower s r vaddr with ⟨_, same⟩ | ⟨_, t, reached, cleared⟩
    · rw [same]
      exact ⟨free, forest⟩
    · rw [cleared]
      have node : Node (layout Lower) _ (fun n : Nat => _) 3 n (tablePath vaddr) t :=
        ⟨by simp [tablePath], admitted_tablePath (lower_subscript lower), r, isRoot, reached⟩
      exact ⟨free, forest.grows (leaf_write_grows 0 forest.list forest.exclusive node rfl)⟩
  | take flags => exact forest.pageAlloc (by decide : 1 ≤ 1) flags

theorem run_spaces (list : FreeList s₀ free₀) (run : Relation.ReflTransGen SpaceStep (s₀, []) (s, spaces)) :
    Spaces s spaces := by
  have start : Spaces s₀ [] := by
    refine ⟨free₀, list, ⟨fun o _ f owns _ => ?_, fun o f owns => ?_⟩, ?_⟩
    · cases o with
      | node k path => obtain ⟨_, _, _, isRoot, _⟩ := owns; cases isRoot
      | other x => exact x.elim
    · cases o with
      | node k path => obtain ⟨_, _, _, isRoot, _⟩ := owns; cases isRoot
      | other x => exact x.elim
    · rintro k path t i ⟨_, _, _, isRoot, _⟩
      cases isRoot
  have all : ∀ state, Relation.ReflTransGen SpaceStep (s₀, []) state → Spaces state.1 state.2 := by
    intro state steps
    induction steps with
    | refl => exact start
    | tail _ step ih => exact spaceStep_spaces ih step
  exact all _ run

/-- **The check is the processor's.** For every address space the kernel can
make and change, `uva_check_range` accepts a range exactly when it is empty, or
does not wrap and ring 3 may access each of its bytes below 2^47. The loop ends
within 2^35 rounds, its counter meeting its bound without wrapping. -/
theorem uvaCheckRange_exact (list : FreeList s₀ free₀)
    (run : Relation.ReflTransGen SpaceStep (s₀, []) (s, spaces)) (member : r ∈ spaces)
    (uva len : U64) (needWrite : Bool) :
    (uvaCheckRange s r uva len needWrite = true ↔ len = 0 ∨
      (uva.toNat + len.toNat ≤ 2 ^ 64 - 1 ∧
        ∀ a : U64, uva.toNat ≤ a.toNat → a.toNat < uva.toNat + len.toNat →
          a.toNat < 2 ^ 47 ∧ Cpu.userMayAccess s.mem r a needWrite = true)) ∧
    (∀ fuel, 2 ^ 35 < fuel →
      uvaCheckRangeWithin fuel s r uva len needWrite = some (uvaCheckRange s r uva len needWrite)) ∧
    (uva.toNat ≤ (uva + len - 1).toNat → (uva + len - 1).toNat < 2 ^ 47 →
      ∃ rounds ≤ 2 ^ 35, (rounddown uva PGSIZE).toNat + 4096 * rounds =
        (rounddown (uva + len - 1) PGSIZE + PGSIZE).toNat) := by
  obtain ⟨free, forest⟩ := run_spaces list run
  obtain ⟨n, isRoot⟩ := List.mem_iff_getElem?.mp member
  refine ⟨?_, fun fuel more => ?_, fun ordered small => ?_⟩
  · rw [uvaCheckRange_iff, RangePermitted]
    refine or_congr_right (and_congr (by omega) (forall_congr' fun a => forall_congr' fun _ =>
      forall_congr' fun _ => and_congr_right fun small => ?_))
    rw [userMayAccess_eq forest.walkable isRoot small]
  · obtain ⟨ok, ran, correct⟩ := uvaCheckRangeWithin_iff s r uva len needWrite more
    rw [ran, Option.some.injEq, Bool.eq_iff_iff, correct, uvaCheckRange_iff]
  · generalize uva + len - 1 = lastByte at *
    refine ⟨lastByte.toNat / 4096 - uva.toNat / 4096 + 1, by omega, ?_⟩
    rw [BitVec.toNat_add, rounddown_toNat, rounddown_toNat, show PGSIZE.toNat = 4096 from rfl]
    omega

/-- A new address space with one page mapped for reading and writing. -/
theorem uvaCheckRange_exact_mapped : ∃ s r, uvaCheckRange s r 0x1FFF 1 true = true ∧
    Cpu.userMayAccess s.mem r 0x1FFF true = true ∧ uvaCheckRange s r 0x1FFF 2 true = false := by
  have made : vmmNewAddressSpace (clearedPhys 1 4) 0 = ((vmmNewAddressSpace (clearedPhys 1 4) 0).1, some 1) := rfl
  let s := vmmMap (vmmNewAddressSpace (clearedPhys 1 4) 0).1 1 0x1000 0x7000 7
  have run : Relation.ReflTransGen SpaceStep (clearedPhys 1 4, []) (s, [1]) :=
    .tail (.single (.new 0 made)) (.map (by decide) 0x1000 0x7000 7 (by decide))
  have inside := (uvaCheckRange_exact (clearedPhys_free (by decide)) run (r := 1) (by simp) 0x1FFF 1 true).1
  have accepted : uvaCheckRange s 1 0x1FFF 1 true = true := by decide +kernel
  refine ⟨s, 1, accepted, ?_, by decide +kernel⟩
  rcases inside.mp accepted with empty | ⟨_, bytes⟩
  · cases empty
  · exact (bytes 0x1FFF (by decide) (by decide)).2

end HobbyKernel.UserAccess
