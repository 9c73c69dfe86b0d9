import HobbyKernel.TableOverhead
import HobbyKernel.UserBytes

/-! Pages that kernel code maps for itself into the lower half: one is mapped,
written to and read in ring 0, and unmapped and given back. -/
namespace HobbyKernel.ScratchPages
open AddressBits PageAllocProofs WalkProofs CopyProofs PageOwnership AddressSpaces SpaceEvolution PageWrites UserBytes UserAccess
open Radix

variable {κ ι : Type} {root : κ → Option Frame} {others : ι → Frame → Prop} {k : κ} {s s' : Phys}
  {free rest : List Nat} {r : Frame} {va a flags : U64} {pp : Nat}

theorem samePage_iff (va a : U64) (small : va.toNat < 2 ^ 47) (small' : a.toNat < 2 ^ 47) :
    (tablePath a = tablePath va ∧ leafIndex a = leafIndex va) ↔ a.toNat / 4096 = va.toNat / 4096 := by
  rw [same_page_iff, ← BitVec.toNat_inj, pageOf_toNat, pageOf_toNat]
  omega

/-- A frame just taken is mapped with any flags: its page is the frame's, every
other page stays where and what it was. -/
theorem mapPage_leaves (plain : PlainFlags flags) (forest : Forest root others 4 s (pp :: free)) (list : FreeList s' free)
    (elsewhere : ∀ g, g ≠ pp → s'.mem g = s.mem g) (isRoot : root k = some r) (small : va.toNat < 2 ^ 47)
    (found : (vmmWalk s' r va true).2 ≠ none) :
    ∃ rest, Forest root others 4 (vmmMap s' r va (page2pa pp) flags) rest ∧
      ∀ a : U64, a.toNat < 2 ^ 47 →
        (a.toNat / 4096 = va.toNat / 4096 → leafEntry (vmmMap s' r va (page2pa pp) flags) r a = pteMake (page2pa pp) flags) ∧
        (a.toNat / 4096 ≠ va.toNat / 4096 → leafEntry (vmmMap s' r va (page2pa pp) flags) r a = leafEntry s r a ∧
          (present (leafEntry s r a) = true → byteAt (vmmMap s' r va (page2pa pp) flags) r a = byteAt s r a)) := by
  have fresh : pp ∉ free := (List.nodup_cons.mp forest.list.nodup).1
  obtain ⟨same, tables⟩ := forest.take elsewhere
  have exclusive := forest.exclusive.frame same
  have walkable : Walkable Lower s'.mem root := forest.walkable.frame same
  obtain ⟨taken, rest, split, grows, owned, _⟩ := vmmMap_fresh va list fresh
    (forest.list.small pp List.mem_cons_self) exclusive plain isRoot (lower_of_small small)
  obtain ⟨_, _, _, _, _, mapped⟩ := vmmMap_grows va (page2pa pp) flags list tables isRoot (lower_of_small small)
  refine ⟨rest, ⟨grows.list, owned, grows.walkable walkable⟩, fun a lower => ?_⟩
  obtain ⟨here, other⟩ := mapped found k r (tablePath a) (leafIndex a) isRoot (admitted_tablePath (lower_of_small lower)) rfl
  rw [← leafEntry_eq, eq_self, true_and, samePage_iff va a small lower] at here other
  rw [← leafEntry_eq] at other
  refine ⟨here, fun apart => ?_⟩
  have unchanged : leafEntry s' r a = leafEntry s r a := leafEntry_frame isRoot (lower_of_small lower) (same k)
  have leaf := (other apart).trans unchanged
  refine ⟨leaf, fun isPresent => ?_⟩
  have page := leaf_node isRoot (lower_of_small lower) isPresent
  have unfree := forest.exclusive.node_unfree page
  have kept : (vmmMap s' r va (page2pa pp) flags).mem (tableOf (leafEntry s r a)) = s'.mem (tableOf (leafEntry s r a)) := by
    funext i
    by_contra changed
    rcases grows.frame _ i changed with new | ⟨path, node, _⟩
    · exact unfree (List.mem_cons_of_mem _ (by rw [split]; exact List.mem_append_left _ new))
    · have table := (node_frame 2 fun k path t table => same k path t (table.mono (by decide))).mp node
      exact forest.page_ne_table page (by simp [tablePath]) table rfl
  rw [byteAt, leaf, Phys.readByte, kept, elsewhere _ fun isPp => unfree (isPp ▸ List.mem_cons_self)]
  rfl

/-- A page is unmapped and its frame put back on the free list. -/
theorem unmapPage_leaves (forest : Forest root others 4 s free) (isRoot : root k = some r) (small : va.toNat < 2 ^ 47)
    (isPresent : present (leafEntry s r va) = true) (list : FreeList s' (tableOf (leafEntry s r va) :: free))
    (mem : s'.mem = (vmmUnmap s r va).mem) :
    Forest root others 4 s' (tableOf (leafEntry s r va) :: free) ∧
      (∀ q, (layout Lower).Admitted q → q.length ≤ 3 → follow (layout Lower) s'.mem r q = follow (layout Lower) s.mem r q) ∧
      ∀ a : U64, a.toNat < 2 ^ 47 →
        (a.toNat / 4096 = va.toNat / 4096 → leafEntry s' r a = 0) ∧
        (a.toNat / 4096 ≠ va.toNat / 4096 → leafEntry s' r a = leafEntry s r a ∧
          (present (leafEntry s r a) = true → byteAt s' r a = byteAt s r a)) := by
  obtain ⟨absent, _⟩ | ⟨_, t, reached, cleared⟩ := vmmUnmap_cases Lower s r va
  · rw [isPresent] at absent
    cases absent
  rw [cleared] at mem
  have written : s'.mem = write s.mem t (leafIndex va) 0 := mem
  have page := leaf_node isRoot (lower_of_small small) isPresent
  have tables := forest.exclusive.mono (show 3 ≤ 4 by decide)
  have table : Node (layout Lower) s.mem root 3 k (tablePath va) t :=
    ⟨by simp [tablePath], admitted_tablePath (lower_of_small small), r, isRoot, reached⟩
  have follows : ∀ {k' r' q}, root k' = some r' → (layout Lower).Admitted q → q.length ≤ 3 →
      follow (layout Lower) s'.mem r' q = follow (layout Lower) s.mem r' q := by
    intro k' r' q isRoot' admitted short
    rw [written]
    exact follow_write_leaf tables table rfl isRoot' admitted short
  have entries : ∀ {k' r' q j}, root k' = some r' → (layout Lower).Admitted q → q.length ≤ 3 →
      (k' = k ∧ q = tablePath va ∧ j = leafIndex va → entry (layout Lower) s'.mem r' q j = 0) ∧
        (¬ (k' = k ∧ q = tablePath va ∧ j = leafIndex va) → entry (layout Lower) s'.mem r' q j = entry (layout Lower) s.mem r' q j) := by
    intro k' r' q j isRoot' admitted short
    rw [written]
    exact entry_write_leaf tables table rfl isRoot' admitted short
  -- The tree loses its page and nothing else.
  have nodes : ∀ {k' path f}, Node (layout Lower) s'.mem root 4 k' path f →
      Node (layout Lower) s.mem root 4 k' path f ∧ f ≠ tableOf (leafEntry s r va) := by
    rintro k' path f ⟨short, admitted, r', isRoot', reached'⟩
    by_cases atTable : path.length ≤ 3
    · rw [follows isRoot' admitted atTable] at reached'
      have node : Node (layout Lower) s.mem root 3 k' path f := ⟨atTable, admitted, r', isRoot', reached'⟩
      exact ⟨node.mono (by decide), forest.page_ne_table page (by simp [tablePath]) node⟩
    · obtain rfl | ⟨q, j, rfl⟩ := path.eq_nil_or_concat
      · simp at atTable
      rw [List.concat_eq_append] at *
      have length : q.length ≤ 3 := by
        rw [List.length_append, List.length_singleton] at short
        omega
      obtain ⟨here, other⟩ := entries (j := j) isRoot' (admitted_of_append admitted) length
      rw [follow_entry] at reached'
      by_cases place : k' = k ∧ q = tablePath va ∧ j = leafIndex va
      · rw [here place] at reached'
        cases reached'
      · rw [other place, ← follow_entry] at reached'
        have node : Node (layout Lower) s.mem root 4 k' (q ++ [j]) f := ⟨short, admitted, r', isRoot', reached'⟩
        refine ⟨node, ?_⟩
        rintro rfl
        obtain ⟨sameSpace, samePath⟩ := forest.exclusive.node_unique node page
        obtain ⟨samePath, sameIndex⟩ := List.append_inj' samePath rfl
        exact place ⟨sameSpace, samePath, by simpa using sameIndex⟩
  have owns : ∀ o f, Owns (layout Lower) s'.mem root 4 others o f → Owns (layout Lower) s.mem root 4 others o f := by
    intro o f owned
    cases o with
    | node k' path => exact (nodes owned).1
    | other i => exact owned
  have exclusive : Exclusive (layout Lower) s'.mem root 4 others (tableOf (leafEntry s r va) :: free) := by
    refine ⟨fun o o' f owned owned' => forest.exclusive.unique o o' f (owns o f owned) (owns o' f owned'),
      fun o f owned member => ?_⟩
    rcases List.mem_cons.mp member with rfl | wasFree
    · cases o with
      | node k' path => exact (nodes owned).2 rfl
      | other i =>
        have clash := forest.exclusive.unique (.other i) (.node k _) _ owned page
        cases clash
    · exact forest.exclusive.unfree o f (owns o f owned) wasFree
  have grows := leaf_write_grows (i := leafIndex va) 0 forest.list tables table rfl
  have walkable : Walkable Lower s'.mem root := by
    rw [mem]
    exact grows.walkable forest.walkable
  refine ⟨⟨list, exclusive, walkable⟩, fun q => follows isRoot, fun a lower => ?_⟩
  obtain ⟨here, other⟩ := entries (j := leafIndex a) isRoot (admitted_tablePath (lower_of_small lower))
    (show (tablePath a).length ≤ 3 by simp [tablePath])
  rw [← leafEntry_eq, eq_self, true_and, samePage_iff va a small lower] at here other
  rw [← leafEntry_eq] at other
  refine ⟨here, fun apart => ⟨other apart, fun present' => ?_⟩⟩
  have page' := leaf_node isRoot (lower_of_small lower) present'
  have kept : s'.mem (tableOf (leafEntry s r a)) = s.mem (tableOf (leafEntry s r a)) := by
    rw [mem]
    exact (writeEntry_confined s t (leafIndex va) 0).elsewhere _ (forest.page_ne_table page' (by simp [tablePath]) table).symm
  rw [byteAt, other apart, Phys.readByte, kept]
  rfl

/-- Ring 0 may access a range of addresses, for writing if asked for. -/
def Accessible (s : Phys) (r : Frame) (va : U64) (n : Nat) (needWrite : Bool) : Prop :=
  ∀ a : U64, va.toNat ≤ a.toNat → a.toNat < va.toNat + n →
    a.toNat < 2 ^ 47 ∧ present (leafEntry s r a) = true ∧ (needWrite = true → writable (leafEntry s r a) = true)

variable {needWrite : Bool} {n : Nat}

theorem Accessible.next (accessible : Accessible s r va (n + 1) needWrite) :
    va.toNat < 2 ^ 47 ∧ present (leafEntry s r va) = true ∧ (needWrite = true → writable (leafEntry s r va) = true) ∧
      (va + 1).toNat = va.toNat + 1 ∧ Accessible s r (va + 1) n needWrite := by
  obtain ⟨small, isPresent, mayWrite⟩ := accessible va (Nat.le_refl _) (by omega)
  have next : (va + 1).toNat = va.toNat + 1 := by
    rw [BitVec.toNat_add, show (1 : U64).toNat = 1 from rfl]
    omega
  exact ⟨small, isPresent, mayWrite, next, fun a low high => accessible a (by omega) (by omega)⟩

/-- The kernel reads such a range without a fault. -/
theorem loadBytes_kernel (walkable : Walkable Lower s.mem root) (isRoot : root k = some r) (accessible : Accessible s r va n needWrite) :
    Cpu.loadBytes s r va n = some (bytesAt s r va n) := by
  induction n generalizing va with
  | zero => rfl
  | succ n ih =>
    obtain ⟨small, isPresent, _, _, later⟩ := accessible.next
    have byte : Cpu.load s r va = some (byteAt s r va) := by
      rw [Cpu.load, translate_lower walkable isRoot small, if_pos isPresent]
      rfl
    simp only [Cpu.loadBytes, byte, ih later, Option.map_some, bytesAt_succ]

/-- The kernel writes such a range without a fault, and reads back what it wrote. -/
theorem storeBytes_kernel {bytes : List Byte} (forest : Forest root others 4 s free) (isRoot : root k = some r)
    (accessible : Accessible s r va bytes.length true) :
    ∃ s', Cpu.storeBytes s r va bytes = some s' ∧ Forest root others 4 s' free ∧ Overwritten root k va bytes.length s s' ∧
      bytesAt s' r va bytes.length = bytes ∧ s'.pages = s.pages := by
  induction bytes generalizing s va with
  | nil => exact ⟨s, rfl, forest, ⟨fun _ _ _ _ _ => rfl, fun _ _ _ _ _ _ _ => rfl⟩, rfl, rfl⟩
  | cons b bytes ih =>
    obtain ⟨small, isPresent, mayWrite, next, later⟩ := accessible.next
    obtain ⟨first, stored⟩ := writeByte_overwritten forest isRoot small isPresent b
    have evolves := writeByte_evolves forest isRoot (lower_of_small small) isPresent (va.toNat % 4096) b
    have ran : Cpu.store s r va b = some (s.writeByte (tableOf (leafEntry s r va)) (va.toNat % 4096) b) := by
      rw [Cpu.store, translate_lower forest.walkable isRoot small, if_pos isPresent]
      simp [mayWrite rfl]
    have pages : (s.writeByte (tableOf (leafEntry s r va)) (va.toNat % 4096) b).pages = s.pages := rfl
    generalize s.writeByte (tableOf (leafEntry s r va)) (va.toNat % 4096) b = s₁ at *
    have later₁ : Accessible s₁ r (va + 1) bytes.length true := by
      intro a low high
      obtain ⟨small, there⟩ := later a low high
      exact ⟨small, by rw [first.leaf k r a isRoot small]; exact there⟩
    obtain ⟨s', ran', forest', wrote, read, pages'⟩ := ih evolves.forest later₁
    refine ⟨s', by simp only [Cpu.storeBytes, ran, ran'], forest', ⟨fun k' r' va' isRoot' small' => ?_,
      fun k' r' va' isRoot' small' isPresent' other => ?_⟩, ?_, pages'.trans pages⟩
    · rw [wrote.leaf k' r' va' isRoot' small', first.leaf k' r' va' isRoot' small']
    · rw [List.length_cons] at other
      have beyond : k' = k → va'.toNat < (va + 1).toNat ∨ (va + 1).toNat + bytes.length ≤ va'.toNat := fun same => by
        have apart := other same
        omega
      have outside : k' = k → va'.toNat < va.toNat ∨ va.toNat + 1 ≤ va'.toNat := fun same => by
        have apart := other same
        omega
      rw [wrote.rest k' r' va' isRoot' small' (by rw [first.leaf k' r' va' isRoot' small']; exact isPresent') beyond,
        first.rest k' r' va' isRoot' small' isPresent' outside]
    · rw [List.length_cons, bytesAt_succ, read, wrote.rest k r va isRoot small, stored]
      · rw [first.leaf k r va isRoot small]
        exact isPresent
      · intro _
        omega

end HobbyKernel.ScratchPages
