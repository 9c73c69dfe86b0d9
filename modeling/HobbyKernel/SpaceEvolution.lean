import HobbyKernel.UserAccess
import HobbyKernel.Core.Elf

/-! What kernel code does to physical memory while address spaces live in it.
Tables grow from the free list, pages are written, and nothing is taken away:
no frame gets a second owner, what belongs to nobody is not touched, and an
access that was permitted stays permitted. -/
namespace HobbyKernel.SpaceEvolution
open AddressBits PageAllocProofs WalkProofs PageOwnership CopyProofs AddressSpaces UaccessProofs UserAccess Radix

/-- Memory goes from `s` to `s'` on behalf of one of the address spaces in it. -/
structure Evolves (root : κ → Option Frame) (others : ι → Frame → Prop) (owner : κ) (s s' : Phys)
    (free rest : List Nat) : Prop where
  forest : Forest root others 4 s' rest
  fewer : ∀ f ∈ rest, f ∈ free
  added : ∀ k path f, Node (layout Lower) s'.mem root 4 k path f →
    Node (layout Lower) s.mem root 4 k path f ∨ f ∈ free
  frame : ∀ f i, s'.mem f i ≠ s.mem f i → f ∈ free ∨
    ∃ path, Node (layout Lower) s.mem root 4 owner path f ∧ (layout Lower).Admitted (path ++ [i])
  access : ∀ k r va needWrite, root k = some r → Lower (subscript (pml4Index va)) →
    permits (leafEntry s r va) needWrite = true → permits (leafEntry s' r va) needWrite = true

variable {κ ι : Type} {root : κ → Option Frame} {others : ι → Frame → Prop} {k : κ} {s s' s'' : Phys}
  {free rest rest' : List Nat} {r f : Frame} {path : List Index} {vaddr : U64}

theorem Evolves.refl (forest : Forest root others 4 s free) : Evolves root others k s s free free :=
  ⟨forest, fun _ member => member, fun _ _ _ node => .inl node, fun _ _ changed => absurd rfl changed,
    fun _ _ _ _ _ _ permitted => permitted⟩

theorem Evolves.trans (first : Evolves root others k s s' free rest) (second : Evolves root others k s' s'' rest rest') :
    Evolves root others k s s'' free rest' := by
  refine ⟨second.forest, fun f member => first.fewer f (second.fewer f member), fun k path f node => ?_,
    fun f i changed => ?_, fun k r va w isRoot lower permitted => ?_⟩
  · rcases second.added k path f node with old | new
    · exact first.added k path f old
    · exact .inr (first.fewer f new)
  · by_cases later : s''.mem f i = s'.mem f i
    · rw [later] at changed
      exact first.frame f i changed
    · rcases second.frame f i later with new | ⟨path, node, admitted⟩
      · exact .inl (first.fewer f new)
      · rcases first.added k path f node with old | new
        · exact .inr ⟨path, old, admitted⟩
        · exact .inl new
  · exact second.access k r va w isRoot lower (first.access k r va w isRoot lower permitted)

/-- Where no table changes, no leaf entry does. -/
theorem leafEntry_frame (isRoot : root k = some r) (lower : Lower (subscript (pml4Index vaddr)))
    (same : ∀ path t, Node (layout Lower) s.mem root 3 k path t → s'.mem t = s.mem t) :
    leafEntry s' r vaddr = leafEntry s r vaddr := by
  rw [leafEntry_eq Lower, leafEntry_eq Lower]
  exact entry_frame isRoot (admitted_tablePath lower) (by simp [tablePath]) same

/-- Only free frames were written to, and some of them were taken. -/
theorem retouch_evolves (forest : Forest root others 4 s free) (list : FreeList s' rest)
    (fewer : ∀ f ∈ rest, f ∈ free) (same : ∀ f, f ∉ free → s'.mem f = s.mem f) :
    Evolves root others k s s' free rest := by
  have tables : ∀ k path t, Node (layout Lower) s.mem root 3 k path t → s'.mem t = s.mem t :=
    fun k path t node => same t (forest.exclusive.node_unfree (node.mono (by decide)))
  refine ⟨forest.retouch (by decide : 1 ≤ 2) list fewer same, fewer,
    fun k path f node => .inl ((node_frame 3 tables).mp node), fun f i changed => ?_,
    fun k r va w isRoot lower permitted => ?_⟩
  · by_cases member : f ∈ free
    · exact .inl member
    · exact absurd (congrFun (same f member) i) changed
  · rwa [leafEntry_frame isRoot lower (tables k)]

/-- A page of an address space is overwritten. -/
theorem writePage_evolves (forest : Forest root others 4 s free) (list : FreeList s' free)
    (page : Node (layout Lower) s.mem root 4 k path f) (bottom : path.length = 4)
    (elsewhere : ∀ g, g ≠ f → s'.mem g = s.mem g) : Evolves root others k s s' free free := by
  have same : ∀ k path t, Node (layout Lower) s.mem root 3 k path t → s'.mem t = s.mem t :=
    fun _ _ t table => elsewhere t (forest.page_ne_table page bottom table)
  refine ⟨forest.contents list same, fun _ member => member, fun k path g node => .inl ((node_frame 3 same).mp node),
    fun g i changed => ?_, fun k r va w isRoot lower permitted => ?_⟩
  · have isPage : g = f := by
      by_contra other
      exact changed (by rw [elsewhere g other])
    subst isPage
    refine .inr ⟨path, page, ?_⟩
    have admitted := page.2.1
    cases path with
    | nil => cases bottom
    | cons j path => exact admitted
  · rwa [leafEntry_frame isRoot lower (same k)]

/-- Frames that were taken off the free list may be written by whoever has
them, as long as they are no tables. -/
theorem Evolves.writeTaken (evolves : Evolves root others k s s' free rest) (list : FreeList s'' rest)
    (taken : f ∈ free) (noTable : ∀ k path t, Node (layout Lower) s'.mem root 3 k path t → t ≠ f)
    (elsewhere : ∀ g, g ≠ f → s''.mem g = s'.mem g) : Evolves root others k s s'' free rest := by
  have same : ∀ k path t, Node (layout Lower) s'.mem root 3 k path t → s''.mem t = s'.mem t :=
    fun k path t table => elsewhere t (noTable k path t table)
  refine ⟨evolves.forest.contents list same, evolves.fewer,
    fun k path g node => evolves.added k path g ((node_frame 3 same).mp node), fun g i changed => ?_,
    fun k r va w isRoot lower permitted => ?_⟩
  · by_cases isF : g = f
    · exact .inl (isF ▸ taken)
    · rw [elsewhere g isF] at changed
      exact evolves.frame g i changed
  · rw [leafEntry_frame isRoot lower (same k)]
    exact evolves.access k r va w isRoot lower permitted

theorem user_flags_plain : PlainFlags USER_FLAGS := by
  unfold PlainFlags
  decide

/-- A page mapped for a program may be read and written by it. -/
theorem permits_user_page (physAddr : U64) (needWrite : Bool) : permits (pteMake physAddr USER_FLAGS) needWrite = true := by
  have bit : ∀ i, i < 3 → (pteMake physAddr USER_FLAGS).getLsbD i = true := by
    intro i low
    have flags : ∀ j : Fin 3, USER_FLAGS.getLsbD j.val = true := by decide
    rw [pteMake, getLsbD_orAddrBits, flags ⟨i, low⟩, Bool.true_or]
  rw [permits, present_eq, userAccessible, testBit_eq _ (by decide), writable, testBit_eq _ (by decide),
    bit 0 (by decide), bit 2 (by decide), bit 1 (by decide), Bool.or_true, Bool.and_true, Bool.and_true]

/-- A frame just taken off the free list is mapped into an address space; if
the free list runs out on the way to its entry, the frame is nobody's. -/
theorem map_evolves (vaddr : U64) {pp : Nat} (forest : Forest root others 4 s (pp :: free)) (list : FreeList s' free)
    (elsewhere : ∀ g, g ≠ pp → s'.mem g = s.mem g) (isRoot : root k = some r)
    (lower : Lower (subscript (pml4Index vaddr))) :
    ∃ rest, Evolves root others k s (vmmMap s' r vaddr (page2pa pp) USER_FLAGS) (pp :: free) rest ∧
      ∀ k path t, Node (layout Lower) (vmmMap s' r vaddr (page2pa pp) USER_FLAGS).mem root 3 k path t → t ≠ pp := by
  have fresh : pp ∉ free := (List.nodup_cons.mp forest.list.nodup).1
  have unowned : ∀ {k path t}, Node (layout Lower) s.mem root 4 k path t → t ≠ pp := by
    rintro k path t node rfl
    exact forest.exclusive.node_unfree node List.mem_cons_self
  obtain ⟨same, tables⟩ := forest.take elsewhere
  have nodes : ∀ {k path t}, Node (layout Lower) s'.mem root 4 k path t ↔ Node (layout Lower) s.mem root 4 k path t :=
    node_frame 3 same
  have exclusive := forest.exclusive.frame same
  have walkable : Walkable Lower s'.mem root := forest.walkable.frame same
  obtain ⟨taken, rest, split, grows, owned, origin⟩ := vmmMap_fresh vaddr list fresh
    (forest.list.small pp List.mem_cons_self) exclusive user_flags_plain isRoot lower
  obtain ⟨_, _, _, _, unmapped, mapped⟩ := vmmMap_grows vaddr (page2pa pp) USER_FLAGS list tables isRoot lower
  have wasFree : ∀ f ∈ taken, f ∈ free := fun f member => by rw [split]; exact List.mem_append_left _ member
  refine ⟨rest, ⟨⟨grows.list, owned, grows.walkable walkable⟩, fun f member => ?_, fun k' path f node => ?_,
    fun f i changed => ?_, fun k' r' va w isRoot' lower' permitted => ?_⟩, fun k' path t node => ?_⟩
  · refine List.mem_cons_of_mem _ ?_
    rw [split]
    exact List.mem_append_right _ member
  · rcases origin k' path f node with old | ⟨_, rfl | new⟩
    · exact .inl (nodes.mp old)
    · exact .inr List.mem_cons_self
    · exact .inr (List.mem_cons_of_mem _ (wasFree f new))
  · by_cases isPp : f = pp
    · exact .inl (isPp ▸ List.mem_cons_self)
    · rw [← elsewhere f isPp] at changed
      rcases grows.frame f i changed with new | ⟨path, node, admitted⟩
      · exact .inl (List.mem_cons_of_mem _ (wasFree f new))
      · exact .inr ⟨path, nodes.mp (node.mono (by decide)), admitted⟩
  · have before := leafEntry_frame isRoot' lower' (same k')
    rw [leafEntry_eq Lower] at before ⊢
    by_cases found : (vmmWalk s' r vaddr true).2 = none
    · rw [(unmapped found).2 k' r' (tablePath va) (leafIndex va) isRoot' (admitted_tablePath lower') rfl, before]
      exact permitted
    · obtain ⟨here, other⟩ := mapped found k' r' (tablePath va) (leafIndex va) isRoot' (admitted_tablePath lower') rfl
      by_cases place : k' = k ∧ tablePath va = tablePath vaddr ∧ leafIndex va = leafIndex vaddr
      · rw [here place]
        exact permits_user_page _ w
      · rw [other place, before]
        exact permitted
  · rintro rfl
    rcases grows.added k' path _ node with old | ⟨_, new⟩
    · exact unowned (nodes.mp (old.mono (by decide))) rfl
    · exact fresh (wasFree _ new)

end HobbyKernel.SpaceEvolution
