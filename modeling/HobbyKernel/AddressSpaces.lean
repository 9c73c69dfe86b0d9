import HobbyKernel.CopyProofs

/-! Many address spaces in one memory. A forest of address spaces stays one when
a mapping is added to one of its trees, and when a tree that was built from free
frames joins it. -/
namespace HobbyKernel.AddressSpaces
open AddressBits PageAllocProofs WalkProofs CopyProofs Radix

/-- Address spaces whose frames, down to `depth` levels, have one owner each. -/
structure Forest (root : κ → Option Frame) (others : ι → Frame → Prop) (depth : Nat) (s : Phys)
    (free : List Nat) : Prop where
  list : FreeList s free
  exclusive : Exclusive (layout Lower) s.mem root depth others free
  walkable : Walkable Lower s.mem root

variable {κ ι : Type} {root root' : κ → Option Frame} {others : ι → Frame → Prop} {depth : Nat} {k : κ}
  {s s' : Phys} {free rest : List Nat} {r child : Frame} {upper : Index → U64}

theorem Forest.root_unfree (forest : Forest root others depth s free) (isRoot : root k = some r) : r ∉ free :=
  forest.exclusive.node_unfree (k := k) (p := []) ⟨by simp, by simp [Layout.Admitted], r, isRoot, rfl⟩

theorem walkable_join (forest : Forest root others (depth + 2) s free) (deep : 1 ≤ depth)
    (building : Building upper s free child s' rest) (isNew : root' k = some child)
    (old : ∀ k', k' ≠ k → root' k' = root k') : Walkable Lower s'.mem root' := by
  classical
  rintro k' path t i ⟨short, admitted, r, isRoot, reached⟩ iAdmitted isPresent
  by_cases isK : k' = k
  · rw [isK, isNew] at isRoot
    cases isRoot
    exact building.walkable () path t i ⟨short, admitted, child, rfl, reached⟩ iAdmitted isPresent
  · rw [old k' isK] at isRoot
    have tables : ∀ path t, Node (layout Lower) s.mem root (depth + 2) k' path t → s'.mem t = s.mem t :=
      fun path t node => building.outside t (forest.exclusive.node_unfree node)
    have reachedBefore : follow (layout Lower) s.mem r path = some t := by
      rw [← reached]
      exact (follow_frame isRoot admitted (by omega) tables).symm
    rw [tables path t ⟨by omega, admitted, r, isRoot, reachedBefore⟩] at isPresent ⊢
    exact forest.walkable k' path t i ⟨short, admitted, r, isRoot, reachedBefore⟩ iAdmitted isPresent

/-- An address space built from free frames joins the others. -/
theorem Forest.join (forest : Forest root others (depth + 2) s free) (range : 1 ≤ depth ∧ depth ≤ 2)
    (building : Building upper s free child s' rest) (isNew : root' k = some child)
    (old : ∀ k', k' ≠ k → root' k' = root k') : Forest root' others (depth + 2) s' rest :=
  ⟨building.list,
    forest.exclusive.join building.outside (building.exclusive.mono (by omega))
      (fun _ member => building.suffix.subset member) isNew old,
    walkable_join forest range.1 building isNew old⟩

/-- Only free frames were written to, and some of them may have been taken. -/
theorem Forest.retouch (forest : Forest root others (depth + 2) s free) (deep : 1 ≤ depth) (list : FreeList s' rest)
    (fewer : ∀ f ∈ rest, f ∈ free) (same : ∀ f, f ∉ free → s'.mem f = s.mem f) :
    Forest root others (depth + 2) s' rest := by
  have tables : ∀ k path t, Node (layout Lower) s.mem root (depth + 1) k path t → s'.mem t = s.mem t :=
    fun k path t node => same t (forest.exclusive.node_unfree (node.mono (Nat.le_succ _)))
  refine ⟨list, (forest.exclusive.frame tables).subset fewer, ?_⟩
  intro k path t i node admitted isPresent
  have before := (node_frame (depth + 1) tables).mp (node.mono (by omega))
  have same := tables k path t ⟨Nat.le_trans node.1 (by omega), before.2⟩
  rw [same] at isPresent ⊢
  exact forest.walkable k path t i ⟨node.1, before.2⟩ admitted isPresent

/-- A construction that was given up leaves the forest as it was. -/
theorem Forest.abandon (forest : Forest root others (depth + 2) s free) (deep : 1 ≤ depth)
    (building : Building upper s free child s' rest) : Forest root others (depth + 2) s' rest :=
  forest.retouch deep building.list (fun _ member => building.suffix.subset member) building.outside

/-- `page_alloc` on behalf of anybody. -/
theorem Forest.pageAlloc (forest : Forest root others (depth + 2) s free) (deep : 1 ≤ depth) (flags : U32) :
    ∃ rest, Forest root others (depth + 2) (pageAlloc s flags).1 rest := by
  rcases pageAlloc_cases forest.list flags with ⟨_, failed⟩ | ⟨pp, rest, s', rfl, took, list, mem⟩
  · exact ⟨free, by rw [failed]; exact forest⟩
  · refine ⟨rest, ?_⟩
    rw [took]
    refine forest.retouch deep list (fun f member => List.mem_cons_of_mem _ member) (fun f outside => ?_)
    exact alloc_elsewhere mem (fun same => outside (same ▸ List.mem_cons_self))

/-- What the walker does on behalf of one tree keeps the tables of all trees. -/
theorem Forest.grows {taken : List Nat} (forest : Forest root others 3 s free)
    (grows : Grows Lower root others k s s' taken rest) : Forest root others 3 s' rest :=
  ⟨grows.list, grows.exclusive, grows.walkable forest.walkable⟩

/-- Writes that spare every table: contents of pages, of kernel stacks, of free
frames. -/
theorem Forest.contents (forest : Forest root others 4 s free) (list : FreeList s' free)
    (same : ∀ k path t, Node (layout Lower) s.mem root 3 k path t → s'.mem t = s.mem t) :
    Forest root others 4 s' free :=
  ⟨list, forest.exclusive.frame same, forest.walkable.frame same⟩

/-- A frame just taken off the free list is no table, whatever is written to it. -/
theorem Forest.take {pp : Nat} (forest : Forest root others 4 s (pp :: free)) (elsewhere : ∀ g, g ≠ pp → s'.mem g = s.mem g) :
    (∀ k path t, Node (layout Lower) s.mem root 3 k path t → s'.mem t = s.mem t) ∧
      Exclusive (layout Lower) s'.mem root 3 others free := by
  have same : ∀ k path t, Node (layout Lower) s.mem root 3 k path t → s'.mem t = s.mem t := by
    intro k path t table
    refine elsewhere t ?_
    rintro rfl
    exact forest.exclusive.node_unfree (table.mono (by decide)) List.mem_cons_self
  exact ⟨same, ((forest.exclusive.frame same).mono (by decide)).subset fun f member => List.mem_cons_of_mem _ member⟩

/-- Nobody's page is a table. -/
theorem Forest.page_ne_table (forest : Forest root others 4 s free)
    {path : List Index} {t f : Frame}
    (page : Node (layout Lower) s.mem root 4 k path f) (bottom : path.length = 4) {k' : κ} {path' : List Index}
    (table : Node (layout Lower) s.mem root 3 k' path' t) : t ≠ f := by
  rintro rfl
  obtain ⟨_, samePath⟩ := forest.exclusive.node_unique page (table.mono (by decide))
  have short := table.1
  rw [← samePath, bottom] at short
  omega

/-- Fewer address spaces and fewer other owners. -/
theorem Forest.shrink {others' : ι → Frame → Prop} (forest : Forest root others depth s free)
    (roots : ∀ k r, root' k = some r → root k = some r) (held : ∀ i f, others' i f → others i f) :
    Forest root' others' depth s free := by
  have nodes : ∀ {d k path f}, Node (layout Lower) s.mem root' d k path f → Node (layout Lower) s.mem root d k path f :=
    fun ⟨short, admitted, r, isRoot, reached⟩ => ⟨short, admitted, r, roots _ r isRoot, reached⟩
  refine ⟨forest.list, forest.exclusive.of_owns (fun o f owns => ?_), fun k path t i node => ?_⟩
  · cases o with
    | node k path => exact nodes owns
    | other i => exact held i f owns
  · exact forest.walkable k path t i (nodes node)

/-- A frame taken off the free list goes to an owner outside the trees. -/
theorem Forest.hold {others' : ι → Frame → Prop} {pp : Nat} (forest : Forest root others (depth + 2) s (pp :: rest))
    (deep : 1 ≤ depth) (list : FreeList s' rest) (elsewhere : ∀ g, g ≠ pp → s'.mem g = s.mem g) (holder : ι)
    (held : ∀ i f, others' i f → others i f ∨ (i = holder ∧ f = pp)) : Forest root others' (depth + 2) s' rest := by
  have unowned : ∀ {k path t}, Node (layout Lower) s.mem root (depth + 2) k path t → t ≠ pp := by
    rintro k path t node rfl
    exact forest.exclusive.node_unfree node List.mem_cons_self
  have same : ∀ k path t, Node (layout Lower) s.mem root (depth + 1) k path t → s'.mem t = s.mem t :=
    fun k path t table => elsewhere t (unowned (table.mono (Nat.le_succ _)))
  have touched := forest.retouch deep list (fun f member => List.mem_cons_of_mem _ member)
    (fun f outside => elsewhere f (fun isPp => outside (isPp ▸ List.mem_cons_self)))
  refine ⟨list, ?_, touched.walkable⟩
  have before : Exclusive (layout Lower) s.mem root (depth + 2) others ([pp] ++ rest) := forest.exclusive
  refine before.extend forest.list.nodup some (fun o o' x first second => Option.some.inj (first.trans second.symm))
    (fun o f owns => ?_) (fun o o' f member owns owns' => ?_)
  · cases o with
    | node k path => exact .inl ⟨_, rfl, (node_frame (depth + 1) same).mp owns⟩
    | other i =>
      rcases held i f owns with old | ⟨_, rfl⟩
      · exact .inl ⟨_, rfl, old⟩
      · exact .inr List.mem_cons_self
  · -- Only the new holder can have the frame.
    have isHolder : ∀ o, Owns (layout Lower) s'.mem root (depth + 2) others' o f → o = .other holder := by
      intro o owns
      rw [List.mem_singleton] at member
      subst member
      cases o with
      | node k path => exact absurd rfl (unowned ((node_frame (depth + 1) same).mp owns))
      | other i =>
        rcases held i f owns with old | ⟨rfl, _⟩
        · exact absurd List.mem_cons_self (forest.exclusive.unfree (.other i) f old)
        · rfl
    rw [isHolder o owns, isHolder o' owns']

end HobbyKernel.AddressSpaces
