import HobbyKernel.SpaceEvolution

/-! Stores that stay inside one page: the kernel's own through the direct map,
and those that go through a lower-half address. -/
namespace HobbyKernel.PageWrites
open AddressBits PageAllocProofs WalkProofs CopyProofs AddressSpaces UaccessProofs UserAccess SpaceEvolution Radix

/-- Only the contents of one frame changed. -/
structure Confined (f : Frame) (s s' : Phys) : Prop where
  elsewhere : ∀ g, g ≠ f → s'.mem g = s.mem g
  pages : s'.pages = s.pages
  head : s'.pageFreeList = s.pageFreeList

variable {κ ι : Type} {root : κ → Option Frame} {others : ι → Frame → Prop} {k : κ} {s s' s'' : Phys}
  {free : List Nat} {r f : Frame} {va : U64} {b : Byte}

theorem Confined.refl (f : Frame) (s : Phys) : Confined f s s := ⟨fun _ _ => rfl, rfl, rfl⟩

theorem Confined.trans (first : Confined f s s') (second : Confined f s' s'') : Confined f s s'' :=
  ⟨fun g other => (second.elsewhere g other).trans (first.elsewhere g other), second.pages.trans first.pages,
    second.head.trans first.head⟩

theorem Confined.list (confined : Confined f s s') (list : FreeList s free) : FreeList s' free := by
  obtain ⟨linked, small⟩ := list
  rw [← confined.head, ← confined.pages] at linked
  exact ⟨linked, small⟩

theorem writeEntry_confined (s : Phys) (f : Frame) (i : Index) (value : U64) : Confined f s (s.writeEntry f i value) := by
  refine ⟨fun g other => ?_, rfl, rfl⟩
  funext j
  simp [Phys.writeEntry, other]

theorem writeByte_confined (s : Phys) (f : Frame) (off : Nat) (b : Byte) : Confined f s (s.writeByte f off b) :=
  writeEntry_confined ..

/-- Moving on inside a page stays in its frame. -/
theorem frameOf_add (phys off : U64) (inside : phys.toNat % 4096 + off.toNat < 4096) :
    frameOf (phys + off) = frameOf phys ∧ (phys + off).toNat % 4096 = phys.toNat % 4096 + off.toNat := by
  have bound := phys.isLt
  have sum : (phys + off).toNat = phys.toNat + off.toNat := by
    rw [BitVec.toNat_add]
    omega
  have sameFrame : (phys + off).toNat / 4096 = phys.toNat / 4096 := by omega
  exact ⟨sameFrame, by omega⟩

/-- Words stored upwards from an address, all in its page. -/
theorem writeWords_confined (s : Phys) (phys : U64) (words : List U64)
    (inside : phys.toNat % 4096 + 8 * words.length ≤ 4096) : Confined (frameOf phys) s (s.writeWords phys words) := by
  induction words generalizing s phys with
  | nil => exact .refl _ s
  | cons value words ih =>
    have first : Confined (frameOf phys) s (s.writeWord phys value) := writeEntry_confined ..
    rw [List.length_cons] at inside
    cases words with
    | nil => exact first
    | cons next words =>
      rw [List.length_cons] at inside
      have eight : (8 : U64).toNat = 8 := rfl
      obtain ⟨sameFrame, offset⟩ := frameOf_add phys 8 (by omega)
      have later := ih (s.writeWord phys value) (phys + 8) (by rw [offset, List.length_cons]; omega)
      rw [sameFrame] at later
      exact first.trans later

/-- Bytes copied upwards from an address, all in its page. -/
theorem copyIn_confined (s : Phys) (dst : U64) (image : Image) (src : U64) (n : Nat)
    (inside : dst.toNat % 4096 + n ≤ 4096) : Confined (frameOf dst) s (s.copyIn dst image src n) := by
  induction n generalizing s dst src with
  | zero => exact .refl _ s
  | succ n ih =>
    have first : Confined (frameOf dst) s (s.storeAt dst (image src)) := writeByte_confined ..
    cases n with
    | zero => exact first
    | succ n =>
      have one : (1 : U64).toNat = 1 := rfl
      obtain ⟨sameFrame, offset⟩ := frameOf_add dst 1 (by omega)
      have later := ih (s.storeAt dst (image src)) (dst + 1) (src + 1) (by omega)
      rw [sameFrame] at later
      exact first.trans later

/-- A present leaf entry is the edge to a page. -/
theorem leaf_node (isRoot : root k = some r) (lower : Lower (subscript (pml4Index va)))
    (isPresent : present (leafEntry s r va) = true) :
    Node (layout Lower) s.mem root 4 k (tablePath va ++ [leafIndex va]) (tableOf (leafEntry s r va)) := by
  refine ⟨by simp [tablePath], ?_, r, isRoot, ?_⟩
  · exact admitted_tablePath lower
  · rw [leafEntry_eq Lower] at isPresent ⊢
    rw [follow_entry, layout_dec, isPresent]
    rfl

theorem writeByte_evolves (forest : Forest root others 4 s free) (isRoot : root k = some r)
    (lower : Lower (subscript (pml4Index va))) (isPresent : present (leafEntry s r va) = true) (off : Nat) (b : Byte) :
    Evolves root others k s (s.writeByte (tableOf (leafEntry s r va)) off b) free free := by
  have confined := writeByte_confined s (tableOf (leafEntry s r va)) off b
  exact writePage_evolves forest (confined.list forest.list) (leaf_node isRoot lower isPresent) (by simp [tablePath])
    confined.elsewhere

/-- A store through a lower-half address writes to the page behind it. -/
theorem store_page (walkable : Walkable Lower s.mem root) (isRoot : root k = some r) (small : va.toNat < 2 ^ 47)
    (stored : Cpu.store s r va b = some s') :
    present (leafEntry s r va) = true ∧ ∃ off, s' = s.writeByte (tableOf (leafEntry s r va)) off b := by
  rw [Cpu.store, translate_lower walkable isRoot small] at stored
  cases isPresent : present (leafEntry s r va) with
  | false => simp [isPresent] at stored
  | true =>
    simp only [isPresent, if_true] at stored
    split at stored
    · cases stored
      exact ⟨rfl, _, rfl⟩
    · cases stored

theorem store_of_userStore (stored : Cpu.userStore s r va b = some s') : Cpu.store s r va b = some s' := by
  rw [Cpu.userStore] at stored
  rw [Cpu.store]
  cases found : Cpu.translate s.mem r va with
  | none => simp [found] at stored
  | some t =>
    simp only [found] at stored ⊢
    split at stored
    · rename_i both
      rw [if_pos (Bool.and_eq_true_iff.mp both).2]
      exact stored
    · cases stored

theorem store_evolves (forest : Forest root others 4 s free) (isRoot : root k = some r) (small : va.toNat < 2 ^ 47)
    (stored : Cpu.store s r va b = some s') : Evolves root others k s s' free free := by
  obtain ⟨isPresent, off, rfl⟩ := store_page forest.walkable isRoot small stored
  exact writeByte_evolves forest isRoot (lower_of_small small) isPresent off b

/-- A store through a lower-half address writes to no table. -/
theorem store_tables (forest : Forest root others 4 s free) (isRoot : root k = some r) (small : va.toNat < 2 ^ 47)
    (stored : Cpu.store s r va b = some s') {k' : κ} {path : List Index}
    (table : Node (layout Lower) s.mem root 3 k' path f) : s'.mem f = s.mem f := by
  obtain ⟨isPresent, off, rfl⟩ := store_page forest.walkable isRoot small stored
  refine (writeByte_confined s (tableOf (leafEntry s r va)) off b).elsewhere f ?_
  exact forest.page_ne_table (leaf_node isRoot (lower_of_small small) isPresent) (by simp [tablePath]) table

theorem userStore_evolves (forest : Forest root others 4 s free) (isRoot : root k = some r) (small : va.toNat < 2 ^ 47)
    (stored : Cpu.userStore s r va b = some s') : Evolves root others k s s' free free :=
  store_evolves forest isRoot small (store_of_userStore stored)

theorem storeBytes_evolves {bytes : List Byte} (forest : Forest root others 4 s free) (isRoot : root k = some r)
    (inside : bytes ≠ [] → va.toNat + bytes.length ≤ 2 ^ 47) (stored : Cpu.storeBytes s r va bytes = some s') :
    Evolves root others k s s' free free := by
  induction bytes generalizing s va with
  | nil =>
    cases stored
    exact .refl forest
  | cons b bytes ih =>
    have room := inside (by simp)
    rw [List.length_cons] at room
    simp only [Cpu.storeBytes] at stored
    cases first : Cpu.store s r va b with
    | none => simp [first] at stored
    | some s₁ =>
      simp only [first] at stored
      have moved := store_evolves forest isRoot (by omega) first
      have one : (1 : U64).toNat = 1 := rfl
      have next : (va + 1).toNat = va.toNat + 1 := by
        rw [BitVec.toNat_add, one]
        omega
      exact moved.trans (ih moved.forest (fun _ => by rw [next]; omega) stored)

theorem storeBytes_tables {bytes : List Byte} (forest : Forest root others 4 s free) (isRoot : root k = some r)
    (inside : bytes ≠ [] → va.toNat + bytes.length ≤ 2 ^ 47) (stored : Cpu.storeBytes s r va bytes = some s')
    {k' : κ} {path : List Index} (table : Node (layout Lower) s.mem root 3 k' path f) : s'.mem f = s.mem f := by
  induction bytes generalizing s va with
  | nil =>
    cases stored
    rfl
  | cons b bytes ih =>
    have room := inside (by simp)
    rw [List.length_cons] at room
    simp only [Cpu.storeBytes] at stored
    cases first : Cpu.store s r va b with
    | none => simp [first] at stored
    | some s₁ =>
      simp only [first] at stored
      have moved := store_evolves forest isRoot (by omega) first
      have same : ∀ k path t, Node (layout Lower) s.mem root 2 k path t → s₁.mem t = s.mem t :=
        fun k path t node => store_tables forest isRoot (by omega) first (node.mono (by decide))
      have one : (1 : U64).toNat = 1 := rfl
      have next : (va + 1).toNat = va.toNat + 1 := by
        rw [BitVec.toNat_add, one]
        omega
      exact (ih moved.forest (fun _ => by rw [next]; omega) stored ((node_frame 2 same).mpr table)).trans
        (store_tables forest isRoot (by omega) first table)

end HobbyKernel.PageWrites
