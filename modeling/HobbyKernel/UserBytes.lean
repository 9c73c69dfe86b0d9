import HobbyKernel.PageWrites

/-! The bytes behind lower-half addresses. A range that passed `uva_check_range`
can be read and written in ring 0 without a fault; what is stored there is what
is read back, and no other byte of any address space changes. -/
namespace HobbyKernel.UserBytes
open AddressBits PageAllocProofs WalkProofs CopyProofs AddressSpaces UaccessProofs UserAccess SpaceEvolution PageWrites
open Radix

variable {κ ι : Type} {root : κ → Option Frame} {others : ι → Frame → Prop} {k k' : κ} {s s' : Phys}
  {free : List Nat} {r r' f g : Frame} {va va' : U64} {b : Byte} {needWrite : Bool}

/-- Replacing one byte of a word leaves the other seven. -/
theorem byteOf_setByte (word : U64) {j j' : Nat} (b : Byte) (inside : j < 8) (inside' : j' < 8) :
    byteOf (setByte word j b) j' = if j' = j then b else byteOf word j' := by
  have ones : ∀ m, m < 64 → (0xFF : U64).getLsbD m = decide (m < 8) := by
    have all : ∀ m : Fin 64, (0xFF : U64).getLsbD m.val = decide (m.val < 8) := by decide
    exact fun m bound => all ⟨m, bound⟩
  apply BitVec.eq_of_getLsbD_eq
  intro i low
  have place : 8 * j' + i < 64 := by omega
  have bit : (setByte word j b).getLsbD (8 * j' + i) =
      ((word.getLsbD (8 * j' + i) && !(!decide (8 * j' + i < 8 * j) && decide (8 * j' + i - 8 * j < 8))) ||
        (!decide (8 * j' + i < 8 * j) && b.getLsbD (8 * j' + i - 8 * j))) := by
    have near : 8 * j' + i - 8 * j < 64 := by omega
    simp only [setByte, BitVec.getLsbD_or, BitVec.getLsbD_and, BitVec.getLsbD_not, BitVec.getLsbD_shiftLeft,
      BitVec.getLsbD_setWidth, place, near, ones _ near, decide_true, Bool.true_and]
  rw [byteOf, BitVec.getLsbD_extractLsb', bit, decide_eq_true low, Bool.true_and]
  by_cases same : j' = j
  · subst same
    simp [low, show ¬ 8 * j' + i < 8 * j' by omega]
  · rw [if_neg same, byteOf, BitVec.getLsbD_extractLsb', decide_eq_true low, Bool.true_and]
    by_cases below : j' < j
    · simp [show 8 * j' + i < 8 * j by omega]
    · have beyond : ¬ 8 * j' + i - 8 * j < 8 := by omega
      simp [beyond, BitVec.getLsbD_of_ge b _ (Nat.not_lt.mp beyond)]

theorem readByte_writeByte (s : Phys) {off off' : Nat} (b : Byte) (inside : off < 4096) (inside' : off' < 4096) :
    (s.writeByte f off b).readByte g off' = if g = f ∧ off' = off then b else s.readByte g off' := by
  have index : (Fin.ofNat 512 (off' / 8) = Fin.ofNat 512 (off / 8)) ↔ off' / 8 = off / 8 := by
    rw [← Fin.val_inj, Fin.val_ofNat, Fin.val_ofNat]
    omega
  simp only [Phys.writeByte, Phys.writeEntry, Phys.readByte, index]
  by_cases sameFrame : g = f
  · subst sameFrame
    by_cases sameWord : off' / 8 = off / 8
    · rw [if_pos ⟨rfl, sameWord⟩, byteOf_setByte _ _ (Nat.mod_lt _ (by decide)) (Nat.mod_lt _ (by decide)), sameWord]
      have sameByte : off' % 8 = off % 8 ↔ off' = off := by omega
      simp [sameByte]
    · have other : off' ≠ off := fun same => sameWord (same ▸ rfl)
      simp [sameWord, other]
  · simp [sameFrame]

/-- The byte behind a mapped address. -/
def byteAt (s : Phys) (r : Frame) (va : U64) : Byte := s.readByte (tableOf (leafEntry s r va)) (va.toNat % 4096)

theorem present_of_permits {pte : PageTableEntry} (permitted : permits pte needWrite = true) : present pte = true := by
  rw [permits, Bool.and_eq_true, Bool.and_eq_true] at permitted
  exact permitted.1.1

theorem load_lower (forest : Forest root others 4 s free) (isRoot : root k = some r) (small : va.toNat < 2 ^ 47)
    (permitted : permits (leafEntry s r va) needWrite = true) : Cpu.load s r va = some (byteAt s r va) := by
  rw [Cpu.load, translate_lower forest.walkable isRoot small, present_of_permits permitted]
  rfl

theorem store_lower (forest : Forest root others 4 s free) (isRoot : root k = some r) (small : va.toNat < 2 ^ 47)
    (permitted : permits (leafEntry s r va) true = true) (b : Byte) :
    Cpu.store s r va b = some (s.writeByte (tableOf (leafEntry s r va)) (va.toNat % 4096) b) := by
  simp only [permits, Bool.and_eq_true, Bool.not_true, Bool.false_or] at permitted
  rw [Cpu.store, translate_lower forest.walkable isRoot small, permitted.1.1]
  simp [permitted.2]

/-- Memory differs by the bytes of one range of one address space. -/
structure Overwritten (root : κ → Option Frame) (k : κ) (va : U64) (n : Nat) (s s' : Phys) : Prop where
  leaf : ∀ k' r' va', root k' = some r' → va'.toNat < 2 ^ 47 → leafEntry s' r' va' = leafEntry s r' va'
  rest : ∀ k' r' va', root k' = some r' → va'.toNat < 2 ^ 47 → present (leafEntry s r' va') = true →
    (k' = k → va'.toNat < va.toNat ∨ va.toNat + n ≤ va'.toNat) → byteAt s' r' va' = byteAt s r' va'

/-- Addresses with the same frame behind them are on the same page. -/
theorem page_of_frame (forest : Forest root others 4 s free) (isRoot : root k = some r) (isRoot' : root k' = some r')
    (small : va.toNat < 2 ^ 47) (small' : va'.toNat < 2 ^ 47) (isPresent : present (leafEntry s r va) = true)
    (isPresent' : present (leafEntry s r' va') = true) (same : tableOf (leafEntry s r' va') = tableOf (leafEntry s r va)) :
    k' = k ∧ va'.toNat / 4096 = va.toNat / 4096 := by
  have page := leaf_node isRoot (lower_of_small small) isPresent
  have page' := leaf_node isRoot' (lower_of_small small') isPresent'
  rw [same] at page'
  obtain ⟨sameSpace, samePath⟩ := forest.exclusive.node_unique page' page
  obtain ⟨path, index⟩ := List.append_inj' samePath rfl
  have samePage := (same_page_iff va' va).mp ⟨path, by simpa using index⟩
  rw [← BitVec.toNat_inj, pageOf_toNat, pageOf_toNat] at samePage
  exact ⟨sameSpace, by omega⟩

/-- A store of one byte. -/
theorem writeByte_overwritten (forest : Forest root others 4 s free) (isRoot : root k = some r)
    (small : va.toNat < 2 ^ 47) (isPresent : present (leafEntry s r va) = true) (b : Byte) :
    Overwritten root k va 1 s (s.writeByte (tableOf (leafEntry s r va)) (va.toNat % 4096) b) ∧
      byteAt (s.writeByte (tableOf (leafEntry s r va)) (va.toNat % 4096) b) r va = b := by
  have confined := writeByte_confined s (tableOf (leafEntry s r va)) (va.toNat % 4096) b
  have page := leaf_node isRoot (lower_of_small small) isPresent
  have leaf : ∀ k' r' va', root k' = some r' → va'.toNat < 2 ^ 47 →
      leafEntry (s.writeByte (tableOf (leafEntry s r va)) (va.toNat % 4096) b) r' va' = leafEntry s r' va' := by
    intro k' r' va' isRoot' small'
    exact leafEntry_frame isRoot' (lower_of_small small') fun path t table =>
      confined.elsewhere t (forest.page_ne_table page (by simp [tablePath]) table)
  refine ⟨⟨leaf, fun k' r' va' isRoot' small' isPresent' other => ?_⟩, ?_⟩
  · rw [byteAt, leaf k' r' va' isRoot' small',
      readByte_writeByte s b (Nat.mod_lt _ (by decide)) (Nat.mod_lt _ (by decide)), if_neg]
    · rfl
    · rintro ⟨sameFrame, sameOffset⟩
      obtain ⟨sameSpace, samePage⟩ := page_of_frame forest isRoot isRoot' small small' isPresent isPresent' sameFrame
      have apart := other sameSpace
      omega
  · rw [byteAt, leaf k r va isRoot small,
      readByte_writeByte s b (Nat.mod_lt _ (by decide)) (Nat.mod_lt _ (by decide)), if_pos ⟨rfl, rfl⟩]

/-- A cleared frame just taken off the free list is mapped: its page reads as
zeros, and every other page stays where and what it was. -/
theorem mapPage_zeroed {pp : Nat} (forest : Forest root others 4 s (pp :: free)) (list : FreeList s' free)
    (cleared : s'.mem = (s.zeroFrame pp).mem) (isRoot : root k = some r) (small : va.toNat < 2 ^ 47)
    (found : (vmmWalk s' r va true).2 ≠ none) {a : U64} (lower : a.toNat < 2 ^ 47) :
    (a.toNat / 4096 = va.toNat / 4096 → leafEntry (vmmMap s' r va (page2pa pp) USER_FLAGS) r a = pteMake (page2pa pp) USER_FLAGS ∧
      byteAt (vmmMap s' r va (page2pa pp) USER_FLAGS) r a = 0) ∧
    (a.toNat / 4096 ≠ va.toNat / 4096 → leafEntry (vmmMap s' r va (page2pa pp) USER_FLAGS) r a = leafEntry s r a ∧
      (present (leafEntry s r a) = true → byteAt (vmmMap s' r va (page2pa pp) USER_FLAGS) r a = byteAt s r a)) := by
  have fresh : pp ∉ free := (List.nodup_cons.mp forest.list.nodup).1
  have elsewhere : ∀ g, g ≠ pp → s'.mem g = s.mem g := fun g other => by
    funext j
    simp [cleared, Phys.zeroFrame, other]
  obtain ⟨same, tables⟩ := forest.take elsewhere
  have noTable : ∀ f path, (∀ k path, ¬ Node (layout Lower) s.mem root 3 k path f) →
      ¬ Node (layout Lower) s'.mem root 3 k path f := fun f path none node =>
    none k path ((node_frame 2 fun k path t table => same k path t (table.mono (by decide))).mp node)
  obtain ⟨taken, rest, split, grows, _, mapped⟩ := vmmMap_grows va (page2pa pp) USER_FLAGS list tables isRoot (lower_of_small small)
  -- Frames that are neither free nor tables are left alone.
  have kept : ∀ f, f ∉ free → (∀ k path, ¬ Node (layout Lower) s.mem root 3 k path f) →
      (vmmMap s' r va (page2pa pp) USER_FLAGS).mem f = s'.mem f := by
    intro f unfree none
    funext i
    by_contra changed
    rcases grows.frame f i changed with new | ⟨path, node, _⟩
    · exact unfree (by rw [split]; exact List.mem_append_left _ new)
    · exact noTable f path none node
  obtain ⟨here, other⟩ := mapped found k r (tablePath a) (leafIndex a) isRoot (admitted_tablePath (lower_of_small lower)) rfl
  have samePage : (tablePath a = tablePath va ∧ leafIndex a = leafIndex va) ↔ a.toNat / 4096 = va.toNat / 4096 := by
    rw [same_page_iff, ← BitVec.toNat_inj, pageOf_toNat, pageOf_toNat]
    omega
  rw [← leafEntry_eq, samePage] at here other
  rw [← leafEntry_eq] at other
  simp only [true_and] at here other
  constructor
  · intro page
    have none : ∀ k path, ¬ Node (layout Lower) s.mem root 3 k path pp := fun k path node =>
      forest.exclusive.node_unfree (node.mono (by decide)) List.mem_cons_self
    refine ⟨here page, ?_⟩
    rw [byteAt, here page, tableOf_make_page user_flags_plain (forest.list.small pp List.mem_cons_self), Phys.readByte,
      kept pp fresh none, cleared]
    simp [Phys.zeroFrame, byteOf]
  · intro apart
    have unchanged : leafEntry s' r a = leafEntry s r a := leafEntry_frame isRoot (lower_of_small lower) (same k)
    have leaf := (other apart).trans unchanged
    refine ⟨leaf, fun isPresent => ?_⟩
    have page := leaf_node isRoot (lower_of_small lower) isPresent
    have unfree := forest.exclusive.node_unfree page
    have notFree : tableOf (leafEntry s r a) ∉ free := fun member => unfree (List.mem_cons_of_mem _ member)
    rw [byteAt, leaf, Phys.readByte, kept _ notFree fun k path table =>
      forest.page_ne_table page (by simp [tablePath]) table rfl, elsewhere _ fun isPp => unfree (isPp ▸ List.mem_cons_self)]
    rfl

/-- The bytes behind a range of mapped addresses. -/
def bytesAt (s : Phys) (r : Frame) (va : U64) (n : Nat) : List Byte :=
  (List.range n).map fun i => byteAt s r (va + BitVec.ofNat 64 i)

theorem bytesAt_succ (s : Phys) (r : Frame) (va : U64) (n : Nat) :
    bytesAt s r va (n + 1) = byteAt s r va :: bytesAt s r (va + 1) n := by
  rw [bytesAt, bytesAt, List.range_succ_eq_map, List.map_cons, List.map_map]
  refine congrArg₂ List.cons (by rw [BitVec.add_zero]) (List.map_congr_left fun i _ => ?_)
  rw [Function.comp, Nat.succ_eq_add_one, Nat.add_comm i 1, BitVec.ofNat_add, BitVec.add_assoc]
  rfl

theorem bytesAt_length (s : Phys) (r : Frame) (va : U64) (n : Nat) : (bytesAt s r va n).length = n := by
  simp [bytesAt]

theorem bytesAt_take (s : Phys) (r : Frame) (va : U64) {n m : Nat} (shorter : n ≤ m) :
    (bytesAt s r va m).take n = bytesAt s r va n := by
  rw [bytesAt, bytesAt, ← List.map_take, List.take_range, Nat.min_eq_left shorter]

/-- Every byte of a range is a lower-half address whose leaf entry permits the
access. -/
def Permitted (s : Phys) (r : Frame) (va : U64) (n : Nat) (needWrite : Bool) : Prop :=
  ∀ a : U64, va.toNat ≤ a.toNat → a.toNat < va.toNat + n → a.toNat < 2 ^ 47 ∧ permits (leafEntry s r a) needWrite = true

theorem permitted_of_check {uva len : U64} {n : Nat} (valid : uvaCheckRange s r uva len needWrite = true)
    (shorter : n ≤ len.toNat) : Permitted s r uva n needWrite := by
  intro a low high
  rcases (uvaCheckRange_iff s r uva len needWrite).mp valid with rfl | ⟨_, all⟩
  · have empty : (0 : U64).toNat = 0 := rfl
    omega
  · exact all a low (by omega)

theorem Permitted.next {n : Nat} (permitted : Permitted s r va (n + 1) needWrite) :
    va.toNat < 2 ^ 47 ∧ permits (leafEntry s r va) needWrite = true ∧ (va + 1).toNat = va.toNat + 1 ∧
      Permitted s r (va + 1) n needWrite := by
  obtain ⟨small, here⟩ := permitted va (Nat.le_refl _) (by omega)
  have next : (va + 1).toNat = va.toNat + 1 := by
    rw [BitVec.toNat_add, show (1 : U64).toNat = 1 from rfl]
    omega
  exact ⟨small, here, next, fun a low high => permitted a (by omega) (by omega)⟩

/-- A permitted range is read without a fault. -/
theorem loadBytes_lower {n : Nat} (forest : Forest root others 4 s free) (isRoot : root k = some r)
    (permitted : Permitted s r va n needWrite) : Cpu.loadBytes s r va n = some (bytesAt s r va n) := by
  induction n generalizing va with
  | zero => rfl
  | succ n ih =>
    obtain ⟨small, here, _, later⟩ := permitted.next
    simp only [Cpu.loadBytes, load_lower forest isRoot small here, ih later, Option.map_some, bytesAt_succ]

theorem Overwritten.permitted {i : κ} {va₁ : U64} {n m : Nat} (wrote : Overwritten root k va n s s')
    (isRoot : root i = some r) (permitted : Permitted s r va₁ m needWrite) : Permitted s' r va₁ m needWrite := by
  intro a low high
  obtain ⟨small, here⟩ := permitted a low high
  exact ⟨small, by rw [wrote.leaf i r a isRoot small]; exact here⟩

/-- A permitted range is written without a fault, and reads as what was written. -/
theorem storeBytes_lower {bytes : List Byte} (forest : Forest root others 4 s free) (isRoot : root k = some r)
    (permitted : Permitted s r va bytes.length true) :
    ∃ s', Cpu.storeBytes s r va bytes = some s' ∧ Overwritten root k va bytes.length s s' ∧
      bytesAt s' r va bytes.length = bytes := by
  induction bytes generalizing s va with
  | nil => exact ⟨s, rfl, ⟨fun _ _ _ _ _ => rfl, fun _ _ _ _ _ _ _ => rfl⟩, rfl⟩
  | cons b bytes ih =>
    obtain ⟨small, here, next, later⟩ := permitted.next
    have isPresent := present_of_permits here
    obtain ⟨first, stored⟩ := writeByte_overwritten forest isRoot small isPresent b
    have evolves := writeByte_evolves forest isRoot (lower_of_small small) isPresent (va.toNat % 4096) b
    have ran := store_lower forest isRoot small here b
    generalize s.writeByte (tableOf (leafEntry s r va)) (va.toNat % 4096) b = s₁ at *
    obtain ⟨s', ran', wrote, read⟩ := ih evolves.forest (first.permitted isRoot later)
    refine ⟨s', by simp only [Cpu.storeBytes, ran, ran'], ⟨fun k' r' va' isRoot' small' => ?_,
      fun k' r' va' isRoot' small' isPresent' other => ?_⟩, ?_⟩
    · rw [wrote.leaf k' r' va' isRoot' small', first.leaf k' r' va' isRoot' small']
    · rw [List.length_cons] at other
      rw [wrote.rest k' r' va' isRoot' small', first.rest k' r' va' isRoot' small' isPresent']
      · intro same
        have apart := other same
        omega
      · rw [first.leaf k' r' va' isRoot' small']
        exact isPresent'
      · intro same
        have apart := other same
        omega
    · rw [List.length_cons, bytesAt_succ, read]
      refine congrArg (· :: bytes) ?_
      rw [wrote.rest k r va isRoot small, stored]
      · rw [first.leaf k r va isRoot small]
        exact isPresent
      · intro _
        omega

end HobbyKernel.UserBytes
