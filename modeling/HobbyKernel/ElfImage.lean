import Mathlib.Data.List.Pairwise
import HobbyKernel.ReportedSuccess
import HobbyKernel.UserBytes

/-! The image that `elf_load` builds in a fresh address space. Its loops go
through pairs of a segment and a page; what a byte holds is decided by the pairs
that were done, in any order, because no two segments claim the same byte. -/
namespace HobbyKernel.ElfImage
open AddressBits PageAllocProofs WalkProofs CopyProofs AddressSpaces UaccessProofs UserAccess SpaceEvolution PageWrites UserBytes
open ElfProofs MapSupply ReportedSuccess Radix Supplies

variable {κ ι : Type} {root : κ → Option Frame} {others : ι → Frame → Prop} {k : κ} {s s' : Phys}
  {free : List Nat} {r g : Frame} {va phys : U64} {seg : Segment} {image : Image}

/-- An address whose byte comes from the file. -/
def InFile (seg : Segment) (a : Nat) : Prop := seg.pVaddr.toNat ≤ a ∧ a < seg.pVaddr.toNat + seg.pFilesz.toNat

instance (seg : Segment) (a : Nat) : Decidable (InFile seg a) := inferInstanceAs (Decidable (_ ∧ _))

/-- The byte of the file that belongs at an address. -/
def fileByte (image : Image) (seg : Segment) (a : Nat) : Byte :=
  image (seg.pOffset + BitVec.ofNat 64 (a - seg.pVaddr.toNat))

/-- What a copy inside one page does to every byte of memory. -/
theorem copyIn_readByte (s : Phys) (dst : U64) (image : Image) (src : U64) (n : Nat) {off : Nat}
    (inside : dst.toNat % 4096 + n ≤ 4096) (small : off < 4096) : (s.copyIn dst image src n).readByte g off =
      if g = frameOf dst ∧ dst.toNat % 4096 ≤ off ∧ off < dst.toNat % 4096 + n then
        image (src + BitVec.ofNat 64 (off - dst.toNat % 4096))
      else s.readByte g off := by
  induction n generalizing s dst src with
  | zero => rw [Phys.copyIn, if_neg (by omega)]
  | succ n ih =>
    have stored : (s.storeAt dst (image src)).readByte g off =
        if g = frameOf dst ∧ off = dst.toNat % 4096 then image src else s.readByte g off :=
      readByte_writeByte s _ (Nat.mod_lt _ (by decide)) small
    rw [Phys.copyIn]
    cases n with
    | zero =>
      rw [Phys.copyIn, stored]
      by_cases here : g = frameOf dst ∧ off = dst.toNat % 4096
      · rw [if_pos here, if_pos ⟨here.1, by omega⟩, here.2, Nat.sub_self, BitVec.add_zero]
      · rw [if_neg here, if_neg fun both => here ⟨both.1, by omega⟩]
    | succ n =>
      have one : (1 : U64).toNat = 1 := rfl
      obtain ⟨sameFrame, next⟩ := frameOf_add dst 1 (by omega)
      rw [ih _ (dst + 1) (src + 1) (by omega), sameFrame, next, stored, one]
      by_cases isFrame : g = frameOf dst
      · simp only [isFrame, true_and]
        rcases Nat.lt_trichotomy off (dst.toNat % 4096) with before | here | later
        · rw [if_neg (by omega), if_neg (by omega), if_neg (by omega)]
        · rw [if_neg (by omega), if_pos here, if_pos (by omega), here, Nat.sub_self, BitVec.add_zero]
        · have shifted : src + 1 + BitVec.ofNat 64 (off - (dst.toNat % 4096 + 1)) = src + BitVec.ofNat 64 (off - dst.toNat % 4096) := by
            rw [BitVec.add_assoc, show (1 : U64) = BitVec.ofNat 64 1 from rfl, ← BitVec.ofNat_add]
            congr 2
            omega
          rw [if_neg (by omega : ¬ off = dst.toNat % 4096), shifted]
          refine if_congr ?_ rfl rfl
          omega
      · simp only [isFrame, false_and, if_false]

/-- The copy window of a page is the part of it that is in the file. -/
theorem loadBytesOf_readByte (image : Image) (seg : Segment) (s : Phys) {off : Nat} (aligned : phys.toNat % 4096 = 0)
    (page : va.toNat + 4096 < 2 ^ 64) (fits : seg.pVaddr.toNat + seg.pFilesz.toNat < 2 ^ 64) (small : off < 4096) :
    (loadBytesOf seg image va phys s).readByte g off =
      if g = frameOf phys ∧ InFile seg (va.toNat + off) then fileByte image seg (va.toNat + off) else s.readByte g off := by
  have pageEnd : (va + PGSIZE).toNat = va.toNat + 4096 := by
    rw [BitVec.toNat_add, show PGSIZE.toNat = 4096 from rfl]
    omega
  have fileEnd : (seg.pVaddr + seg.pFilesz).toNat = seg.pVaddr.toNat + seg.pFilesz.toNat := by
    rw [BitVec.toNat_add]
    omega
  have lo := later_toNat va seg.pVaddr
  have hi := earlier_toNat (seg.pVaddr + seg.pFilesz) (va + PGSIZE)
  simp only [loadBytesOf]
  generalize (if va < seg.pVaddr then seg.pVaddr else va) = copyLo at *
  generalize (if seg.pVaddr + seg.pFilesz < va + PGSIZE then seg.pVaddr + seg.pFilesz else va + PGSIZE) = copyHi at *
  split
  · rename_i some
    rw [BitVec.lt_def] at some
    have offset : (copyLo - va).toNat = copyLo.toNat - va.toNat := BitVec.toNat_sub_of_le (BitVec.le_def.mpr (by omega))
    have length : (copyHi - copyLo).toNat = copyHi.toNat - copyLo.toNat := BitVec.toNat_sub_of_le (Nat.le_of_lt some)
    have skipped : (copyLo - seg.pVaddr).toNat = copyLo.toNat - seg.pVaddr.toNat :=
      BitVec.toNat_sub_of_le (BitVec.le_def.mpr (by omega))
    obtain ⟨sameFrame, within⟩ := frameOf_add phys (copyLo - va) (by omega)
    rw [copyIn_readByte _ _ _ _ _ (by omega) small, sameFrame, within, aligned, offset, length]
    by_cases inside : g = frameOf phys ∧ InFile seg (va.toNat + off)
    · obtain ⟨isFrame, low, high⟩ := inside
      rw [if_pos ⟨isFrame, by omega, by omega⟩, if_pos ⟨isFrame, low, high⟩, fileByte]
      have start : copyLo - seg.pVaddr = BitVec.ofNat 64 (copyLo.toNat - seg.pVaddr.toNat) := by
        rw [← skipped, BitVec.ofNat_toNat, BitVec.setWidth_eq]
      have moved : copyLo.toNat - seg.pVaddr.toNat + (off - (0 + (copyLo.toNat - va.toNat))) = va.toNat + off - seg.pVaddr.toNat := by
        omega
      rw [BitVec.add_assoc, start, ← BitVec.ofNat_add, moved]
    · rw [if_neg inside, if_neg]
      rintro ⟨isFrame, low, high⟩
      exact inside ⟨isFrame, by omega, by omega⟩
  · rename_i nothing
    rw [BitVec.lt_def] at nothing
    rw [if_neg]
    rintro ⟨_, low, high⟩
    omega

/-- The same, seen from the address space. -/
theorem loadBytesOf_byteAt (image : Image) (seg : Segment) (forest : Forest root others 4 s free) (isRoot : root k = some r)
    (small : va.toNat < 2 ^ 47) (aligned : va.toNat % 4096 = 0) (isPresent : present (leafEntry s r va) = true)
    (fits : seg.pVaddr.toNat + seg.pFilesz.toNat < 2 ^ 64) {a : U64} (lower : a.toNat < 2 ^ 47)
    (mapped : present (leafEntry s r a) = true) :
    byteAt (loadBytesOf seg image va (pteGetAddr (leafEntry s r va)) s) r a =
      if a.toNat / 4096 = va.toNat / 4096 ∧ InFile seg a.toNat then fileByte image seg a.toNat else byteAt s r a := by
  have confined : Confined (tableOf (leafEntry s r va)) s (loadBytesOf seg image va (pteGetAddr (leafEntry s r va)) s) :=
    loadBytesOf_confined va _ s image seg (pteGetAddr_aligned _) (by omega)
  have page := leaf_node isRoot (lower_of_small small) isPresent
  have leaf : leafEntry (loadBytesOf seg image va (pteGetAddr (leafEntry s r va)) s) r a = leafEntry s r a :=
    leafEntry_frame isRoot (lower_of_small lower) fun path t table =>
      confined.elsewhere t (forest.page_ne_table page (by simp [tablePath]) table)
  have samePage : tableOf (leafEntry s r a) = tableOf (leafEntry s r va) ↔ a.toNat / 4096 = va.toNat / 4096 :=
    ⟨fun same => (page_of_frame forest isRoot isRoot small lower isPresent mapped same).2,
      fun same => congrArg tableOf (leafEntry_page va same)⟩
  have frame : frameOf (pteGetAddr (leafEntry s r va)) = tableOf (leafEntry s r va) := rfl
  rw [byteAt, leaf, loadBytesOf_readByte image seg s (pteGetAddr_aligned _) (by omega) fits (Nat.mod_lt _ (by decide)), frame]
  simp only [samePage]
  by_cases here : a.toNat / 4096 = va.toNat / 4096
  · have place : va.toNat + a.toNat % 4096 = a.toNat := by omega
    rw [place]
    rfl
  · simp only [here, false_and, if_false]
    rfl

/-- A fresh address space: there is nothing in its lower half. -/
structure Fresh (s : Phys) (r : Frame) (free : List Nat) : Prop where
  list : FreeList s free
  unfree : r ∉ free
  empty : ∀ j, Lower j → present (s.mem r j) = false

theorem newAddressSpace_fresh {cr3 : U64} (list : FreeList s free) (made : vmmNewAddressSpace s cr3 = (s', some r)) :
    ∃ rest, free = r :: rest ∧ Fresh s' r rest := by
  rcases vmmNewAddressSpace_cases list cr3 with ⟨_, failed⟩ | ⟨child, rest, s₁, ran, split, building, empty, _⟩
  · rw [failed] at made
    cases made
  · rw [ran] at made
    cases made
    subst split
    exact ⟨rest, rfl, building.list, (List.nodup_cons.mp list.nodup).1, fun j lower => by rw [empty j lower]; rfl⟩

theorem Fresh.follow (fresh : Fresh s r free) {q : List Index} (nonempty : q ≠ []) (admitted : (layout Lower).Admitted q) :
    Radix.follow (layout Lower) s.mem r q = none := by
  cases q with
  | nil => exact absurd rfl nonempty
  | cons j q =>
    have absent : (layout Lower).dec (s.mem r j) = none := by
      rw [layout_dec, fresh.empty j (admitted j rfl)]
      rfl
    rw [Radix.follow, absent]

theorem Fresh.top (fresh : Fresh s r free) {path : List Index} {f : Frame} {depth : Nat}
    (node : Node (layout Lower) s.mem (alone r) depth () path f) : path = [] ∧ f = r := by
  obtain ⟨_, admitted, _, isRoot, reached⟩ := node
  cases isRoot
  by_cases nonempty : path = []
  · subst nonempty
    exact ⟨rfl, (Option.some.inj reached).symm⟩
  · rw [fresh.follow nonempty admitted] at reached
    cases reached

theorem Fresh.forest (fresh : Fresh s r free) : Forest (alone r) nobody 4 s free := by
  refine ⟨fresh.list, ⟨fun o o' f owns owns' => ?_, fun o f owns member => ?_⟩, fun k path t i node admitted isPresent => ?_⟩
  · cases o with
    | other x => exact x.elim
    | node k path =>
      cases o' with
      | other x => exact x.elim
      | node k' path' => rw [(fresh.top owns).1, (fresh.top owns').1]
  · cases o with
    | other x => exact x.elim
    | node k path => exact fresh.unfree ((fresh.top owns).2 ▸ member)
  · obtain ⟨rfl, rfl⟩ := fresh.top node
    rw [fresh.empty i (admitted i rfl)] at isPresent
    cases isPresent

theorem Fresh.leaf (fresh : Fresh s r free) (small : va.toNat < 2 ^ 47) : present (leafEntry s r va) = false := by
  rw [leafEntry_eq Lower, entry, fresh.follow (by simp [tablePath]) (admitted_tablePath (lower_of_small small))]
  exact (show present 0#64 = false by decide)

theorem Fresh.supplied (fresh : Fresh s r free) : Supplied Lower s r free ⟨free.length, fun _ => false, fun _ => false⟩ := by
  refine ⟨rfl, fun _ q nonempty admitted _ => by rw [fresh.follow nonempty admitted]; rfl, fun va lower => ?_⟩
  rw [leafEntry_eq Lower, entry, fresh.follow (by simp [tablePath]) (admitted_tablePath lower)]
  exact (show false = present 0#64 by decide)

/-- How far the loops have come: these pages are mapped for the program, and
hold what the pairs of a segment and a page that are done put there. -/
structure Loaded (image : Image) (r : Frame) (mapped : List U64) (done : List (Segment × U64)) (s : Phys)
    (free : List Nat) (supply : FrameSupply) : Prop where
  forest : Forest (alone r) nobody 4 s free
  supplied : Supplied Lower s r free supply
  pages : ∀ a : U64, a.toNat < 2 ^ 47 →
    (present (leafEntry s r a) = true ↔ ∃ page ∈ mapped, a.toNat / 4096 = page.toNat / 4096)
  user : ∀ a : U64, a.toNat < 2 ^ 47 → present (leafEntry s r a) = true → permits (leafEntry s r a) true = true
  within : ∀ p ∈ done, p.2 ∈ mapped
  filled : ∀ p ∈ done, ∀ a : U64, a.toNat < 2 ^ 47 → a.toNat / 4096 = p.2.toNat / 4096 → InFile p.1 a.toNat →
    byteAt s r a = fileByte image p.1 a.toNat
  zero : ∀ a : U64, a.toNat < 2 ^ 47 → present (leafEntry s r a) = true →
    (∀ p ∈ done, a.toNat / 4096 = p.2.toNat / 4096 → ¬ InFile p.1 a.toNat) → byteAt s r a = 0

variable {mapped : List U64} {done todo : List (Segment × U64)} {supply : FrameSupply} {page : U64}

theorem Fresh.loaded (fresh : Fresh s r free) (image : Image) :
    Loaded image r [] [] s free ⟨free.length, fun _ => false, fun _ => false⟩ := by
  refine ⟨fresh.forest, fresh.supplied, fun a small => ?_, fun a small isPresent => ?_, nofun, nofun, fun a small isPresent => ?_⟩
  · simp [fresh.leaf small]
  · rw [fresh.leaf small] at isPresent
    cases isPresent
  · rw [fresh.leaf small] at isPresent
    cases isPresent

/-- A page that is mapped already is reused. -/
theorem Loaded.again (loaded : Loaded image r mapped done s free supply) (small : page.toNat < 2 ^ 47)
    (isPresent : present (leafEntry s r page) = true) : Loaded image r (mapped ++ [page]) done s free supply := by
  refine { loaded with pages := fun a lower => ?_, within := fun p member => List.mem_append_left _ (loaded.within p member) }
  rw [loaded.pages a lower]
  refine ⟨fun ⟨old, member, same⟩ => ⟨old, List.mem_append_left _ member, same⟩, fun ⟨found, member, same⟩ => ?_⟩
  rcases List.mem_append.mp member with old | new
  · exact ⟨found, old, same⟩
  · obtain ⟨old, isOld, samePage⟩ := (loaded.pages page small).mp isPresent
    rw [List.mem_singleton] at new
    exact ⟨old, isOld, same.trans (new ▸ samePage)⟩

/-- For a page that is not mapped a frame is taken, and it reads as zeros. -/
theorem Loaded.mapPage (loaded : Loaded image r mapped done s free supply) (small : page.toNat < 2 ^ 47)
    (absent : present (leafEntry s r page) = false)
    (enough : 1 + Supplies.missing tablePrefixes supply.parts page ≤ supply.left) :
    ∃ s₁ pp, pageAlloc s 1#32 = (s₁, some pp) ∧ pp < 2 ^ 40 ∧
      leafEntry (vmmMap s₁ r page (page2pa pp) USER_FLAGS) r page = pteMake (page2pa pp) USER_FLAGS ∧
      ∃ rest, Loaded image r (mapped ++ [page]) done (vmmMap s₁ r page (page2pa pp) USER_FLAGS) rest
        (serve pageOf tablePrefixes true page supply).1 := by
  have lower := lower_of_small small
  have left := loaded.supplied.left
  have unserved : supply.served (pageOf page) = false := (loaded.supplied.served page lower).trans absent
  rcases pageAlloc_cases loaded.forest.list 1#32 with ⟨rfl, _⟩ | ⟨pp, rest, s₁, rfl, took, list, cleared⟩
  · rw [List.length_nil] at left
    omega
  rw [List.length_cons] at left
  have forest := loaded.forest
  obtain ⟨spared, tables⟩ := forest.take fun f => alloc_elsewhere cleared
  have same := spared ()
  obtain ⟨_, rest', list', supplied'⟩ := map_supplied (k := ()) true (page2pa pp) (by decide : present USER_FLAGS = true) list tables
    rfl lower left ((loaded.supplied.parts (by omega)).frame rfl same) (loaded.supplied.served.frame rfl same) (by simp [unserved])
  obtain ⟨kept, evolves, _⟩ := map_evolves (k := ()) page forest list (fun f => alloc_elsewhere cleared) rfl lower
  cases evolves.forest.list.unique list'
  have found : (vmmWalk s₁ r page true).2 ≠ none := by
    refine (vmmMap_tables page (page2pa pp) USER_FLAGS list tables (k := ()) rfl lower ?_).1
    rw [missing_view ((loaded.supplied.parts (by omega)).frame (alone_self r) same) lower]
    omega
  have zeroed := fun a lower => mapPage_zeroed (k := ()) (a := a) forest list cleared rfl small found lower
  have here := ((zeroed page small).1 rfl).1
  refine ⟨s₁, pp, took, forest.list.small pp List.mem_cons_self, here, rest', evolves.forest, supplied', fun a lower => ?_,
    fun a lower isPresent => ?_, fun p member => List.mem_append_left _ (loaded.within p member),
    fun p member a lower onPage inFile => ?_, fun a lower isPresent none => ?_⟩
  · by_cases onPage : a.toNat / 4096 = page.toNat / 4096
    · rw [((zeroed a lower).1 onPage).1, present_make]
      exact ⟨fun _ => ⟨page, List.mem_append_right _ (List.mem_singleton_self _), onPage⟩, fun _ => by decide⟩
    · rw [((zeroed a lower).2 onPage).1, loaded.pages a lower]
      refine ⟨fun ⟨old, member, same⟩ => ⟨old, List.mem_append_left _ member, same⟩, fun ⟨old, member, same⟩ => ?_⟩
      rcases List.mem_append.mp member with before | new
      · exact ⟨old, before, same⟩
      · rw [List.mem_singleton] at new
        exact absurd (new ▸ same) onPage
  · by_cases onPage : a.toNat / 4096 = page.toNat / 4096
    · rw [((zeroed a lower).1 onPage).1]
      exact permits_user_page _ true
    · rw [((zeroed a lower).2 onPage).1] at isPresent ⊢
      exact loaded.user a lower isPresent
  · have wasPresent : present (leafEntry s r a) = true := (loaded.pages a lower).mpr ⟨p.2, loaded.within p member, onPage⟩
    have other : a.toNat / 4096 ≠ page.toNat / 4096 := by
      intro same
      rw [leafEntry_page page same, absent] at wasPresent
      cases wasPresent
    rw [((zeroed a lower).2 other).2 wasPresent]
    exact loaded.filled p member a lower onPage inFile
  · by_cases onPage : a.toNat / 4096 = page.toNat / 4096
    · exact ((zeroed a lower).1 onPage).2
    · obtain ⟨leaf, byte⟩ := (zeroed a lower).2 onPage
      rw [leaf] at isPresent
      rw [byte isPresent]
      exact loaded.zero a lower isPresent none

/-- The copy at the end of a round. -/
theorem Loaded.copy (loaded : Loaded image r mapped done s free supply) (member : page ∈ mapped) (small : page.toNat < 2 ^ 47)
    (aligned : page.toNat % 4096 = 0) (fits : seg.pVaddr.toNat + seg.pFilesz.toNat < 2 ^ 64)
    (sole : ∀ p ∈ done, ∀ a, InFile p.1 a → InFile seg a → p.1 = seg) :
    Loaded image r mapped (done ++ [(seg, page)]) (loadBytesOf seg image page (pteGetAddr (leafEntry s r page)) s) free supply := by
  have isPresent := (loaded.pages page small).mpr ⟨page, member, rfl⟩
  have bytes := fun a lower => loadBytesOf_byteAt (k := ()) (a := a) image seg loaded.forest rfl small aligned isPresent fits lower
  have confined : Confined (tableOf (leafEntry s r page)) s (loadBytesOf seg image page (pteGetAddr (leafEntry s r page)) s) :=
    loadBytesOf_confined page _ s image seg (pteGetAddr_aligned _) (by omega)
  have node := leaf_node (alone_self r) (lower_of_small small) isPresent
  have tables : ∀ path t, Node (layout Lower) s.mem (alone r) 3 () path t → _ = s.mem t := fun path t table =>
    confined.elsewhere t (loaded.forest.page_ne_table node (by simp [tablePath]) table)
  have forest := (writePage_evolves loaded.forest (confined.list loaded.forest.list) node (by simp [tablePath])
    confined.elsewhere).forest
  have leaf : ∀ a : U64, a.toNat < 2 ^ 47 → leafEntry _ r a = leafEntry s r a := fun a lower =>
    leafEntry_frame (alone_self r) (lower_of_small lower) tables
  generalize loadBytesOf seg image page (pteGetAddr (leafEntry s r page)) s = s' at *
  refine ⟨forest, loaded.supplied.frame (alone_self r) tables, fun a lower => ?_, fun a lower => ?_,
    fun p isDone => ?_, fun p isDone a lower onPage inFile => ?_, fun a lower mapped none => ?_⟩
  · rw [leaf a lower]
    exact loaded.pages a lower
  · rw [leaf a lower]
    exact loaded.user a lower
  · rcases List.mem_append.mp isDone with old | new
    · exact loaded.within p old
    · rw [List.mem_singleton.mp new]
      exact member
  · rcases List.mem_append.mp isDone with old | new
    · have wasPresent := (loaded.pages a lower).mpr ⟨p.2, loaded.within p old, onPage⟩
      rw [bytes a lower wasPresent]
      split
      · rename_i both
        rw [sole p old a.toNat inFile both.2]
      · exact loaded.filled p old a lower onPage inFile
    · rw [List.mem_singleton] at new
      subst new
      have wasPresent := (loaded.pages a lower).mpr ⟨page, member, onPage⟩
      rw [bytes a lower wasPresent, if_pos ⟨onPage, inFile⟩]
  · rw [leaf a lower] at mapped
    have notHere : ¬ (a.toNat / 4096 = page.toNat / 4096 ∧ InFile seg a.toNat) := fun both =>
      none (seg, page) (List.mem_append_right _ (List.mem_singleton_self _)) both.1 both.2
    rw [bytes a lower mapped, if_neg notHere]
    exact loaded.zero a lower mapped fun p old => none p (List.mem_append_left _ old)

/-- One round of the page loop, with frames for what it needs. -/
theorem Loaded.loadPage (loaded : Loaded image r mapped done s free supply) (small : page.toNat < 2 ^ 47)
    (aligned : page.toNat % 4096 = 0) (fits : seg.pVaddr.toNat + seg.pFilesz.toNat < 2 ^ 64)
    (sole : ∀ p ∈ done, ∀ a, InFile p.1 a → InFile seg a → p.1 = seg)
    (enough : supply.served (pageOf page) = false → 1 + Supplies.missing tablePrefixes supply.parts page ≤ supply.left) :
    ∃ s' free', HobbyKernel.loadPage r image seg page s = (s', true) ∧
      Loaded image r (mapped ++ [page]) (done ++ [(seg, page)]) s' free' (serve pageOf tablePrefixes true page supply).1 := by
  have isLast : page ∈ mapped ++ [page] := List.mem_append_right _ (List.mem_singleton_self _)
  have served := loaded.supplied.served page (lower_of_small small)
  cases isPresent : present (leafEntry s r page) with
  | true =>
    rw [isPresent] at served
    rw [serve, served, if_pos (by rfl), loadPage_mapped isPresent]
    exact ⟨_, free, rfl, (loaded.again small isPresent).copy isLast small aligned fits sole⟩
  | false =>
    rw [isPresent] at served
    obtain ⟨s₁, pp, took, below, leaf, rest, loaded'⟩ := loaded.mapPage small isPresent (enough served)
    have copied := loaded'.copy isLast small aligned fits sole
    rw [leaf, pteGetAddr_make_page user_flags_plain below] at copied
    rw [loadPage_missing isPresent, took]
    exact ⟨_, rest, rfl, copied⟩

/-- The whole loop, with frames for all of it. -/
theorem Loaded.run (loaded : Loaded image r mapped done s free supply)
    (pages : ∀ p ∈ todo, p.2.toNat < 2 ^ 47 ∧ p.2.toNat % 4096 = 0 ∧ p.1.pVaddr.toNat + p.1.pFilesz.toNat < 2 ^ 64)
    (sole : ∀ p ∈ done ++ todo, ∀ q ∈ done ++ todo, ∀ a, InFile p.1 a → InFile q.1 a → p.1 = q.1)
    (enough : demand tablePrefixes supply.parts (takers pageOf true supply.served (todo.map Prod.snd)) ≤ supply.left) :
    ∃ s' free' supply', Loop.forEach (fun p => HobbyKernel.loadPage r image p.1 p.2) todo s = (s', true) ∧
      Loaded image r (mapped ++ todo.map Prod.snd) (done ++ todo) s' free' supply' := by
  induction todo generalizing s mapped done free supply with
  | nil => exact ⟨s, free, supply, rfl, by simpa using loaded⟩
  | cons p todo ih =>
    obtain ⟨small, aligned, fits⟩ := pages p List.mem_cons_self
    rw [List.map_cons, takers] at enough
    obtain ⟨s₁, free₁, ran, loaded₁⟩ := loaded.loadPage small aligned fits
      (fun q old => sole q (List.mem_append_left _ old) p (List.mem_append_right _ List.mem_cons_self)) fun unserved => by
        rw [unserved, Bool.and_false, if_neg (by simp), demand] at enough
        omega
    have paid : demand tablePrefixes (serve pageOf tablePrefixes true p.2 supply).1.parts
        (takers pageOf true (serve pageOf tablePrefixes true p.2 supply).1.served (todo.map Prod.snd)) ≤
        (serve pageOf tablePrefixes true p.2 supply).1.left := by
      rw [serve]
      by_cases skipped : (true && supply.served (pageOf p.2)) = true
      · rw [if_pos skipped] at enough ⊢
        exact enough
      · rw [if_neg skipped, demand] at enough
        rw [if_neg skipped, if_neg (by omega), if_neg (by omega)]
        dsimp only
        omega
    obtain ⟨s', free', supply', looped, all⟩ := ih loaded₁ (fun q later => pages q (List.mem_cons_of_mem _ later))
      (by rw [← List.append_cons]; exact sole) paid
    refine ⟨s', free', supply', ?_, ?_⟩
    · rw [Loop.forEach_cons, ran]
      exact looped
    · rw [List.map_cons, List.append_cons mapped, List.append_cons done]
      exact all

/-- An address whose byte is the segment's. -/
def InMemory (seg : Segment) (a : Nat) : Prop := seg.pVaddr.toNat ≤ a ∧ a < seg.pVaddr.toNat + seg.pMemsz.toNat

/-- No byte is in both. -/
def Apart (seg seg' : Segment) : Prop := ∀ a, InMemory seg a → ¬ InMemory seg' a

instance : Std.Symm Apart := ⟨fun _ _ apart a here there => apart a there here⟩

/-- The segments that are loaded. -/
def loadedSegments (image : Image) : List Segment := image.segments.filter (·.pType = PT_LOAD)

/-- An image as `elf_load` is meant to find it. -/
structure Loadable (image : Image) : Prop where
  magic : image.magic = ELF_MAGIC
  elfClass : image.elfClass = 2
  fits : ∀ seg ∈ loadedSegments image, seg.pFilesz ≤ seg.pMemsz ∧ seg.pVaddr.toNat + seg.pMemsz.toNat ≤ 2 ^ 47
  disjoint : (loadedSegments image).Pairwise Apart

/-- The page of an address has a byte of the segment, or it is the page that an
empty segment begins in the middle of. -/
def OnPage (seg : Segment) (a : Nat) : Prop :=
  (∃ b, InMemory seg b ∧ b / 4096 = a / 4096) ∨
    (seg.pMemsz = 0 ∧ seg.pVaddr.toNat % 4096 ≠ 0 ∧ seg.pVaddr.toNat / 4096 = a / 4096)

/-- The pages of a segment in the lower half. -/
theorem mem_segmentPages (isLoad : seg.pType = PT_LOAD) (inside : seg.pVaddr.toNat + seg.pMemsz.toNat ≤ 2 ^ 47) :
    va ∈ segmentPages seg ↔ va.toNat % 4096 = 0 ∧ seg.pVaddr.toNat / 4096 ≤ va.toNat / 4096 ∧
      va.toNat < seg.pVaddr.toNat + seg.pMemsz.toNat := by
  rw [segmentPages, if_neg (not_not.mpr isLoad)]
  dsimp only
  rw [pageAddrs, segment_end inside, rounddown_toNat]
  constructor
  · intro member
    obtain ⟨i, bound, rfl⟩ := List.mem_map.mp member
    rw [List.mem_range] at bound
    rw [BitVec.toNat_add, rounddown_toNat, BitVec.toNat_ofNat]
    omega
  · rintro ⟨aligned, low, high⟩
    refine List.mem_map.mpr ⟨va.toNat / 4096 - seg.pVaddr.toNat / 4096, List.mem_range.mpr (by omega), ?_⟩
    apply BitVec.eq_of_toNat_eq
    rw [BitVec.toNat_add, rounddown_toNat, BitVec.toNat_ofNat]
    omega

theorem onPage_iff (isLoad : seg.pType = PT_LOAD) (inside : seg.pVaddr.toNat + seg.pMemsz.toNat ≤ 2 ^ 47) (a : Nat) :
    OnPage seg a ↔ ∃ page ∈ segmentPages seg, a / 4096 = page.toNat / 4096 := by
  have zero : seg.pMemsz = 0 ↔ seg.pMemsz.toNat = 0 := by rw [← BitVec.toNat_inj]; rfl
  simp only [mem_segmentPages isLoad inside, OnPage, zero]
  constructor
  · intro touches
    have place : a / 4096 * 4096 < 2 ^ 64 := by
      rcases touches with ⟨b, ⟨low, high⟩, same⟩ | ⟨_, _, same⟩
      · omega
      · omega
    have page : (BitVec.ofNat 64 (a / 4096 * 4096)).toNat = a / 4096 * 4096 := by
      rw [BitVec.toNat_ofNat, Nat.mod_eq_of_lt place]
    refine ⟨BitVec.ofNat 64 (a / 4096 * 4096), ?_, by omega⟩
    rcases touches with ⟨b, ⟨low, high⟩, same⟩ | ⟨empty, unaligned, same⟩
    · omega
    · omega
  · rintro ⟨page, ⟨aligned, low, high⟩, same⟩
    by_cases empty : seg.pMemsz.toNat = 0
    · exact .inr ⟨empty, by omega, by omega⟩
    · refine .inl ⟨max seg.pVaddr.toNat page.toNat, ⟨?_, ?_⟩, ?_⟩
      · omega
      · omega
      · omega

/-- The rounds of the page loops. -/
def imagePairs (image : Image) : List (Segment × U64) :=
  image.segments.flatMap fun seg => (segmentPages seg).map (Prod.mk seg)

theorem imagePairs_pages (image : Image) : (imagePairs image).map Prod.snd = imagePages image := by
  rw [imagePairs, imagePages, List.map_flatMap]
  refine congrArg (image.segments.flatMap ·) (funext fun seg => ?_)
  rw [List.map_map]
  exact List.map_id _

theorem loadSegments_pairs (r : Frame) (image : Image) (s : Phys) : Loop.forEach (loadSegment r image) image.segments s =
    Loop.forEach (fun p => HobbyKernel.loadPage r image p.1 p.2) (imagePairs image) s := by
  rw [imagePairs, ← Loop.forEach_flatMap]
  refine congrArg (Loop.forEach · image.segments s) (funext fun seg => funext fun s => ?_)
  rw [loadSegment_pages, Loop.forEach_map]

/-- The frames that an image takes in a fresh address space: one for each of
its pages, and one for each table on the way to them. -/
def framesFor (image : Image) : Nat :=
  demand tablePrefixes (fun _ => false) (takers pageOf true (fun _ => false) (imagePages image))

theorem mem_loadedSegments : seg ∈ loadedSegments image ↔ seg ∈ image.segments ∧ seg.pType = PT_LOAD := by
  rw [loadedSegments, List.mem_filter, decide_eq_true_eq]

theorem mem_imagePairs : (seg, page) ∈ imagePairs image ↔ seg ∈ loadedSegments image ∧ page ∈ segmentPages seg := by
  have onlyLoaded : page ∈ segmentPages seg → seg.pType = PT_LOAD := by
    intro member
    by_contra other
    rw [segmentPages, if_pos other] at member
    cases member
  rw [imagePairs, List.mem_flatMap, mem_loadedSegments]
  constructor
  · rintro ⟨seg', isSegment, member⟩
    obtain ⟨page', isPage, same⟩ := List.mem_map.mp member
    cases same
    exact ⟨⟨isSegment, onlyLoaded isPage⟩, isPage⟩
  · rintro ⟨⟨isSegment, _⟩, isPage⟩
    exact ⟨seg, isSegment, List.mem_map.mpr ⟨page, isPage, rfl⟩⟩

/-- No byte is in two segments. -/
theorem Loadable.sole (good : Loadable image) {seg' : Segment} {a : Nat} (first : seg ∈ loadedSegments image)
    (second : seg' ∈ loadedSegments image) (inFirst : InMemory seg a) (inSecond : InMemory seg' a) : seg = seg' := by
  by_contra different
  exact good.disjoint.forall first second different a inFirst inSecond

theorem Loadable.inMemory (good : Loadable image) (member : seg ∈ loadedSegments image) {a : Nat} (inFile : InFile seg a) :
    InMemory seg a := by
  have shorter := BitVec.le_def.mp (good.fits seg member).1
  exact ⟨inFile.1, Nat.lt_of_lt_of_le inFile.2 (Nat.add_le_add_left shorter _)⟩

theorem Loadable.onPage (good : Loadable image) (a : Nat) : (∃ seg ∈ loadedSegments image, OnPage seg a) ↔
    ∃ page ∈ imagePages image, a / 4096 = page.toNat / 4096 := by
  rw [← imagePairs_pages]
  constructor
  · rintro ⟨seg, member, touches⟩
    obtain ⟨page, isPage, same⟩ := (onPage_iff (mem_loadedSegments.mp member).2 (good.fits seg member).2 a).mp touches
    exact ⟨page, List.mem_map.mpr ⟨(seg, page), mem_imagePairs.mpr ⟨member, isPage⟩, rfl⟩, same⟩
  · rintro ⟨page, member, same⟩
    obtain ⟨⟨seg, _⟩, isPair, rfl⟩ := List.mem_map.mp member
    obtain ⟨isLoaded, isPage⟩ := mem_imagePairs.mp isPair
    exact ⟨seg, isLoaded, (onPage_iff (mem_loadedSegments.mp isLoaded).2 (good.fits seg isLoaded).2 a).mpr ⟨_, isPage, same⟩⟩

/-- After the loops, every byte of every segment is there. -/
theorem Loaded.byte (loaded : Loaded image r (imagePages image) (imagePairs image) s free supply) (good : Loadable image)
    (member : seg ∈ loadedSegments image) {a : U64} (inside : InMemory seg a.toNat) :
    Cpu.load s r a = some (if InFile seg a.toNat then fileByte image seg a.toNat else 0) := by
  have small : a.toNat < 2 ^ 47 := Nat.lt_of_lt_of_le inside.2 (good.fits seg member).2
  have isPresent := (loaded.pages a small).mpr ((good.onPage a.toNat).mp ⟨seg, member, .inl ⟨a.toNat, inside, rfl⟩⟩)
  rw [load_lower (k := ()) loaded.forest rfl small (loaded.user a small isPresent)]
  by_cases inFile : InFile seg a.toNat
  · obtain ⟨page, isPage, same⟩ := (onPage_iff (mem_loadedSegments.mp member).2 (good.fits seg member).2 a.toNat).mp
      (.inl ⟨a.toNat, inside, rfl⟩)
    rw [if_pos inFile, loaded.filled (seg, page) (mem_imagePairs.mpr ⟨member, isPage⟩) a small same inFile]
  · rw [if_neg inFile, loaded.zero a small isPresent]
    rintro ⟨other, page⟩ isDone _ inOther
    have isLoaded := (mem_imagePairs.mp isDone).1
    rw [good.sole isLoaded member (good.inMemory isLoaded inOther) inside] at inOther
    exact inFile inOther

/-- `elf_load` into a fresh address space with enough frames builds the image
that the headers describe: the bytes of the file, zeros behind them, the pages
of the segments and no others, and nothing else is written. -/
theorem elf_load_builds (fresh : Fresh s r free) (good : Loadable image) (enough : framesFor image ≤ free.length) :
    ∃ s', elfLoad s r image = (s', some image.eEntry) ∧
      (∀ seg ∈ loadedSegments image, ∀ k < seg.pMemsz.toNat, Cpu.load s' r (seg.pVaddr + BitVec.ofNat 64 k) =
        some (if k < seg.pFilesz.toNat then image (seg.pOffset + BitVec.ofNat 64 k) else 0)) ∧
      (∀ va : U64, va.toNat < 2 ^ 47 →
        ((∃ seg ∈ loadedSegments image, OnPage seg va.toNat) → Cpu.userMayAccess s'.mem r va true = true) ∧
        ((¬ ∃ seg ∈ loadedSegments image, OnPage seg va.toNat) → Cpu.translate s'.mem r va = none)) ∧
      ∀ f i, s'.mem f i ≠ s.mem f i → f ∈ free ∨ (f = r ∧ Lower i) := by
  have pairs : ∀ p ∈ imagePairs image, p.1 ∈ loadedSegments image ∧ p.2 ∈ segmentPages p.1 := fun p => mem_imagePairs.mp
  have bounds : ∀ p ∈ imagePairs image,
      p.2.toNat < 2 ^ 47 ∧ p.2.toNat % 4096 = 0 ∧ p.1.pVaddr.toNat + p.1.pFilesz.toNat < 2 ^ 64 := by
    intro p member
    obtain ⟨isLoaded, isPage⟩ := pairs p member
    obtain ⟨shorter, inside⟩ := good.fits p.1 isLoaded
    obtain ⟨aligned, _, high⟩ := (mem_segmentPages (mem_loadedSegments.mp isLoaded).2 inside).mp isPage
    rw [BitVec.le_def] at shorter
    exact ⟨by omega, aligned, by omega⟩
  obtain ⟨s', free', supply, ran, loaded⟩ := (fresh.loaded image).run bounds
    (fun p first q second a inFirst inSecond => good.sole (pairs p first).1 (pairs q second).1
      (good.inMemory (pairs p first).1 inFirst) (good.inMemory (pairs q second).1 inSecond))
    (by rw [imagePairs_pages]; exact enough)
  rw [List.nil_append, List.nil_append, imagePairs_pages] at loaded
  have result : elfLoad s r image = (s', some image.eEntry) := by
    rw [elfLoad, if_neg (not_not.mpr good.magic), if_neg (not_not.mpr good.elfClass), loadSegments_pairs, ran]
  refine ⟨s', result, fun seg member n below => ?_, fun va small => ⟨fun touched => ?_, fun untouched => ?_⟩, fun f i changed => ?_⟩
  · have inside := (good.fits seg member).2
    have place : (seg.pVaddr + BitVec.ofNat 64 n).toNat = seg.pVaddr.toNat + n := by
      rw [BitVec.toNat_add, BitVec.toNat_ofNat]
      omega
    rw [loaded.byte good member ⟨by omega, by omega⟩, place, fileByte, Nat.add_sub_cancel_left]
    refine congrArg some (if_congr ?_ rfl rfl)
    rw [InFile]
    omega
  · rw [userMayAccess_eq loaded.forest.walkable (alone_self r) small]
    exact loaded.user va small ((loaded.pages va small).mpr ((good.onPage va.toNat).mp touched))
  · rw [translate_lower loaded.forest.walkable (alone_self r) small, if_neg]
    exact fun isPresent => untouched ((good.onPage va.toNat).mpr ((loaded.pages va small).mp isPresent))
  · obtain ⟨rest, evolves⟩ := elfLoad_evolves (k := ()) fresh.forest rfl fun seg member isLoad =>
      (good.fits seg (mem_loadedSegments.mpr ⟨member, isLoad⟩)).2
    rw [result] at evolves
    rcases evolves.frame f i changed with new | ⟨path, node, admitted⟩
    · exact .inl new
    · obtain ⟨rfl, rfl⟩ := fresh.top node
      exact .inr ⟨rfl, admitted i rfl⟩

/-- An image with two segments that share a page: the first four bytes of the
file, and a page of zeros right behind them. -/
def twoSegments : Image := fun off =>
  (([(0, 0x7F), (1, 0x45), (2, 0x4C), (3, 0x46), (4, 2), (26, 0x40), (32, 64), (56, 2),
    (64, 1), (82, 0x40), (96, 4), (104, 4), (120, 1), (136, 4), (138, 0x40), (161, 0x10)] :
    List (U64 × Byte)).lookup off).getD 0

theorem twoSegments_loaded : loadedSegments twoSegments = [⟨1, 0, 0x400000, 4, 4⟩, ⟨1, 0, 0x400004, 0, 0x1000⟩] := by
  have first : twoSegments.segment 0 = ⟨1, 0, 0x400000, 4, 4⟩ := by
    rw [Image.segment, Segment.mk.injEq]
    decide +kernel
  have second : twoSegments.segment 1 = ⟨1, 0, 0x400004, 0, 0x1000⟩ := by
    rw [Image.segment, Segment.mk.injEq]
    decide +kernel
  have all : twoSegments.segments = [twoSegments.segment 0, twoSegments.segment 1] := by
    rw [Image.segments, show twoSegments.ePhnum.toNat = 2 by decide +kernel]
    rfl
  rw [loadedSegments, all, first, second]
  rfl

theorem twoSegments_loadable : Loadable twoSegments := by
  refine ⟨by decide +kernel, by decide +kernel, ?_, ?_⟩
  · rw [twoSegments_loaded]
    simp
  · rw [twoSegments_loaded, List.pairwise_pair]
    rintro a ⟨_, high⟩ ⟨low, _⟩
    exact absurd high (Nat.not_lt.mpr low)

theorem elf_load_builds_two : ∃ s', elfLoad (vmmNewAddressSpace (clearedPhys 1 6) 0).1 1 twoSegments = (s', some 0x400000) ∧
    Cpu.load s' 1 0x400003 = some 0x46 ∧ Cpu.load s' 1 0x401003 = some 0 ∧ Cpu.translate s'.mem 1 0x402000 = none := by
  have made : vmmNewAddressSpace (clearedPhys 1 6) 0 = ((vmmNewAddressSpace (clearedPhys 1 6) 0).1, some 1) := rfl
  obtain ⟨rest, split, fresh⟩ := newAddressSpace_fresh (clearedPhys_free (by decide : 1 + 6 ≤ 2 ^ 40)) made
  have frames : framesFor twoSegments ≤ rest.length := by
    have six := congrArg List.length split
    rw [List.length_range', List.length_cons] at six
    rw [show framesFor twoSegments = 5 by decide +kernel]
    omega
  obtain ⟨s', ran, bytes, pages, _⟩ := elf_load_builds fresh twoSegments_loadable frames
  rw [twoSegments_loaded] at bytes pages
  refine ⟨s', ran, bytes _ List.mem_cons_self 3 (by decide), bytes _ (List.mem_cons_of_mem _ List.mem_cons_self) 0xfff (by decide),
    (pages 0x402000 (by decide)).2 ?_⟩
  rintro ⟨seg, member, ⟨b, ⟨_, high⟩, page⟩ | ⟨empty, _⟩⟩
  · have last : b < 0x401004 := by
      simp only [List.mem_cons, List.not_mem_nil, or_false] at member
      rcases member with rfl | rfl
      · exact Nat.lt_trans high (by decide)
      · exact high
    rw [show (0x402000 : U64).toNat = 0x402000 from rfl] at page
    omega
  · simp only [List.mem_cons, List.not_mem_nil, or_false] at member
    rcases member with rfl | rfl
    · exact absurd empty (by decide)
    · exact absurd empty (by decide)

end HobbyKernel.ElfImage
