import HobbyKernel.Core.Cache
import HobbyKernel.UserAccess
import HobbyKernel.SpaceEvolution
import HobbyKernel.Isolation

/-! Why the rest of the model may do without cached translations. A cached one
was found by a walk, so it is enough that no operation of the kernel changes a
leaf entry that is present in the space in `cr3` and leaves it cached: mapping
fills empty entries there, unmapping ends with `invlpg`, and everything else
goes to other tables. -/
namespace HobbyKernel.CacheProofs
open AddressBits PageAllocProofs WalkProofs CopyProofs AddressSpaces SpaceEvolution UserAccess Radix Cpu

variable {s s' : Phys} {r : Frame} {cache cache' : Cache} {free rest : List Nat} {spaces : List Frame} {va : U64}

/-- The trees of a list of address spaces. -/
abbrev rootsOf (spaces : List Frame) : Nat → Option Frame := fun n => spaces[n]?

section Faithful

/-- What is cached for the lower half is what a walk finds. -/
def Faithful (s : Phys) (r : Frame) (cache : Cache) : Prop :=
  ∀ page t, page < 2 ^ 35 → cache page = some t → translate s.mem r (BitVec.ofNat 64 (2 ^ 12 * page)) = some t

theorem start_of_page {page : Nat} (small : page < 2 ^ 35) : (BitVec.ofNat 64 (2 ^ 12 * page)).toNat = 2 ^ 12 * page := by
  rw [BitVec.toNat_ofNat, Nat.mod_eq_of_lt (by omega)]

/-- Present entries that may be cached have not changed. -/
def Kept (s s' : Phys) (r : Frame) (cache : Cache) : Prop :=
  ∀ va : U64, va.toNat < 2 ^ 47 → cache (pageNumber va) ≠ none → present (leafEntry s r va) = true →
    leafEntry s' r va = leafEntry s r va

theorem Faithful.kept {κ κ' : Type} {root : κ → Option Frame} {root' : κ' → Option Frame} {k : κ} {k' : κ'}
    (faithful : Faithful s r cache) (walkable : Walkable Lower s.mem root) (isRoot : root k = some r)
    (walkable' : Walkable Lower s'.mem root') (isRoot' : root' k' = some r)
    (fewer : ∀ page t, cache' page = some t → cache page = some t) (kept : Kept s s' r cache') : Faithful s' r cache' := by
  intro page t small found
  have start := start_of_page small
  have lower : (BitVec.ofNat 64 (2 ^ 12 * page)).toNat < 2 ^ 47 := by omega
  have before := faithful page t small (fewer page t found)
  rw [translate_lower walkable isRoot lower] at before
  rw [translate_lower walkable' isRoot' lower]
  cases isPresent : present (leafEntry s r (BitVec.ofNat 64 (2 ^ 12 * page))) with
  | false =>
    rw [isPresent] at before
    cases before
  | true =>
    have isPage : pageNumber (BitVec.ofNat 64 (2 ^ 12 * page)) = page := by
      rw [pageNumber, start]
      omega
    rw [kept _ lower (by rw [isPage, found]; exact Option.some_ne_none t) isPresent]
    exact before

/-- A faithful cache changes no translation. -/
theorem Faithful.lookup {κ : Type} {root : κ → Option Frame} {k : κ} (faithful : Faithful s r cache)
    (walkable : Walkable Lower s.mem root) (isRoot : root k = some r) (small : va.toNat < 2 ^ 47) :
    cache.lookup s.mem r va = translate s.mem r va := by
  cases found : cache (pageNumber va) with
  | none => rw [Cache.lookup, found]
  | some t =>
    have page : pageNumber va < 2 ^ 35 := by
      unfold pageNumber
      omega
    have start := start_of_page page
    have known := faithful _ t page found
    have samePage : leafEntry s r (BitVec.ofNat 64 (2 ^ 12 * pageNumber va)) = leafEntry s r va := by
      have same : pageOf (BitVec.ofNat 64 (2 ^ 12 * pageNumber va)) = pageOf va := by
        apply BitVec.eq_of_toNat_eq
        rw [pageOf_toNat, pageOf_toNat, start, pageNumber]
        omega
      obtain ⟨path, index⟩ := (same_page_iff _ _).mpr same
      rw [leafEntry_eq Lower, leafEntry_eq Lower, path, index]
    rw [translate_lower walkable isRoot (by omega), samePage] at known
    rw [Cache.lookup, found, translate_lower walkable isRoot small]
    cases isPresent : present (leafEntry s r va) with
    | false =>
      rw [isPresent] at known
      cases known
    | true =>
      rw [isPresent] at known
      cases known
      rfl

end Faithful

section Runs

/-- What the kernel keeps to: it maps pages that are not mapped yet where the
processor is looking, unmaps canonical addresses, and writes to no table otherwise. -/
def Permitted (w : Translating) : Translating.Action → Prop
  | .copySpace parent => parent ∈ w.spaces
  | .map pml4 vaddr _ _ => pml4 ∈ w.spaces ∧ (pml4Index vaddr).toNat < KERNEL_PML4_START ∧
      (getCurrentPml4 w.cr3 = pml4 → present (leafEntry w.phys pml4 vaddr) = false)
  | .unmap pml4 vaddr => pml4 ∈ w.spaces ∧ vaddr.toNat < 2 ^ 47
  | .write f _ _ => ∀ n path, ¬ Node (layout Lower) w.phys.mem (rootsOf w.spaces) 3 n path f
  | .switch pml4 => pml4 ∈ w.spaces
  | _ => True

/-- The space in `cr3` may be the boot loader's, which is none of `spaces`. -/
structure Inv (w : Translating) (free : List Nat) : Prop where
  forest : Forest (rootsOf w.spaces) nobody 3 w.phys free
  small : ∀ r ∈ w.spaces, r < 2 ^ 40
  apart : getCurrentPml4 w.cr3 ∉ free
  faithful : getCurrentPml4 w.cr3 ∈ w.spaces → Faithful w.phys (getCurrentPml4 w.cr3) w.cache

variable {w w' : Translating}

theorem frame_kept {k : Nat} (isRoot : rootsOf spaces k = some r)
    (same : ∀ path t, Node (layout Lower) s.mem (rootsOf spaces) 3 k path t → s'.mem t = s.mem t) : Kept s s' r cache :=
  fun _ small _ _ => leafEntry_frame isRoot (lower_of_small small) same

/-- Operations that leave the spaces there are and the present entries of the one in `cr3` alone. -/
theorem Inv.update {phys : Phys} {cache : Cache} (inv : Inv w free) (forest : Forest (rootsOf w.spaces) nobody 3 phys rest)
    (less : ∀ f ∈ rest, f ∈ free) (fewer : ∀ page t, cache page = some t → w.cache page = some t)
    (kept : ∀ n, rootsOf w.spaces n = some (getCurrentPml4 w.cr3) → Kept w.phys phys (getCurrentPml4 w.cr3) cache) :
    Inv { w with phys := phys, cache := cache } rest := by
  refine ⟨forest, inv.small, fun member => inv.apart (less _ member), fun isSpace => ?_⟩
  obtain ⟨n, isRoot⟩ := List.mem_iff_getElem?.mp isSpace
  exact (inv.faithful isSpace).kept inv.forest.walkable isRoot forest.walkable isRoot fewer (kept n isRoot)

/-- A tree that was built from free frames joins the others. -/
theorem Inv.join {child : Frame} {upper : Index → U64} (inv : Inv w free) (isFree : child ∈ free)
    (building : Building upper w.phys free child s' rest) : Inv { w with phys := s', spaces := w.spaces ++ [child] } rest := by
  have forest : Forest (rootsOf (w.spaces ++ [child])) nobody 3 s' rest := by
    refine inv.forest.join (k := w.spaces.length) (by decide : 1 ≤ 1 ∧ 1 ≤ 2) building (by simp) (fun n other => ?_)
    rcases Nat.lt_or_gt_of_ne other with inside | beyond
    · exact List.getElem?_append_left inside
    · rw [rootsOf, rootsOf, List.getElem?_eq_none (by simp; omega), List.getElem?_eq_none (by omega)]
  have less := building.suffix.subset
  refine ⟨forest, fun r member => ?_, fun member => inv.apart (less member), fun isSpace => ?_⟩
  · rcases List.mem_append.mp member with old | new
    · exact inv.small r old
    · exact List.mem_singleton.mp new ▸ inv.forest.list.small child isFree
  · have old : getCurrentPml4 w.cr3 ∈ w.spaces := by
      rcases List.mem_append.mp isSpace with old | new
      · exact old
      · exact absurd (List.mem_singleton.mp new ▸ isFree) inv.apart
    obtain ⟨n, isRoot⟩ := List.mem_iff_getElem?.mp old
    obtain ⟨n', isRoot'⟩ := List.mem_iff_getElem?.mp isSpace
    refine (inv.faithful old).kept inv.forest.walkable isRoot forest.walkable isRoot' (fun _ _ found => found)
      (frame_kept isRoot fun path t node => building.outside t (inv.forest.exclusive.node_unfree node))

theorem newSpace_inv (inv : Inv w free) : ∃ rest, Inv (w.act .newSpace) rest := by
  rcases vmmNewAddressSpace_cases inv.forest.list w.cr3 with ⟨_, failed⟩ | ⟨child, rest, s', made, split, building, _⟩
  · refine ⟨free, ?_⟩
    rw [Translating.act, failed]
    simpa using inv
  · refine ⟨rest, ?_⟩
    rw [Translating.act, made]
    exact inv.join (split ▸ List.mem_cons_self) building

theorem copySpace_inv {parent : Frame} (inv : Inv w free) (isSpace : parent ∈ w.spaces) :
    ∃ rest, Inv (w.act (.copySpace parent)) rest := by
  obtain ⟨n, isRoot⟩ := List.mem_iff_getElem?.mp isSpace
  rcases vmmCopyAddressSpace_cases inv.forest.list (inv.forest.root_unfree isRoot) with
    ⟨_, failed⟩ | ⟨child, rest, s', result, ran, isFree, isResult, building⟩
  · refine ⟨free, ?_⟩
    rw [Translating.act, failed]
    simpa using inv
  · refine ⟨rest, ?_⟩
    rw [Translating.act, ran]
    rcases isResult with rfl | rfl
    · have abandoned := inv.update (inv.forest.abandon (by decide : 1 ≤ 1) building) (fun _ member => building.suffix.subset member)
        (fun _ _ found => found) (fun m isCurrent => frame_kept isCurrent fun path t node =>
          building.outside t (inv.forest.exclusive.node_unfree node))
      simpa using abandoned
    · exact inv.join isFree building

theorem take_inv (inv : Inv w free) (flags : U32) : ∃ rest, Inv (w.act (.take flags)) rest := by
  rcases pageAlloc_cases inv.forest.list flags with ⟨_, failed⟩ | ⟨pp, rest, s', rfl, took, list, mem⟩
  · refine ⟨free, ?_⟩
    rw [Translating.act, failed]
    exact inv
  · have same : ∀ f, f ∉ pp :: rest → s'.mem f = w.phys.mem f := fun f outside =>
      alloc_elsewhere mem (fun isPp => outside (isPp ▸ List.mem_cons_self))
    refine ⟨rest, ?_⟩
    rw [Translating.act, took]
    exact inv.update (inv.forest.retouch (by decide : 1 ≤ 1) list (fun f member => List.mem_cons_of_mem _ member) same)
      (fun f member => List.mem_cons_of_mem _ member) (fun _ _ found => found)
      (fun n isCurrent => frame_kept isCurrent fun path t node => same t (inv.forest.exclusive.node_unfree node))

/-- Mapping changes one entry, which was empty if the processor was looking. -/
theorem map_inv {pml4 : Frame} {vaddr : U64} (inv : Inv w free) (isSpace : pml4 ∈ w.spaces)
    (lower : (pml4Index vaddr).toNat < KERNEL_PML4_START) (physAddr flags : U64)
    (empty : getCurrentPml4 w.cr3 = pml4 → present (leafEntry w.phys pml4 vaddr) = false) :
    ∃ rest, Inv (w.act (.map pml4 vaddr physAddr flags)) rest := by
  obtain ⟨m, isTarget⟩ := List.mem_iff_getElem?.mp isSpace
  have isRoot : rootsOf w.spaces m = some pml4 := isTarget
  obtain ⟨taken, rest, split, grows, unmapped, mapped⟩ := vmmMap_grows vaddr physAddr flags
    inv.forest.list inv.forest.exclusive isRoot (lower_subscript lower)
  refine ⟨rest, inv.update (inv.forest.grows grows) (fun f member => split ▸ List.mem_append_right _ member)
    (fun _ _ found => found) fun n isCurrent va small _ isPresent => ?_⟩
  have admitted := admitted_tablePath (lower_of_small small)
  rw [leafEntry_eq Lower, leafEntry_eq Lower]
  by_cases failed : (vmmWalk w.phys pml4 vaddr true).2 = none
  · exact (unmapped failed).2 n _ _ _ isCurrent admitted rfl
  · refine (mapped failed n _ _ _ isCurrent admitted rfl).2 ?_
    rintro ⟨sameSpace, path, index⟩
    have isPml4 : getCurrentPml4 w.cr3 = pml4 := by
      rw [sameSpace] at isCurrent
      exact Option.some.inj (isCurrent.symm.trans isTarget)
    have absent := empty isPml4
    rw [leafEntry_eq Lower, isPml4, path, index, ← leafEntry_eq, absent] at isPresent
    cases isPresent

theorem vmmUnmapFlush_cases (s : Phys) (cache : Cache) (pml4 : Frame) (vaddr : U64) :
    (vmmUnmapFlush s cache pml4 vaddr).1 = vmmUnmap s pml4 vaddr ∧
      (vmmUnmapFlush s cache pml4 vaddr).2 = if present (leafEntry s pml4 vaddr) then cache.drop (pageNumber vaddr) else cache := by
  rw [vmmUnmapFlush, vmmUnmap, leafEntry, vmmWalk_read Lower]
  cases follow (layout Lower) s.mem pml4 (tablePath vaddr) with
  | none =>
    have absent : ¬ present (0 : U64) = true := by decide
    exact ⟨rfl, (if_neg absent).symm⟩
  | some t =>
    dsimp only [Option.map_some]
    by_cases isPresent : present (s.mem t (leafIndex vaddr)) = true
    · rw [if_pos isPresent, if_pos isPresent, if_pos isPresent]
      exact ⟨rfl, rfl⟩
    · rw [if_neg isPresent, if_neg isPresent, if_neg isPresent]
      exact ⟨rfl, rfl⟩

theorem drop_fewer (cache : Cache) (gone page : Nat) (t : Translation) (found : cache.drop gone page = some t) :
    cache page = some t := by
  rw [Cache.drop, Function.update_apply] at found
  split at found
  · cases found
  · exact found

/-- Unmapping changes one entry, and no translation of its page stays cached. -/
theorem unmap_inv {pml4 : Frame} {vaddr : U64} (inv : Inv w free) (isSpace : pml4 ∈ w.spaces) (small : vaddr.toNat < 2 ^ 47) :
    ∃ rest, Inv (w.act (.unmap pml4 vaddr)) rest := by
  obtain ⟨m, isTarget⟩ := List.mem_iff_getElem?.mp isSpace
  obtain ⟨memory, flushed⟩ := vmmUnmapFlush_cases w.phys w.cache pml4 vaddr
  refine ⟨free, ?_⟩
  show Inv { w with phys := (vmmUnmapFlush w.phys w.cache pml4 vaddr).1, cache := (vmmUnmapFlush w.phys w.cache pml4 vaddr).2 } free
  rw [memory, flushed]
  rcases vmmUnmap_cases Lower w.phys pml4 vaddr with ⟨absent, same⟩ | ⟨isPresent, t, reached, cleared⟩
  · rw [same, absent]
    exact inv
  · rw [cleared, isPresent, if_pos rfl]
    have node : Node (layout Lower) w.phys.mem (rootsOf w.spaces) 3 m (tablePath vaddr) t :=
      ⟨by simp [tablePath], admitted_tablePath (lower_of_small small), pml4, isTarget, reached⟩
    refine inv.update (inv.forest.grows (leaf_write_grows 0 inv.forest.list inv.forest.exclusive node rfl))
      (fun _ member => member) (drop_fewer w.cache _) fun n isCurrent va smallVa cached _ => ?_
    rw [leafEntry_eq Lower, leafEntry_eq Lower]
    refine (entry_write_leaf (i := leafIndex vaddr) (j := leafIndex va) (e := 0) (q := tablePath va) inv.forest.exclusive node rfl
      isCurrent (admitted_tablePath (lower_of_small smallVa)) (by simp [tablePath])).2 ?_
    rintro ⟨_, path, index⟩
    refine cached ?_
    have samePage : pageNumber va = pageNumber vaddr := by
      have pages := congrArg BitVec.toNat ((same_page_iff va vaddr).mp ⟨path, index⟩)
      rw [pageOf_toNat, pageOf_toNat] at pages
      unfold pageNumber
      omega
    rw [samePage, Cache.drop, Function.update_self]

/-- Writes that spare the tables. -/
theorem write_inv {f : Frame} (inv : Inv w free) (i : Index) (value : U64)
    (noTable : ∀ n path, ¬ Node (layout Lower) w.phys.mem (rootsOf w.spaces) 3 n path f) : Inv (w.act (.write f i value)) free := by
  have same : ∀ n path t, Node (layout Lower) w.phys.mem (rootsOf w.spaces) 3 n path t →
      (w.phys.writeEntry f i value).mem t = w.phys.mem t := by
    intro n path t node
    have other : t ≠ f := fun isF => noTable n path (isF ▸ node)
    funext j
    simp [Phys.writeEntry, other]
  have forest : Forest (rootsOf w.spaces) nobody 3 (w.phys.writeEntry f i value) free :=
    ⟨inv.forest.list.mem_congr _, inv.forest.exclusive.frame fun n path t node => same n path t (node.mono (by decide)),
      inv.forest.walkable.frame same⟩
  exact inv.update forest (fun _ member => member) (fun _ _ found => found) fun n isCurrent => frame_kept isCurrent (same n)

theorem act_inv {a : Translating.Action} (inv : Inv w free) (may : Permitted w a) : ∃ rest, Inv (w.act a) rest := by
  cases a with
  | newSpace => exact newSpace_inv inv
  | copySpace parent => exact copySpace_inv inv may
  | map pml4 vaddr physAddr flags =>
    obtain ⟨isSpace, lower, empty⟩ := may
    exact map_inv inv isSpace lower physAddr flags empty
  | unmap pml4 vaddr => exact unmap_inv inv may.1 may.2
  | take flags => exact take_inv inv flags
  | write f i value => exact ⟨free, write_inv inv i value may⟩
  | switch pml4 =>
    have isCurrent : getCurrentPml4 (pml4Phys pml4) = pml4 := Isolation.getCurrentPml4_pml4Phys (inv.small pml4 may)
    obtain ⟨n, isRoot⟩ := List.mem_iff_getElem?.mp may
    refine ⟨free, inv.forest, inv.small, ?_, fun _ _ _ _ found => ?_⟩
    · show getCurrentPml4 (pml4Phys pml4) ∉ free
      rw [isCurrent]
      exact inv.forest.root_unfree isRoot
    · cases found
  | fill page =>
    refine ⟨free, inv.forest, inv.small, inv.apart, fun isSpace page' t small found => ?_⟩
    have cached : w.cache.fill w.phys.mem (getCurrentPml4 w.cr3) page page' = some t := found
    rw [Cache.fill, Function.update_apply] at cached
    split at cached
    · next isPage => exact isPage ▸ cached
    · exact inv.faithful isSpace page' t small cached
  | drop page =>
    exact ⟨free, inv.forest, inv.small, inv.apart, fun isSpace page' t small found =>
      inv.faithful isSpace page' t small (drop_fewer w.cache page page' t found)⟩

/-- One permitted action. -/
def Moves (w w' : Translating) : Prop := ∃ a, Permitted w a ∧ w' = w.act a

theorem run_inv (inv : Inv w free) (run : Relation.ReflTransGen Moves w w') : ∃ rest, Inv w' rest := by
  induction run with
  | refl => exact ⟨free, inv⟩
  | tail _ move ih =>
    obtain ⟨_, before⟩ := ih
    obtain ⟨a, may, rfl⟩ := move
    exact act_inv before may

theorem start_inv {boot : U64} (list : FreeList s free) (apart : getCurrentPml4 boot ∉ free) (cache : Cache) :
    Inv ⟨s, [], boot, cache⟩ free := by
  refine ⟨⟨list, ⟨fun o _ f owns _ => ?_, fun o f owns => ?_⟩, ?_⟩, ?_, apart, ?_⟩
  · cases o with
    | node k path => obtain ⟨_, _, _, isRoot, _⟩ := owns; cases isRoot
    | other x => exact x.elim
  · cases o with
    | node k path => obtain ⟨_, _, _, isRoot, _⟩ := owns; cases isRoot
    | other x => exact x.elim
  · rintro k path t i ⟨_, _, _, isRoot, _⟩
    cases isRoot
  · intro r member
    cases member
  · intro member
    cases member

/-- **Nothing stale is used.** While address spaces are made, copied, changed and
switched between, and the processor remembers and forgets translations as it
likes, it uses for every address of the lower half the translation that the
tables of the space in `cr3` have at that moment. -/
theorem cache_transparent (boot : U64) (list : FreeList s free) (apart : getCurrentPml4 boot ∉ free)
    (run : Relation.ReflTransGen Moves ⟨s, [], boot, cache⟩ w) (isSpace : getCurrentPml4 w.cr3 ∈ w.spaces) (va : U64)
    (small : va.toNat < 2 ^ 47) :
    w.cache.lookup w.phys.mem (getCurrentPml4 w.cr3) va = translate w.phys.mem (getCurrentPml4 w.cr3) va := by
  obtain ⟨_, inv⟩ := run_inv (start_inv list apart cache) run
  obtain ⟨n, isRoot⟩ := List.mem_iff_getElem?.mp isSpace
  exact (inv.faithful isSpace).lookup inv.forest.walkable isRoot small

/-- An address space with a page that has been used. -/
def onePageUsed : Translating :=
  [.newSpace, .switch 1, .map 1 0x1000 0x7000 7, .fill 1].foldl Translating.act ⟨clearedPhys 1 8, [], 0, fun _ => none⟩

/-- A page is used, and gone once it is unmapped. -/
theorem cache_transparent_unmapped :
    onePageUsed.cache.lookup onePageUsed.phys.mem 1 0x1005 = some ⟨7, 5, true, true⟩ ∧
      (onePageUsed.act (.unmap 1 0x1000)).cache.lookup (onePageUsed.act (.unmap 1 0x1000)).phys.mem 1 0x1005 = none := by
  have made : Relation.ReflTransGen Moves ⟨clearedPhys 1 8, [], 0, fun _ => none⟩ onePageUsed :=
    .tail (.tail (.tail (.single ⟨.newSpace, trivial, rfl⟩) ⟨.switch 1, List.mem_singleton.mpr rfl, rfl⟩)
      ⟨.map 1 0x1000 0x7000 7, ⟨by decide +kernel, by decide, fun _ => by decide +kernel⟩, rfl⟩) ⟨.fill 1, trivial, rfl⟩
  have unmapped : Relation.ReflTransGen Moves ⟨clearedPhys 1 8, [], 0, fun _ => none⟩ (onePageUsed.act (.unmap 1 0x1000)) :=
    .tail made ⟨.unmap 1 0x1000, ⟨by decide +kernel, by decide⟩, rfl⟩
  have list : FreeList (clearedPhys 1 8) (List.range' 1 8) := clearedPhys_free (by decide)
  have before := cache_transparent 0 list (by decide) made (by decide +kernel) 0x1005 (by decide)
  have after := cache_transparent 0 list (by decide) unmapped (by decide +kernel) 0x1005 (by decide)
  have current : getCurrentPml4 onePageUsed.cr3 = 1 := by decide +kernel
  have found : translate onePageUsed.phys.mem 1 0x1005 = some ⟨7, 5, true, true⟩ := by decide +kernel
  have gone : translate (onePageUsed.act (.unmap 1 0x1000)).phys.mem 1 0x1005 = none := by decide +kernel
  rw [current, found] at before
  exact ⟨before, after.trans gone⟩

end Runs

end HobbyKernel.CacheProofs
