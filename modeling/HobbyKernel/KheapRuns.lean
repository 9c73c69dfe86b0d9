import HobbyKernel.KheapProofs

/-! Runs of the kernel heap: allocations, frees, and the writes of those who own
an allocation, with pages running out at any time. -/
namespace HobbyKernel.KheapRuns
open Blocks Kheap KheapProofs UaccessProofs Runs

variable {extendPage : σ → U64 → σ × Bool} {h h' : Kheap} {s s' : σ} {size value ptr : U64} {blocks pre post : List Block}
  {b c : Block}

/-- The heap, what pages come from, and the pointers that were handed out and
not given back, with the sizes asked for. -/
structure HeapState (σ : Type) where
  heap : Kheap
  supply : σ
  live : List (U64 × U64)

inductive HeapAction where
  | kmalloc (n : U64)
  | kfree (ptr : U64)
  | write (address value : U64)

/-- One call, or one store of an owner. -/
def heapStep (extendPage : σ → U64 → σ × Bool) (w : HeapState σ) : HeapAction → Option (HeapState σ × List Unit)
  | .kmalloc n => (w.heap.kmalloc extendPage w.supply n).map fun (h, s, ptr) =>
    (⟨h, s, if ptr = 0 then w.live else (ptr, n) :: w.live⟩, [])
  | .kfree ptr => (w.heap.kfree ptr).map fun h => (⟨h, w.supply, w.live.filter fun entry => entry.1 ≠ ptr⟩, [])
  | .write address value => some ({ w with heap := w.heap.store address value }, [])

/-- Sizes up to that of the whole heap are asked for, what is given back was
handed out or is NULL, and owners write words of their own allocations. -/
def Proper (w : HeapState σ) : HeapAction → Prop
  | .kmalloc n => n ≤ KHEAP_SIZE
  | .kfree ptr => ptr = 0 ∨ ∃ n, (ptr, n) ∈ w.live
  | .write address _ => 8 ∣ address.toNat ∧
    ∃ ptr n, (ptr, n) ∈ w.live ∧ ptr.toNat ≤ address.toNat ∧ address.toNat < ptr.toNat + n.toNat

/-- An address behind the header of a block. -/
def InPayload (b : Block) (a : Nat) : Prop := b.base + 24 ≤ a ∧ a < b.base + 24 + b.size

/-- The list of blocks, and what it says about the allocations. -/
structure HeapInv (w : HeapState σ) (blocks : List Block) : Prop where
  chain : Chained w.heap.mem w.heap.freeList blocks 0
  packed : Packed 24 KHEAP_BASE.toNat w.heap.heapNext.toNat blocks
  aligned : Aligned 8 blocks
  pages : 4096 ∣ w.heap.heapNext.toNat
  bottom : KHEAP_BASE.toNat ≤ w.heap.heapNext.toNat
  top : w.heap.heapNext.toNat ≤ (KHEAP_BASE + KHEAP_SIZE).toNat
  used : ∀ base, (∃ b ∈ blocks, b.free = false ∧ b.base = base) ↔ ∃ entry ∈ w.live, entry.1.toNat = base + 24
  room : ∀ entry ∈ w.live, ∃ b ∈ blocks, b.free = false ∧ entry.1.toNat = b.base + 24 ∧ entry.2.toNat ≤ b.size
  distinct : (w.live.map Prod.fst).Nodup

/-- The used blocks, but for some, stay where they are with what is in them. -/
def Keeps (but : Block → Prop) (mem mem' : Nat → U64) (blocks blocks' : List Block) : Prop :=
  ∀ b ∈ blocks, b.free = false → ¬ but b → b ∈ blocks' ∧ ∀ a, InPayload b a → mem' a = mem a

theorem HeapInv.bounds {w : HeapState σ} (inv : HeapInv w blocks) :
    64 ≤ KHEAP_BASE.toNat ∧ w.heap.heapNext.toNat < 2 ^ 64 ∧ blocks.length < LIST_FUEL := by
  have bottom := inv.bottom
  have top := inv.top
  have count := inv.packed.length_le (by decide)
  rw [base_toNat] at bottom count
  rw [top_toNat] at top
  refine ⟨by decide, by omega, ?_⟩
  unfold LIST_FUEL
  omega

/-- What `heap_extend` leaves: some more pages, all if it succeeds. -/
theorem heapExtendLoop_spec (extendPage : σ → U64 → σ × Bool) (n : Nat) (h : Kheap) (s : σ) (pages : 4096 ∣ h.heapNext.toNat)
    (top : h.heapNext.toNat ≤ (KHEAP_BASE + KHEAP_SIZE).toNat) :
    ∃ mem' next' s' ok, heapExtendLoop extendPage n h s = ({ h with mem := mem', heapNext := next' }, s', ok) ∧
      4096 ∣ next'.toNat ∧ next'.toNat ≤ (KHEAP_BASE + KHEAP_SIZE).toNat ∧ h.heapNext.toNat ≤ next'.toNat ∧
      (ok = true → next'.toNat = h.heapNext.toNat + 4096 * n) ∧ ∀ a, a < h.heapNext.toNat → mem' a = h.mem a := by
  induction n generalizing h s with
  | zero => exact ⟨h.mem, h.heapNext, s, true, rfl, pages, top, Nat.le_refl _, fun _ => rfl, fun _ _ => rfl⟩
  | succ n ih =>
    rw [heapExtendLoop]
    by_cases full : KHEAP_BASE + KHEAP_SIZE ≤ h.heapNext
    · rw [if_pos full]
      exact ⟨h.mem, h.heapNext, s, false, rfl, pages, top, Nat.le_refl _, nofun, fun _ _ => rfl⟩
    · rw [if_neg full]
      rw [BitVec.le_def, Nat.not_le] at full
      rcases extendPage s h.heapNext with ⟨s₁, _ | _⟩
      · exact ⟨h.mem, h.heapNext, s₁, false, rfl, pages, top, Nat.le_refl _, nofun, fun _ _ => rfl⟩
      · have next : (h.heapNext + PGSIZE).toNat = h.heapNext.toNat + 4096 := by
          have page : PGSIZE.toNat = 4096 := rfl
          rw [add_toNat (by rw [page, top_toNat] at *; omega), page]
        obtain ⟨mem', next', s', ok, ran, pages', top', more, all, kept⟩ :=
          ih { h.clearPage h.heapNext with heapNext := h.heapNext + PGSIZE } s₁
            (by dsimp only; rw [next]; exact Nat.dvd_add pages (Nat.dvd_refl _))
            (by dsimp only; rw [next, top_toNat] at *; omega)
        dsimp only at more all kept
        rw [next] at more all kept
        refine ⟨mem', next', s', ok, ran, pages', top', by omega, fun yes => ?_, fun a below => ?_⟩
        · rw [all yes]
          omega
        · rw [kept a (by omega), Kheap.clearPage]
          exact if_neg fun inside => Nat.not_le.mpr below inside.1

theorem heapExtend_spec (extendPage : σ → U64 → σ × Bool) (npages : U64) (h : Kheap) (s : σ) (pages : 4096 ∣ h.heapNext.toNat)
    (top : h.heapNext.toNat ≤ (KHEAP_BASE + KHEAP_SIZE).toNat) :
    ∃ mem' next' end' s' ok, h.heapExtend extendPage s npages =
        ({ h with mem := mem', heapNext := next', heapEnd := end' }, s', ok) ∧
      4096 ∣ next'.toNat ∧ next'.toNat ≤ (KHEAP_BASE + KHEAP_SIZE).toNat ∧ h.heapNext.toNat ≤ next'.toNat ∧
      (ok = true → next'.toNat = h.heapNext.toNat + 4096 * npages.toNat ∧ end' = next') ∧ (ok = false → end' = h.heapEnd) ∧
      ∀ a, a < h.heapNext.toNat → mem' a = h.mem a := by
  obtain ⟨mem', next', s', ok, ran, pages', top', more, all, kept⟩ := heapExtendLoop_spec extendPage npages.toNat h s pages top
  rw [heapExtend, ran]
  cases ok with
  | false => exact ⟨mem', next', h.heapEnd, s', false, rfl, pages', top', more, nofun, fun _ => rfl, kept⟩
  | true => exact ⟨mem', next', next', s', true, rfl, pages', top', more, fun _ => ⟨all rfl, rfl⟩, nofun, kept⟩

/-- The size that is looked for, and the pages it needs. -/
theorem rounded_toNat {n : U64} (small : n.toNat + 4127 < 2 ^ 64) :
    n.toNat ≤ (roundup n ALIGN).toNat ∧ (roundup n ALIGN).toNat + 4128 ≤ 2 ^ 64 ∧ 16 ∣ (roundup n ALIGN).toNat ∧
      ((roundup n ALIGN + SIZEOF_HEADER + PGSIZE - 1) / PGSIZE).toNat = ((roundup n ALIGN).toNat + 4119) / 4096 := by
  have one : (1 : U64).toNat = 1 := rfl
  have sixteen : ALIGN.toNat = 16 := rfl
  have page : PGSIZE.toNat = 4096 := rfl
  have header : SIZEOF_HEADER.toNat = 24 := rfl
  have power : 2 ^ 4 = 16 := rfl
  have sum : (n + ALIGN).toNat = n.toNat + 16 := by rw [add_toNat (by rw [sixteen]; omega), sixteen]
  have less : (n + ALIGN - 1).toNat = n.toNat + 15 := by rw [sub_toNat (by rw [sum, one]; omega), sum, one]; omega
  have rounded : (roundup n ALIGN).toNat = (n.toNat + 15) / 16 * 16 := by
    have down := rounddown_pow (n + ALIGN - 1) (by decide : 4 < 64)
    rw [less, power] at down
    exact down
  have needed : (roundup n ALIGN + SIZEOF_HEADER).toNat = (roundup n ALIGN).toNat + 24 := by
    rw [add_toNat (by rw [header, rounded]; omega), header]
  have more : (roundup n ALIGN + SIZEOF_HEADER + PGSIZE).toNat = (roundup n ALIGN).toNat + 4120 := by
    rw [add_toNat (by rw [needed, page, rounded]; omega), needed, page]
  refine ⟨by omega, by omega, by omega, ?_⟩
  rw [BitVec.toNat_udiv, sub_toNat (by rw [more, one]; omega), more, one, page]
  rfl

/-- A used block more, and its pointer among those handed out. -/
theorem HeapInv.insert {w : HeapState σ} {blocks' : List Block} {n : U64} {base m : Nat} (inv : HeapInv w blocks)
    (chain : Chained h'.mem h'.freeList blocks' 0) (packed : Packed 24 KHEAP_BASE.toNat h'.heapNext.toNat blocks')
    (aligned : Aligned 8 blocks') (pages : 4096 ∣ h'.heapNext.toNat) (bottom : KHEAP_BASE.toNat ≤ h'.heapNext.toNat)
    (top : h'.heapNext.toNat ≤ (KHEAP_BASE + KHEAP_SIZE).toNat) (isPtr : ptr.toNat = base + 24) (enough : n.toNat ≤ m)
    (used : ∀ c : Block, c.free = false → (c ∈ blocks' ↔ c = ⟨base, m, false⟩ ∨ c ∈ blocks))
    (fresh : ∀ c ∈ blocks, c.free = false → c.base ≠ base) : HeapInv ⟨h', s', (ptr, n) :: w.live⟩ blocks' := by
  have new : (⟨base, m, false⟩ : Block) ∈ blocks' := (used _ rfl).mpr (.inl rfl)
  refine ⟨chain, packed, aligned, pages, bottom, top, fun at' => ?_, fun entry member => ?_, ?_⟩
  · constructor
    · rintro ⟨c, member, isUsed, rfl⟩
      rcases (used c isUsed).mp member with rfl | old
      · exact ⟨_, List.mem_cons_self, isPtr⟩
      · obtain ⟨entry, isLive, isEntry⟩ := (inv.used c.base).mp ⟨c, old, isUsed, rfl⟩
        exact ⟨entry, List.mem_cons_of_mem _ isLive, isEntry⟩
    · rintro ⟨entry, member, isEntry⟩
      rcases List.mem_cons.mp member with rfl | old
      · exact ⟨_, new, rfl, by dsimp only at isEntry ⊢; omega⟩
      · obtain ⟨c, isBlock, isUsed, isBase⟩ := (inv.used at').mpr ⟨entry, old, isEntry⟩
        exact ⟨c, (used c isUsed).mpr (.inr isBlock), isUsed, isBase⟩
  · rcases List.mem_cons.mp member with rfl | old
    · exact ⟨_, new, rfl, isPtr, enough⟩
    · obtain ⟨c, isBlock, isUsed, fits⟩ := inv.room entry old
      exact ⟨c, (used c isUsed).mpr (.inr isBlock), isUsed, fits⟩
  · refine List.nodup_cons.mpr ⟨fun again => ?_, inv.distinct⟩
    obtain ⟨entry, old, same⟩ := List.mem_map.mp again
    dsimp only at same
    obtain ⟨c, isBlock, isUsed, isBase, _⟩ := inv.room entry old
    refine fresh c isBlock isUsed ?_
    rw [same, isPtr] at isBase
    omega

/-- First fit: the block is cut, and what is left of it is used. -/
theorem takeFree_spec {w : HeapState σ} {n p : U64} (s' : σ) (inv : HeapInv w (pre ++ b :: post)) (isBase : p.toNat = b.base)
    (isFree : b.free = true) (enough : size.toNat ≤ b.size) (byEight : 8 ∣ size.toNat) (asked : n.toNat ≤ size.toNat) :
    HeapInv ⟨(w.heap.splitBlock p size).setFree p 0, s', (p + SIZEOF_HEADER, n) :: w.live⟩
        (pre ++ (cut 24 16 { b with free := false } size.toNat ++ post)) ∧
      Keeps (fun _ => False) w.heap.mem ((w.heap.splitBlock p size).setFree p 0).mem (pre ++ b :: post)
        (pre ++ (cut 24 16 { b with free := false } size.toNat ++ post)) := by
  obtain ⟨low, high, _⟩ := inv.bounds
  have inside := inv.packed.inside b (by simp)
  simp only [Block.stop] at inside
  obtain ⟨segment, written⟩ := splitBlock_spec low high inv.chain inv.packed isBase enough
  obtain ⟨first, rest, isCut, sameBase, isFlagged⟩ := cut_flag 24 16 b size.toNat false
  have packed : Packed 24 _ _ (pre ++ (cut 24 16 { b with free := false } size.toNat ++ post)) :=
    cut_packed 16 (flag_packed inv.packed false) enough
  have aligned := cut_aligned 16 (flag_aligned inv.aligned false) (by decide : 8 ∣ 24) byEight
  obtain ⟨m, larger, used⟩ := cut_used 24 16 pre post (b := { b with free := false }) enough rfl
  obtain ⟨sameList, sameNext, _⟩ := splitBlock_fields w.heap p size
  have cutPacked := cut_packed 16 inv.packed enough
  rw [isCut] at segment cutPacked
  rw [isFlagged] at packed aligned used
  rw [List.cons_append] at segment cutPacked packed aligned used
  obtain ⟨chain, stored⟩ := setFree_spec high segment cutPacked (isBase.trans sameBase.symm) 0
  rw [sameBase] at stored
  have header : SIZEOF_HEADER.toNat = 24 := rfl
  have isPtr : (p + SIZEOF_HEADER).toNat = b.base + 24 := by
    rw [add_toNat (by rw [header]; omega), header, isBase]
  -- The block that is taken was free, so no used block is it.
  have others : ∀ c ∈ pre ++ b :: post, c.free = false → c ≠ b := by
    rintro c _ isUsed rfl
    rw [isFree] at isUsed
    cases isUsed
  have used' : ∀ c : Block, c.free = false →
      (c ∈ pre ++ { first with free := false } :: (rest ++ post) ↔ c = ⟨b.base, m, false⟩ ∨ c ∈ pre ++ b :: post) := by
    intro c isUsed
    rw [used c isUsed]
    have notB : c ∈ pre ++ b :: post → c ≠ b := fun member => others c member isUsed
    simp only [List.mem_append, List.mem_cons] at notB ⊢
    tauto
  rw [isFlagged, List.cons_append]
  refine ⟨?_, fun u member isUsed _ => ⟨(used' u isUsed).mpr (.inr member), fun a payload => ?_⟩⟩
  · refine inv.insert (m := m) ?_ ?_ aligned ?_ ?_ ?_ isPtr (Nat.le_trans asked larger) used' fun c member isUsed same =>
      others c member isUsed (inv.packed.unique (by decide) member (by simp) same)
    · show Chained _ (w.heap.splitBlock p size).freeList _ 0
      rw [sameList]
      exact chain
    · show Packed _ _ (w.heap.splitBlock p size).heapNext.toNat _
      rw [sameNext]
      exact packed
    · show 4096 ∣ (w.heap.splitBlock p size).heapNext.toNat
      rw [sameNext]
      exact inv.pages
    · show _ ≤ (w.heap.splitBlock p size).heapNext.toNat
      rw [sameNext]
      exact inv.bottom
    · show (w.heap.splitBlock p size).heapNext.toNat ≤ _
      rw [sameNext]
      exact inv.top
  · have apart := inv.packed.distinct member (by simp) (others u member isUsed)
    simp only [InPayload] at payload
    rw [stored a (by simp only [Apart, Block.stop] at apart; omega)]
    by_contra changed
    have within := written a changed
    simp only [Apart, Block.stop] at apart within
    omega

/-- The block that a new region becomes, before it is cut. -/
def region (h : Kheap) (mem : Nat → U64) (next heapEnd : U64) (size : U64) : Kheap :=
  let h₁ : Kheap := { h with mem := mem, heapNext := next, heapEnd := heapEnd }
  { ((h₁.setSize h.heapNext size).setFree h.heapNext 0).setNext h.heapNext h.freeList with freeList := h.heapNext }

/-- A new region at the end of the heap is put in front of the list. -/
theorem region_spec {w : HeapState σ} {mem : Nat → U64} {next left : U64} {k : Nat} (heapEnd : U64) (inv : HeapInv w blocks)
    (top : next.toNat ≤ (KHEAP_BASE + KHEAP_SIZE).toNat) (grown : next.toNat = w.heap.heapNext.toNat + 4096 * k)
    (isLeft : left.toNat + 24 = 4096 * k) (kept : ∀ a, a < w.heap.heapNext.toNat → mem a = w.heap.mem a) :
    Chained (region w.heap mem next heapEnd left).mem w.heap.heapNext (⟨w.heap.heapNext.toNat, left.toNat, false⟩ :: blocks) 0 ∧
      Packed 24 KHEAP_BASE.toNat next.toNat (⟨w.heap.heapNext.toNat, left.toNat, false⟩ :: blocks) ∧
      Aligned 8 (⟨w.heap.heapNext.toNat, left.toNat, false⟩ :: blocks) ∧
      ∀ a, a < w.heap.heapNext.toNat → (region w.heap mem next heapEnd left).mem a = w.heap.mem a := by
  rw [top_toNat] at top
  obtain ⟨isSize, flag, isNext, elsewhere⟩ := newHeader_spec (p := w.heap.heapNext) (by omega)
    { w.heap with mem := mem, heapNext := next, heapEnd := heapEnd } left w.heap.freeList 0
  have below : ∀ a, a < w.heap.heapNext.toNat → (region w.heap mem next heapEnd left).mem a = w.heap.mem a :=
    fun a low => (elsewhere a (.inl low)).trans (kept a low)
  refine ⟨⟨rfl, congrArg BitVec.toNat isSize, flag, ?_⟩, ?_, fun c member => ?_, below⟩
  · dsimp only
    rw [show (region w.heap mem next heapEnd left).mem (w.heap.heapNext.toNat + 16) = w.heap.freeList from isNext]
    refine chained_congr inv.chain fun c member a low high => below a ?_
    have inside := (inv.packed.inside c member).2
    simp only [Block.stop] at inside
    omega
  · refine inv.packed.grow (Nat.le_refl _) inv.bottom ?_ (by omega)
    simp only [Block.stop]
    omega
  · rcases List.mem_cons.mp member with rfl | old
    · have pages := inv.pages
      dsimp only
      omega
    · exact inv.aligned c old

theorem extend_spec {w : HeapState σ} {mem : Nat → U64} {next left n : U64} {k : Nat} (s' : σ) (heapEnd : U64) (inv : HeapInv w blocks)
    (pages : 4096 ∣ next.toNat) (top : next.toNat ≤ (KHEAP_BASE + KHEAP_SIZE).toNat) (grown : next.toNat = w.heap.heapNext.toNat + 4096 * k)
    (isLeft : left.toNat + 24 = 4096 * k) (kept : ∀ a, a < w.heap.heapNext.toNat → mem a = w.heap.mem a)
    (enough : size.toNat ≤ left.toNat) (byEight : 8 ∣ size.toNat) (asked : n.toNat ≤ size.toNat) :
    HeapInv ⟨(region w.heap mem next heapEnd left).splitBlock w.heap.heapNext size, s', (w.heap.heapNext + SIZEOF_HEADER, n) :: w.live⟩
        (cut 24 16 ⟨w.heap.heapNext.toNat, left.toNat, false⟩ size.toNat ++ blocks) ∧
      Keeps (fun _ => False) w.heap.mem ((region w.heap mem next heapEnd left).splitBlock w.heap.heapNext size).mem blocks
        (cut 24 16 ⟨w.heap.heapNext.toNat, left.toNat, false⟩ size.toNat ++ blocks) := by
  obtain ⟨segment, packed, aligned, below⟩ := region_spec heapEnd inv top grown isLeft kept
  have topBound := top
  rw [top_toNat] at topBound
  obtain ⟨low, _, _⟩ := inv.bounds
  obtain ⟨chain, written⟩ := splitBlock_spec low (by omega) (show Chained _ _ ([] ++ _ :: blocks) 0 from segment)
    (show Packed 24 _ _ ([] ++ _ :: blocks) from packed) rfl enough
  have cutPacked := cut_packed 16 (show Packed 24 _ _ ([] ++ _ :: blocks) from packed) enough
  have cutAligned := cut_aligned 16 (show Aligned 8 ([] ++ _ :: blocks) from aligned) (by decide : 8 ∣ 24) byEight
  obtain ⟨m, larger, used⟩ := cut_used 24 16 [] blocks (b := ⟨w.heap.heapNext.toNat, left.toNat, false⟩) enough rfl
  obtain ⟨sameList, sameNext, _⟩ := splitBlock_fields (region w.heap mem next heapEnd left) w.heap.heapNext size
  have isPtr : (w.heap.heapNext + SIZEOF_HEADER).toNat = w.heap.heapNext.toNat + 24 := by
    have header : SIZEOF_HEADER.toNat = 24 := rfl
    rw [add_toNat (by rw [header]; omega), header]
  -- The older blocks all end below the new region.
  have older : ∀ c ∈ blocks, c.base + 24 + c.size ≤ w.heap.heapNext.toNat := fun c member => (inv.packed.inside c member).2
  refine ⟨inv.insert (m := m) ?_ ?_ cutAligned ?_ ?_ ?_ isPtr (Nat.le_trans asked larger) used
    (fun c member _ same => ?_), fun u member isUsed _ => ⟨(used u isUsed).mpr (.inr member), fun a payload => ?_⟩⟩
  · rw [sameList]
    exact chain
  · rw [sameNext]
    exact cutPacked
  · rw [sameNext]
    exact pages
  · have bottom := inv.bottom
    rw [sameNext]
    exact (by omega : KHEAP_BASE.toNat ≤ next.toNat)
  · rw [sameNext]
    exact top
  · have := older c member
    omega
  · have := older u member
    simp only [InPayload] at payload
    rw [← below a (by omega)]
    by_contra changed
    have within := written a changed
    dsimp only at within
    omega

theorem Keeps.refl (but : Block → Prop) (mem : Nat → U64) (blocks : List Block) : Keeps but mem mem blocks blocks :=
  fun _ member _ _ => ⟨member, fun _ _ => rfl⟩

/-- What `kmalloc` does to the list: nothing if it fails; it cuts the first free
block that is large enough; or it puts a new region in front and cuts that. -/
inductive Allocates (h h' : Kheap) (size : Nat) (ptr : U64) (blocks : List Block) : List Block → Prop where
  | null (isNull : ptr = 0) (ends : h'.heapEnd = h.heapEnd) (grows : h.heapNext.toNat ≤ h'.heapNext.toNat) : Allocates h h' size ptr blocks blocks
  | reuse (pre : List Block) (b : Block) (post : List Block) (split : blocks = pre ++ b :: post) (isFree : b.free = true)
      (enough : size ≤ b.size) (first : NoneFits size pre) (isPtr : ptr.toNat = b.base + 24) (next : h'.heapNext = h.heapNext)
      (ends : h'.heapEnd = h.heapEnd) : Allocates h h' size ptr blocks (pre ++ (cut 24 16 { b with free := false } size ++ post))
  | extend (left : Nat) (full : NoneFits size blocks) (enough : size ≤ left) (isPtr : ptr.toNat = h.heapNext.toNat + 24)
      (next : h'.heapNext.toNat = h.heapNext.toNat + 24 + left) (ends : h'.heapEnd = h'.heapNext) :
      Allocates h h' size ptr blocks (cut 24 16 ⟨h.heapNext.toNat, left, false⟩ size ++ blocks)

theorem Allocates.grows {blocks' : List Block} {size : Nat} (allocates : Allocates h h' size ptr blocks blocks') :
    h.heapNext.toNat ≤ h'.heapNext.toNat := by
  cases allocates with
  | null isNull ends grows => exact grows
  | reuse pre b post split isFree enough first isPtr next => exact Nat.le_of_eq (congrArg BitVec.toNat next.symm)
  | extend left full enough isPtr next => omega

theorem kmalloc_spec {w : HeapState σ} {n : U64} (extendPage : σ → U64 → σ × Bool) (inv : HeapInv w blocks)
    (small : n.toNat + 4127 < 2 ^ 64) :
    ∃ h s ptr, w.heap.kmalloc extendPage w.supply n = some (h, s, ptr) ∧ ∃ blocks',
      HeapInv ⟨h, s, if ptr = 0 then w.live else (ptr, n) :: w.live⟩ blocks' ∧
        Keeps (fun _ => False) w.heap.mem h.mem blocks blocks' ∧ Allocates w.heap h (roundup n ALIGN).toNat ptr blocks blocks' := by
  obtain ⟨low, high, count⟩ := inv.bounds
  obtain ⟨asked, bound, bySixteen, isPages⟩ := rounded_toNat small
  have byEight : 8 ∣ (roundup n ALIGN).toNat := Nat.dvd_trans (by decide) bySixteen
  have header : SIZEOF_HEADER.toNat = 24 := rfl
  have zero : (0 : U64).toNat = 0 := rfl
  unfold kmalloc
  by_cases nothing : n = 0
  · exact ⟨w.heap, w.supply, 0, if_pos nothing, blocks, inv, .refl _ _ _, .null rfl rfl (Nat.le_refl _)⟩
  · rw [if_neg nothing]
    dsimp only
    generalize roundup n ALIGN = size at *
    rcases findFreeBlock_spec size low high inv.chain inv.packed count with
      ⟨missing, full⟩ | ⟨pre, b, post, p, rfl, found, notNull, isBase, isFree, enough, first⟩
    · rw [missing]
      simp only [ne_eq, not_true_eq_false, if_false]
      obtain ⟨mem, next, heapEnd, s', ok, ran, pages, top, more, all, none, kept⟩ :=
        heapExtend_spec extendPage ((size + SIZEOF_HEADER + PGSIZE - 1) / PGSIZE) w.heap w.supply inv.pages inv.top
      rw [ran]
      cases ok with
      | false =>
        have same : ∀ b ∈ blocks, ∀ a, b.base ≤ a → a < b.base + 24 → mem a = w.heap.mem a := by
          intro b member a _ below
          have inside := (inv.packed.inside b member).2
          simp only [Block.stop] at inside
          exact kept a (by omega)
        refine ⟨_, _, 0, rfl, blocks, ⟨chained_congr inv.chain same, inv.packed.widen more, inv.aligned, pages,
          Nat.le_trans inv.bottom more, top, inv.used, inv.room, inv.distinct⟩,
          fun b member _ _ => ⟨member, fun a payload => kept a ?_⟩, .null rfl ?_ more⟩
        · have inside := (inv.packed.inside b member).2
          simp only [InPayload, Block.stop] at payload inside
          omega
        · exact none rfl
      | true =>
        obtain ⟨grown, isEnd⟩ := all rfl
        rw [isPages] at grown
        have page : PGSIZE.toNat = 4096 := rfl
        rw [top_toNat] at top
        have isLeft : ((size + SIZEOF_HEADER + PGSIZE - 1) / PGSIZE * PGSIZE - SIZEOF_HEADER).toNat + 24 =
            4096 * ((size.toNat + 4119) / 4096) := by
          have product : ((size + SIZEOF_HEADER + PGSIZE - 1) / PGSIZE * PGSIZE).toNat = (size.toNat + 4119) / 4096 * 4096 := by
            rw [BitVec.toNat_mul, isPages, page]
            omega
          rw [sub_toNat (by rw [product, header]; omega), product, header]
          omega
        generalize (size + SIZEOF_HEADER + PGSIZE - 1) / PGSIZE * PGSIZE - SIZEOF_HEADER = left at *
        obtain ⟨inv', keeps⟩ := extend_spec s' heapEnd inv pages top grown isLeft kept (by omega) byEight asked
        have isPtr : (w.heap.heapNext + SIZEOF_HEADER).toNat = w.heap.heapNext.toNat + 24 := by
          rw [add_toNat (by rw [header]; omega), header]
        have notNull : w.heap.heapNext + SIZEOF_HEADER ≠ 0 := by
          intro null
          rw [null, zero] at isPtr
          omega
        obtain ⟨_, sameNext, sameEnd⟩ := splitBlock_fields (region w.heap mem next heapEnd left) w.heap.heapNext size
        refine ⟨_, s', _, rfl, _, ?_, keeps, .extend left.toNat full (by omega) isPtr ?_ ?_⟩
        · rw [if_neg notNull]
          exact inv'
        · refine (congrArg BitVec.toNat sameNext).trans (grown.trans ?_)
          omega
        · exact sameEnd.trans (isEnd.trans sameNext.symm)
    · rw [found]
      simp only [ne_eq, notNull, not_false_eq_true, if_true]
      obtain ⟨inv', keeps⟩ := takeFree_spec w.supply inv isBase isFree enough byEight asked
      have inside := inv.packed.inside b (by simp)
      simp only [Block.stop] at inside
      have isPtr : (p + SIZEOF_HEADER).toNat = b.base + 24 := by
        rw [add_toNat (by rw [header]; omega), header, isBase]
      have notNull : p + SIZEOF_HEADER ≠ 0 := by
        intro null
        rw [null, zero] at isPtr
        omega
      obtain ⟨_, sameNext, sameEnd⟩ := splitBlock_fields w.heap p size
      refine ⟨_, w.supply, _, rfl, _, ?_, keeps, .reuse pre b post rfl isFree enough first isPtr sameNext sameEnd⟩
      rw [if_neg notNull]
      exact inv'

/-- A pointer that was handed out is behind the header of a block, and not NULL. -/
theorem HeapInv.live_block {w : HeapState σ} {entry : U64 × U64} (inv : HeapInv w blocks) (isLive : entry ∈ w.live) :
    ∃ b ∈ blocks, b.free = false ∧ entry.1.toNat = b.base + 24 ∧ entry.2.toNat ≤ b.size ∧ entry.1 ≠ 0 := by
  obtain ⟨b, isBlock, isUsed, isPtr, fits⟩ := inv.room entry isLive
  refine ⟨b, isBlock, isUsed, isPtr, fits, fun null => ?_⟩
  rw [null, show (0 : U64).toNat = 0 from rfl] at isPtr
  omega

/-- What `kfree` does to the list: it marks the block and merges, unless the
pointer is NULL. -/
inductive Releases (ptr : U64) (blocks : List Block) : List Block → Prop where
  | null (isNull : ptr = 0) : Releases ptr blocks blocks
  | merged (pre : List Block) (b : Block) (post : List Block) (split : blocks = pre ++ b :: post) (isPtr : ptr.toNat = b.base + 24) :
      Releases ptr blocks (merge 24 (pre ++ { b with free := true } :: post))

theorem kfree_spec {w : HeapState σ} (inv : HeapInv w blocks) (proper : ptr = 0 ∨ ∃ n, (ptr, n) ∈ w.live) :
    ∃ mem', w.heap.kfree ptr = some { w.heap with mem := mem' } ∧ ∃ blocks',
      HeapInv ⟨{ w.heap with mem := mem' }, w.supply, w.live.filter fun entry => entry.1 ≠ ptr⟩ blocks' ∧
      Keeps (fun b => ptr.toNat = b.base + 24) w.heap.mem mem' blocks blocks' ∧ Releases ptr blocks blocks' := by
  unfold kfree
  by_cases null : ptr = 0
  · have all : (w.live.filter fun entry => entry.1 ≠ ptr) = w.live := by
      refine List.filter_eq_self.mpr fun entry isLive => ?_
      obtain ⟨_, _, _, _, _, notNull⟩ := inv.live_block isLive
      rw [null]
      exact decide_eq_true notNull
    rw [if_pos null, all]
    exact ⟨w.heap.mem, rfl, blocks, inv, .refl _ _ _, .null null⟩
  · rw [if_neg null]
    obtain ⟨n, isLive⟩ : ∃ n, (ptr, n) ∈ w.live := proper.resolve_left null
    obtain ⟨low, high, count⟩ := inv.bounds
    obtain ⟨b, isBlock, isUsed, isPtr, _⟩ := inv.live_block isLive
    dsimp only at isPtr
    have isBase : (ptr - SIZEOF_HEADER).toNat = b.base := by
      have header : SIZEOF_HEADER.toNat = 24 := rfl
      rw [sub_toNat (by rw [header]; omega), isPtr, header]
      omega
    obtain ⟨pre, post, rfl⟩ := List.append_of_mem isBlock
    obtain ⟨chain, stored⟩ := setFree_spec high inv.chain inv.packed isBase 1
    rw [show (decide ((1 : U32) ≠ 0#32)) = true from rfl] at chain
    have packed := flag_packed inv.packed true
    have sameCount : (pre ++ { b with free := true } :: post).length = (pre ++ b :: post).length := by simp
    obtain ⟨mem', ran, merged, elsewhere⟩ := coalesce_spec low high chain packed (sameCount ▸ count)
    -- The used blocks are those from before but the one that was given back.
    have used : ∀ c : Block, c.free = false → (c ∈ merge 24 (pre ++ { b with free := true } :: post) ↔
        c ∈ pre ++ b :: post ∧ c.base ≠ b.base) := fun c isUsed =>
      (merge_used isUsed).trans (release_used (by decide) inv.packed isUsed)
    refine ⟨_, ran, _, ⟨merged, (merge_packed (by decide) packed).1, merge_aligned (by decide) (flag_aligned inv.aligned true),
      inv.pages, inv.bottom, inv.top, fun base => ?_, fun entry member => ?_, ?_⟩, fun u member isUsed kept => ?_,
      .merged pre b post rfl isPtr⟩
    · constructor
      · rintro ⟨c, member, isUsed, rfl⟩
        obtain ⟨old, other⟩ := (used c isUsed).mp member
        obtain ⟨entry, isLive, isEntry⟩ := (inv.used c.base).mp ⟨c, old, isUsed, rfl⟩
        refine ⟨entry, List.mem_filter.mpr ⟨isLive, decide_eq_true fun same => other ?_⟩, isEntry⟩
        rw [same, isPtr] at isEntry
        omega
      · rintro ⟨entry, member, isEntry⟩
        obtain ⟨isLive, other⟩ := List.mem_filter.mp member
        obtain ⟨c, old, isUsed, rfl⟩ := (inv.used base).mpr ⟨entry, isLive, isEntry⟩
        refine ⟨c, (used c isUsed).mpr ⟨old, fun same => of_decide_eq_true other ?_⟩, isUsed, rfl⟩
        apply BitVec.eq_of_toNat_eq
        rw [isEntry, isPtr, same]
    · obtain ⟨isLive, other⟩ := List.mem_filter.mp member
      obtain ⟨c, old, isUsed, isEntry, fits⟩ := inv.room entry isLive
      refine ⟨c, (used c isUsed).mpr ⟨old, fun same => of_decide_eq_true other ?_⟩, isUsed, isEntry, fits⟩
      apply BitVec.eq_of_toNat_eq
      rw [isEntry, isPtr, same]
    · exact (List.Sublist.map _ List.filter_sublist).nodup inv.distinct
    · have other : u.base ≠ b.base := fun same => kept (by dsimp only; rw [isPtr, same])
      have here := (release_used (by decide) inv.packed isUsed).mpr ⟨member, other⟩
      refine ⟨(used u isUsed).mpr ⟨member, other⟩, fun a payload => ?_⟩
      simp only [InPayload] at payload
      have fromB := inv.packed.distinct member isBlock fun same => other (by rw [same])
      rw [elsewhere a fun c old => ?_, stored a (by simp only [Apart, Block.stop] at fromB; omega)]
      by_cases isU : u = c
      · rw [← isU]
        omega
      · have apart := packed.distinct here old isU
        simp only [Apart, Block.stop] at apart
        omega

/-- An owner's store stays in the payload of a used block, away from all headers. -/
theorem write_inv {w : HeapState σ} {address : U64} (value : U64) (inv : HeapInv w blocks)
    (proper : ∃ ptr n, (ptr, n) ∈ w.live ∧ ptr.toNat ≤ address.toNat ∧ address.toNat < ptr.toNat + n.toNat) :
    HeapInv { w with heap := w.heap.store address value } blocks := by
  obtain ⟨ptr, n, isLive, low, high⟩ := proper
  obtain ⟨b, isBlock, isUsed, isPtr, fits, _⟩ := inv.live_block isLive
  dsimp only at isPtr fits
  refine ⟨chained_congr inv.chain fun c member a first last => Function.update_of_ne ?_ .., inv.packed, inv.aligned, inv.pages,
    inv.bottom, inv.top, inv.used, inv.room, inv.distinct⟩
  by_cases same : b = c
  · rw [← same] at first last
    omega
  · have apart := inv.packed.distinct isBlock member same
    simp only [Apart, Block.stop] at apart
    omega

/-- As `Proper`, but with any sizes that do not wrap around when the header and
the rest of a page are added. -/
def Sized (w : HeapState σ) : HeapAction → Prop
  | .kmalloc n => n.toNat + 4127 < 2 ^ 64
  | a => Proper w a

theorem Proper.sized {w : HeapState σ} {a : HeapAction} (proper : Proper w a) : Sized w a := by
  cases a with
  | kmalloc n =>
    have bound : n.toNat ≤ 2 ^ 29 := proper
    exact (by omega : n.toNat + 4127 < 2 ^ 64)
  | kfree ptr => exact proper
  | write address value => exact proper

theorem heapStep_inv {w w' : HeapState σ} {a : HeapAction} {events : List Unit} (inv : HeapInv w blocks) (sized : Sized w a)
    (did : heapStep extendPage w a = some (w', events)) : ∃ blocks', HeapInv w' blocks' := by
  cases a with
  | kmalloc n =>
    obtain ⟨h, s, ptr, ran, blocks', inv', _⟩ := kmalloc_spec extendPage inv sized
    simp only [heapStep, ran, Option.map_some] at did
    cases did
    exact ⟨blocks', inv'⟩
  | kfree ptr =>
    obtain ⟨h, ran, blocks', inv', _⟩ := kfree_spec inv sized
    simp only [heapStep, ran, Option.map_some] at did
    cases did
    exact ⟨blocks', inv'⟩
  | write address value =>
    cases did
    exact ⟨blocks, write_inv value inv sized.2⟩

theorem kheapInit_inv (h : Kheap) (s : σ) : HeapInv ⟨h.kheapInit, s, []⟩ [] := by
  have page : 4096 ∣ KHEAP_BASE.toNat := by decide
  have room : KHEAP_BASE.toNat ≤ (KHEAP_BASE + KHEAP_SIZE).toNat := by decide
  refine ⟨rfl, ⟨fun b member => absurd member (by simp), .nil⟩, fun b member => absurd member (by simp), page,
    Nat.le_refl _, room, fun base => ?_, fun entry member => absurd member (by simp), .nil⟩
  simp

/-- The blocks on the list from `free_list`, and how they match the live
allocations. Headers and payloads begin and end at words. -/
structure HeapSound (w : HeapState σ) (blocks : List Block) : Prop where
  chain : Chained w.heap.mem w.heap.freeList blocks 0
  acyclic : (blocks.map Block.base).Nodup
  apart : blocks.Pairwise fun a b => a.base + 24 + a.size ≤ b.base ∨ b.base + 24 + b.size ≤ a.base
  inside : ∀ b ∈ blocks, KHEAP_BASE.toNat ≤ b.base ∧ b.base + 24 + b.size ≤ w.heap.heapNext.toNat
  words : ∀ b ∈ blocks, 8 ∣ b.base ∧ 8 ∣ b.size
  top : w.heap.heapNext.toNat ≤ KHEAP_BASE.toNat + KHEAP_SIZE.toNat
  used : ∀ base, (∃ b ∈ blocks, b.free = false ∧ b.base = base) ↔ ∃ entry ∈ w.live, entry.1.toNat = base + 24
  room : ∀ entry ∈ w.live, ∃ b ∈ blocks, b.free = false ∧ entry.1.toNat = b.base + 24 ∧ entry.2.toNat ≤ b.size
  distinct : (w.live.map Prod.fst).Nodup

theorem HeapInv.sound {w : HeapState σ} (inv : HeapInv w blocks) : HeapSound w blocks :=
  ⟨inv.chain, inv.packed.nodup (by decide), inv.packed.apart, inv.packed.inside, inv.aligned, inv.top, inv.used, inv.room,
    inv.distinct⟩

/-- Allocations that are live before and after a call keep their blocks. -/
def KeepsLive (w w' : HeapState σ) (blocks blocks' : List Block) : Prop :=
  ∀ entry ∈ w.live, entry ∈ w'.live → ∃ b ∈ blocks, b ∈ blocks' ∧ b.free = false ∧ entry.1.toNat = b.base + 24 ∧
    entry.2.toNat ≤ b.size ∧ ∀ a, InPayload b a → w'.heap.mem a = w.heap.mem a

/-- **The heap stays well formed.** After any calls that keep to the rules, with
pages running out at any time, the list is sound. The next call returns, leaves
the list sound, and writes into no other live allocation. -/
theorem heap_sound (extendPage : σ → U64 → σ × Bool) {w : HeapState σ} {events : List Unit}
    (run : Run (heapStep extendPage) Proper ⟨h.kheapInit, s, []⟩ events w) :
    ∃ blocks, HeapSound w blocks ∧ ∀ a, Proper w a → ∃ w' blocks', heapStep extendPage w a = some (w', []) ∧
      HeapSound w' blocks' ∧ ((∀ address value, a ≠ .write address value) → KeepsLive w w' blocks blocks') := by
  obtain ⟨blocks, inv⟩ := run.invariant (fun _ w => ∃ blocks, HeapInv w blocks) ⟨[], kheapInit_inv h s⟩
    fun _ _ _ _ _ ⟨_, inv⟩ proper did => heapStep_inv inv proper.sized did
  refine ⟨blocks, inv.sound, fun a proper => ?_⟩
  cases a with
  | kmalloc n =>
    obtain ⟨h', s', ptr, ran, blocks', inv', keeps, _⟩ := kmalloc_spec extendPage inv proper.sized
    refine ⟨_, blocks', by rw [heapStep, ran]; rfl, inv'.sound, fun _ entry isLive _ => ?_⟩
    obtain ⟨b, isBlock, isUsed, isPtr, fits⟩ := inv.room entry isLive
    obtain ⟨stays, same⟩ := keeps b isBlock isUsed id
    exact ⟨b, isBlock, stays, isUsed, isPtr, fits, same⟩
  | kfree ptr =>
    obtain ⟨mem', ran, blocks', inv', keeps, _⟩ := kfree_spec inv proper
    refine ⟨_, blocks', by rw [heapStep, ran]; rfl, inv'.sound, fun _ entry isLive still => ?_⟩
    obtain ⟨b, isBlock, isUsed, isPtr, fits⟩ := inv.room entry isLive
    have other : entry.1 ≠ ptr := of_decide_eq_true (List.mem_filter.mp still).2
    obtain ⟨stays, same⟩ := keeps b isBlock isUsed fun given => other (BitVec.eq_of_toNat_eq (isPtr.trans given.symm))
    exact ⟨b, isBlock, stays, isUsed, isPtr, fits, same⟩
  | write address value =>
    exact ⟨_, blocks, rfl, (write_inv value inv proper.2).sound, fun no => absurd rfl (no address value)⟩

/-- Pages from a supply that runs out. -/
def countdown (left : Nat) (_ : U64) : Nat × Bool := (left - 1, left ≠ 0)

/-- A test for proper calls. -/
def isProper (w : HeapState σ) : HeapAction → Bool
  | .kmalloc n => n ≤ KHEAP_SIZE
  | .kfree ptr => ptr = 0 || w.live.any fun entry => entry.1 = ptr
  | .write _ _ => false

/-- A call that asks for memory. -/
def isKmalloc : HeapAction → Bool
  | .kmalloc _ => true
  | _ => false

theorem proper_of_isProper (w : HeapState σ) (a : HeapAction) (passed : isProper w a = true) : Proper w a := by
  cases a with
  | kmalloc n => exact of_decide_eq_true (p := n ≤ KHEAP_SIZE) passed
  | kfree ptr =>
    simp only [isProper, Bool.or_eq_true, decide_eq_true_eq, List.any_eq_true] at passed
    rcases passed with null | ⟨entry, isLive, rfl⟩
    · exact .inl null
    · exact .inr ⟨entry.2, isLive⟩
  | write => cases passed

/-- Two allocations from one page; the first is freed, and a request for more
than there is fails. -/
theorem heap_sound_page : ∃ w events, Run (heapStep countdown) Proper ⟨kheapInit ⟨fun _ => 0, 0, 0, 0⟩, 1, []⟩ events w ∧
    w.live = [(0xffff9000000000a0, 40)] ∧ ∃ blocks, HeapSound w blocks := by
  have ran : (exec isProper (heapStep countdown) ⟨kheapInit ⟨fun _ => 0, 0, 0, 0⟩, 1, []⟩
      [.kmalloc 100, .kmalloc 40, .kfree 0xffff900000000018, .kmalloc 5000, .kfree 0]).map (fun (w, _) => w.live) =
      some [(0xffff9000000000a0, 40)] := by
    decide +kernel
  obtain ⟨⟨w, events⟩, did, isLive⟩ := Option.map_eq_some_iff.mp ran
  have run : Run (heapStep countdown) Proper ⟨kheapInit ⟨fun _ => 0, 0, 0, 0⟩, 1, []⟩ events w :=
    run_of_exec (fun w a _ passed => proper_of_isProper w a passed) did
  obtain ⟨blocks, sound, _⟩ := heap_sound countdown run
  exact ⟨w, events, run, isLive, blocks, sound⟩

end HobbyKernel.KheapRuns
