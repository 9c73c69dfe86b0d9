import HobbyKernel.KheapRequests
import HobbyKernel.Lib.Coalescing

/-! `kfree` merges neighbours on the list. The list has the order of addresses
within a region, but each new region of the heap goes to its front. -/
namespace HobbyKernel.KheapCoalescing
open Blocks Kheap KheapProofs KheapRuns KheapRequests UaccessProofs Runs

variable {extendPage : σ → U64 → σ × Bool} {h h' : Kheap} {s : σ} {w w' : HeapState σ} {n ptr : U64} {blocks blocks' pre post : List Block}
  {b : Block} {events : List Unit}

/-- Freeing a pointer links its block to every free block that it touches. -/
def Mergeable (blocks : List Block) (ptr : U64) : Prop :=
  ∀ pre b post, blocks = pre ++ b :: post → ptr.toNat = b.base + 24 → Linkable 24 pre b post

/-- The rules for requests, and whatever is freed can be merged. -/
def Tidy (extendPage : σ → U64 → σ × Bool) (w : HeapState σ) (a : HeapAction) : Prop :=
  Meets extendPage w a ∧ ∀ ptr, a = .kfree ptr → ∃ blocks, HeapSound w blocks ∧ Mergeable blocks ptr

theorem split_unique {pre' post' : List Block} {b' : Block} (nodup : ((pre ++ b :: post).map Block.base).Nodup)
    (same : pre ++ b :: post = pre' ++ b' :: post') (sameBase : b.base = b'.base) : pre = pre' ∧ b = b' ∧ post = post' := by
  induction pre generalizing pre' with
  | nil =>
    cases pre' with
    | nil =>
      cases same
      exact ⟨rfl, rfl, rfl⟩
    | cons c pre' =>
      cases same
      refine absurd (List.mem_map_of_mem (f := Block.base) (show b' ∈ pre' ++ b' :: post' by simp)) ?_
      rw [← sameBase]
      exact (List.nodup_cons.mp nodup).1
  | cons a pre ih =>
    cases pre' with
    | nil =>
      obtain ⟨isA, isPost⟩ := List.cons.inj same
      refine absurd (List.mem_map_of_mem (f := Block.base) (show b ∈ pre ++ b :: post by simp)) ?_
      rw [sameBase, ← isA]
      exact (List.nodup_cons.mp nodup).1
    | cons c pre' =>
      obtain ⟨isHead, isTail⟩ := List.cons.inj same
      obtain ⟨samePre, sameB, samePost⟩ := ih (List.nodup_cons.mp nodup).2 isTail
      exact ⟨by rw [isHead, samePre], sameB, samePost⟩

theorem others_subset (pre : List Block) (b : Block) (post : List Block) : pre ++ post ⊆ pre ++ b :: post :=
  ((List.sublist_cons_self b post).append_left pre).subset

/-- Freeing leaves no touching blocks exactly if it could merge them. -/
theorem releases_coalesced_iff (packed : Packed 24 KHEAP_BASE.toNat w.heap.heapNext.toNat blocks) (coalesced : Coalesced 24 blocks)
    (releases : Releases ptr blocks blocks') : Coalesced 24 blocks' ↔ Mergeable blocks ptr := by
  cases releases with
  | null isNull =>
    refine iff_of_true coalesced fun pre b post _ isPtr => ?_
    rw [isNull, show (0 : U64).toNat = 0 from rfl] at isPtr
    omega
  | merged pre b post split isPtr =>
    subst split
    rw [merge_coalesced_iff (by decide) (flag_packed packed true),
      release_inOrder_iff (by decide) (flag_packed packed true) rfl (coalesced.subset (others_subset pre b post))]
    constructor
    · intro linkable pre' b' post' split isPtr'
      obtain ⟨rfl, rfl, rfl⟩ := split_unique (packed.nodup (by decide)) split (by omega)
      exact linkable
    · exact fun mergeable => mergeable pre b post rfl isPtr

/-- Allocating never makes free blocks touch: what is left of a block ends where
the block did. -/
theorem allocates_coalesced {size : Nat} (inv : HeapInv w blocks) (coalesced : Coalesced 24 blocks)
    (allocates : Allocates w.heap h' size ptr blocks blocks') : Coalesced 24 blocks' := by
  cases allocates with
  | null => exact coalesced
  | reuse pre b post split isFree enough =>
    subst split
    refine cut_coalesced (b := { b with free := false }) (by decide) 16 (flag_packed inv.packed false) rfl enough
      (coalesced.subset (others_subset pre b post)) fun c member free => ?_
    exact coalesced b (by simp) c (others_subset pre b post member) isFree free
  | extend left full enough =>
    have grown : Packed 24 KHEAP_BASE.toNat (w.heap.heapNext.toNat + 24 + left) (⟨w.heap.heapNext.toNat, left, false⟩ :: blocks) :=
      inv.packed.grow (Nat.le_refl _) inv.bottom (Nat.le_refl _) (by omega)
    refine cut_coalesced (by decide) 16 (show Packed 24 _ _ ([] ++ _ :: blocks) from grown) rfl enough coalesced fun c member _ touches => ?_
    have below := (inv.packed.inside c member).2
    simp only [Block.stop] at below touches
    omega

/-- A heap has only one list of blocks. -/
theorem sound_unique (sound : HeapSound w blocks) (sound' : HeapSound w blocks') : blocks = blocks' := by
  have shorter := chained_begins sound.chain (fun b member => base_ne_zero (sound.inside b member).1) sound'.chain
  have longer := chained_begins sound'.chain (fun b member => base_ne_zero (sound'.inside b member).1) sound.chain
  exact shorter.eq_of_length_le longer.length_le

theorem tidyStep_inv {a : HeapAction} (inv : HeapInv w blocks) (coalesced : Coalesced 24 blocks) (tidy : Tidy extendPage w a)
    (did : requestStep extendPage w a = some (w', events)) : ∃ blocks', HeapInv w' blocks' ∧ Coalesced 24 blocks' := by
  cases a with
  | kmalloc n =>
    obtain ⟨_, _, blocks', inv', allocates⟩ := request_allocates inv tidy.1 did
    exact ⟨blocks', inv', allocates_coalesced inv coalesced allocates⟩
  | kfree ptr =>
    obtain ⟨mem', ran, blocks', inv', _, releases⟩ := kfree_spec inv tidy.1
    simp only [requestStep, heapStep, ran, Option.map_some] at did
    cases did
    obtain ⟨blocks₁, sound, mergeable⟩ := tidy.2 ptr rfl
    cases sound_unique inv.sound sound
    exact ⟨blocks', inv', (releases_coalesced_iff inv.packed coalesced releases).mpr mergeable⟩
  | write address value =>
    cases did
    exact ⟨blocks, write_inv value inv tidy.1.2, coalesced⟩

/-- **Freed memory is coalesced** as long as what is freed touches free blocks
only next to it on the list; and no longer. -/
theorem kfree_coalesced_iff (extendPage : σ → U64 → σ × Bool)
    (run : Run (requestStep extendPage) (Tidy extendPage) ⟨h.kheapInit, s, []⟩ events w) :
    ∃ blocks, HeapSound w blocks ∧ Coalesced 24 blocks ∧ ∀ ptr, (ptr = 0 ∨ ∃ n, (ptr, n) ∈ w.live) →
      ∃ h' blocks', w.heap.kfree ptr = some h' ∧ Chained h'.mem h'.freeList blocks' 0 ∧
        (Coalesced 24 blocks' ↔ Mergeable blocks ptr) := by
  obtain ⟨blocks, inv, coalesced⟩ := run.invariant (fun _ w => ∃ blocks, HeapInv w blocks ∧ Coalesced 24 blocks)
    ⟨[], kheapInit_inv h s, fun x member => absurd member (by simp)⟩
    fun _ _ _ _ _ ⟨_, inv, coalesced⟩ tidy did => tidyStep_inv inv coalesced tidy did
  refine ⟨blocks, inv.sound, coalesced, fun ptr isLive => ?_⟩
  obtain ⟨mem', ran, blocks', inv', _, releases⟩ := kfree_spec inv isLive
  exact ⟨_, blocks', ran, inv'.chain, releases_coalesced_iff inv.packed coalesced releases⟩

/-- Two allocations from one page; the second is merged with the rest. -/
theorem kfree_coalesced_page : ∃ (w : HeapState Nat) (h' : Kheap) (blocks : List Block),
    w.heap.kfree 0xffff9000000000a0 = some h' ∧ Chained h'.mem h'.freeList blocks 0 ∧ Coalesced 24 blocks := by
  let first : Block := ⟨0xffff900000000000, 112, false⟩
  let second : Block := ⟨0xffff900000000088, 48, false⟩
  let left : Block := ⟨0xffff9000000000d0, 3864, true⟩
  have ran : (exec (fun w a => isProper w a && isKmalloc a) (requestStep countdown) ⟨kheapInit ⟨fun _ => 0, 0, 0, 0⟩, 1, []⟩
      [.kmalloc 100, .kmalloc 40]).map (fun out =>
        (decide (Chained out.1.heap.mem out.1.heap.freeList [first, second, left] 0), out.1.live)) =
      some (true, [(0xffff9000000000a0, 40), (0xffff900000000018, 100)]) := by
    decide +kernel
  obtain ⟨⟨w, events⟩, did, after⟩ := Option.map_eq_some_iff.mp ran
  obtain ⟨chain, isLive⟩ := Prod.mk.inj after
  have run : Run (requestStep countdown) (Tidy countdown) ⟨kheapInit ⟨fun _ => 0, 0, 0, 0⟩, 1, []⟩ events w := by
    refine run_of_exec (fun w a _ passed => ?_) did
    obtain ⟨proper, isRequest⟩ := Bool.and_eq_true_iff.mp passed
    refine ⟨proper_meets (proper_of_isProper w a proper), ?_⟩
    rintro ptr rfl
    cases isRequest
  obtain ⟨blocks, sound, _, frees⟩ := kfree_coalesced_iff countdown run
  obtain ⟨h', blocks', freed, chain', iff⟩ := frees 0xffff9000000000a0 (.inr ⟨40, by rw [isLive]; exact List.mem_cons_self⟩)
  refine ⟨w, h', blocks', freed, chain', iff.mpr fun pre b post split isPtr => ?_⟩
  have shorter := chained_begins sound.chain (fun b member => base_ne_zero (sound.inside b member).1) (of_decide_eq_true chain)
  have longer := chained_begins (of_decide_eq_true chain) (by decide) sound.chain
  cases shorter.eq_of_length_le longer.length_le
  rw [show (0xffff9000000000a0 : U64).toNat = 0xffff900000000088 + 24 from rfl] at isPtr
  have isBase : 0xffff900000000088 = b.base := Nat.add_right_cancel isPtr
  obtain ⟨rfl, rfl, rfl⟩ := split_unique (b := second) (show (([first] ++ second :: [left]).map Block.base).Nodup by decide)
    split isBase
  unfold Linkable
  decide

/-- Two regions that touch are not merged: the second is in front on the list. -/
theorem kfree_not_coalesced : ¬ ∀ (w : HeapState Nat) (events : List Unit),
    Run (requestStep countdown) (Meets countdown) ⟨kheapInit ⟨fun _ => 0, 0, 0, 0⟩, 2, []⟩ events w →
      ∀ ptr, (ptr = 0 ∨ ∃ n, (ptr, n) ∈ w.live) → ∀ h' blocks, w.heap.kfree ptr = some h' →
        Chained h'.mem h'.freeList blocks 0 → Coalesced 24 blocks := by
  intro all
  let first : Block := ⟨0xffff900000000000, 4072, true⟩
  let second : Block := ⟨0xffff900000001000, 4072, true⟩
  have ran : (exec isProper (requestStep countdown) ⟨kheapInit ⟨fun _ => 0, 0, 0, 0⟩, 2, []⟩
      [.kmalloc 4064, .kmalloc 4064, .kfree 0xffff900000000018]).bind (fun (w, _) =>
        (w.heap.kfree 0xffff900000001018).map fun h' => (decide (Chained h'.mem h'.freeList [second, first] 0), w.live)) =
      some (true, [(0xffff900000001018, 4064)]) := by
    decide +kernel
  obtain ⟨⟨w, events⟩, did, again⟩ := Option.bind_eq_some_iff.mp ran
  obtain ⟨h', freed, after⟩ := Option.map_eq_some_iff.mp again
  obtain ⟨chain, isLive⟩ := Prod.mk.inj after
  have run : Run (requestStep countdown) (Meets countdown) ⟨kheapInit ⟨fun _ => 0, 0, 0, 0⟩, 2, []⟩ events w :=
    run_of_exec (fun w a _ passed => proper_meets (proper_of_isProper w a passed)) did
  have coalesced := all w events run 0xffff900000001018 (.inr ⟨4064, by rw [isLive]; exact List.mem_cons_self⟩) h' _ freed
    (of_decide_eq_true chain)
  exact coalesced first (by simp) second (by simp) rfl rfl rfl

end HobbyKernel.KheapCoalescing
