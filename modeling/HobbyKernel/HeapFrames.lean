import HobbyKernel.Core.System
import HobbyKernel.LiveFrames

/-! Frames for the kernel heap. Its pages hang below one entry of the kernel's
PML4, which all address spaces share once it is there. Mapping a page of the
heap overwrites nothing that is present, and all it takes from the free list
hangs below that entry afterwards. -/
namespace HobbyKernel.HeapFrames
open TaskTable TaskInvariant AddressBits PageAllocProofs WalkProofs CopyProofs AddressSpaces UaccessProofs UserAccess
open KheapProofs (base_toNat top_toNat splitBlock_fields)
open MapSupply ReportedSuccess FrameAccounts Isolation LiveFrames Kheap Radix Supplies

variable {s s' s'' : Phys} {free mid rest : List Nat} {boot f t : Frame} {i : Index} {level : Nat} {k k' k'' : Kernel}
  {value va : U64} {supply : FrameSupply} {h : Kheap}

/-- Frames are hung up: entries that were present stay, and new ones point at
frames that were free. -/
structure Hangs (s s' : Phys) (free rest : List Nat) : Prop where
  list : FreeList s' rest
  fewer : ∀ f ∈ rest, f ∈ free
  kept : ∀ f i, f ∉ free → present (s.mem f i) = true → s'.mem f i = s.mem f i
  new : ∀ f i, f ∉ rest → present (s'.mem f i) = true → (f ∉ free ∧ s'.mem f i = s.mem f i) ∨
    (tableOf (s'.mem f i) ∈ free ∧ tableOf (s'.mem f i) ∉ rest)

theorem Hangs.refl (list : FreeList s free) : Hangs s s free free :=
  ⟨list, fun _ member => member, fun _ _ _ _ => rfl, fun _ _ notFree _ => .inl ⟨notFree, rfl⟩⟩

theorem Hangs.trans (first : Hangs s s' free mid) (second : Hangs s' s'' mid rest) : Hangs s s'' free rest := by
  refine ⟨second.list, fun f member => first.fewer f (second.fewer f member), fun f i notFree isPresent => ?_,
    fun f i notRest isPresent => ?_⟩
  · have same := first.kept f i notFree isPresent
    rw [← same] at isPresent ⊢
    exact second.kept f i (fun member => notFree (first.fewer f member)) isPresent
  · rcases second.new f i notRest isPresent with ⟨notMid, same⟩ | ⟨taken, notRest'⟩
    · rw [same] at isPresent ⊢
      exact (first.new f i notMid isPresent).imp_right fun both => ⟨both.1, fun member => both.2 (second.fewer _ member)⟩
    · exact .inr ⟨first.fewer _ taken, notRest'⟩

theorem absent_zero : present 0#64 = false := by decide

/-- Tables stay where they are. -/
theorem Hangs.table (hangs : Hangs s s' free rest) (unfree : ∀ level f, Table s.mem boot level f → f ∉ free)
    (table : Table s.mem boot level f) : Table s'.mem boot level f := by
  induction table with
  | top => exact .top
  | @entry level t before i isPresent small ih =>
    have same := hangs.kept t i (unfree _ t before) ((cpu_present _).symm.trans isPresent)
    rw [← same] at isPresent small ⊢
    exact .entry ih i isPresent small

/-- A table that was none before was taken from the free list. -/
theorem Hangs.tables (hangs : Hangs s s' free rest) (unfree : ∀ level f, Table s.mem boot level f → f ∉ free)
    (table : Table s'.mem boot level f) : Table s.mem boot level f ∨ (f ∈ free ∧ f ∉ rest) := by
  induction table with
  | top => exact .inl .top
  | @entry level t _ i isPresent small ih =>
    rw [cpu_address]
    have unlisted : t ∉ rest := ih.elim (fun old member => unfree _ t old (hangs.fewer t member)) And.right
    refine (hangs.new t i unlisted ((cpu_present _).symm.trans isPresent)).imp_left fun both => ?_
    have old := ih.resolve_right fun taken => both.1 taken.1
    rw [both.2] at isPresent small ⊢
    rw [← cpu_address]
    exact .entry old i isPresent small

/-- The entry of a PML4 that leads to the heap. -/
def heapSlot : Index := subscript (pml4Index KHEAP_BASE)

def HeapTop (i : Index) : Prop := i = heapSlot

/-- All of the heap lies under that entry. -/
theorem heapTop_of_range (low : KHEAP_BASE.toNat ≤ va.toNat) (high : va.toNat < (KHEAP_BASE + KHEAP_SIZE).toNat) :
    HeapTop (subscript (pml4Index va)) := by
  rw [top_toNat] at high
  rw [base_toNat] at low
  apply Fin.ext
  rw [heapSlot, pml4Index, pml4Index, subscript_indexBits _ (by decide), subscript_indexBits _ (by decide),
    base_toNat]
  omega

/-- The tables of the heap below the kernel's PML4: no frame of them is in two
places, the walker made their edges, and no page is mapped from `heap_next` on. -/
structure HeapTree (boot : Frame) (k : Kernel) (heapNext : U64) : Prop where
  exclusive : Exclusive (layout HeapTop) k.phys.mem (alone boot) 3 (fun (_ : Empty) _ => False) []
  walkable : Walkable HeapTop k.phys.mem (alone boot)
  ahead : ∀ va : U64, heapNext.toNat ≤ va.toNat → va.toNat < (KHEAP_BASE + KHEAP_SIZE).toNat →
    present (leafEntry k.phys boot va) = false
  pages : heapNext.toNat % 4096 = 0
  bottom : KHEAP_BASE.toNat ≤ heapNext.toNat

/-- The processor finds the tables of the heap. -/
theorem node_table {path : List Index} (walkable : Walkable HeapTop s.mem (alone boot))
    (node : Node (layout HeapTop) s.mem (alone boot) 3 () path f) :
    ∃ level, path.length + level = 3 ∧ Table s.mem boot level f := by
  induction path using List.reverseRecOn generalizing f with
  | nil =>
    obtain ⟨_, _, r, isRoot, reached⟩ := node
    cases isRoot
    cases reached
    exact ⟨3, rfl, .top⟩
  | append_singleton path i ih =>
    obtain ⟨short, admitted, r, isRoot, reached⟩ := node
    rw [List.length_append, List.length_singleton] at short
    rw [follow_concat] at reached
    obtain ⟨t, above, edge⟩ := Option.bind_eq_some_iff.mp reached
    have before : Node (layout HeapTop) s.mem (alone boot) 3 () path t :=
      ⟨by omega, admitted_of_append admitted, r, isRoot, above⟩
    obtain ⟨level, length, table⟩ := ih before
    obtain ⟨level, rfl⟩ : ∃ below, level = below + 1 := ⟨level - 1, by omega⟩
    rw [layout_dec] at edge
    split at edge
    · rename_i isPresent
      cases edge
      obtain ⟨pp, made⟩ := walkable () path t i ⟨by omega, before.2⟩ admitted isPresent
      refine ⟨level, by rw [List.length_append, List.length_singleton]; omega, ?_⟩
      rw [← cpu_address]
      exact .entry table i ((cpu_present _).trans isPresent) (by rw [made]; exact (walk_entry_open pp).1)
    · cases edge

/-- The tables of the heap are the kernel's own. -/
theorem HeapTree.owned {path : List Index} {heapNext : U64} (tree : HeapTree boot k heapNext)
    (iso : Isolated k.phys.mem boot k free) (node : Node (layout HeapTop) k.phys.mem (alone boot) 3 () path f) :
    f ∉ free ∧ ∀ t path, ¬ Node (layout Lower) k.phys.mem (spaces k.tasks) 4 t path f := by
  obtain ⟨level, _, table⟩ := node_table tree.walkable node
  exact iso.kernel_apart table

theorem HeapTree.tables {heapNext : U64} (tree : HeapTree boot k heapNext)
    (same : ∀ level f, Table k.phys.mem boot level f → k'.phys.mem f = k.phys.mem f) (u : Unit) (path : List Index) (t : Frame)
    (node : Node (layout HeapTop) k.phys.mem (alone boot) 3 u path t) : k'.phys.mem t = k.phys.mem t := by
  obtain ⟨level, _, table⟩ := node_table tree.walkable node
  exact same level t table

/-- The tree stands while the kernel's tables do. -/
theorem HeapTree.still {heapNext : U64} (tree : HeapTree boot k heapNext)
    (same : ∀ level f, Table k.phys.mem boot level f → k'.phys.mem f = k.phys.mem f) : HeapTree boot k' heapNext := by
  have tables := tree.tables same
  refine ⟨tree.exclusive.frame fun u path t node => tables u path t (node.mono (by decide)), tree.walkable.frame tables,
    fun va low high => ?_, tree.pages, tree.bottom⟩
  have inHeap := heapTop_of_range (Nat.le_trans tree.bottom low) high
  rw [leafEntry_eq HeapTop, entry_frame (alone_self boot) (admitted_tablePath inHeap) (by simp [tablePath]) (tables ()),
    ← leafEntry_eq]
  exact tree.ahead va low high

/-- All address spaces have the entry that leads to the heap, or there is no
task yet. -/
def HeapShared (boot : Frame) (k : Kernel) : Prop :=
  present (k.phys.mem boot heapSlot) = true ∨ ∀ t, (k.tasks.slot t).state = .unused

/-- The frame is a table or a page of the heap, or belongs to a task in use. -/
def Owned (boot : Frame) (k : Kernel) (f : Frame) : Prop :=
  (∃ path, Node (layout HeapTop) k.phys.mem (alone boot) 4 () path f) ∨ Live k f

/-- Between two states no frame is lost. -/
structure NoneLost (boot : Frame) (k k' : Kernel) (free rest : List Nat) : Prop where
  isolated : Isolated k'.phys.mem boot k' rest
  kept : ∀ f, Owned boot k f → Owned boot k' f
  taken : ∀ f ∈ free, f ∈ rest ∨ Owned boot k' f

theorem NoneLost.refl (iso : Isolated k.phys.mem boot k free) : NoneLost boot k k free free :=
  ⟨iso, fun _ live => live, fun _ member => .inl member⟩

theorem NoneLost.trans (first : NoneLost boot k k' free mid) (second : NoneLost boot k' k'' mid rest) :
    NoneLost boot k k'' free rest := by
  refine ⟨second.isolated, fun f live => second.kept f (first.kept f live), fun f member => ?_⟩
  rcases first.taken f member with left | live
  · exact second.taken f left
  · exact .inr (second.kept f live)

section Page
variable {pp : Nat} {taken : List Nat} {heapNext : U64} (iso : Isolated k.phys.mem boot k (pp :: mid))
  (elsewhere : ∀ g, g ≠ pp → s.mem g = k.phys.mem g)
include iso elsewhere

/-- A frame just taken off the free list is no table of the heap. -/
theorem HeapTree.take (tree : HeapTree boot k heapNext) :
    (∀ u path t, Node (layout HeapTop) k.phys.mem (alone boot) 3 u path t → s.mem t = k.phys.mem t) ∧
      Exclusive (layout HeapTop) k.phys.mem (alone boot) 3 (fun (_ : Empty) _ => False) (pp :: mid) ∧
      Exclusive (layout HeapTop) s.mem (alone boot) 3 (fun (_ : Empty) _ => False) mid := by
  have same : ∀ u path t, Node (layout HeapTop) k.phys.mem (alone boot) 3 u path t → s.mem t = k.phys.mem t :=
    fun u path t node => elsewhere t (List.ne_of_not_mem_cons (tree.owned iso node).1)
  have exclusive : Exclusive (layout HeapTop) k.phys.mem (alone boot) 3 (fun (_ : Empty) _ => False) (pp :: mid) := by
    refine ⟨tree.exclusive.unique, fun o f owns => ?_⟩
    cases o with
    | node _ path => exact (tree.owned iso owns).1
    | other i => exact i.elim
  refine ⟨same, exclusive, ?_⟩
  exact (exclusive.frame fun u path t node => same u path t (node.mono (by decide))).subset fun f => List.mem_cons_of_mem pp

end Page

/-- The pages that `heap_extend` goes for, up to the end of the heap. -/
def pagesAhead (h : Kheap) (n : Nat) : List U64 :=
  (pageAddrs h.heapNext n).takeWhile fun va => va < KHEAP_BASE + KHEAP_SIZE

/-- The pages that a request has mapped. -/
def pagesWanted (h : Kheap) (size : U64) : List U64 :=
  if size = 0 ∨ h.findFreeBlock (roundup size ALIGN) LIST_FUEL h.freeList ≠ some 0 then []
  else pagesAhead h ((roundup size ALIGN + SIZEOF_HEADER + PGSIZE - 1) / PGSIZE).toNat

/-- The frames last for the pages of a request and their tables, or give out
between two pages; and all address spaces have the heap. -/
def GrowsEven (boot : Frame) (k : Kernel) (h : Kheap) (frames : Nat) (size : U64) : Prop :=
  pagesWanted h size ≠ [] → 0 < frames → HeapShared boot k ∧
    Pays pageOf tablePrefixes false (supplyOf k.phys boot frames) (pagesWanted h size)

end HobbyKernel.HeapFrames
