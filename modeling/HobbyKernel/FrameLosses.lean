import HobbyKernel.HeapFrames

/-! Where frames are lost. Nothing that a task had is given back when it is
destroyed, and what was built before an allocation fails is dropped. In runs in
which neither happens, and no page is left without its tables, every frame of
the initial free list is free or has an owner. -/
namespace HobbyKernel.FrameLosses
open TaskTable TaskInvariant AddressBits PageAllocProofs WalkProofs CopyProofs UserAccess UaccessProofs MapSupply
open FrameAccounts Isolation IsolationSteps IsolationProofs LiveFrames HeapFrames Kheap Runs Radix Supplies

variable {w w' w₀ : System} {boot : Frame} {free initial rest : List Nat} {events new : List Event} {a : SystemAction}

/-- The kernel has booted, and nothing is mapped where the heap will be. -/
structure SystemBooted (w : System) (free : List Nat) : Prop where
  kernel : BootedWith w.kernel free
  heap : ∃ h, w.heap = kheapInit h
  reserved : present (w.kernel.phys.mem (getCurrentPml4 w.kernel.cr3) heapSlot) = false

/-- The condition on a step under which no frame is lost, with the number of
frames that are free. -/
def Balanced (boot : Frame) (w : System) (a : SystemAction) : Prop :=
  ∃ fuel frames, countFreeWithin fuel w.kernel.phys = some frames ∧
    match a with
    | .run a => Even w.kernel frames a
    | .kmalloc size => GrowsEven boot w.kernel w.heap frames size
    | .kfree _ => True

/-- Every frame of the initial free list is free or has an owner. -/
structure Accounts (boot : Frame) (initial : List Nat) (w : System) (rest : List Nat) : Prop where
  table : TableInv w.kernel.tasks
  isolated : Isolated w.kernel.phys.mem boot w.kernel rest
  tree : HeapTree boot w.kernel w.heap.heapNext
  owned : ∀ f ∈ initial, f ∈ rest ∨ Owned boot w.kernel f

/-- Before the first page of the heap, its tree is the kernel's PML4 alone. -/
theorem SystemBooted.tree (booted : SystemBooted w free) :
    HeapTree (getCurrentPml4 w.kernel.cr3) w.kernel w.heap.heapNext := by
  obtain ⟨_, ⟨h, isInit⟩, reserved⟩ := booted
  have bare : ∀ {i path}, HeapTop i →
      follow (layout HeapTop) w.kernel.phys.mem (getCurrentPml4 w.kernel.cr3) (i :: path) = none := by
    rintro i path rfl
    rw [follow, layout_dec, reserved]
    rfl
  have top : ∀ {depth path f}, Node (layout HeapTop) w.kernel.phys.mem (alone (getCurrentPml4 w.kernel.cr3)) depth () path f →
      path = [] := by
    rintro depth path f ⟨_, admitted, r, isRoot, reached⟩
    cases isRoot
    cases path with
    | nil => rfl
    | cons i path =>
      rw [bare (admitted i rfl)] at reached
      cases reached
  refine ⟨⟨fun o o' f owns owns' => ?_, fun _ _ _ => List.not_mem_nil⟩, fun _ path t i node admitted isPresent => ?_,
    fun va low high => ?_, ?_, ?_⟩
  · cases o with
    | other i => exact i.elim
    | node _ path =>
      cases o' with
      | other i => exact i.elim
      | node _ path' => rw [top owns, top owns']
  · obtain rfl := top node
    obtain ⟨_, _, r, isRoot, reached⟩ := node
    cases isRoot
    cases reached
    have isSlot : i = heapSlot := admitted i rfl
    rw [isSlot, reserved] at isPresent
    cases isPresent
  · rw [isInit] at low
    rw [leafEntry_eq HeapTop, entry, tablePath, bare (heapTop_of_range low high)]
    exact absent_zero
  · rw [isInit]
    exact (by decide : KHEAP_BASE.toNat % 4096 = 0)
  · rw [isInit]
    exact Nat.le_refl _

theorem SystemBooted.accounts (booted : SystemBooted w free) : Accounts (getCurrentPml4 w.kernel.cr3) free w free :=
  ⟨run_tableInv booted.kernel.booted (.start : Run step KeepsLower w.kernel [] w.kernel), booted.kernel.isolated, booted.tree,
    fun _ member => .inl member⟩

/-- What a step conserves stays accounted for. -/
theorem Accounts.step (accounts : Accounts boot initial w rest) {rest' : List Nat} (table : TableInv w'.kernel.tasks)
    (noneLost : NoneLost boot w.kernel w'.kernel rest rest') (tree : HeapTree boot w'.kernel w'.heap.heapNext) :
    Accounts boot initial w' rest' := by
  refine ⟨table, noneLost.isolated, tree, fun f member => ?_⟩
  rcases accounts.owned f member with left | owned
  · exact noneLost.taken f left
  · exact .inr (noneLost.kept f owned)

instance decidableHeapShared (boot : Frame) (k : Kernel) : Decidable (HeapShared boot k) :=
  inferInstanceAs (Decidable (present (k.phys.mem boot heapSlot) = true ∨ ∀ t, (k.tasks.slot t).state = .unused))

instance decidableGrowsEven (boot : Frame) (k : Kernel) (h : Kheap) (frames : Nat) (size : U64) :
    Decidable (GrowsEven boot k h frames size) :=
  inferInstanceAs (Decidable (pagesWanted h size ≠ [] → 0 < frames → HeapShared boot k ∧
    Pays pageOf tablePrefixes false (supplyOf k.phys boot frames) (pagesWanted h size)))

end HobbyKernel.FrameLosses
