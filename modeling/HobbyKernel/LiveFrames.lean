import HobbyKernel.FrameAccounts
import HobbyKernel.IsolationProofs

/-! Which frames tasks have. A frame belongs to a task that is in use when it is
in its lower half, or is its kernel stack. Steps that end no task and that do
not run out of frames half way take no frame away from a task, and give to tasks
all that they take from the free list. -/
namespace HobbyKernel.LiveFrames
open TaskTable TaskEffects TaskInvariant AddressBits PageAllocProofs WalkProofs CopyProofs CopyExact AddressSpaces UaccessProofs
open UserAccess SpaceEvolution PageWrites MapSupply ElfProofs ElfImage ElfConfinement FrameAccounts Isolation IsolationSteps
open IsolationProofs Radix Supplies

variable {mem mem' mem₀ : PhysMem} {boot r f : Frame} {k k' k'' : Kernel} {free rest rest' : List Nat} {T T' : TaskTable}
  {t self : Slot} {level : Nat} {events : List Event} {a : Action}

/-- The PML4 of a task, its tables and pages in the lower half, and its kernel
stack. -/
def TaskFrame (k : Kernel) (t : Slot) (f : Frame) : Prop :=
  (∃ path, Node (layout Lower) k.phys.mem (spaces k.tasks) 4 t path f) ∨
    ∃ base, (k.tasks.slot t).kstack = some base ∧ f = frameOf base

/-- The frame belongs to a task that is in use. -/
def Live (k : Kernel) (f : Frame) : Prop := ∃ t, (k.tasks.slot t).state ≠ .unused ∧ TaskFrame k t f

/-- What was live stays live, and what leaves the free list becomes live. The
kernel's tables stay as they are. -/
structure Conserves (boot : Frame) (k k' : Kernel) (free rest : List Nat) : Prop where
  isolated : Isolated k.phys.mem boot k' rest
  kept : ∀ f, Live k f → Live k' f
  taken : ∀ f ∈ free, f ∈ rest ∨ Live k' f

theorem Conserves.refl (iso : Isolated k.phys.mem boot k free) : Conserves boot k k free free :=
  ⟨iso, fun _ live => live, fun _ member => .inl member⟩

/-- There is a slot and a frame for the PML4, but none for the kernel stack. -/
def CreateFallsShort (T : TaskTable) (frames : Nat) : Prop := T.taskFreeList ≠ none ∧ frames = 1

/-- There is a slot and a frame for the PML4, but not one for each page, table
and the kernel stack of the child. -/
def ForkFallsShort (k : Kernel) (parentPml4 : Frame) (frames : Nat) : Prop :=
  k.tasks.taskFreeList ≠ none ∧ 0 < frames ∧ frames ≤ copyCost k.phys.mem parentPml4

/-- A creation conserves frames, and takes none if it fails. -/
structure Creates (boot : Frame) (k : Kernel) (made : Kernel × Option Slot) (free rest : List Nat) : Prop where
  conserves : Conserves boot k made.1 free rest
  failed : made.2 = none → made.1 = k

/-- A `sys_wait` of this task finds no dead child. -/
def CollectsNobody (T : TaskTable) (self : Slot) (childId : U64) : Prop :=
  ∀ t, isChild (T.slot self).taskId childId (T.slot t) = true → (T.slot t).state ≠ .dead

/-- The condition on a step under which no frame is lost. Kernel threads share
the kernel's address space and are left out. -/
def Even (k : Kernel) (frames : Nat) : Action → Prop
  | .create => ¬ CreateFallsShort k.tasks frames
  | .createKernel _ => False
  | .destroy t => (k.tasks.slot t).state = .unused
  | .elfLoad t image => ∀ r, (k.tasks.slot t).pml4 = some r → LoadsEven k.phys r frames image
  | .mapStack t vaddr => ∀ r, (k.tasks.slot t).pml4 = some r → MapsEven k.phys r vaddr frames
  | .syscall regs => ∀ self, k.tasks.currentTask = some self →
      (regs.rax = SYS_FORK → ∀ r, (k.tasks.slot self).pml4 = some r → ¬ ForkFallsShort k r frames) ∧
        (regs.rax = SYS_WAIT → CollectsNobody k.tasks self regs.rdi)
  | .resume => ∀ self childId, k.tasks.currentTask = some self → k.tasks.control self = .inWait childId →
      CollectsNobody k.tasks self childId
  | _ => True

/-- Where a task goes on says nothing about memory. -/
theorem Conserves.resumeAt (conserves : Conserves boot k k' free rest) (self : Slot) (c : Control) :
    Conserves boot k { k' with tasks := k'.tasks.resumeAt self c } free rest := by
  obtain ⟨after, kept, taken⟩ := conserves
  exact ⟨⟨after.forest, after.slots, after.kernel, after.upper, after.inSpace⟩, kept, taken⟩

end HobbyKernel.LiveFrames
