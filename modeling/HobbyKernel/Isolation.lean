import HobbyKernel.ElfProofs
import HobbyKernel.TaskInvariant

/-! Who owns which frame while the system runs. Every task owns its lower-half
tables and pages and its kernel stack, the kernel owns the tables it booted
with, and the rest is free or lost; the upper half of every address space is
the kernel's. -/
namespace HobbyKernel.Isolation
open TaskTable AddressBits PageAllocProofs WalkProofs CopyProofs AddressSpaces UaccessProofs UserAccess SpaceEvolution
open PageWrites Radix

/-- The table frames the processor can meet on a walk from a root: the root is
at level 3, and an entry that maps a large page names no table. -/
inductive Table (mem : PhysMem) (root : Frame) : Nat → Frame → Prop where
  | top : Table mem root 3 root
  | entry {level : Nat} {t : Frame} (table : Table mem root (level + 1) t) (i : Index)
      (isPresent : Cpu.isPresent (mem t i) = true) (small : Cpu.pageSize (mem t i) = false) :
      Table mem root level (Cpu.addressOf (mem t i))

/-- Owners of frames beside the lower halves of address spaces. -/
inductive Holder where
  | kstack (t : Slot)
  | kernel

def holds (mem₀ : PhysMem) (boot : Frame) (T : TaskTable) : Holder → Frame → Prop
  | .kstack t, f => ∃ base, (T.slot t).kstack = some base ∧ f = frameOf base
  | .kernel, f => ∃ level, Table mem₀ boot level f

def spaces (T : TaskTable) (t : Slot) : Option Frame := (T.slot t).pml4

/-- A task has an address space and a kernel stack; an unused slot has none. -/
structure SlotMemory (task : Task) : Prop where
  unused : task.state = .unused → task.pml4 = none ∧ task.kstack = none
  used : task.state ≠ .unused → ∃ r pp, task.pml4 = some r ∧ r < 2 ^ 40 ∧ pp < 2 ^ 40 ∧
    task.kstack = some (page2pa pp) ∧ task.kstackTop = some (page2pa pp + 4096)

/-- The address space in use is the kernel's own until the first task runs, and
the current task's from then on. -/
def InSpace (boot : Frame) (k : Kernel) : Prop :=
  (k.tasks.currentTask = none ∧ getCurrentPml4 k.cr3 = boot) ∨
    ∃ t, k.tasks.currentTask = some t ∧ (k.tasks.slot t).pml4 = some (getCurrentPml4 k.cr3)

/-- No frame has two owners, in a system that booted with the tables under
`boot` in memory `mem₀`. -/
structure Isolated (mem₀ : PhysMem) (boot : Frame) (k : Kernel) (free : List Nat) : Prop where
  forest : Forest (spaces k.tasks) (holds mem₀ boot k.tasks) 4 k.phys free
  slots : ∀ t, SlotMemory (k.tasks.slot t)
  kernel : ∀ level f, Table mem₀ boot level f → k.phys.mem f = mem₀ f
  upper : ∀ t r j, (k.tasks.slot t).pml4 = some r → ¬ Lower j → k.phys.mem r j = mem₀ boot j
  inSpace : InSpace boot k

/-- Accesses that were permitted in an address space stay permitted. -/
def AccessKept (k k' : Kernel) : Prop :=
  ∀ t r va needWrite, (k.tasks.slot t).pml4 = some r → (k'.tasks.slot t).pml4 = some r →
    Lower (subscript (pml4Index va)) → permits (leafEntry k.phys r va) needWrite = true →
    permits (leafEntry k'.phys r va) needWrite = true

/-- The tables and pages of a task are as they were. -/
def Spared (k k' : Kernel) (t : Slot) : Prop :=
  ∀ path f, Node (layout Lower) k.phys.mem (spaces k.tasks) 4 t path f → k'.phys.mem f = k.phys.mem f

/-- A step keeps the ownership of frames, takes no access away, and writes to
the memory of certain tasks only. -/
structure Secure (mem₀ : PhysMem) (boot : Frame) (written : Slot → Prop) (k k' : Kernel) : Prop where
  isolated : ∃ free, Isolated mem₀ boot k' free
  access : AccessKept k k'
  spared : ∀ t, ¬ written t → Spared k k' t

/-- Every slot keeps its memory, and stays in use or unused. -/
def Keeps (T T' : TaskTable) : Prop :=
  ∀ t, (T'.slot t).pml4 = (T.slot t).pml4 ∧ (T'.slot t).kstack = (T.slot t).kstack ∧
    (T'.slot t).kstackTop = (T.slot t).kstackTop ∧ ((T'.slot t).state = .unused ↔ (T.slot t).state = .unused)

/-- Every slot keeps its memory, or gives it up. -/
def Shrinks (T T' : TaskTable) : Prop :=
  ∀ t, ((T'.slot t).pml4 = (T.slot t).pml4 ∧ (T'.slot t).kstack = (T.slot t).kstack ∧
      (T'.slot t).kstackTop = (T.slot t).kstackTop ∧
      ((T'.slot t).state = .unused ↔ (T.slot t).state = .unused)) ∨
    ((T'.slot t).state = .unused ∧ (T'.slot t).pml4 = none ∧ (T'.slot t).kstack = none)

/-- The processor stays in its address space, or moves to that of a new
current task. -/
def Follows (k k' : Kernel) : Prop :=
  (k'.tasks.currentTask = k.tasks.currentTask ∧ getCurrentPml4 k'.cr3 = getCurrentPml4 k.cr3) ∨
    ∃ next, k'.tasks.currentTask = some next ∧ ∀ r, (k'.tasks.slot next).pml4 = some r → k'.cr3 = pml4Phys r

variable {mem₀ : PhysMem} {boot : Frame} {k k' : Kernel} {free rest : List Nat} {T T' : TaskTable} {t : Slot}
  {r f : Frame} {written written' : Slot → Prop}

theorem Secure.mono (secure : Secure mem₀ boot written k k') (wider : ∀ t, written t → written' t) :
    Secure mem₀ boot written' k k' :=
  ⟨secure.isolated, secure.access, fun t unwritten => secure.spared t fun isWritten => unwritten (wider t isWritten)⟩

theorem getCurrentPml4_pml4Phys {r : Nat} (small : r < 2 ^ 40) : getCurrentPml4 (pml4Phys r) = r := by
  have value : (pml4Phys r).toNat = 4096 * r := by
    rw [pml4Phys, BitVec.toNat_ofNat]
    omega
  have masked := addr_mask_toNat (pml4Phys r)
  have quotient : (pml4Phys r &&& PTE_ADDR_MASK).toNat / 4096 = r := by omega
  exact quotient

theorem getCurrentPml4_lt (cr3 : U64) : getCurrentPml4 cr3 < 2 ^ 40 := by
  have masked := addr_mask_toNat cr3
  have quotient : (cr3 &&& PTE_ADDR_MASK).toNat / 4096 < 2 ^ 40 := by omega
  exact quotient

theorem Keeps.refl (T : TaskTable) : Keeps T T := fun _ => ⟨rfl, rfl, rfl, Iff.rfl⟩

theorem Keeps.modify {f : Task → Task} (pml4 : (f (T.slot t)).pml4 = (T.slot t).pml4)
    (kstack : (f (T.slot t)).kstack = (T.slot t).kstack) (kstackTop : (f (T.slot t)).kstackTop = (T.slot t).kstackTop)
    (used : (f (T.slot t)).state = .unused ↔ (T.slot t).state = .unused) : Keeps T (T.modify t f) := by
  intro u
  by_cases isT : u = t
  · subst isT
    rw [modify_slot_same]
    exact ⟨pml4, kstack, kstackTop, used⟩
  · rw [modify_slot_other isT]
    exact ⟨rfl, rfl, rfl, Iff.rfl⟩

theorem Keeps.trans {T'' : TaskTable} (first : Keeps T T') (second : Keeps T' T'') : Keeps T T'' := by
  intro t
  obtain ⟨pml4, kstack, kstackTop, unused⟩ := second t
  rw [pml4, kstack, kstackTop, unused]
  exact first t

theorem Keeps.shrinks (keeps : Keeps T T') : Shrinks T T' := fun t => .inl (keeps t)

theorem Shrinks.refl (T : TaskTable) : Shrinks T T := (Keeps.refl T).shrinks

theorem Shrinks.roots (shrinks : Shrinks T T') (t : Slot) (r : Frame) (isRoot : spaces T' t = some r) :
    spaces T t = some r := by
  rcases shrinks t with ⟨pml4, _⟩ | ⟨_, gone, _⟩
  · rw [spaces, ← pml4]
    exact isRoot
  · rw [spaces, gone] at isRoot
    cases isRoot

theorem Shrinks.held (shrinks : Shrinks T T') (i : Holder) (f : Frame) (held : holds mem₀ boot T' i f) :
    holds mem₀ boot T i f := by
  cases i with
  | kernel => exact held
  | kstack t =>
    obtain ⟨base, isBase, inside⟩ := held
    rcases shrinks t with ⟨_, kstack, _⟩ | ⟨_, _, gone⟩
    · exact ⟨base, kstack ▸ isBase, inside⟩
    · rw [gone] at isBase
      cases isBase

theorem Shrinks.memory (shrinks : Shrinks T T') (slots : ∀ t, SlotMemory (T.slot t)) (t : Slot) :
    SlotMemory (T'.slot t) := by
  rcases shrinks t with ⟨pml4, kstack, kstackTop, unused⟩ | ⟨unused, pml4, kstack⟩
  · have before := slots t
    refine ⟨fun isUnused => ?_, fun used => ?_⟩
    · rw [pml4, kstack]
      exact before.unused (unused.mp isUnused)
    · rw [pml4, kstack, kstackTop]
      exact before.used (fun isUnused => used (unused.mpr isUnused))
  · exact ⟨fun _ => ⟨pml4, kstack⟩, fun used => absurd unused used⟩

/-- The frames of the kernel's tables are nobody else's, and not free. -/
theorem Isolated.kernel_apart (iso : Isolated mem₀ boot k free) {level : Nat} (table : Table mem₀ boot level f) :
    f ∉ free ∧ ∀ t path, ¬ Node (layout Lower) k.phys.mem (spaces k.tasks) 4 t path f := by
  refine ⟨iso.forest.exclusive.unfree (.other .kernel) f ⟨level, table⟩, fun t path node => ?_⟩
  have same := iso.forest.exclusive.unique (.node t path) (.other .kernel) f node ⟨level, table⟩
  cases same

/-- Who is current afterwards runs in his own address space. -/
theorem Follows.inSpace (follows : Follows k k') (iso : Isolated mem₀ boot k free)
    (slots : ∀ t, SlotMemory (k'.tasks.slot t))
    (used : ∀ t, k'.tasks.currentTask = some t → (k'.tasks.slot t).state ≠ .unused)
    (kept : ∀ t, (k'.tasks.slot t).state ≠ .unused → (k'.tasks.slot t).pml4 = (k.tasks.slot t).pml4) :
    InSpace boot k' := by
  rcases follows with ⟨current, cr3⟩ | ⟨next, current, switched⟩
  · rcases iso.inSpace with ⟨nobody, isBoot⟩ | ⟨t, isCurrent, isSpace⟩
    · exact .inl ⟨current.trans nobody, cr3.trans isBoot⟩
    · have isCurrent' := current.trans isCurrent
      exact .inr ⟨t, isCurrent', by rw [kept t (used t isCurrent'), cr3]; exact isSpace⟩
  · obtain ⟨r, _, isSpace, small, _⟩ := (slots next).used (used next current)
    refine .inr ⟨next, current, ?_⟩
    rw [switched r isSpace, getCurrentPml4_pml4Phys small]
    exact isSpace

/-- Writes to the tasks' own frames leave the kernel's tables and the upper
halves alone; some of the tasks may end. -/
theorem Isolated.transport (iso : Isolated mem₀ boot k free)
    (forest : Forest (spaces k.tasks) (holds mem₀ boot k.tasks) 4 k'.phys rest)
    (frame : ∀ f i, k'.phys.mem f i ≠ k.phys.mem f i → f ∈ free ∨
      (∃ t path, Node (layout Lower) k.phys.mem (spaces k.tasks) 4 t path f ∧ (layout Lower).Admitted (path ++ [i])) ∨
      ∃ t, holds mem₀ boot k.tasks (.kstack t) f)
    (shrinks : Shrinks k.tasks k'.tasks) (follows : Follows k k')
    (used : ∀ t, k'.tasks.currentTask = some t → (k'.tasks.slot t).state ≠ .unused) :
    Isolated mem₀ boot k' rest := by
  have slots := shrinks.memory iso.slots
  have kept : ∀ t, (k'.tasks.slot t).state ≠ .unused → (k'.tasks.slot t).pml4 = (k.tasks.slot t).pml4 := by
    intro t isUsed
    rcases shrinks t with ⟨pml4, _⟩ | ⟨unused, _⟩
    · exact pml4
    · exact absurd unused isUsed
  refine ⟨forest.shrink shrinks.roots shrinks.held, slots, fun level f table => ?_,
    fun t r j isSpace notLower => ?_, follows.inSpace iso slots used kept⟩
  · rw [← iso.kernel level f table]
    funext i
    by_contra changed
    obtain ⟨notFree, noNode⟩ := iso.kernel_apart table
    rcases frame f i changed with isFree | ⟨t, path, node, _⟩ | ⟨t, isStack⟩
    · exact notFree isFree
    · exact noNode t path node
    · have same := iso.forest.exclusive.unique (.other (.kstack t)) (.other .kernel) f isStack ⟨level, table⟩
      cases same
  · have isRoot := shrinks.roots t r isSpace
    rw [← iso.upper t r j isRoot notLower]
    by_contra changed
    have top : Node (layout Lower) k.phys.mem (spaces k.tasks) 4 t [] r :=
      ⟨by simp, by simp [Layout.Admitted], r, isRoot, rfl⟩
    rcases frame r j changed with isFree | ⟨u, path, node, admitted⟩ | ⟨u, isStack⟩
    · exact iso.forest.exclusive.node_unfree top isFree
    · obtain ⟨_, isTop⟩ := iso.forest.exclusive.node_unique top node
      subst isTop
      exact notLower (admitted j rfl)
    · have same := iso.forest.exclusive.unique (.node t []) (.other (.kstack u)) r top isStack
      cases same

/-- Frames that were not free keep what is in them. -/
theorem Isolated.spared_outside (iso : Isolated mem₀ boot k free) (outside : ∀ f, f ∉ free → k'.phys.mem f = k.phys.mem f)
    (t : Slot) : Spared k k' t :=
  fun _ f node => outside f (iso.forest.exclusive.node_unfree node)

/-- Memory evolves on behalf of one of the tasks there are. -/
theorem Isolated.evolve {owner : Slot} (iso : Isolated mem₀ boot k free)
    (evolves : Evolves (spaces k.tasks) (holds mem₀ boot k.tasks) owner k.phys k'.phys free rest)
    (shrinks : Shrinks k.tasks k'.tasks) (follows : Follows k k')
    (used : ∀ t, k'.tasks.currentTask = some t → (k'.tasks.slot t).state ≠ .unused) :
    Secure mem₀ boot (· = owner) k k' := by
  refine ⟨⟨rest, iso.transport evolves.forest (fun f i changed => ?_) shrinks follows used⟩,
    fun t r va w before _ lower permitted => evolves.access t r va w before lower permitted,
    fun t other path f node => ?_⟩
  · exact (evolves.frame f i changed).imp_right fun ⟨path, own⟩ => .inl ⟨owner, path, own⟩
  · funext i
    by_contra changed
    rcases evolves.frame f i changed with isFree | ⟨path', node', _⟩
    · exact iso.forest.exclusive.node_unfree node isFree
    · exact other (iso.forest.exclusive.node_unique node node').1

/-- A kernel stack is neither a table nor a page of anybody. -/
theorem Isolated.stack_ne_node (iso : Isolated mem₀ boot k free) (isStack : holds mem₀ boot k.tasks (.kstack t) f)
    {u : Slot} {path : List Index} {g : Frame}
    (node : Node (layout Lower) k.phys.mem (spaces k.tasks) 4 u path g) : g ≠ f := by
  rintro rfl
  have same := iso.forest.exclusive.unique (.node u path) (.other (.kstack t)) g node isStack
  cases same

/-- The kernel stack of a task is written. -/
theorem Isolated.writeStack (iso : Isolated mem₀ boot k free) (isStack : holds mem₀ boot k.tasks (.kstack t) f)
    (confined : Confined f k.phys k'.phys) (shrinks : Shrinks k.tasks k'.tasks) (follows : Follows k k')
    (used : ∀ t, k'.tasks.currentTask = some t → (k'.tasks.slot t).state ≠ .unused) :
    Secure mem₀ boot (fun _ => False) k k' := by
  have same : ∀ u path g, Node (layout Lower) k.phys.mem (spaces k.tasks) 3 u path g →
      k'.phys.mem g = k.phys.mem g :=
    fun u path g table => confined.elsewhere g (iso.stack_ne_node isStack (table.mono (by decide)))
  refine ⟨⟨free, iso.transport (iso.forest.contents (confined.list iso.forest.list) same) (fun g i changed => ?_)
    shrinks follows used⟩, fun u r va w before _ lower permitted => ?_,
    fun u _ path g node => confined.elsewhere g (iso.stack_ne_node isStack node)⟩
  · have isF : g = f := by
      by_contra other
      exact changed (by rw [confined.elsewhere g other])
    exact .inr (.inr ⟨t, isF ▸ isStack⟩)
  · have isRoot : spaces k.tasks u = some r := before
    rwa [leafEntry_frame isRoot lower (same u)]

/-- A task is made: its address space and its kernel stack come from the free
list, and its slot was unused. -/
theorem Isolated.spawn {upper : Index → U64} {child : Frame} {s₁ s₂ : Phys} {pp : Nat}
    (iso : Isolated mem₀ boot k free) (building : Building upper k.phys free child s₁ (pp :: rest))
    (kernelHalf : ∀ j, ¬ Lower j → upper j = mem₀ boot j) (list : FreeList s₂ rest)
    (elsewhere : ∀ g, g ≠ pp → s₂.mem g = s₁.mem g) (confined : Confined pp s₂ k'.phys)
    (unused : (k.tasks.slot t).state = .unused) (others : ∀ u, u ≠ t → k'.tasks.slot u = k.tasks.slot u)
    (used : (k'.tasks.slot t).state ≠ .unused) (pml4 : (k'.tasks.slot t).pml4 = some child)
    (kstack : (k'.tasks.slot t).kstack = some (page2pa pp))
    (kstackTop : (k'.tasks.slot t).kstackTop = some (page2pa pp + 4096))
    (current : k'.tasks.currentTask = k.tasks.currentTask) (cr3 : k'.cr3 = k.cr3) :
    Secure mem₀ boot (fun _ => False) k k' := by
  have childFree : child ∈ free := building.node_mem building.root
  have ppFree : pp ∈ free := building.suffix.subset List.mem_cons_self
  have ppSmall := iso.forest.list.small pp ppFree
  have outside : ∀ f, f ∉ free → k'.phys.mem f = k.phys.mem f := by
    intro f notFree
    have other : f ≠ pp := fun isPp => notFree (isPp ▸ ppFree)
    rw [confined.elsewhere f other, elsewhere f other, building.outside f notFree]
  have noSpace : (k.tasks.slot t).pml4 = none := ((iso.slots t).unused unused).1
  have joined : Forest (spaces k'.tasks) (holds mem₀ boot k.tasks) 4 s₁ (pp :: rest) := by
    refine iso.forest.join (k := t) (by decide : 1 ≤ 2 ∧ 2 ≤ 2) building pml4 (fun u other => ?_)
    rw [spaces, others u other]
    rfl
  have isStack : holds mem₀ boot k'.tasks (.kstack t) pp := ⟨_, kstack, (frameOf_page2pa ppSmall).symm⟩
  have held : Forest (spaces k'.tasks) (holds mem₀ boot k'.tasks) 4 s₂ rest := by
    refine joined.hold (by decide : 1 ≤ 2) list elsewhere (.kstack t) (fun i f owned => ?_)
    cases i with
    | kernel => exact .inl owned
    | kstack u =>
      obtain ⟨base, isBase, isFrame⟩ := owned
      by_cases isT : u = t
      · subst isT
        rw [kstack] at isBase
        cases isBase
        exact .inr ⟨rfl, isFrame.trans (frameOf_page2pa ppSmall)⟩
      · rw [others u isT] at isBase
        exact .inl ⟨base, isBase, isFrame⟩
  have forest : Forest (spaces k'.tasks) (holds mem₀ boot k'.tasks) 4 k'.phys rest := by
    refine held.contents (confined.list list) (fun u path g table => confined.elsewhere g ?_)
    rintro rfl
    have same := held.exclusive.unique (.node u path) (.other (.kstack t)) g (table.mono (by decide)) isStack
    cases same
  refine ⟨⟨rest, forest, fun u => ?_, fun level f table => ?_, fun u r j isSpace notLower => ?_, ?_⟩,
    fun u r va w before _ lower permitted => ?_, fun u _ => iso.spared_outside outside u⟩
  · by_cases isT : u = t
    · subst isT
      exact ⟨fun isUnused => absurd isUnused used,
        fun _ => ⟨child, pp, pml4, iso.forest.list.small child childFree, ppSmall, kstack, kstackTop⟩⟩
    · rw [others u isT]
      exact iso.slots u
  · rw [outside f (iso.kernel_apart table).1, iso.kernel level f table]
  · by_cases isT : u = t
    · subst isT
      rw [pml4] at isSpace
      cases isSpace
      have other : child ≠ pp := fun isPp => building.exclusive.node_unfree building.root (isPp ▸ List.mem_cons_self)
      rw [confined.elsewhere child other, elsewhere child other, building.kernelHalf j notLower, kernelHalf j notLower]
    · rw [others u isT] at isSpace
      rw [outside r (iso.forest.root_unfree (k := u) isSpace), iso.upper u r j isSpace notLower]
  · rcases iso.inSpace with ⟨nobody, isBoot⟩ | ⟨u, isCurrent, isSpace⟩
    · exact .inl ⟨current.trans nobody, by rw [cr3]; exact isBoot⟩
    · have other : u ≠ t := by
        rintro rfl
        rw [noSpace] at isSpace
        cases isSpace
      exact .inr ⟨u, current.trans isCurrent, by rw [others u other, cr3]; exact isSpace⟩
  · have isRoot : spaces k.tasks u = some r := before
    rwa [leafEntry_frame isRoot lower fun path g table =>
      outside g (iso.forest.exclusive.node_unfree (table.mono (by decide)))]

/-- A construction that was given up only wrote to free frames. -/
theorem Isolated.abandon {upper : Index → U64} {child : Frame} (iso : Isolated mem₀ boot k free)
    (building : Building upper k.phys free child k'.phys rest) (tasks : k'.tasks = k.tasks) (cr3 : k'.cr3 = k.cr3)
    (used : ∀ t, k.tasks.currentTask = some t → (k.tasks.slot t).state ≠ .unused) :
    Secure mem₀ boot (fun _ => False) k k' := by
  have retouched : Evolves (spaces k.tasks) (holds mem₀ boot k.tasks) 0 k.phys k'.phys free rest :=
    retouch_evolves iso.forest building.list (fun _ member => building.suffix.subset member) building.outside
  have secure := iso.evolve retouched (by rw [tasks]; exact .refl _) (.inl ⟨by rw [tasks], by rw [cr3]⟩)
    (by rw [tasks]; exact used)
  exact ⟨secure.isolated, secure.access, fun t _ => iso.spared_outside building.outside t⟩

/-- Memory stayed as it was. -/
theorem Isolated.still (iso : Isolated mem₀ boot k free) (phys : k'.phys = k.phys) (shrinks : Shrinks k.tasks k'.tasks)
    (follows : Follows k k') (used : ∀ t, k'.tasks.currentTask = some t → (k'.tasks.slot t).state ≠ .unused) :
    Secure mem₀ boot (fun _ => False) k k' := by
  have still : Evolves (spaces k.tasks) (holds mem₀ boot k.tasks) 0 k.phys k'.phys free free := by
    rw [phys]
    exact .refl iso.forest
  have secure := iso.evolve still shrinks follows used
  exact ⟨secure.isolated, secure.access, fun _ _ _ _ _ => by rw [phys]⟩

/-- Nothing happened to memory or to the tasks. -/
theorem Isolated.idle (iso : Isolated mem₀ boot k free) (phys : k'.phys = k.phys) (tasks : k'.tasks = k.tasks)
    (cr3 : k'.cr3 = k.cr3) (used : ∀ t, k.tasks.currentTask = some t → (k.tasks.slot t).state ≠ .unused) :
    Secure mem₀ boot (fun _ => False) k k' := by
  refine iso.still phys ?_ (.inl ⟨by rw [tasks], by rw [cr3]⟩) ?_
  · rw [tasks]
    exact .refl _
  · rw [tasks]
    exact used

/-- The address space in use has the kernel's upper half and is not free. -/
theorem Isolated.current_upper (iso : Isolated mem₀ boot k free) :
    getCurrentPml4 k.cr3 ∉ free ∧ ∀ j, ¬ Lower j → k.phys.mem (getCurrentPml4 k.cr3) j = mem₀ boot j := by
  rcases iso.inSpace with ⟨_, isBoot⟩ | ⟨t, _, isSpace⟩
  · rw [isBoot]
    exact ⟨(iso.kernel_apart .top).1, fun j _ => congrFun (iso.kernel 3 boot .top) j⟩
  · exact ⟨iso.forest.root_unfree (k := t) isSpace, fun j => iso.upper t _ j isSpace⟩

end HobbyKernel.Isolation
