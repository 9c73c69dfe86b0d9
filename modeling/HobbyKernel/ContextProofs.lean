import HobbyKernel.ContextInvariant
import HobbyKernel.SwitchProofs

/-! The processor always works for the current task. `current_task`, `cr3`,
`rsp0` and the stack pointer are set in different places; after every step they
are those of one task. -/
namespace HobbyKernel.ContextProofs
open AddressBits PageAllocProofs PageWrites TaskTable TaskEffects TaskInvariant Isolation IsolationSteps FrameSupply
open ContextInvariant StackWords SwitchProofs Runs

variable {p p' : Processor} {k k' : Kernel} {T T' : TaskTable} {t u self : Slot} {a : Action} {s : Phys}
  {events : List Event} {free rest : List Nat} {boot r : Frame} {sp : U64}

/-- The saved stack pointer of a task has a whole context above it, on the
task's own stack. -/
def HasContext (task : Task) : Prop :=
  ∃ pp, task.kstackTop = some (page2pa pp + 4096) ∧ InFrame pp task.contextRsp 7

/-- Every task that was given a context has one. -/
def Contexts (T : TaskTable) : Prop :=
  ∀ t, (T.slot t).state ≠ .unused → T.control t ≠ .fresh → HasContext (T.slot t)

/-- The saved stack pointers and the tasks without one stay as they are. -/
def SameContexts (T T' : TaskTable) : Prop :=
  ∀ t, (T'.slot t).state ≠ .unused →
    (T'.slot t).contextRsp = (T.slot t).contextRsp ∧ (T'.control t = .fresh ↔ T.control t = .fresh)

theorem SameContexts.refl (T : TaskTable) : SameContexts T T := fun _ _ => ⟨rfl, Iff.rfl⟩

theorem sameContexts_modify {f : Task → Task} (same : (f (T.slot t)).contextRsp = (T.slot t).contextRsp) :
    SameContexts T (T.modify t f) := by
  intro u _
  by_cases isT : u = t
  · subst isT
    rw [modify_slot_same]
    exact ⟨same, Iff.rfl⟩
  · rw [modify_slot_other isT]
    exact ⟨rfl, Iff.rfl⟩

theorem SameContexts.resumeAt {c : Control} (same : SameContexts T T') (was : T.control t ≠ .fresh) (notFresh : c ≠ .fresh) :
    SameContexts T (T'.resumeAt t c) := by
  intro u used
  obtain ⟨saved, fresh⟩ := same u used
  refine ⟨saved, ?_⟩
  by_cases isT : u = t
  · subst isT
    rw [resumeAt_control_same]
    exact iff_of_false notFresh was
  · rw [resumeAt_control_other isT]
    exact fresh

theorem SameContexts.switchTo (same : SameContexts T T') (used : (T'.slot t).state ≠ .unused) :
    SameContexts T (T'.switchTo t) := by
  intro u used'
  by_cases isT : u = t
  · subst isT
    rw [switchTo_slot_same]
    exact same u used
  · rw [switchTo_slot_other isT] at used' ⊢
    exact same u used'

/-- Effects other than making or preparing a task leave the contexts alone. -/
theorem effect_contexts (table : TableInv T) (effect : Effect s T a events T') (none : MakesNone a)
    (notPrepare : ∀ t entry top, a ≠ .prepare t entry top) : SameContexts T T' := by
  have awake : ∀ {self childId}, T.control self = .user ∨ T.control self = .inWait childId → T.control self ≠ .fresh := by
    rintro self childId (user | waiting)
    · simp [user]
    · simp [waiting]
  cases effect with
  | quiet => exact .refl T
  | returned => exact .refl T
  | start => exact .refl T
  | create => exact absurd rfl none.1
  | createKernel entry => exact absurd rfl (none.2.1 entry)
  | fork regs _ _ _ _ _ isFork => exact absurd isFork (none.2.2 regs rfl)
  | prepare t entry top => exact absurd rfl (notPrepare t entry top)
  | destroy t _ used =>
    intro u used'
    by_cases isT : u = t
    · subst isT
      rw [taskDestroy_slot_same used] at used'
      exact absurd rfl used'
    · rw [taskDestroy_slot_other isT, taskDestroy_control]
      exact ⟨rfl, Iff.rfl⟩
  | @reap self child _ _ _ inside _ dead =>
    have used : (T.slot child).state ≠ .unused := by rw [dead]; decide
    refine SameContexts.resumeAt (fun u used' => ?_) (awake inside) (by decide)
    by_cases isT : u = child
    · subst isT
      rw [taskDestroy_slot_same used] at used'
      exact absurd rfl used'
    · rw [taskDestroy_slot_other isT, taskDestroy_control]
      exact ⟨rfl, Iff.rfl⟩
  | deliver => exact sameContexts_modify rfl
  | @collect _ sender _ _ value =>
    have measured : SameContexts T (T.modify sender fun task => { task with ipcLen := value }) := sameContexts_modify rfl
    intro u used
    by_cases isSender : u = sender
    · subst isSender
      simp only [taskWake, modify_slot_same, modify_control]
      exact ⟨trivial, trivial⟩
    · rw [taskWake, modify_slot_other isSender] at used ⊢
      exact measured u used
  | blockAlone => exact sameContexts_modify rfl
  | @spin self peer _ _ inside =>
    have blocked : SameContexts T (T.block self .onWait peer 0 0) := sameContexts_modify rfl
    exact blocked.resumeAt (awake inside) (by simp)
  | @blockSwitch self next reason peer buf len resume _ current inside cause other picked =>
    have blocked : SameContexts T (T.block self reason peer buf len) := sameContexts_modify rfl
    have runnable := picked_runnable (T := TaskTable.block ..) table.noIdle picked other
    have notFresh : resume ≠ .fresh := by cases cause <;> simp
    refine (blocked.resumeAt ?_ notFresh).switchTo ?_
    · rcases inside with user | ⟨_, waiting⟩
      · simp [user]
      · rw [waiting]
        exact notFresh
    · rw [resumeAt_slot, runnable]
      decide
  | @exit self waiter _ code _ user waits =>
    have exited : SameContexts T (T.exit self code) := (sameContexts_modify rfl).resumeAt (by simp [user]) (by decide)
    simp only [awaitsChild, Bool.and_eq_true, decide_eq_true_eq] at waits
    intro u used
    by_cases isWaiter : u = waiter
    · subst isWaiter
      simp only [taskWake, modify_slot_same]
      exact exited u (by rw [waits.1.1.1]; decide)
    · rw [taskWake, modify_slot_other isWaiter] at used ⊢
      exact exited u used
  | exitUnseen _ _ _ user => exact (sameContexts_modify rfl).resumeAt (by simp [user]) (by decide)
  | childless _ _ inside => exact (SameContexts.refl T).resumeAt (awake inside) (by decide)
  | resumed _ inside =>
    refine (SameContexts.refl T).resumeAt ?_ (by decide)
    rcases inside with sends | receives
    · simp [sends]
    · simp [receives]
  | @switch prev next current _ picked other =>
    have runnable := picked_runnable table.noIdle picked other
    have preempted : SameContexts T (T.preempt prev) := by
      unfold TaskTable.preempt
      split
      · exact sameContexts_modify rfl
      · exact .refl T
    refine preempted.switchTo ?_
    rw [WaitProofs.preempt_slot_other other, runnable]
    decide

theorem Contexts.keep (contexts : Contexts T) (same : SameContexts T T') (shrinks : Shrinks T T') : Contexts T' := by
  intro t used notFresh
  obtain ⟨saved, fresh⟩ := same t used
  rcases shrinks t with ⟨_, _, kstackTop, unused⟩ | ⟨unused, _⟩
  · obtain ⟨pp, isTop, inside⟩ := contexts t (fun was => used (unused.mpr was)) (fun isFresh => notFresh (fresh.mpr isFresh))
    exact ⟨pp, kstackTop.trans isTop, saved ▸ inside⟩
  · exact absurd unused used

/-- A task that is made has no context, or one that was built for it. -/
theorem Contexts.spawn {task : Task} {c : Control} (contexts : Contexts T) (built : c ≠ .fresh → HasContext task) :
    Contexts (T.spawn t task c) := by
  intro u used notFresh
  by_cases isT : u = t
  · subst isT
    rw [spawn_control_same] at notFresh
    rw [spawn_slot_same]
    exact built notFresh
  · rw [spawn_slot_other isT] at used ⊢
    rw [spawn_control_other isT] at notFresh
    exact contexts u used notFresh

theorem hasContext_of_frame {task : Task} {p : Nat} (isTop : task.kstackTop = some (page2pa p + 4096)) (small : p < 2 ^ 40)
    (saved : task.contextRsp = page2pa p + 4096 - 8 - 48 ∨
      task.contextRsp = page2pa p + 4096 - SIZEOF_SYSCALL_REGS - 8 - 48) : HasContext task := by
  obtain ⟨high, low⟩ := frame_below small
  rcases saved with isHigh | isLow
  · exact ⟨p, isTop, isHigh ▸ high⟩
  · exact ⟨p, isTop, isLow ▸ low⟩

/-- What `task_create_kernel` leaves of the saved stack pointer. -/
theorem taskCreateKernel_saved {entry : U64} (made : taskCreateKernel k entry = (k', some t)) :
    ∃ top, (k'.tasks.slot t).kstackTop = some top ∧ (k'.tasks.slot t).contextRsp = top - 8 - 48 := by
  unfold taskCreateKernel at made
  split at made
  · cases made
  · rename_i T t' _
    rcases taskKstackAlloc_cases { k with tasks := T } t' with ⟨s, failed⟩ | ⟨s, base, took⟩
    · rw [failed] at made
      cases made
    · rw [took] at made
      simp only [taskStackInit, modify_slot_same] at made
      cases made
      exact ⟨base + 4096, by simp, by simp⟩

/-- A slot that was filled has a context if its saved stack pointer is where
the builders leave it. -/
theorem contexts_of_creation {c : Control} {parentId : U64} (places : Places boot k' rest) (contexts : Contexts k.tasks)
    (creation : Creation k.tasks c parentId k'.tasks (some t))
    (saved : c ≠ .fresh → ∃ top, (k'.tasks.slot t).kstackTop = some top ∧
      ((k'.tasks.slot t).contextRsp = top - 8 - 48 ∨ (k'.tasks.slot t).contextRsp = top - SIZEOF_SYSCALL_REGS - 8 - 48)) :
    Contexts k'.tasks := by
  obtain ⟨task, _, made, _, filled⟩ := creation.spawned
  have new : k'.tasks.slot t = task := by rw [filled, spawn_slot_same]
  obtain ⟨pp, isTop, small, _⟩ := places.stack t (by rw [new, made.state]; decide)
  rw [filled]
  refine contexts.spawn fun notFresh => ?_
  obtain ⟨top, isTop', place⟩ := saved notFresh
  have sameTop := Option.some.inj (isTop.symm.trans isTop')
  rw [← sameTop] at place
  rw [new] at isTop place
  exact hasContext_of_frame isTop small place

theorem step_contexts (table : TableInv k.tasks) (places : Places boot k free) (contexts : Contexts k.tasks)
    (did : step k a = some (k', events)) : Contexts k'.tasks := by
  obtain ⟨rest, places'⟩ := step_places table places did
  have effect := step_effect table.clean (fun _ current => table.headNotCurrent current) did
  by_cases none : MakesNone a
  · have shrinks := effect_shrinks table effect none.1 none.2.1 none.2.2
    by_cases prepares : ∃ t entry top, a = .prepare t entry top
    · obtain ⟨t, entry, userStackTop, rfl⟩ := prepares
      simp only [step] at did
      split at did
      · rename_i ready
        cases did
        obtain ⟨pp, isTop, small, _⟩ := places.stack t (by rw [ready.1]; decide)
        simp only [taskPrepareUserEntry, isTop]
        intro u used notFresh
        by_cases isT : u = t
        · subst isT
          refine hasContext_of_frame (p := pp) ?_ small (.inr ?_)
          · simpa using isTop
          · simp
        · rw [resumeAt_slot, modify_slot_other isT] at used ⊢
          rw [resumeAt_control_other isT] at notFresh
          exact contexts u used notFresh
      · cases did
    · exact contexts.keep (effect_contexts table effect none fun t entry top same => prepares ⟨t, entry, top, same⟩) shrinks
  · cases a with
    | create =>
      cases did
      have creation := taskCreate_creation table.clean
      cases made : (taskCreate k).2 with
      | none =>
        rw [made] at creation
        rw [creation.unchanged]
        exact contexts
      | some t =>
        rw [made] at creation
        exact contexts_of_creation places' contexts creation (fun notFresh => absurd rfl notFresh)
    | createKernel entry =>
      cases did
      have creation := taskCreateKernel_creation table.clean entry
      cases made : (taskCreateKernel k entry).2 with
      | none =>
        rw [made] at creation
        rw [creation.unchanged]
        exact contexts
      | some t =>
        rw [made] at creation
        refine contexts_of_creation places' contexts creation fun _ => ?_
        have result : taskCreateKernel k entry = ((taskCreateKernel k entry).1, some t) := by rw [← made]
        obtain ⟨top, isTop, saved⟩ := taskCreateKernel_saved result
        exact ⟨top, isTop, .inl saved⟩
    | syscall regs =>
      have isFork : regs.rax = SYS_FORK := by
        by_contra other
        exact none ⟨by simp, by simp, by simpa using other⟩
      obtain ⟨self, pml4, current, user, _, rfl⟩ := step_fork isFork did
      obtain ⟨rest', places''⟩ := taskFork_places places table self pml4 regs
      have creation := taskFork_creation table.clean (table.headNotCurrent current) pml4 regs
      have forked : Contexts (taskFork k self pml4 regs).1.tasks ∧
          (taskFork k self pml4 regs).1.tasks.control self = .user := by
        cases made : (taskFork k self pml4 regs).2 with
        | none =>
          rw [made] at creation
          rw [creation.unchanged]
          exact ⟨contexts, user⟩
        | some t =>
          rw [made] at creation
          constructor
          · refine contexts_of_creation places'' contexts creation fun _ => ?_
            have result : taskFork k self pml4 regs = ((taskFork k self pml4 regs).1, some t) := by rw [← made]
            obtain ⟨_, top, isTop, saved, _⟩ := taskFork_frame result
            exact ⟨top, isTop, .inr saved⟩
          · obtain ⟨task, free, _, _, filled⟩ := creation.spawned
            have other : self ≠ t := fun same => table.headNotCurrent current (same ▸ free)
            rw [filled, spawn_control_other other]
            exact user
      dsimp only
      rw [resumeAt_self forked.2]
      exact forked.1
    | destroy | elfLoad | mapStack | prepare | start | resume | tick | store => exact absurd (by simp [MakesNone]) none

/-- What the first half of a switch does to the kernel: the caller's registers
go to its stack, and its stack pointer to its slot. -/
theorem contextSave_kernel (p : Processor) (t : Slot) {f : Nat} (room : InFrame f (p.rsp - 48) 7) :
    ∃ s, Confined f p.kernel.phys s ∧ (p.exec (contextSave t)).kernel = { p.kernel with
      phys := s
      tasks := p.kernel.tasks.modify t fun task => { task with contextRsp := p.rsp - 48 } } := by
  have split : p.exec (contextSave t) = Instr.exec (pushAll p (calleeSaved.map p.reg)) (.saveRsp t 32) := rfl
  have six : BitVec.ofNat 64 (8 * (calleeSaved.map p.reg).length) = 48 := rfl
  obtain ⟨shape, confined, _⟩ := pushAll_spec (p := p) (n := 1) (calleeSaved.map p.reg) (by
    rw [six]
    exact room)
  rw [six] at shape
  refine ⟨_, confined, ?_⟩
  rw [split, shape]
  rfl

theorem contextLoad_rsp (p : Processor) (t : Slot) :
    (p.exec (contextLoad t)).rsp = (p.kernel.tasks.slot t).contextRsp + 56 ∧ (p.exec (contextLoad t)).kernel = p.kernel := by
  refine ⟨?_, rfl⟩
  have offset : (p.kernel.tasks.slot t).wordAt 32 = (p.kernel.tasks.slot t).contextRsp := rfl
  simp [Processor.exec, contextLoad, Instr.exec, Processor.setReg, offset, BitVec.add_assoc]

/-- The word below an address inside a stack is on that stack. -/
theorem frame_of_inside {f : Nat} {phys : U64} (inside : InFrame f phys 7) :
    frameOf (phys + 56 - 8) = f ∧ frameOf (phys + 48 - 8) = f := by
  obtain ⟨aligned, low, high, small⟩ := inside
  have place : ∀ off : U64, off.toNat < 56 → frameOf (phys + off) = f := by
    intro off below
    have sum : (phys + off).toNat = phys.toNat + off.toNat := by
      rw [BitVec.toNat_add]
      omega
    have quotient : (phys + off).toNat / 4096 = f := by omega
    exact quotient
  constructor
  · rw [show phys + 56 - 8 = phys + 48 by simp only [BitVec.sub_eq_add_neg, BitVec.add_assoc]; rfl]
    exact place 48 (by decide)
  · rw [show phys + 48 - 8 = phys + 40 by simp only [BitVec.sub_eq_add_neg, BitVec.add_assoc]; rfl]
    exact place 40 (by decide)

/-- The kernel stack the stack pointer is on is that of the current task. -/
def OnOwnStack (p : Processor) : Prop :=
  ∀ self, p.kernel.tasks.currentTask = some self →
    ∃ pp, (p.kernel.tasks.slot self).kstackTop = some (page2pa pp + 4096) ∧ frameOf (p.rsp - 8) = pp

structure ProcessorInv (boot : Frame) (p : Processor) : Prop where
  table : TableInv p.kernel.tasks
  places : ∃ free, Places boot p.kernel free
  contexts : Contexts p.kernel.tasks
  stack : OnOwnStack p

/-- The kernel's code stays on the stack it runs on. -/
def StaysOnStack (p : Processor) (sp : U64) : Prop :=
  ∀ self, p.kernel.tasks.currentTask = some self → InFrame (p.stackInUse self) (sp - 48) 7

/-- The stack a step runs on is that of the current task, also when the step
comes from ring 3 and the processor takes it from the TSS. -/
theorem ProcessorInv.stackInUse (inv : ProcessorInv boot p) (current : p.kernel.tasks.currentTask = some self) :
    (p.kernel.tasks.slot self).kstackTop = some (page2pa (p.stackInUse self) + 4096) := by
  obtain ⟨free, places⟩ := inv.places
  obtain ⟨pp, isTop, here⟩ := inv.stack self current
  obtain ⟨pp', isTop', small, _⟩ := places.stack self (inv.table.currentUsed self current)
  unfold Processor.stackInUse
  split
  · rcases places.cpu with ⟨nobody, _⟩ | ⟨t, _, isCurrent, _, _, isRsp0⟩
    · rw [current] at nobody
      cases nobody
    · rw [current] at isCurrent
      obtain rfl := Option.some.inj isCurrent
      have sameTop := Option.some.inj (isTop'.symm.trans isRsp0)
      rw [isTop', ← sameTop]
      have base := page2pa_toNat small
      have below : (page2pa pp' + 4096 - 8).toNat = pp' * 4096 + 4088 := by
        rw [show page2pa pp' + 4096 - 8 = page2pa pp' + 4088 by
          simp only [BitVec.sub_eq_add_neg, BitVec.add_assoc]; rfl, BitVec.toNat_add, base,
          show (4088 : U64).toNat = 4088 from rfl]
        omega
      have quotient : (page2pa pp' + 4096 - 8).toNat / 4096 = pp' := by omega
      rw [show frameOf (page2pa pp' + 4096 - 8) = pp' from quotient]
  · rw [here]
    exact isTop

/-- Making a task leaves the tasks there are alone. -/
theorem creation_others {c : Control} {parentId : U64} {made : Option Slot} (table : TableInv T)
    (creation : Creation T c parentId T' made) (used : (T.slot t).state ≠ .unused) : T'.slot t = T.slot t := by
  cases creation with
  | failed => rfl
  | made head =>
    refine spawn_slot_other ?_
    rintro rfl
    exact used (table.headUnused head).1

/-- A task that stays keeps its stack. -/
theorem step_kstackTop (table : TableInv k.tasks) (did : step k a = some (k', events))
    (used : (k.tasks.slot t).state ≠ .unused) (used' : (k'.tasks.slot t).state ≠ .unused) :
    (k'.tasks.slot t).kstackTop = (k.tasks.slot t).kstackTop := by
  by_cases none : MakesNone a
  · have effect := step_effect table.clean (fun _ current => table.headNotCurrent current) did
    rcases effect_shrinks table effect none.1 none.2.1 none.2.2 t with ⟨_, _, same, _⟩ | ⟨unused, _⟩
    · exact same
    · exact absurd unused used'
  · cases a with
    | create =>
      cases did
      rw [creation_others table (taskCreate_creation table.clean) used]
    | createKernel entry =>
      cases did
      rw [creation_others table (taskCreateKernel_creation table.clean entry) used]
    | syscall regs =>
      have isFork : regs.rax = SYS_FORK := by
        by_contra other
        exact none ⟨by simp, by simp, by simpa using other⟩
      obtain ⟨self, pml4, current, _, _, rfl⟩ := step_fork isFork did
      have creation := taskFork_creation table.clean (table.headNotCurrent current) pml4 regs
      rw [resumeAt_slot, creation_others table creation used]
    | destroy | elfLoad | mapStack | prepare | start | resume | tick | store => exact absurd (by simp [MakesNone]) none

/-- The saved stack pointer is no part of the table's invariant. -/
theorem TableInv.save (table : TableInv T) (t : Slot) (rsp : U64) :
    TableInv (T.modify t fun task => { task with contextRsp := rsp }) := by
  have fields : ∀ u, ∃ rsp', (T.modify t fun task => { task with contextRsp := rsp }).slot u =
      { T.slot u with contextRsp := rsp' } := by
    intro u
    by_cases isT : u = t
    · subst isT
      exact ⟨rsp, modify_slot_same⟩
    · exact ⟨(T.slot u).contextRsp, modify_slot_other isT⟩
  refine ⟨table.free.congr rfl (fun u => ?_) (fun u => ?_), fun u => ?_, ?_, fun u current => ?_, table.noIdle⟩
  · obtain ⟨_, same⟩ := fields u
    rw [same]
  · obtain ⟨_, same⟩ := fields u
    rw [same]
  · obtain ⟨_, same⟩ := fields u
    have before := table.slots u
    rw [same]
    exact ⟨before.id, before.running, before.blocked, before.ready, before.unused, before.dead⟩
  · obtain ⟨_, same⟩ := fields 0
    rw [same]
    exact table.reserved
  · obtain ⟨_, same⟩ := fields u
    rw [same]
    exact table.currentUsed u current

/-- Writing to a stack and saving a stack pointer moves nobody. -/
theorem Places.save (places : Places boot k free) (t : Slot) (rsp : U64) {f : Nat} (confined : Confined f k.phys s) :
    Places boot { k with
      phys := s
      tasks := k.tasks.modify t fun task => { task with contextRsp := rsp } } free := by
  have fields : ∀ u, ((k.tasks.modify t fun task => { task with contextRsp := rsp }).slot u).state = (k.tasks.slot u).state ∧
      ((k.tasks.modify t fun task => { task with contextRsp := rsp }).slot u).pml4 = (k.tasks.slot u).pml4 ∧
      ((k.tasks.modify t fun task => { task with contextRsp := rsp }).slot u).kstackTop = (k.tasks.slot u).kstackTop := by
    intro u
    by_cases isT : u = t
    · subst isT
      rw [modify_slot_same]
      exact ⟨rfl, rfl, rfl⟩
    · rw [modify_slot_other isT]
      exact ⟨rfl, rfl, rfl⟩
  refine ⟨confined.list places.list, fun u used => ?_, fun u used => ?_, fun u v usedU usedV same => ?_, ?_⟩
  · rw [(fields u).1] at used
    rw [(fields u).2.1]
    exact places.space u used
  · rw [(fields u).1] at used
    rw [(fields u).2.2]
    exact places.stack u used
  · rw [(fields u).1] at usedU
    rw [(fields v).1] at usedV
    rw [(fields u).2.2, (fields v).2.2] at same
    exact places.apart u v usedU usedV same
  · rcases places.cpu with nobody | ⟨self, r, current, isSpace, isCr3, isTop⟩
    · exact .inl nobody
    · exact .inr ⟨self, r, current, (fields self).2.1.trans isSpace, isCr3, (fields self).2.2.trans isTop⟩

/-- How a step on the processor ends. -/
theorem processorStep_cases (did : processorStep p (a, sp) = some (p', events)) :
    ∃ k', step p.kernel a = some (k', events) ∧
      ((p' = { p with kernel := k', rsp := sp } ∧
        (k'.tasks.currentTask = none ∨ k'.tasks.currentTask = p.kernel.tasks.currentTask)) ∨
      ∃ new, k'.tasks.currentTask = some new ∧ p.kernel.tasks.currentTask ≠ some new ∧
        p' = { p with kernel := k', rsp := sp }.exec (contextSwitch p.kernel.tasks.currentTask new)) := by
  unfold processorStep at did
  dsimp only at did
  split at did
  · cases did
  · rename_i k' new stepped
    split at did
    · rename_i nobody
      cases did
      exact ⟨k', stepped, .inl ⟨rfl, .inl nobody⟩⟩
    · rename_i next current
      split at did
      · rename_i same
        cases did
        exact ⟨k', stepped, .inl ⟨rfl, .inr (current.trans same.symm)⟩⟩
      · rename_i other
        cases did
        exact ⟨k', stepped, .inr ⟨next, current, other, rfl⟩⟩

/-- One step keeps the processor with the current task. -/
theorem processorStep_inv (inv : ProcessorInv boot p) (stays : StaysOnStack p sp)
    (did : processorStep p (a, sp) = some (p', events))
    (ready : ∀ k' events, step p.kernel a = some (k', events) → ∀ t, k'.tasks.currentTask = some t →
      k'.tasks.control t ≠ .fresh) : ProcessorInv boot p' := by
  obtain ⟨k', stepped, ended⟩ := processorStep_cases did
  obtain ⟨free, places⟩ := inv.places
  have table' := step_tableInv inv.table stepped
  have places' := step_places inv.table places stepped
  have contexts' := step_contexts inv.table places inv.contexts stepped
  have back : ∀ sp : U64, sp - 48 + 48 = sp := fun sp => BitVec.sub_add_cancel ..
  -- Whoever was current and still is there has the stack the step ran on.
  have old : ∀ self, p.kernel.tasks.currentTask = some self → (k'.tasks.slot self).state ≠ .unused →
      (k'.tasks.slot self).kstackTop = some (page2pa (p.stackInUse self) + 4096) := by
    intro self current used'
    rw [step_kstackTop inv.table stepped (inv.table.currentUsed self current) used']
    exact inv.stackInUse current
  rcases ended with ⟨rfl, same⟩ | ⟨new, current', other, rfl⟩
  · refine ⟨table', places', contexts', fun self current' => ?_⟩
    rcases same with nobody | same
    · rw [show k'.tasks.currentTask = some self from current'] at nobody
      cases nobody
    · have current := same.symm.trans current'
      refine ⟨_, old self current (table'.currentUsed self current'), ?_⟩
      have inside := (frame_of_inside (stays self current)).2
      rwa [back] at inside
  · obtain ⟨pp, isTop, inside⟩ := contexts' new (table'.currentUsed new current') (ready k' events stepped new current')
    cases isOld : p.kernel.tasks.currentTask with
    | none =>
      obtain ⟨isRsp, kernel⟩ := contextLoad_rsp { p with kernel := k', rsp := sp } new
      have shape : contextSwitch none new = contextLoad new := rfl
      rw [shape]
      refine ⟨?_, ?_, ?_, fun self isSelf => ?_⟩
      · rw [kernel]
        exact table'
      · rw [kernel]
        exact places'
      · rw [kernel]
        exact contexts'
      · rw [kernel] at isSelf ⊢
        obtain rfl := Option.some.inj (current'.symm.trans isSelf)
        exact ⟨pp, isTop, by rw [isRsp]; exact (frame_of_inside inside).1⟩
    | some o =>
      have apart : new ≠ o := fun isO => other (isO ▸ isOld)
      obtain ⟨s, confined, saved⟩ := contextSave_kernel { p with kernel := k', rsp := sp } o (stays o isOld)
      have shape : contextSwitch (some o) new = contextSave o ++ contextLoad new := rfl
      rw [shape, exec_append]
      obtain ⟨isRsp, kernel⟩ := contextLoad_rsp ({ p with kernel := k', rsp := sp }.exec (contextSave o)) new
      rw [saved] at isRsp kernel
      dsimp only at isRsp kernel confined
      rw [modify_slot_other apart] at isRsp
      obtain ⟨rest, places'⟩ := places'
      refine ⟨?_, ⟨rest, ?_⟩, fun t used notFresh => ?_, fun self isSelf => ?_⟩
      · rw [kernel]
        exact TableInv.save table' o _
      · rw [kernel]
        exact Places.save places' o _ confined
      · rw [kernel] at used notFresh ⊢
        dsimp only at used notFresh ⊢
        by_cases isO : t = o
        · subst isO
          rw [modify_slot_same] at used ⊢
          exact ⟨_, old t isOld used, stays t isOld⟩
        · rw [modify_slot_other isO] at used ⊢
          exact contexts' t used notFresh
      · rw [kernel] at isSelf ⊢
        obtain rfl := Option.some.inj (current'.symm.trans isSelf)
        refine ⟨pp, ?_, by rw [isRsp]; exact (frame_of_inside inside).1⟩
        dsimp only
        rw [modify_slot_other apart]
        exact isTop

/-- Whoever becomes current was ready to run, so he is not a task that was
reaped. -/
theorem effect_switch {next : Slot} (table : TableInv T) (effect : Effect s T a events T')
    (current : T'.currentTask = some next) (other : T.currentTask ≠ some next) : (T.slot next).state = .runnable := by
  cases effect with
  | start t _ runnable =>
    cases current
    exact runnable
  | @blockSwitch self _ reason peer buf len _ _ _ _ _ apart picked =>
    cases current
    have runnable := picked_runnable (T := TaskTable.block ..) table.noIdle picked apart
    rwa [block_slot_other apart] at runnable
  | switch _ _ picked apart =>
    cases current
    exact picked_runnable table.noIdle picked apart
  | destroy => exact absurd (taskDestroy_currentTask.symm.trans current) other
  | reap => exact absurd (taskDestroy_currentTask.symm.trans current) other
  | quiet | create | createKernel | prepare | returned | fork | deliver | collect | blockAlone | spin | exit | exitUnseen
  | childless | resumed => exact absurd current other

/-- Without a current task only boot code runs, until it starts one. -/
theorem step_nobody (table : TableInv k.tasks) (did : step k a = some (k', events)) (nobody : k.tasks.currentTask = none)
    (notStart : ∀ t, a ≠ .start t) : k'.tasks.currentTask = none := by
  have effect := step_effect table.clean (fun _ current => table.headNotCurrent current) did
  generalize k'.tasks = T' at effect ⊢
  cases effect with
  | start t => exact absurd rfl (notStart t)
  | blockSwitch _ current | switch current | spin _ current | reap _ current | childless _ current | resumed current
  | returned _ _ current | fork _ current | deliver _ _ _ current | collect _ _ _ current | blockAlone _ current
  | exit _ _ current | exitUnseen _ _ current =>
    rw [nobody] at current
    cases current
  | destroy => rw [taskDestroy_currentTask, nobody]
  | quiet | create | createKernel | prepare => exact nobody

/-- From then on somebody is always current. -/
theorem effect_running (effect : Effect s T a events T') (running : T.currentTask ≠ none) : T'.currentTask ≠ none := by
  cases effect with
  | start | blockSwitch | switch =>
    intro nobody
    cases nobody
  | destroy => rwa [taskDestroy_currentTask]
  | reap => rwa [resumeAt_currentTask, taskDestroy_currentTask]
  | quiet | create | createKernel | prepare | returned | fork | deliver | collect | blockAlone | spin | exit | exitUnseen
  | childless | resumed => exact running

/-- Every task has been given a context. -/
def AllReady (T : TaskTable) : Prop := ∀ t, (T.slot t).state ≠ .unused → T.control t ≠ .fresh

/-- What happens once the first task runs. -/
def Serves (a : Action) : Prop := (∃ regs, a = .syscall regs) ∨ a = .resume ∨ a = .tick ∨ ∃ va b, a = .store va b

theorem step_allReady (table : TableInv k.tasks) (ready : AllReady k.tasks) (serves : Serves a)
    (did : step k a = some (k', events)) : AllReady k'.tasks := by
  have effect := step_effect table.clean (fun _ current => table.headNotCurrent current) did
  by_cases none : MakesNone a
  · have same := effect_contexts table effect none (by rcases serves with ⟨_, rfl⟩ | rfl | rfl | ⟨_, _, rfl⟩ <;> simp)
    intro t used isFresh
    refine ready t ?_ ((same t used).2.mp isFresh)
    rcases effect_shrinks table effect none.1 none.2.1 none.2.2 t with ⟨_, _, _, unused⟩ | ⟨unused, _⟩
    · exact fun was => used (unused.mpr was)
    · exact absurd unused used
  · rcases serves with ⟨regs, rfl⟩ | rfl | rfl | ⟨_, _, rfl⟩
    · have isFork : regs.rax = SYS_FORK := by
        by_contra other
        exact none ⟨by simp, by simp, by simpa using other⟩
      obtain ⟨self, pml4, current, user, _, rfl⟩ := step_fork isFork did
      have creation := taskFork_creation table.clean (table.headNotCurrent current) pml4 regs
      intro t used isFresh
      by_cases isSelf : t = self
      · subst isSelf
        rw [resumeAt_control_same] at isFresh
        cases isFresh
      · rw [resumeAt_control_other isSelf] at isFresh
        rw [resumeAt_slot] at used
        generalize (taskFork k self pml4 regs).1.tasks = T' at *
        generalize (taskFork k self pml4 regs).2 = made at *
        cases creation with
        | failed => exact ready t used isFresh
        | @made child =>
          by_cases isChild : t = child
          · subst isChild
            rw [spawn_control_same] at isFresh
            cases isFresh
          · rw [spawn_slot_other isChild] at used
            rw [spawn_control_other isChild] at isFresh
            exact ready t used isFresh
    · exact absurd (by simp [MakesNone]) none
    · exact absurd (by simp [MakesNone]) none
    · exact absurd (by simp [MakesNone]) none

/-- What a switch leaves of the table is what the step left. -/
theorem processorStep_table (did : processorStep p (a, sp) = some (p', events)) :
    ∃ k', step p.kernel a = some (k', events) ∧ p'.kernel.tasks.control = k'.tasks.control ∧
      p'.kernel.tasks.currentTask = k'.tasks.currentTask ∧
      ∀ t, (p'.kernel.tasks.slot t).state = (k'.tasks.slot t).state := by
  obtain ⟨k', stepped, ended⟩ := processorStep_cases did
  refine ⟨k', stepped, ?_⟩
  rcases ended with ⟨rfl, _⟩ | ⟨new, _, _, rfl⟩
  · exact ⟨rfl, rfl, fun _ => rfl⟩
  · cases p.kernel.tasks.currentTask with
    | none => exact ⟨rfl, rfl, fun _ => rfl⟩
    | some o =>
      have saves : ∃ rsp, ({ p with kernel := k', rsp := sp }.exec (contextSwitch (some o) new)).kernel.tasks =
          k'.tasks.modify o fun task => task.setWordAt 32 rsp := ⟨_, rfl⟩
      obtain ⟨rsp, saved⟩ := saves
      refine ⟨rfl, rfl, fun t => ?_⟩
      rw [saved]
      by_cases isO : t = o
      · subst isO
        rw [modify_slot_same]
        rfl
      · rw [modify_slot_other isO]

/-- Boot code, up to the first switch. -/
def Boots (_ : Processor) (move : Action × U64) : Prop := ∀ t, move.1 ≠ .start t

/-- Tasks and timer, with the kernel's code staying on the stack it runs on. -/
def ServesOnStack (p : Processor) (move : Action × U64) : Prop := Serves move.1 ∧ StaysOnStack p move.2

/-- The processor is all the current task's: address space, the stack for the
next entry, and the stack in use, which nobody else has. -/
def InContext (p : Processor) : Prop :=
  ∃ self r pp, p.kernel.tasks.currentTask = some self ∧ (p.kernel.tasks.slot self).state ≠ .unused ∧
    (p.kernel.tasks.slot self).pml4 = some r ∧ p.kernel.cr3 = pml4Phys r ∧
    (p.kernel.tasks.slot self).kstackTop = some p.kernel.rsp0 ∧ p.kernel.rsp0 = page2pa pp + 4096 ∧
    frameOf (p.rsp - 8) = pp ∧ ∀ u, (p.kernel.tasks.slot u).state ≠ .unused →
      (p.kernel.tasks.slot u).kstackTop = (p.kernel.tasks.slot self).kstackTop → u = self

/-- A task that is switched to was RUNNABLE. -/
def SwitchesToReady (p : Processor) : Prop :=
  ∀ move p' events next, processorStep p move = some (p', events) → p'.kernel.tasks.currentTask = some next →
    p.kernel.tasks.currentTask ≠ some next → (p.kernel.tasks.slot next).state = .runnable

theorem ProcessorInv.inContext (inv : ProcessorInv boot p) (running : p.kernel.tasks.currentTask ≠ none) : InContext p := by
  obtain ⟨free, places⟩ := inv.places
  rcases places.cpu with ⟨nobody, _⟩ | ⟨self, r, current, isSpace, isCr3, isRsp0⟩
  · exact absurd nobody running
  · have used := inv.table.currentUsed self current
    obtain ⟨pp, isTop, here⟩ := inv.stack self current
    refine ⟨self, r, pp, current, used, isSpace, isCr3, isRsp0, ?_, here, fun u usedU same => ?_⟩
    · exact Option.some.inj (isRsp0.symm.trans isTop)
    · exact places.apart u self usedU used same

theorem boot_processorInv {p₀ : Processor} (booted : Booted p₀.kernel) (list : FreeList p₀.kernel.phys free)
    (run : Run processorStep Boots p₀ events p) :
    ProcessorInv (getCurrentPml4 p₀.kernel.cr3) p ∧ p.kernel.tasks.currentTask = none := by
  obtain ⟨table, places, noTask, unused⟩ := boot_places booted list
  refine run.invariant (fun _ p => ProcessorInv (getCurrentPml4 p₀.kernel.cr3) p ∧ p.kernel.tasks.currentTask = none) ?_ ?_
  · refine ⟨⟨table, ⟨free, places⟩, fun t used => absurd (unused t) used, ?_⟩, noTask⟩
    intro self current
    rw [noTask] at current
    cases current
  · rintro _ p ⟨a, sp⟩ p' new ⟨inv, noTask⟩ boots did
    obtain ⟨k', stepped, _, current, _⟩ := processorStep_table did
    have still := step_nobody inv.table stepped noTask boots
    refine ⟨processorStep_inv inv (fun self isSelf => ?_) did (fun k₁ new₁ stepped₁ t isT => ?_), current.trans still⟩
    · rw [noTask] at isSelf
      cases isSelf
    · rw [step_nobody inv.table stepped₁ noTask boots] at isT
      cases isT

/-- **The processor always works for the current task.** Boot code makes tasks,
gives each of them a context and starts one. After every step from then on, the
address space, the stack for the next entry and the stack in use are those of
the current task, and only a RUNNABLE task is ever switched to. -/
theorem context_of_current {p₀ p₁ p₂ : Processor} {before new : List Event} (booted : Booted p₀.kernel)
    (list : FreeList p₀.kernel.phys free) (boots : Run processorStep Boots p₀ before p₁)
    (ready : AllReady p₁.kernel.tasks) (starts : processorStep p₁ (.start t, sp) = some (p₂, new))
    (run : Run processorStep ServesOnStack p₂ events p) : InContext p ∧ SwitchesToReady p := by
  obtain ⟨inv₁, nobody⟩ := boot_processorInv booted list boots
  have ready₂ : ∀ k₁ new₁, step p₁.kernel (.start t) = some (k₁, new₁) → AllReady k₁.tasks ∧ k₁.tasks.currentTask = some t := by
    intro k₁ new₁ stepped
    simp only [step] at stepped
    split at stepped
    · cases stepped
      rw [schedulerSwitchTo_tasks]
      exact ⟨ready, rfl⟩
    · cases stepped
  have all := run.invariant (fun _ p => ProcessorInv (getCurrentPml4 p₀.kernel.cr3) p ∧ AllReady p.kernel.tasks ∧
    p.kernel.tasks.currentTask ≠ none) ?_ ?_
  · obtain ⟨inv, _, running⟩ := all
    refine ⟨inv.inContext running, ?_⟩
    rintro ⟨a, sp⟩ p' events next did isNext other
    obtain ⟨k', stepped, _, current, _⟩ := processorStep_table did
    have effect := step_effect inv.table.clean (fun _ current => inv.table.headNotCurrent current) stepped
    exact effect_switch inv.table effect (current.symm.trans isNext) other
  · obtain ⟨k₁, stepped, control, current, states⟩ := processorStep_table starts
    have started := ready₂ k₁ new stepped
    refine ⟨processorStep_inv inv₁ (fun self isSelf => ?_) starts (fun k' new' stepped' u isU => ?_), fun u used => ?_, ?_⟩
    · rw [nobody] at isSelf
      cases isSelf
    · exact (ready₂ k' new' stepped').1 u ((step_tableInv inv₁.table stepped').currentUsed u isU)
    · rw [states] at used
      rw [control]
      exact started.1 u used
    · rw [current, started.2]
      simp
  · rintro _ p ⟨a, sp⟩ p' new ⟨inv, allReady, running⟩ ⟨serves, stays⟩ did
    obtain ⟨k', stepped, control, current, states⟩ := processorStep_table did
    have allReady' := step_allReady inv.table allReady serves stepped
    refine ⟨processorStep_inv inv stays did (fun k₁ new₁ stepped₁ u isU => ?_), fun u used => ?_, ?_⟩
    · exact step_allReady inv.table allReady serves stepped₁ u ((step_tableInv inv.table stepped₁).currentUsed u isU)
    · rw [states] at used
      rw [control]
      exact allReady' u used
    · rw [current]
      have effect := step_effect inv.table.clean (fun _ current => inv.table.headNotCurrent current) stepped
      exact effect_running effect running

/-- A processor in front of cleared memory, with nothing in its registers. -/
def bootProcessor : Processor where
  reg := fun _ => 0
  rsp := 0
  rip := 0
  cs := 0
  rflags := 0
  ss := 0
  dataSegments := 0
  kernel := bootKernel 20

/-- Two tasks, with contexts. -/
def twoPrepared : Option (Processor × List Event) :=
  exec (fun _ _ => true) processorStep bootProcessor
    [(.create, 0), (.prepare 1 0 0, 0), (.create, 0), (.prepare 2 0 0, 0)]

/-- The first task waits for a message on its stack in frame 2, and the second
one gets the processor. -/
theorem context_of_current_second : ∃ p₁ p₂ p before new events, Run processorStep Boots bootProcessor before p₁ ∧
    processorStep p₁ (.start 1, 0) = some (p₂, new) ∧ Run processorStep ServesOnStack p₂ events p ∧
    p.kernel.tasks.currentTask = some 2 ∧ InContext p := by
  have prepared : (twoPrepared.map fun (p, _) => decide (∀ t, (p.kernel.tasks.slot t).state ≠ .unused →
      p.kernel.tasks.control t ≠ .fresh)) = some true := by decide +kernel
  obtain ⟨⟨p₁, before⟩, isPrepared, ready⟩ := Option.map_eq_some_iff.mp prepared
  have boots : Run processorStep Boots bootProcessor before p₁ :=
    run_of_exec (by simp [Boots]) isPrepared
  have starts : ((twoPrepared.bind fun (p, _) => processorStep p (.start 1, 0)).map fun (p, _) =>
      (p.kernel.tasks.currentTask, decide (p.stackInUse 1 = 2))) = some (some 1, true) := by decide +kernel
  rw [isPrepared, Option.bind_some] at starts
  obtain ⟨⟨p₂, new⟩, started, isFirst⟩ := Option.map_eq_some_iff.mp starts
  dsimp only at started isFirst ready
  have receives : (((twoPrepared.bind fun (p, _) => processorStep p (.start 1, 0)).bind fun (p, _) =>
      processorStep p (call SYS_RECV IPC_ANY_SENDER, 0x2F00)).map fun (p, _) => p.kernel.tasks.currentTask) =
      some (some 2) := by decide +kernel
  rw [isPrepared, Option.bind_some] at receives
  dsimp only at receives
  rw [started, Option.bind_some] at receives
  obtain ⟨⟨p, events⟩, received, isSecond⟩ := Option.map_eq_some_iff.mp receives
  have stays : StaysOnStack p₂ 0x2F00 := by
    intro self current
    obtain rfl : 1 = self := Option.some.inj ((Prod.ext_iff.mp isFirst).1.symm.trans current)
    rw [of_decide_eq_true (Prod.ext_iff.mp isFirst).2]
    exact ⟨by decide, by decide, by decide, by decide⟩
  have run : Run processorStep ServesOnStack p₂ ([] ++ events) p :=
    .next _ .start ⟨.inl ⟨_, rfl⟩, stays⟩ received
  have allReady : AllReady p₁.kernel.tasks := by
    unfold AllReady
    exact of_decide_eq_true ready
  refine ⟨p₁, p₂, p, before, new, _, boots, started, run, isSecond, ?_⟩
  exact (context_of_current (bootKernel_booted 20) (clearedPhys_free (by decide)) boots allReady started run).1

end HobbyKernel.ContextProofs
