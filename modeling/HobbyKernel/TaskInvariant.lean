import HobbyKernel.TaskEffects
import HobbyKernel.PageAllocProofs
import HobbyKernel.Lib.Chain
import HobbyKernel.Lib.Runs

/-! The invariant of the task table: the free list is exactly the unused slots,
one task at most is running, and a task has a block reason exactly when it is
blocked. It holds after boot and is kept by every effect a step can have. -/
namespace HobbyKernel.TaskInvariant
open TaskTable TaskEffects Runs

/-- The free list visits exactly the unused slots but the reserved one. -/
def FreeSlots (T : TaskTable) : Prop :=
  ∃ nodes, Chain.Linked (fun t => (T.slot t).nextFree) T.taskFreeList nodes ∧
    ∀ t, t ∈ nodes ↔ (T.slot t).state = .unused ∧ t ≠ 0

/-- What holds of each slot by itself. -/
structure SlotInv (current : Option Slot) (t : Slot) (task : Task) (c : Control) : Prop where
  id : task.taskId = BitVec.ofNat 64 t.val
  running : task.state = .running → current = some t
  blocked : task.state = .blocked → task.blockReason ≠ .none
  ready : task.state = .runnable ∨ task.state = .running → task.blockReason = .none
  unused : task.state = .unused → task.blockReason = .none ∧ task.parentId = NO_PARENT ∧ task.exitCode = 0
  dead : task.state = .dead → c = .halted

structure TableInv (T : TaskTable) : Prop where
  free : FreeSlots T
  slots : ∀ t, SlotInv T.currentTask t (T.slot t) (T.control t)
  reserved : (T.slot 0).state = .unused
  currentUsed : ∀ t, T.currentTask = some t → (T.slot t).state ≠ .unused
  noIdle : T.idleTask = none

variable {T T' : TaskTable} {t u self next : Slot}

/-- Changes that leave the links and the unused slots alone. -/
theorem FreeSlots.congr (free : FreeSlots T) (head : T'.taskFreeList = T.taskFreeList)
    (links : ∀ t, (T'.slot t).nextFree = (T.slot t).nextFree)
    (unused : ∀ t, (T'.slot t).state = .unused ↔ (T.slot t).state = .unused) : FreeSlots T' := by
  obtain ⟨nodes, linked, exactly⟩ := free
  refine ⟨nodes, ?_, fun t => by rw [exactly t, unused t]⟩
  rw [head]
  exact Chain.linked_congr linked (fun t _ => links t)

theorem FreeSlots.spawn {task : Task} {c : Control} (free : FreeSlots T) (head : T.taskFreeList = some t)
    (used : task.state ≠ .unused) : FreeSlots (T.spawn t task c) := by
  obtain ⟨nodes, linked, exactly⟩ := free
  rw [head] at linked
  obtain ⟨rest, rfl, popped⟩ := Chain.linked_pop linked task.nextFree
  have fresh : t ∉ rest := (List.nodup_cons.mp (Chain.linked_nodup linked)).1
  refine ⟨rest, Chain.linked_congr popped (fun u _ => ?_), fun u => ?_⟩
  · by_cases same : u = t
    · subst same
      simp
    · simp [same]
  · by_cases same : u = t
    · subst same
      simp [fresh, used]
    · rw [spawn_slot_other same, ← exactly u]
      simp [same]

theorem FreeSlots.slotFree (free : FreeSlots T) (used : (T.slot t).state ≠ .unused) (notReserved : t ≠ 0) :
    FreeSlots (T.taskSlotFree t) := by
  obtain ⟨nodes, linked, exactly⟩ := free
  have fresh : t ∉ nodes := fun member => used ((exactly t).mp member).1
  refine ⟨t :: nodes, Chain.linked_congr (Chain.linked_push linked fresh) (fun u _ => ?_), fun u => ?_⟩
  · by_cases same : u = t
    · subst same
      simp [taskSlotFree]
    · simp [taskSlotFree, same]
  · by_cases same : u = t
    · subst same
      simp [taskSlotFree, notReserved]
    · simp only [List.mem_cons, same, false_or, exactly u, taskSlotFree, modify_slot_other same]

theorem taskDestroy_slot_same (used : (T.slot t).state ≠ .unused) : (T.taskDestroy t).slot t =
    { T.slot t with pml4 := none, kstack := none, kstackTop := none, contextRsp := 0, state := .unused,
                    blockReason := .none, parentId := NO_PARENT, exitCode := 0, nextFree := T.taskFreeList } := by
  simp [taskDestroy, used, taskSlotFree]

theorem taskDestroy_slot_other (other : u ≠ t) : (T.taskDestroy t).slot u = T.slot u := by
  unfold taskDestroy
  split
  · rfl
  · simp [taskSlotFree, other]

@[simp] theorem taskDestroy_control : (T.taskDestroy t).control = T.control := by
  unfold taskDestroy
  split <;> rfl

@[simp] theorem taskDestroy_currentTask : (T.taskDestroy t).currentTask = T.currentTask := by
  unfold taskDestroy
  split <;> rfl

@[simp] theorem taskDestroy_idleTask : (T.taskDestroy t).idleTask = T.idleTask := by
  unfold taskDestroy
  split <;> rfl

theorem FreeSlots.destroy (free : FreeSlots T) (used : (T.slot t).state ≠ .unused) (notReserved : t ≠ 0) :
    FreeSlots (T.taskDestroy t) := by
  rw [taskDestroy, if_neg used]
  refine FreeSlots.slotFree (free.congr rfl (fun u => ?_) (fun u => ?_)) (by simpa using used) notReserved
  · by_cases same : u = t
    · subst same
      simp
    · simp [same]
  · by_cases same : u = t
    · subst same
      simp
    · simp [same]

theorem TableInv.notReserved (inv : TableInv T) (used : (T.slot t).state ≠ .unused) : t ≠ 0 :=
  fun same => used (same ▸ inv.reserved)

/-- The head of the free list is an unused slot. -/
theorem TableInv.headUnused (inv : TableInv T) (head : T.taskFreeList = some t) :
    (T.slot t).state = .unused ∧ t ≠ 0 := by
  obtain ⟨nodes, linked, exactly⟩ := inv.free
  rw [head] at linked
  obtain ⟨rest, rfl, _⟩ := Chain.linked_some linked
  exact (exactly t).mp List.mem_cons_self

theorem slot_of_id {t u : Slot} (same : BitVec.ofNat 64 t.val = BitVec.ofNat 64 u.val) : t = u := by
  have values := congrArg BitVec.toNat same
  have boundT : t.val < 64 := t.isLt
  have boundU : u.val < 64 := u.isLt
  simp only [BitVec.toNat_ofNat] at values
  exact Fin.ext (by omega)

/-- Ids tell tasks apart. -/
theorem TableInv.id_inj (inv : TableInv T) (same : (T.slot t).taskId = (T.slot u).taskId) : t = u := by
  rw [(inv.slots t).id, (inv.slots u).id] at same
  exact slot_of_id same

theorem TableInv.clean (inv : TableInv T) : FreeClean T := by
  intro t head
  have unused := (inv.headUnused head).1
  exact ⟨unused, (inv.slots t).unused unused⟩

theorem TableInv.headNotCurrent (inv : TableInv T) (current : T.currentTask = some self) :
    T.taskFreeList ≠ some self :=
  fun head => inv.currentUsed self current (inv.headUnused head).1

/-- A task that is switched to was runnable. -/
theorem picked_runnable (noIdle : T.idleTask = none) (picked : T.schedulerPickNext (some self) = some next)
    (other : next ≠ self) : (T.slot next).state = .runnable := by
  unfold schedulerPickNext at picked
  split at picked
  · rename_i found
    cases picked
    simpa using List.find?_some found
  · rw [noIdle] at picked
    simp only [Option.isSome_none, Bool.false_eq_true, if_false, ite_self] at picked
    cases picked
    exact absurd rfl other

/-- The fields the invariant reads agree, but for one slot in use. -/
structure SameBut (T T' : TaskTable) (t : Slot) : Prop where
  slot : ∀ u, u ≠ t → T'.slot u = T.slot u
  control : ∀ u, u ≠ t → T'.control u = T.control u
  link : (T'.slot t).nextFree = (T.slot t).nextFree
  head : T'.taskFreeList = T.taskFreeList
  current : T'.currentTask = T.currentTask
  idle : T'.idleTask = T.idleTask

theorem SameBut.modify (f : Task → Task) (link : (f (T.slot t)).nextFree = (T.slot t).nextFree) :
    SameBut T (T.modify t f) t :=
  ⟨fun _ other => modify_slot_other other, fun _ _ => rfl, by rw [modify_slot_same, link], rfl, rfl, rfl⟩

theorem SameBut.resumeAt (same : SameBut T T' t) (c : Control) : SameBut T (T'.resumeAt t c) t :=
  ⟨same.slot, fun u other => (resumeAt_control_other other).trans (same.control u other), same.link, same.head,
    same.current, same.idle⟩

/-- One slot in use changes and stays in use. -/
theorem TableInv.change (inv : TableInv T) (same : SameBut T T' t) (used : (T.slot t).state ≠ .unused)
    (used' : (T'.slot t).state ≠ .unused)
    (slotInv : SlotInv T.currentTask t (T'.slot t) (T'.control t)) : TableInv T' := by
  have states : ∀ u, (T'.slot u).state = .unused ↔ (T.slot u).state = .unused := by
    intro u
    by_cases isT : u = t
    · rw [isT]
      exact iff_of_false used' used
    · rw [same.slot u isT]
  refine ⟨inv.free.congr same.head (fun u => ?_) states, fun u => ?_, (states 0).mpr inv.reserved, fun u current => ?_,
    same.idle.trans inv.noIdle⟩
  · by_cases isT : u = t
    · rw [isT, same.link]
    · rw [same.slot u isT]
  · rw [same.current]
    by_cases isT : u = t
    · rw [isT]
      exact slotInv
    · rw [same.slot u isT, same.control u isT]
      exact inv.slots u
  · rw [same.current] at current
    exact fun unused => inv.currentUsed u current ((states u).mp unused)

/-- Nothing runs, and a runnable task is switched to. -/
theorem TableInv.switchTo (inv : TableInv T) (runnable : (T.slot next).state = .runnable)
    (idle : ∀ u, (T.slot u).state ≠ .running) : TableInv (T.switchTo next) := by
  have states : ∀ u, ((T.switchTo next).slot u).state = .unused ↔ (T.slot u).state = .unused := by
    intro u
    by_cases isNext : u = next
    · subst isNext
      simp [runnable]
    · rw [switchTo_slot_other isNext]
  refine ⟨inv.free.congr rfl (fun u => ?_) states, fun u => ?_, (states 0).mpr inv.reserved, fun u current => ?_,
    inv.noIdle⟩
  · by_cases isNext : u = next
    · subst isNext
      simp
    · rw [switchTo_slot_other isNext]
  · have before := inv.slots u
    by_cases isNext : u = next
    · subst isNext
      rw [switchTo_slot_same]
      exact ⟨before.id, fun _ => rfl, by simp, fun _ => before.ready (.inl runnable), by simp, by simp⟩
    · rw [switchTo_slot_other isNext]
      exact ⟨before.id, fun running => absurd running (idle u), before.blocked, before.ready, before.unused,
        before.dead⟩
  · cases current
    rw [switchTo_slot_same]
    simp

theorem TableInv.spawn {task : Task} {c : Control} (inv : TableInv T) (head : T.taskFreeList = some t)
    (made : Spawned (T.slot t) task) : TableInv (T.spawn t task c) := by
  obtain ⟨unused, notReserved⟩ := inv.headUnused head
  have before := inv.slots t
  refine ⟨inv.free.spawn head (by rw [made.state]; decide), fun u => ?_, ?_, fun u current => ?_, inv.noIdle⟩
  · by_cases isT : u = t
    · subst isT
      rw [spawn_slot_same, spawn_control_same]
      refine ⟨made.taskId.trans before.id, ?_, ?_, fun _ => ?_, ?_, ?_⟩
      · rw [made.state]; simp
      · rw [made.state]; simp
      · rw [made.blockReason, (before.unused unused).1]
      · rw [made.state]; simp
      · rw [made.state]; simp
    · rw [spawn_slot_other isT, spawn_control_other isT]
      exact inv.slots u
  · rw [spawn_slot_other notReserved.symm]
    exact inv.reserved
  · have isT : u ≠ t := fun same => inv.currentUsed u current (same ▸ unused)
    rw [spawn_slot_other isT]
    exact inv.currentUsed u current

theorem TableInv.destroy (inv : TableInv T) (used : (T.slot t).state ≠ .unused) (other : T.currentTask ≠ some t) :
    TableInv (T.taskDestroy t) := by
  have notReserved := inv.notReserved used
  refine ⟨inv.free.destroy used notReserved, fun u => ?_, ?_, fun u current => ?_, by simpa using inv.noIdle⟩
  · rw [taskDestroy_currentTask, taskDestroy_control]
    by_cases isT : u = t
    · subst isT
      rw [taskDestroy_slot_same used]
      exact ⟨(inv.slots u).id, by simp, by simp, by simp, by simp, by simp⟩
    · rw [taskDestroy_slot_other isT]
      exact inv.slots u
  · rw [taskDestroy_slot_other notReserved.symm]
    exact inv.reserved
  · rw [taskDestroy_currentTask] at current
    have isT : u ≠ t := fun same => other (same ▸ current)
    rw [taskDestroy_slot_other isT]
    exact inv.currentUsed u current

theorem Cause.reason_ne {s : Phys} {reason : BlockReason} {peer buf len : U64} {resume : Control}
    (cause : Cause s T self reason peer buf len resume) : reason ≠ .none ∧ resume ≠ .halted := by
  cases cause <;> simp

theorem TableInv.block {reason : BlockReason} (peer buf len : U64) {c : Control} (inv : TableInv T)
    (current : T.currentTask = some self) (reasonNe : reason ≠ .none) :
    TableInv ((T.block self reason peer buf len).resumeAt self c) := by
  refine inv.change ((SameBut.modify _ rfl).resumeAt c) (inv.currentUsed self current) ?_ ?_
  · simp [TaskTable.block]
  · simp only [TaskTable.block, resumeAt_slot, modify_slot_same, resumeAt_control_same]
    exact ⟨(inv.slots self).id, by simp, fun _ => reasonNe, by simp, by simp, by simp⟩

theorem TableInv.wake (inv : TableInv T) (used : (T.slot t).state ≠ .unused) : TableInv (T.taskWake t) := by
  refine inv.change (SameBut.modify _ rfl) used ?_ ?_
  · simp [taskWake]
  · simp only [taskWake, modify_slot_same]
    exact ⟨(inv.slots t).id, by simp, by simp, by simp, by simp, by simp⟩

/-- A task that can be current and is not halted is not dead either. -/
theorem TableInv.notDead (inv : TableInv T) (inside : T.control self ≠ .halted) : (T.slot self).state ≠ .dead :=
  fun dead => inside ((inv.slots self).dead dead)

theorem TableInv.resumeUser (inv : TableInv T) (current : T.currentTask = some self)
    (inside : T.control self ≠ .halted) : TableInv (T.resumeAt self .user) := by
  have before := inv.slots self
  have same : SameBut T (T.resumeAt self .user) self :=
    ⟨fun _ _ => rfl, fun _ other => resumeAt_control_other other, rfl, rfl, rfl, rfl⟩
  refine inv.change same (inv.currentUsed self current) (inv.currentUsed self current) ?_
  exact ⟨before.id, before.running, before.blocked, before.ready, before.unused,
      fun dead => absurd dead (inv.notDead inside)⟩

theorem TableInv.exit (inv : TableInv T) (current : T.currentTask = some self) (code : U64) :
    TableInv (T.exit self code) := by
  refine inv.change ((SameBut.modify _ rfl).resumeAt .halted) (inv.currentUsed self current) ?_ ?_
  · simp [TaskTable.exit]
  · simp only [TaskTable.exit, resumeAt_slot, modify_slot_same, resumeAt_control_same]
    exact ⟨(inv.slots self).id, by simp, by simp, by simp, by simp, by simp⟩

theorem block_idle {reason : BlockReason} {peer buf len : U64} {c : Control} (inv : TableInv T)
    (current : T.currentTask = some self) (u : Slot) :
    (((T.block self reason peer buf len).resumeAt self c).slot u).state ≠ .running := by
  by_cases isSelf : u = self
  · subst isSelf
    simp [TaskTable.block]
  · simp only [TaskTable.block, resumeAt_slot, modify_slot_other isSelf]
    intro running
    have := (inv.slots u).running running
    rw [current] at this
    exact isSelf (Option.some.inj this).symm

theorem TableInv.preempt (inv : TableInv T) (current : T.currentTask = some self) :
    TableInv (T.preempt self) ∧ ∀ u, ((T.preempt self).slot u).state ≠ .running := by
  have before := inv.slots self
  unfold TaskTable.preempt
  split
  · rename_i running
    refine ⟨inv.change (SameBut.modify _ rfl) (inv.currentUsed self current) (by simp) ?_, fun u => ?_⟩
    · simp only [modify_slot_same, modify_control]
      exact ⟨before.id, by simp, by simp, fun _ => before.ready (.inr running), by simp, by simp⟩
    · by_cases isSelf : u = self
      · subst isSelf
        simp
      · rw [modify_slot_other isSelf]
        intro alsoRunning
        have := (inv.slots u).running alsoRunning
        rw [current] at this
        exact isSelf (Option.some.inj this).symm
  · rename_i notRunning
    refine ⟨inv, fun u running => ?_⟩
    have := (inv.slots u).running running
    rw [current] at this
    cases this
    exact notRunning running

/-- Every effect of a step keeps the invariant. -/
theorem effect_tableInv {s : Phys} {a : Action} {events : List Event} (inv : TableInv T)
    (effect : Effect s T a events T') : TableInv T' := by
  cases effect with
  | quiet => exact inv
  | returned => exact inv
  | create free made => exact inv.spawn free made
  | createKernel _ free made => exact inv.spawn free made
  | fork _ _ _ free made => exact inv.spawn free made
  | destroy t other used => exact inv.destroy used other
  | prepare t _ _ rsp runnable =>
    have before := inv.slots t
    refine inv.change ((SameBut.modify _ rfl).resumeAt .user) (by rw [runnable]; decide) (by simp [runnable]) ?_
    simp only [resumeAt_slot, modify_slot_same, resumeAt_control_same]
    exact ⟨before.id, before.running, before.blocked, before.ready, before.unused,
      fun dead => absurd (runnable.symm.trans dead) (by decide)⟩
  | start t nobody runnable =>
    refine ⟨inv.free, fun u => ?_, inv.reserved, fun u current => ?_, inv.noIdle⟩
    · have before := inv.slots u
      refine ⟨before.id, fun running => ?_, before.blocked, before.ready, before.unused, before.dead⟩
      have := before.running running
      rw [nobody] at this
      cases this
    · cases current
      rw [runnable]
      decide
  | deliver _ _ _ _ _ awaits =>
    simp only [awaitsSender, Bool.and_eq_true, decide_eq_true_eq] at awaits
    exact inv.wake (by rw [awaits.1.1]; decide)
  | @collect _ sender _ _ value _ _ _ _ offers =>
    simp only [offersMessage, Bool.and_eq_true, decide_eq_true_eq] at offers
    have blocked := offers.1.1.1.1
    have before := inv.slots sender
    have measured : TableInv (T.modify sender fun task => { task with ipcLen := value }) := by
      refine inv.change (SameBut.modify _ rfl) (by rw [blocked]; decide) (by simp [blocked]) ?_
      simp only [modify_slot_same, modify_control]
      exact ⟨before.id, before.running, before.blocked, before.ready, before.unused, before.dead⟩
    exact measured.wake (by simp [blocked])
  | @blockAlone self reason _ regs current user _ cause =>
    have blocked := inv.block regs.rdi regs.rsi (clampLen regs.rdx) (c := .user) current
      (Cause.reason_ne cause).1
    rwa [resumeAt_self (show (T.block self reason regs.rdi regs.rsi (clampLen regs.rdx)).control self = .user
      from user)] at blocked
  | spin _ current _ cause => exact inv.block _ _ _ current (Cause.reason_ne cause).1
  | blockSwitch _ current _ cause other picked =>
    exact (inv.block _ _ _ current (Cause.reason_ne cause).1).switchTo (picked_runnable (T := TaskTable.block ..) inv.noIdle picked other)
      (block_idle inv current)
  | exitUnseen _ code current => exact inv.exit current code
  | exit _ code current _ waits =>
    simp only [awaitsChild, Bool.and_eq_true, decide_eq_true_eq] at waits
    exact (inv.exit current code).wake (by rw [waits.1.1.1]; decide)
  | @reap self child _ _ current inside _ dead =>
    have notHalted : T.control self ≠ .halted := by
      rcases inside with user | waiting
      · rw [user]; decide
      · rw [waiting]; simp
    have other : T.currentTask ≠ some child := by
      intro same
      rw [current] at same
      cases same
      exact inv.notDead notHalted dead
    refine (inv.destroy (by rw [dead]; decide) other).resumeUser (by simpa using current) ?_
    simpa using notHalted
  | @childless self _ _ current inside =>
    refine inv.resumeUser current ?_
    rcases inside with user | waiting
    · rw [user]; decide
    · rw [waiting]; simp
  | @resumed self current inside =>
    refine inv.resumeUser current ?_
    rcases inside with send | recv
    · rw [send]; decide
    · rw [recv]; decide
  | @switch prev next current _ picked other =>
    obtain ⟨preempted, idle⟩ := inv.preempt current
    refine preempted.switchTo ?_ idle
    have runnable := picked_runnable inv.noIdle picked other
    unfold TaskTable.preempt
    split
    · rwa [modify_slot_other other]
    · exact runnable

theorem step_tableInv {k k' : Kernel} {a : Action} {events : List Event} (inv : TableInv k.tasks)
    (did : step k a = some (k', events)) : TableInv k'.tasks :=
  effect_tableInv inv (step_effect inv.clean (fun _ current => inv.headNotCurrent current) did)

/-- Putting slots on the free list one after another, as `task_table_init` does. -/
private theorem init_slots (rest nodes : List Slot) (distinct : (rest ++ nodes).Nodup)
    (linked : Chain.Linked (fun t => (T.slot t).nextFree) T.taskFreeList nodes) :
    let T' := rest.foldl (fun T i =>
      { T.modify i (fun _ => initTask i T.taskFreeList) with taskFreeList := some i }) T
    Chain.Linked (fun t => (T'.slot t).nextFree) T'.taskFreeList (rest.reverse ++ nodes) ∧
      (∀ t ∈ rest, ∃ link, T'.slot t = initTask t link) ∧ (∀ t, t ∉ rest → T'.slot t = T.slot t) ∧
      T'.currentTask = T.currentTask ∧ T'.idleTask = T.idleTask := by
  induction rest generalizing T nodes with
  | nil => exact ⟨linked, by simp, fun _ _ => rfl, rfl, rfl⟩
  | cons i rest ih =>
    have moved := List.perm_middle.nodup_iff.mpr distinct
    obtain ⟨notRest, _⟩ := List.nodup_cons.mp distinct
    have fresh : i ∉ nodes := fun member => notRest (List.mem_append_right _ member)
    have pushed : Chain.Linked (fun t => ((T.modify i (fun _ => initTask i T.taskFreeList)).slot t).nextFree)
        (some i) (i :: nodes) := by
      refine Chain.linked_congr (Chain.linked_push linked fresh) (fun u _ => ?_)
      by_cases same : u = i
      · subst same
        simp [initTask]
      · simp [same]
    obtain ⟨chain, inits, others, current, idle⟩ := ih
      (T := { T.modify i (fun _ => initTask i T.taskFreeList) with taskFreeList := some i }) (i :: nodes) moved pushed
    refine ⟨?_, fun t member => ?_, fun t member => ?_, current, idle⟩
    · rw [List.reverse_cons, List.append_assoc]
      exact chain
    · by_cases later : t ∈ rest
      · exact inits t later
      · rcases List.mem_cons.mp member with rfl | inRest
        · exact ⟨T.taskFreeList, (others t later).trans (Function.update_self ..)⟩
        · exact absurd inRest later
    · rw [List.mem_cons, not_or] at member
      exact (others t member.2).trans (Function.update_of_ne member.1 _ _)

/-- The kernel has just initialised its task table, and nothing runs yet. -/
def Booted (k : Kernel) : Prop :=
  ∃ T : TaskTable, T.currentTask = none ∧ T.idleTask = none ∧ k.tasks = T.taskTableInit

/-- After `task_table_init` every slot is unused and the list runs through all
but the first. -/
theorem taskTableInit_slots (T : TaskTable) :
    (∀ t, ∃ link, T.taskTableInit.slot t = initTask t link) ∧
      (∃ nodes, Chain.Linked (fun t => (T.taskTableInit.slot t).nextFree) T.taskTableInit.taskFreeList nodes ∧
        ∀ t, t ∈ nodes ↔ t ≠ 0) ∧
      T.taskTableInit.currentTask = T.currentTask ∧ T.taskTableInit.idleTask = T.idleTask := by
  have members : ∀ t : Slot, t ∈ slots.tail.reverse ↔ t ≠ 0 := by decide
  obtain ⟨linked, inits, others, current, idle⟩ := init_slots
    (T := TaskTable.modify { T with taskFreeList := none } 0 fun _ => initTask 0 none) slots.tail.reverse []
    (by decide) rfl
  rw [← taskTableInit] at linked inits others current idle
  refine ⟨fun t => ?_, ⟨_, linked, fun t => ?_⟩, current, idle⟩
  · by_cases zero : t = 0
    · subst zero
      exact ⟨none, (others 0 (by simp [members])).trans modify_slot_same⟩
    · exact inits t ((members t).mpr zero)
  · rw [List.append_nil, List.mem_reverse, members t]

theorem taskTableInit_unused (T : TaskTable) (t : Slot) : (T.taskTableInit.slot t).state = .unused := by
  obtain ⟨link, init⟩ := (taskTableInit_slots T).1 t
  rw [init]
  rfl

theorem taskTableInit_inv (nobody : T.currentTask = none) (noIdle : T.idleTask = none) :
    TableInv T.taskTableInit := by
  obtain ⟨all, ⟨nodes, linked, exactly⟩, current, idle⟩ := taskTableInit_slots T
  refine ⟨⟨nodes, linked, fun t => ?_⟩, fun t => ?_, taskTableInit_unused T 0, fun t isCurrent => ?_,
    idle.trans noIdle⟩
  · rw [exactly t]
    simp [taskTableInit_unused T t]
  · obtain ⟨link, init⟩ := all t
    rw [init]
    exact ⟨rfl, by simp [initTask], by simp [initTask], by simp [initTask], by simp [initTask], by simp [initTask]⟩
  · rw [current, nobody] at isCurrent
    cases isCurrent

theorem run_tableInv {k₀ k : Kernel} {events : List Event} {allowed : Kernel → Action → Prop}
    (booted : Booted k₀) (run : Run step allowed k₀ events k) : TableInv k.tasks := by
  obtain ⟨T, nobody, noIdle, isInit⟩ := booted
  refine run.invariant (fun _ k => TableInv k.tasks) (isInit ▸ taskTableInit_inv nobody noIdle) ?_
  exact fun _ _ _ _ _ inv _ did => step_tableInv inv did

/-- **The task-table invariant.** After any run from boot the free list is finite
and exactly the unused slots 1 to 63, ids are indices, at most one slot runs and
it is the current one, block reasons go with being blocked; and a creation that
fails leaves the whole table as it was. -/
theorem task_table_invariant {k₀ k : Kernel} {events : List Event} (booted : Booted k₀)
    (run : Run step (fun _ _ => True) k₀ events k) :
    (∃ nodes, Chain.Linked (fun t => (k.tasks.slot t).nextFree) k.tasks.taskFreeList nodes ∧ nodes.Nodup ∧
      ∀ t, t ∈ nodes ↔ (k.tasks.slot t).state = .unused ∧ t ≠ 0) ∧
    (∀ t, (k.tasks.slot t).taskId = BitVec.ofNat 64 t.val) ∧
    (∀ t, (k.tasks.slot t).state = .running → k.tasks.currentTask = some t ∧
      ∀ u, (k.tasks.slot u).state = .running → u = t) ∧
    (∀ t, (k.tasks.slot t).state = .blocked → (k.tasks.slot t).blockReason ≠ .none) ∧
    (∀ t, (k.tasks.slot t).state = .runnable ∨ (k.tasks.slot t).state = .running →
      (k.tasks.slot t).blockReason = .none) ∧
    ((taskCreate k).2 = none → (taskCreate k).1.tasks = k.tasks) ∧
    (∀ entry, (taskCreateKernel k entry).2 = none → (taskCreateKernel k entry).1.tasks = k.tasks) ∧
    ∀ self pml4 regs, k.tasks.currentTask = some self → (taskFork k self pml4 regs).2 = none →
      (taskFork k self pml4 regs).1.tasks = k.tasks := by
  have inv := run_tableInv booted run
  obtain ⟨nodes, linked, exactly⟩ := inv.free
  refine ⟨⟨nodes, linked, Chain.linked_nodup linked, exactly⟩, fun t => (inv.slots t).id, fun t running => ?_,
    fun t => (inv.slots t).blocked, fun t => (inv.slots t).ready, fun failed => ?_, fun entry failed => ?_,
    fun self pml4 regs current failed => ?_⟩
  · have current := (inv.slots t).running running
    refine ⟨current, fun u alsoRunning => ?_⟩
    have current' := (inv.slots u).running alsoRunning
    exact (Option.some.inj (current.symm.trans current')).symm
  · have creation := taskCreate_creation inv.clean
    rw [failed] at creation
    exact creation.unchanged
  · have creation := taskCreateKernel_creation inv.clean entry
    rw [failed] at creation
    exact creation.unchanged
  · have creation := taskFork_creation inv.clean (inv.headNotCurrent current) pml4 regs
    rw [failed] at creation
    exact creation.unchanged

/-- A kernel with cleared memory and some free frames, right after boot. -/
def bootKernel (frames : Nat) : Kernel where
  phys := PageAllocProofs.clearedPhys 1 frames
  cr3 := 0
  rsp0 := 0
  gTicks := 0
  symbols := ⟨0, 0⟩
  tasks := TaskTable.taskTableInit ⟨fun t => initTask t none, none, none, none, fun _ => .fresh⟩

theorem bootKernel_booted (frames : Nat) : Booted (bootKernel frames) := ⟨_, rfl, rfl, rfl⟩

/-- The registers of a system call with up to three arguments. -/
def callRegs (number rdi rsi rdx : U64) : SyscallRegs :=
  ⟨number, 0, 0, rdx, rsi, rdi, 0, 0, 0, 0, 0, 0, 0, 0, 0, 0, 0, 0, 0, 0⟩

/-- A system call of the current task with one argument. -/
def call (number rdi : U64) : Action := .syscall (callRegs number rdi 0 0)

/-- As many ticks as a time slice has. -/
def slice : List Action := List.replicate 20 .tick

/-- Boot code up to the first user task, and what that task then does. -/
def started (calls : List Action) : List Action := [.create, .prepare 1 0 0, .start 1] ++ calls

/-- The first task forks, waits, and reaps its child. -/
def forkAndWait : List Action :=
  [call SYS_FORK 0, call SYS_WAIT IPC_ANY_SENDER, call SYS_EXIT 0] ++ slice ++ [.resume]

/-- With four free frames the first task forks, and reaps its child, whose slot
goes back to the free list. Then there is no frame for a second child. -/
theorem task_table_invariant_second : ∃ k events, Run step (fun _ _ => True) (bootKernel 4) events k ∧
    events = [.forked 1 2, .ret 1 2, .blocked 1 .onWait IPC_ANY_SENDER, .exited 2, .woken 1, .reaped 1 2, .ret 1 2] ∧
    (∃ nodes, Chain.Linked (fun t => (k.tasks.slot t).nextFree) k.tasks.taskFreeList nodes ∧ 2 ∈ nodes) ∧
    (taskFork k 1 1 (callRegs SYS_FORK 0 0 0)).2 = none ∧
    (taskFork k 1 1 (callRegs SYS_FORK 0 0 0)).1.tasks = k.tasks := by
  have ran : (exec (fun _ _ => true) step (bootKernel 4) (started forkAndWait)).map (fun out => (out.2,
      (out.1.tasks.slot 2).state, out.1.tasks.currentTask, (taskFork out.1 1 1 (callRegs SYS_FORK 0 0 0)).2)) =
      some ([.forked 1 2, .ret 1 2, .blocked 1 .onWait IPC_ANY_SENDER, .exited 2, .woken 1, .reaped 1 2, .ret 1 2],
        .unused, some 1, none) := by
    decide +kernel
  obtain ⟨⟨k, events⟩, did, now⟩ := Option.map_eq_some_iff.mp ran
  simp only [Prod.mk.injEq] at now
  obtain ⟨trace, unused, current, failed⟩ := now
  have run : Run step (fun _ _ => True) (bootKernel 4) events k := run_of_exec (fun _ _ _ _ => trivial) did
  obtain ⟨⟨nodes, linked, _, exactly⟩, _, _, _, _, _, _, forks⟩ := task_table_invariant (bootKernel_booted 4) run
  exact ⟨k, events, run, trace, ⟨nodes, linked, (exactly 2).mpr ⟨unused, by decide⟩⟩, failed, forks 1 1 _ current failed⟩

end HobbyKernel.TaskInvariant
