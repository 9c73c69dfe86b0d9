import HobbyKernel.TaskInvariant

/-! No child exit is lost. A task that is blocked in `sys_wait` always has a
child it waits for, and that child is not dead: it blocks only after looking,
and whoever could change that wakes it. -/
namespace HobbyKernel.WaitProofs
open TaskTable TaskEffects TaskInvariant Runs

/-- Task `t` is blocked in `sys_wait`. -/
def Waiting (T : TaskTable) (t : Slot) : Prop :=
  (T.slot t).state = .blocked ∧ (T.slot t).blockReason = .onWait

/-- Task `c` is a child that `t` accepts. -/
def Awaited (T : TaskTable) (t c : Slot) : Prop :=
  isChild (T.slot t).taskId (T.slot t).ipcPeer (T.slot c) = true

structure WaitInv (T : TaskTable) : Prop where
  inside : ∀ t, Waiting T t → T.control t = .inWait (T.slot t).ipcPeer
  child : ∀ t, Waiting T t → ∃ c, Awaited T t c
  alive : ∀ t c, Waiting T t → Awaited T t c → (T.slot c).state ≠ .dead

variable {T T' : TaskTable} {t u c self next : Slot} {events : List Event}

/-- A task goes on being whose child it is. -/
structure SameChild (old new : Task) : Prop where
  taskId : new.taskId = old.taskId
  parentId : new.parentId = old.parentId
  used : new.state ≠ .unused ↔ old.state ≠ .unused

theorem SameChild.isChild {old new : Task} (same : SameChild old new) (selfId childId : U64) :
    isChild selfId childId new = isChild selfId childId old := by
  have used : decide (new.state ≠ .unused) = decide (old.state ≠ .unused) := decide_eq_decide.mpr same.used
  unfold HobbyKernel.isChild
  rw [same.taskId, same.parentId, used]

/-- Nobody's place in the family changes. -/
def SameFamily (T T' : TaskTable) : Prop := ∀ c, SameChild (T.slot c) (T'.slot c)

theorem SameFamily.refl (T : TaskTable) : SameFamily T T := fun _ => ⟨rfl, rfl, Iff.rfl⟩

theorem SameFamily.trans {T'' : TaskTable} (first : SameFamily T T') (second : SameFamily T' T'') :
    SameFamily T T'' :=
  fun c => ⟨(second c).taskId.trans (first c).taskId, (second c).parentId.trans (first c).parentId,
    (second c).used.trans (first c).used⟩

theorem SameFamily.modify {f : Task → Task} (kept : SameChild (T.slot t) (f (T.slot t))) :
    SameFamily T (T.modify t f) := by
  intro c
  by_cases isT : c = t
  · subst isT
    rw [modify_slot_same]
    exact kept
  · rw [modify_slot_other isT]
    exact ⟨rfl, rfl, Iff.rfl⟩

theorem sameFamily_block {reason : BlockReason} {peer buf len : U64} (used : (T.slot self).state ≠ .unused) :
    SameFamily T (T.block self reason peer buf len) :=
  .modify ⟨rfl, rfl, by simp [used]⟩

theorem sameFamily_exit (code : U64) (used : (T.slot self).state ≠ .unused) : SameFamily T (T.exit self code) := by
  have marked : SameFamily T (T.modify self fun task => { task with exitCode := code, state := .dead }) :=
    .modify ⟨rfl, rfl, by simp [used]⟩
  exact marked

theorem sameFamily_wake (used : (T.slot t).state ≠ .unused) : SameFamily T (T.taskWake t) :=
  .modify ⟨rfl, rfl, by simp [used]⟩

theorem sameFamily_switchTo (runnable : (T.slot next).state = .runnable) : SameFamily T (T.switchTo next) := by
  have marked : SameFamily T (T.modify next fun task => { task with state := .running }) :=
    .modify ⟨rfl, rfl, by simp [runnable]⟩
  exact marked

theorem sameFamily_preempt : SameFamily T (T.preempt self) := by
  unfold TaskTable.preempt
  split
  · rename_i running
    exact .modify ⟨rfl, rfl, by simp [running]⟩
  · exact .refl T

/-- What is needed of a task that has just blocked in `sys_wait`. -/
def WaitsWell (T : TaskTable) (t : Slot) : Prop :=
  T.control t = .inWait (T.slot t).ipcPeer ∧ (∃ c, Awaited T t c) ∧ ∀ c, Awaited T t c → (T.slot c).state ≠ .dead

/-- Tasks that still wait keep their children, and get no dead ones. -/
theorem WaitInv.carry (inv : WaitInv T)
    (waiting : ∀ t, Waiting T' t →
      (Waiting T t ∧ T'.slot t = T.slot t ∧ T'.control t = T.control t) ∨ WaitsWell T' t)
    (children : ∀ t c, Waiting T t → Waiting T' t → Awaited T t c →
      SameChild (T.slot c) (T'.slot c) ∧ ((T.slot c).state ≠ .dead → (T'.slot c).state ≠ .dead))
    (strangers : ∀ t c, Waiting T' t → T'.slot t = T.slot t → ¬ Awaited T t c → Awaited T' t c →
      (T'.slot c).state ≠ .dead) : WaitInv T' := by
  refine ⟨fun t now => ?_, fun t now => ?_, fun t c now awaited => ?_⟩
  · rcases waiting t now with ⟨before, slot, control⟩ | well
    · rw [control, slot]
      exact inv.inside t before
    · exact well.1
  · rcases waiting t now with ⟨before, slot, _⟩ | well
    · obtain ⟨c, awaited⟩ := inv.child t before
      refine ⟨c, ?_⟩
      rw [Awaited, slot, (children t c before now awaited).1.isChild]
      exact awaited
    · exact well.2.1
  · rcases waiting t now with ⟨before, slot, _⟩ | well
    · by_cases old : Awaited T t c
      · exact (children t c before now old).2 (inv.alive t c before old)
      · exact strangers t c now slot old awaited
    · exact well.2.2 c awaited

/-- One slot changes; its task goes on living as the child it was. -/
theorem WaitInv.change (inv : WaitInv T) (slot : ∀ u, u ≠ t → T'.slot u = T.slot u)
    (control : ∀ u, u ≠ t → T'.control u = T.control u)
    (wellOrAwake : Waiting T' t → WaitsWell T' t)
    (kept : (T.slot t).state ≠ .unused → SameChild (T.slot t) (T'.slot t)) (alive : (T'.slot t).state ≠ .dead) :
    WaitInv T' := by
  refine inv.carry (fun u now => ?_) (fun u c _ _ awaited => ?_) (fun u c _ same old awaited => ?_)
  · by_cases isT : u = t
    · exact .inr (isT ▸ wellOrAwake (isT ▸ now))
    · rw [Waiting, slot u isT] at now
      exact .inl ⟨now, slot u isT, control u isT⟩
  · by_cases isT : c = t
    · subst isT
      have used : (T.slot c).state ≠ .unused := by
        intro unused
        simp [Awaited, isChild, unused] at awaited
      exact ⟨kept used, fun _ => alive⟩
    · rw [slot c isT]
      exact ⟨⟨rfl, rfl, Iff.rfl⟩, id⟩
  · by_cases isT : c = t
    · rw [isT]
      exact alive
    · rw [Awaited, same, slot c isT] at awaited
      exact absurd awaited old

theorem WaitInv.spawn {task : Task} {c : Control} (inv : WaitInv T) (unused : (T.slot t).state = .unused)
    (runnable : task.state = .runnable) : WaitInv (T.spawn t task c) := by
  refine inv.change (t := t) (fun u other => spawn_slot_other other) (fun u other => spawn_control_other other) ?_ ?_ ?_
  · rintro ⟨blocked, _⟩
    rw [spawn_slot_same, runnable] at blocked
    cases blocked
  · exact fun used => absurd unused used
  · rw [spawn_slot_same, runnable]
    decide

theorem WaitInv.wake (inv : WaitInv T) (used : (T.slot t).state ≠ .unused) : WaitInv (T.taskWake t) := by
  refine inv.change (t := t) (fun u other => modify_slot_other other) (fun u _ => rfl) ?_
    (fun _ => sameFamily_wake used t) (by simp [taskWake])
  rintro ⟨blocked, _⟩
  simp [taskWake] at blocked

theorem WaitInv.switchTo (inv : WaitInv T) (runnable : (T.slot next).state = .runnable) :
    WaitInv (T.switchTo next) := by
  refine inv.change (t := next) (fun u other => switchTo_slot_other other) (fun u _ => rfl) ?_
    (fun _ => sameFamily_switchTo runnable next) (by simp)
  rintro ⟨blocked, _⟩
  rw [switchTo_slot_same] at blocked
  cases blocked

/-- Blocking keeps the invariant: whoever blocks in `sys_wait` has just seen a
child of his, and none of them dead. -/
theorem WaitInv.block {s : Phys} {reason : BlockReason} {peer buf len : U64} {resume d : Control} (inv : WaitInv T)
    (cause : Cause s T self reason peer buf len resume) (used : (T.slot self).state ≠ .unused)
    (goesOn : reason = .onWait → d = resume) :
    WaitInv ((T.block self reason peer buf len).resumeAt self d) := by
  have kept : SameFamily T ((T.block self reason peer buf len).resumeAt self d) := sameFamily_block used
  refine inv.change (t := self) (fun u other => Function.update_of_ne other _ _)
    (fun u other => resumeAt_control_other other) ?_ (fun _ => kept self) (by simp [TaskTable.block])
  rintro ⟨_, isWait⟩
  simp only [TaskTable.block, resumeAt_slot, modify_slot_same] at isWait
  subst isWait
  cases cause with
  | wait alive child =>
    have awaited : ∀ c, Awaited ((T.block self .onWait peer 0 0).resumeAt self d) self c ↔
        isChild (T.slot self).taskId peer (T.slot c) = true := by
      intro c
      rw [Awaited, (kept c).isChild]
      simp [TaskTable.block]
    refine ⟨?_, ?_, fun c isAwaited => ?_⟩
    · rw [goesOn rfl]
      simp [TaskTable.block]
    · obtain ⟨c, mine⟩ := child
      exact ⟨c, (awaited c).mpr mine⟩
    · by_cases isSelf : c = self
      · subst isSelf
        simp [TaskTable.block]
      · simp only [TaskTable.block, resumeAt_slot, modify_slot_other isSelf]
        exact alive c ((awaited c).mp isAwaited)

/-- Whoever waits for a task that exits is found by the scan. -/
theorem awaitsChild_of_awaited (code : U64) (waiting : Waiting T t) (awaited : Awaited T t self) (other : t ≠ self) :
    awaitsChild ((T.exit self code).slot self) ((T.exit self code).slot t) = true := by
  simp only [Awaited, isChild, Bool.and_eq_true, Bool.or_eq_true, decide_eq_true_eq] at awaited
  obtain ⟨⟨_, parent⟩, accepted⟩ := awaited
  simp only [TaskTable.exit, resumeAt_slot, modify_slot_same, modify_slot_other other, awaitsChild, waiting.1, waiting.2,
    parent, decide_true, Bool.true_and, Bool.or_eq_true, decide_eq_true_eq]
  exact accepted.imp_right Eq.symm

/-- A task exits, and nobody who goes on waiting waits for it. -/
theorem WaitInv.exit (code : U64) (inv : WaitInv T) (used : (T.slot self).state ≠ .unused)
    (slot : ∀ u, Waiting T' u → T'.slot u = (T.exit self code).slot u)
    (control : ∀ u, Waiting T' u → T'.control u = (T.exit self code).control u)
    (others : ∀ c, SameChild ((T.exit self code).slot c) (T'.slot c) ∧
      (((T.exit self code).slot c).state ≠ .dead → (T'.slot c).state ≠ .dead))
    (unawaited : ∀ u, Waiting T' u → Waiting T u → ¬ Awaited T u self) : WaitInv T' := by
  have kept : SameFamily T (T.exit self code) := sameFamily_exit code used
  have notSelf : ∀ u, Waiting T' u → u ≠ self := by
    rintro u now isSelf
    subst isSelf
    have := now.1
    rw [slot u now] at this
    simp [TaskTable.exit] at this
  have same : ∀ u, Waiting T' u → T'.slot u = T.slot u := by
    intro u now
    rw [slot u now]
    simp [TaskTable.exit, notSelf u now]
  refine inv.carry (fun u now => ?_) (fun u c before now awaited => ?_) (fun u c now slotSame old awaited => ?_)
  · refine .inl ⟨?_, same u now, ?_⟩
    · rw [Waiting, same u now] at now
      exact now
    · rw [control u now]
      simp [TaskTable.exit, notSelf u now]
  · have isOther : c ≠ self := fun isSelf => unawaited u now before (isSelf ▸ awaited)
    have exited : (T.exit self code).slot c = T.slot c := by simp [TaskTable.exit, isOther]
    have both := others c
    rw [exited] at both
    exact both
  · rw [Awaited, slotSame, (others c).1.isChild, (kept c).isChild] at awaited
    exact absurd awaited old

/-- Actions of a running system: nobody destroys a task from outside. -/
def NoDestroy (_ : Kernel) (a : Action) : Prop := ∀ t, a ≠ .destroy t

theorem preempt_slot_other (other : u ≠ self) : (T.preempt self).slot u = T.slot u := by
  unfold TaskTable.preempt
  split
  · exact modify_slot_other other
  · rfl

theorem WaitInv.preempt (inv : WaitInv T) : WaitInv (T.preempt self) := by
  unfold TaskTable.preempt
  split
  · rename_i running
    refine inv.change (t := self) (fun u other => modify_slot_other other) (fun u _ => rfl) ?_ (fun _ => ?_) (by simp)
    · rintro ⟨blocked, _⟩
      simp at blocked
    · rw [modify_slot_same]
      exact ⟨rfl, rfl, by simp [running]⟩
  · exact inv

/-- A task that is not blocked in `sys_wait` goes on anywhere. -/
theorem WaitInv.resumeAt {d : Control} (inv : WaitInv T) (awake : ¬ Waiting T self) :
    WaitInv (T.resumeAt self d) := by
  refine inv.carry (fun u now => .inl ⟨now, rfl, resumeAt_control_other ?_⟩)
    (fun _ _ _ _ _ => ⟨⟨rfl, rfl, Iff.rfl⟩, id⟩) (fun _ _ _ _ old awaited => absurd awaited old)
  rintro rfl
  exact awake now

/-- The children of a waiting task are not reaped: none of them is dead. -/
theorem WaitInv.destroy (inv : WaitInv T) (dead : (T.slot t).state = .dead) : WaitInv (T.taskDestroy t) := by
  have used : (T.slot t).state ≠ .unused := by rw [dead]; decide
  have awake : ∀ u, Waiting (T.taskDestroy t) u → u ≠ t := by
    rintro u now rfl
    have := now.1
    rw [taskDestroy_slot_same used] at this
    cases this
  refine inv.carry (fun u now => ?_) (fun u c before _ awaited => ?_) (fun u c now same old awaited => ?_)
  · have slot := taskDestroy_slot_other (T := T) (awake u now)
    rw [Waiting, slot] at now
    exact .inl ⟨now, slot, by rw [taskDestroy_control]⟩
  · have other : c ≠ t := by
      rintro rfl
      exact inv.alive u c before awaited dead
    rw [taskDestroy_slot_other other]
    exact ⟨⟨rfl, rfl, Iff.rfl⟩, id⟩
  · by_cases isT : c = t
    · rw [isT, taskDestroy_slot_same used]
      simp
    · rw [Awaited, same, taskDestroy_slot_other isT] at awaited
      exact absurd awaited old

/-- In `sys_wait`, a task that counts as waiting has a living child left. -/
theorem WaitInv.awake {childId : U64} (inv : WaitInv T)
    (inside : T.control self = .user ∨ T.control self = .inWait childId)
    (settled : (∃ c, isChild (T.slot self).taskId childId (T.slot c) = true ∧ (T.slot c).state = .dead) ∨
      ∀ c, isChild (T.slot self).taskId childId (T.slot c) = false) : ¬ Waiting T self := by
  intro waiting
  have control := inv.inside self waiting
  rcases inside with user | inWait
  · rw [user] at control
    cases control
  · rw [inWait] at control
    cases control
    rcases settled with ⟨c, mine, dead⟩ | none
    · exact inv.alive self c waiting mine dead
    · obtain ⟨c, awaited⟩ := inv.child self waiting
      rw [Awaited, none c] at awaited
      cases awaited

theorem effect_waitInv {s : Phys} {k : Kernel} {a : Action} (table : TableInv T) (inv : WaitInv T)
    (kept : NoDestroy k a) (effect : Effect s T a events T') : WaitInv T' := by
  cases effect with
  | quiet => exact inv
  | returned => exact inv
  | create free made => exact inv.spawn (table.headUnused free).1 made.state
  | createKernel _ free made => exact inv.spawn (table.headUnused free).1 made.state
  | fork _ _ _ free made => exact inv.spawn (table.headUnused free).1 made.state
  | destroy t => exact absurd rfl (kept t)
  | prepare t _ _ _ runnable =>
    refine inv.change (t := t) (fun u other => Function.update_of_ne other _ _)
      (fun u other => resumeAt_control_other other) ?_ (fun _ => ?_) (by simp [runnable])
    · rintro ⟨blocked, _⟩
      simp [runnable] at blocked
    · simp only [resumeAt_slot, modify_slot_same]
      exact ⟨rfl, rfl, Iff.rfl⟩
  | start => exact ⟨inv.inside, inv.child, inv.alive⟩
  | deliver _ _ _ _ _ awaits =>
    simp only [awaitsSender, Bool.and_eq_true, decide_eq_true_eq] at awaits
    exact inv.wake (by rw [awaits.1.1]; decide)
  | @collect _ sender _ _ value _ _ _ _ offers =>
    simp only [offersMessage, Bool.and_eq_true, decide_eq_true_eq] at offers
    obtain ⟨⟨⟨⟨blocked, onSend⟩, _⟩, _⟩, _⟩ := offers
    have measured : WaitInv (T.modify sender fun task => { task with ipcLen := value }) := by
      refine inv.change (t := sender) (fun u other => modify_slot_other other) (fun u _ => rfl) ?_ (fun _ => ?_)
        (by simp [blocked])
      · rintro ⟨_, onWait⟩
        simp [onSend] at onWait
      · rw [modify_slot_same]
        exact ⟨rfl, rfl, Iff.rfl⟩
    exact measured.wake (by simp [blocked])
  | @blockAlone self reason _ regs current user call cause =>
    have notWait : reason ≠ .onWait := by
      rintro rfl
      exact call
    have blocked := inv.block (d := .user) cause (table.currentUsed self current) (fun isWait => absurd isWait notWait)
    rwa [resumeAt_self (show (T.block self reason regs.rdi regs.rsi (clampLen regs.rdx)).control self = .user
      from user)] at blocked
  | spin _ current _ cause => exact inv.block cause (table.currentUsed _ current) (fun _ => rfl)
  | blockSwitch _ current _ cause other picked =>
    exact (inv.block cause (table.currentUsed _ current) (fun _ => rfl)).switchTo
      (picked_runnable (T := TaskTable.block ..) table.noIdle picked other)
  | @exitUnseen self _ code current _ unseen =>
    refine inv.exit code (table.currentUsed self current) (fun _ _ => rfl) (fun _ _ => rfl)
      (fun _ => ⟨⟨rfl, rfl, Iff.rfl⟩, id⟩) (fun u now before awaited => ?_)
    have other : u ≠ self := by
      rintro rfl
      have := now.1
      simp [TaskTable.exit] at this
    have found := awaitsChild_of_awaited code before awaited other
    rw [unseen u] at found
    cases found
  | @exit self waiter _ code current _ waits =>
    have exited := table.exit current code
    have matched := waits
    simp only [awaitsChild, Bool.and_eq_true, decide_eq_true_eq] at matched
    have blocked := matched.1.1.1
    have notWaiter : ∀ u, Waiting ((T.exit self code).taskWake waiter) u → u ≠ waiter := by
      rintro u now rfl
      have := now.1
      simp [taskWake] at this
    refine inv.exit code (table.currentUsed self current)
      (fun u now => modify_slot_other (notWaiter u now)) (fun _ _ => rfl) (fun c => ?_) (fun u now before awaited => ?_)
    · by_cases isWaiter : c = waiter
      · subst isWaiter
        rw [taskWake, modify_slot_same]
        exact ⟨⟨rfl, rfl, by simp [blocked]⟩, by simp⟩
      · rw [taskWake, modify_slot_other isWaiter]
        exact ⟨⟨rfl, rfl, Iff.rfl⟩, id⟩
    · have other : u ≠ self := by
        rintro rfl
        have := now.1
        rw [taskWake, modify_slot_other (notWaiter u now)] at this
        simp [TaskTable.exit] at this
      -- Only one task has the parent's id, and that one was woken.
      have found := awaitsChild_of_awaited code before awaited other
      simp only [awaitsChild, Bool.and_eq_true, decide_eq_true_eq] at found
      exact notWaiter u now (exited.id_inj (found.1.2.trans matched.1.2.symm))
  | @reap self child childId _ current inside mine dead =>
    have awake : ¬ Waiting (T.taskDestroy child) self := by
      intro waiting
      have isOther : self ≠ child := by
        rintro rfl
        have := waiting.1
        rw [taskDestroy_slot_same (by rw [dead]; decide)] at this
        cases this
      rw [Waiting, taskDestroy_slot_other isOther] at waiting
      exact inv.awake inside (.inl ⟨child, mine, dead⟩) waiting
    exact (inv.destroy dead).resumeAt awake
  | childless _ _ inside none => exact inv.resumeAt (inv.awake inside (.inr none))
  | @resumed self _ inside =>
    refine inv.resumeAt (fun waiting => ?_)
    have control := inv.inside self waiting
    rcases inside with send | recv
    · rw [send] at control
      cases control
    · rw [recv] at control
      cases control
  | @switch prev next current _ picked other =>
    refine inv.preempt.switchTo ?_
    rw [preempt_slot_other other]
    exact picked_runnable table.noIdle picked other

theorem run_waitInv {k₀ k : Kernel} (booted : Booted k₀) (run : Run step NoDestroy k₀ events k) :
    WaitInv k.tasks := by
  obtain ⟨T, nobody, noIdle, isInit⟩ := booted
  have initial := taskTableInit_inv nobody noIdle
  have asleep : ∀ t, ¬ Waiting T.taskTableInit t := by
    rintro t ⟨blocked, _⟩
    rw [taskTableInit_unused] at blocked
    cases blocked
  have both := run.invariant (fun _ k => TableInv k.tasks ∧ WaitInv k.tasks) ⟨isInit ▸ initial, ?_⟩ ?_
  · exact both.2
  · rw [isInit]
    exact ⟨fun t waiting => absurd waiting (asleep t), fun t waiting => absurd waiting (asleep t),
      fun t _ waiting => absurd waiting (asleep t)⟩
  · rintro _ k a k' new ⟨table, inv⟩ may did
    exact ⟨step_tableInv table did, effect_waitInv table inv may
      (step_effect table.clean (fun _ current => table.headNotCurrent current) did)⟩

/-- The task that is current calls `sys_wait`, or goes on in it. -/
def InWait (k : Kernel) (self : Slot) (childId : U64) (a : Action) : Prop :=
  (∃ regs, a = .syscall regs ∧ regs.rax = SYS_WAIT ∧ regs.rdi = childId) ∨
    (a = .resume ∧ k.tasks.control self = .inWait childId)

theorem inWait_round {k k' : Kernel} {childId : U64} {a : Action} (current : k.tasks.currentTask = some self)
    (inWait : InWait k self childId a) (did : step k a = some (k', events)) :
    returnTo self (sysWaitRound k self childId) = some (k', events) := by
  rcases inWait with ⟨regs, rfl, isWait, rfl⟩ | ⟨rfl, control⟩
  · simp only [step, current] at did
    split at did
    · simpa [syscallDispatch, isWait, SYS_WAIT, SYS_WRITE, SYS_EXIT, SYS_FORK, SYS_SEND, SYS_RECV, sysWait, current]
        using did
    · cases did
  · simpa only [step, current, control] using did

/-- A round that returns has reaped a dead child, or there is no child. -/
theorem sysWaitRound_returned {k k' : Kernel} {childId value : U64}
    (did : returnTo self (sysWaitRound k self childId) = some (k', events)) (returned : .ret self value ∈ events) :
    (∃ child, isChild (k.tasks.slot self).taskId childId (k.tasks.slot child) = true ∧
      (k.tasks.slot child).state = .dead ∧ value = (k.tasks.slot child).taskId ∧
      events = [.reaped self child, .ret self value]) ∨
    (value = SYS_ERROR ∧ ∀ c, isChild (k.tasks.slot self).taskId childId (k.tasks.slot c) = false) := by
  simp only [sysWaitRound] at did
  split at did
  · rename_i child found
    cases did
    have matched := find_slots_some found
    simp only [Bool.and_eq_true, decide_eq_true_eq] at matched
    have isId : value = (k.tasks.slot child).taskId := by simpa using returned
    subst isId
    exact .inl ⟨child, matched.1, matched.2, rfl, rfl⟩
  · split at did
    · rename_i none
      cases did
      rw [Bool.not_eq_true', List.any_eq_false] at none
      exact .inr ⟨by simpa using returned, fun c => Bool.eq_false_iff.mpr (none c (List.mem_finRange c))⟩
    · rcases taskBlockAndSwitch_cases k self (.inWait childId) .onWait childId 0 0 with ⟨_, ran⟩ | ⟨next, _, _, ran⟩
      · rw [ran] at did
        cases did
        simp at returned
      · rw [ran] at did
        cases did
        simp at returned

/-- Ids are small, so an error return is told from the id of a child. -/
theorem id_lt (table : TableInv T) (t : Slot) : (T.slot t).taskId.toNat < 64 := by
  have bound : t.val < 64 := t.isLt
  rw [(table.slots t).id, BitVec.toNat_ofNat]
  omega

/-- **No lost child exit.** In every state a running system reaches, each task
blocked in `sys_wait` has a matching child, and none of those is dead; and
`sys_wait` returns -1 only to a task without a matching child. -/
theorem no_lost_exit {k₀ k : Kernel} (booted : Booted k₀) (run : Run step NoDestroy k₀ events k) :
    (∀ t, (k.tasks.slot t).state = .blocked → (k.tasks.slot t).blockReason = .onWait →
      (∃ c, (k.tasks.slot c).state ≠ .unused ∧ (k.tasks.slot c).parentId = (k.tasks.slot t).taskId ∧
        ((k.tasks.slot t).ipcPeer = IPC_ANY_SENDER ∨ (k.tasks.slot c).taskId = (k.tasks.slot t).ipcPeer)) ∧
      ∀ c, (k.tasks.slot c).state ≠ .unused → (k.tasks.slot c).parentId = (k.tasks.slot t).taskId →
        ((k.tasks.slot t).ipcPeer = IPC_ANY_SENDER ∨ (k.tasks.slot c).taskId = (k.tasks.slot t).ipcPeer) →
        (k.tasks.slot c).state ≠ .dead) ∧
    ∀ self childId a k' new, k.tasks.currentTask = some self → InWait k self childId a →
      step k a = some (k', new) → Event.ret self SYS_ERROR ∈ new →
      ∀ c, (k.tasks.slot c).state ≠ .unused → (k.tasks.slot c).parentId = (k.tasks.slot self).taskId →
        ¬ (childId = IPC_ANY_SENDER ∨ (k.tasks.slot c).taskId = childId) := by
  have inv := run_waitInv booted run
  refine ⟨fun t blocked onWait => ⟨?_, fun c used parent accepted => ?_⟩, ?_⟩
  · obtain ⟨c, awaited⟩ := inv.child t ⟨blocked, onWait⟩
    simp only [Awaited, isChild, Bool.and_eq_true, Bool.or_eq_true, decide_eq_true_eq] at awaited
    exact ⟨c, awaited.1.1, awaited.1.2, awaited.2⟩
  · refine inv.alive t c ⟨blocked, onWait⟩ ?_
    simp only [Awaited, isChild, Bool.and_eq_true, Bool.or_eq_true, decide_eq_true_eq]
    exact ⟨⟨used, parent⟩, accepted⟩
  · intro self childId a k' new current inWait did failed c used parent accepted
    have table := run_tableInv booted run
    rcases sysWaitRound_returned (inWait_round current inWait did) failed with ⟨child, _, _, isId, _⟩ | ⟨_, none⟩
    · have small := id_lt table child
      rw [← isId] at small
      exact absurd small (by decide)
    · have notMine := none c
      simp [isChild, used, parent] at notMine
      exact accepted.elim notMine.1 notMine.2

/-- The first task forks and waits: it blocks, and has a child that is not dead. -/
theorem no_lost_exit_forked :
    ∃ k events, Run step NoDestroy (bootKernel 20) events k ∧ (k.tasks.slot 1).state = .blocked ∧
      ∃ c, (k.tasks.slot c).state ≠ .unused ∧ (k.tasks.slot c).parentId = (k.tasks.slot 1).taskId := by
  have ran : (exec (fun _ _ => true) step (bootKernel 20) (started [call SYS_FORK 0,
      call SYS_WAIT IPC_ANY_SENDER])).map (fun (k, _) =>
        ((k.tasks.slot 1).state, (k.tasks.slot 1).blockReason)) = some (.blocked, .onWait) := by
    decide +kernel
  obtain ⟨⟨k, events⟩, did, now⟩ := Option.map_eq_some_iff.mp ran
  have run : Run step NoDestroy (bootKernel 20) events k :=
    run_of_exec (by simp [started, call, NoDestroy]) did
  obtain ⟨blocked, onWait⟩ := Prod.mk.inj now
  obtain ⟨c, used, parent, _⟩ := ((no_lost_exit (bootKernel_booted 20) run).1 1 blocked onWait).1
  exact ⟨k, events, run, blocked, c, used, parent⟩

end HobbyKernel.WaitProofs
