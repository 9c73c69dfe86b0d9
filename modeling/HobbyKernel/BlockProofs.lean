import HobbyKernel.PickProofs
import HobbyKernel.WaitProofs

/-! A blocked task does not run. `task_block_and_switch` comes back at once when
there is nobody else to run, and then a call returns while its task still counts
as blocked; as long as somebody else is ready, a call that blocks returns only
after a peer has made the copy. -/
namespace HobbyKernel.BlockProofs
open TaskTable TaskEffects TaskInvariant PickProofs WaitProofs Runs

variable {T T' : TaskTable} {t u self next : Slot} {reason : BlockReason} {peerId : U64} {events new : List Event}

/-- The copy that ends a call blocked for this reason. -/
def copyFor (t : Slot) (reason : BlockReason) (peer : Slot) (bytes : List Byte) : Event :=
  if reason = .onSend then .copied t peer bytes else .copied peer t bytes

/-- The peer is the one the call named, or a receiver took any sender. -/
def Accepts (reason : BlockReason) (peerId : U64) (peer : Slot) : Prop :=
  peerId = BitVec.ofNat 64 peer.val ∨ (reason = .onRecv ∧ peerId = IPC_ANY_SENDER)

/-- A peer that the call accepts made the copy and woke the task. -/
def Answered (t : Slot) (reason : BlockReason) (peerId : U64) (since : List Event) : Prop :=
  ∃ before peer bytes after, since = before ++ copyFor t reason peer bytes :: .woken t :: after ∧
    Accepts reason peerId peer

/-- A call that blocked in front of a message returns only after an answer. -/
def ReturnsAnswered (events : List Event) : Prop :=
  Each (fun before e => ∀ t value, e = .ret t value → ∀ reason peerId first since, reason ≠ .onWait →
    before = first ++ .blocked t reason peerId :: since → Answered t reason peerId since) events

/-- The task is blocked in this call. -/
def Pending (T : TaskTable) (t : Slot) (reason : BlockReason) (peerId : U64) : Prop :=
  (T.slot t).state = .blocked ∧ (T.slot t).blockReason = reason ∧ (T.slot t).ipcPeer = peerId

/-- Every call that ever blocked in front of a message is still blocked, or was
answered. -/
def Accounted (events : List Event) (T : TaskTable) : Prop :=
  ∀ t reason peerId first since, reason ≠ .onWait → events = first ++ .blocked t reason peerId :: since →
    Pending T t reason peerId ∨ Answered t reason peerId since

/-- The current task is blocked at most in `sys_wait`. -/
def Awake (T : TaskTable) : Prop :=
  ∀ t, T.currentTask = some t → (T.slot t).state = .blocked → (T.slot t).blockReason = .onWait

/-- A call that has to block finds another task to run. -/
def NeverAlone (k : Kernel) (a : Action) : Prop :=
  NoDestroy k a ∧ ∀ regs self reason resume, a = .syscall regs → k.tasks.currentTask = some self →
    Rendezvous regs reason → Cause k.phys k.tasks self reason regs.rdi regs.rsi (clampLen regs.rdx) resume →
    ∃ t, t ≠ self ∧ (k.tasks.slot t).state = .runnable

theorem Answered.append (answered : Answered t reason peerId events) : Answered t reason peerId (events ++ new) := by
  obtain ⟨before, peer, bytes, after, rfl, accepts⟩ := answered
  exact ⟨before, peer, bytes, after ++ new, by simp, accepts⟩

/-- The scheduler answers with a task that is blocked only if nobody is ready. -/
theorem picked_other (runnable : (T.slot t).state = .runnable) (notReady : (T.slot self).state ≠ .runnable) :
    T.schedulerPickNext (some self) ≠ some self := by
  intro picked
  obtain ⟨next, picked', ready, _⟩ := pick_nearest self runnable
  rw [picked] at picked'
  cases picked'
  exact notReady ready

/-- One slot is written: the current task is not put to sleep by it. -/
theorem Awake.modify {f : Task → Task} (awake : Awake T)
    (kept : (f (T.slot t)).state = .blocked → (f (T.slot t)).blockReason = .onWait ∨
      ((T.slot t).state = .blocked ∧ (f (T.slot t)).blockReason = (T.slot t).blockReason)) :
    Awake (T.modify t f) := by
  intro u current blocked
  by_cases isT : u = t
  · subst isT
    rw [modify_slot_same] at blocked ⊢
    rcases kept blocked with onWait | ⟨before, same⟩
    · exact onWait
    · rw [same]
      exact awake u current before
  · rw [modify_slot_other isT] at blocked ⊢
    exact awake u current blocked

theorem Awake.exit (awake : Awake T) (code : U64) : Awake (T.exit self code) := by
  have marked : Awake (T.modify self fun task => { task with exitCode := code, state := .dead }) :=
    awake.modify (by simp)
  exact marked

theorem Awake.spawn {task : Task} {c : Control} (awake : Awake T) (table : TableInv T)
    (free : T.taskFreeList = some t) : Awake (T.spawn t task c) := by
  intro u current blocked
  have other : u ≠ t := fun same => table.headNotCurrent current (same ▸ free)
  rw [spawn_slot_other other] at blocked ⊢
  exact awake u current blocked

theorem awake_switchTo (T : TaskTable) (next : Slot) : Awake (T.switchTo next) := by
  intro u current blocked
  cases current
  rw [switchTo_slot_same] at blocked
  cases blocked

theorem effect_awake {k : Kernel} {a : Action} (table : TableInv k.tasks) (awake : Awake k.tasks)
    (may : NeverAlone k a) (effect : Effect k.phys k.tasks a new T') : Awake T' := by
  cases effect with
  | quiet => exact awake
  | returned => exact awake
  | childless => exact awake
  | resumed => exact awake
  | create free => exact awake.spawn table free
  | createKernel _ free => exact awake.spawn table free
  | fork _ _ _ free => exact awake.spawn table free
  | destroy t => exact absurd rfl (may.1 t)
  | prepare t _ _ rsp runnable =>
    exact awake.modify (t := t) (f := fun task => { task with contextRsp := rsp }) (by simp [runnable])
  | start t _ runnable =>
    intro u current blocked
    cases current
    exact absurd (runnable.symm.trans blocked) (by decide)
  | deliver => exact awake.modify (by simp)
  | @collect _ sender _ _ value =>
    have measured : Awake (k.tasks.modify sender fun task => { task with ipcLen := value }) :=
      awake.modify (fun blocked => .inr ⟨blocked, rfl⟩)
    exact measured.modify (by simp)
  | @blockAlone self reason _ regs current _ call cause alone =>
    obtain ⟨t, other, runnable⟩ := may.2 regs self reason _ rfl current call cause
    refine absurd alone (picked_other (t := t) ?_ ?_)
    · simp [TaskTable.block, other, runnable]
    · simp [TaskTable.block]
  | @spin self peer _ current =>
    have blocked : Awake (k.tasks.block self .onWait peer 0 0) := awake.modify (fun _ => .inl rfl)
    exact blocked
  | blockSwitch => exact awake_switchTo _ _
  | exit _ code => exact (awake.exit code).modify (by simp)
  | exitUnseen _ code => exact awake.exit code
  | @reap self child _ _ current _ _ dead =>
    intro u isCurrent blocked
    have other : u ≠ child := by
      rintro rfl
      rw [resumeAt_slot, taskDestroy_slot_same (by rw [dead]; decide)] at blocked
      cases blocked
    rw [resumeAt_slot, taskDestroy_slot_other other] at blocked ⊢
    rw [resumeAt_currentTask, taskDestroy_currentTask] at isCurrent
    exact awake u isCurrent blocked
  | switch => exact awake_switchTo _ _

/-- The task that returns is the current one, and it has not just blocked. -/
theorem effect_ret {k : Kernel} {a : Action} {value : U64} (may : NeverAlone k a)
    (effect : Effect k.phys k.tasks a new T') (returned : .ret t value ∈ new) :
    k.tasks.currentTask = some t ∧ ∀ u reason peerId, .blocked u reason peerId ∉ new := by
  cases effect with
  | returned _ _ current => simp_all
  | fork _ current => simp_all
  | deliver _ _ _ current => simp_all
  | collect _ _ _ current => simp_all
  | reap _ current => simp_all
  | childless _ current => simp_all
  | resumed current => simp_all
  | @blockAlone self reason _ regs current _ call cause alone =>
    obtain ⟨u, other, runnable⟩ := may.2 regs self reason _ rfl current call cause
    refine absurd alone (picked_other (t := u) ?_ ?_)
    · simp [TaskTable.block, other, runnable]
    · simp [TaskTable.block]
  | quiet | create | createKernel | destroy | prepare | start | spin | blockSwitch | exit | exitUnseen | switch =>
    simp at returned

/-- Whoever has just blocked in front of a message is blocked. -/
theorem effect_blocked {k : Kernel} {a : Action} (effect : Effect k.phys k.tasks a new T')
    (notWait : reason ≠ .onWait) (blocked : .blocked t reason peerId ∈ new) : Pending T' t reason peerId := by
  cases effect with
  | blockAlone =>
    simp only [List.mem_cons, Event.blocked.injEq, reduceCtorEq, List.not_mem_nil, or_false] at blocked
    obtain ⟨rfl, rfl, rfl⟩ := blocked
    simp [Pending, TaskTable.block]
  | spin => simp_all
  | blockSwitch _ _ _ _ other =>
    simp only [List.mem_singleton, Event.blocked.injEq] at blocked
    obtain ⟨rfl, rfl, rfl⟩ := blocked
    simp [Pending, TaskTable.block, other.symm]
  | quiet | create | createKernel | destroy | prepare | start | returned | fork | deliver | collect | exit | exitUnseen
  | reap | childless | resumed | switch => simp at blocked

theorem Pending.of_slot (pending : Pending T t reason peerId) (same : T'.slot t = T.slot t) :
    Pending T' t reason peerId := by
  rw [Pending, same]
  exact pending

theorem Pending.not_ready (pending : Pending T t reason peerId) (ready : (T.slot u).state ≠ .blocked) : t ≠ u :=
  fun same => ready (same ▸ pending.1)

/-- A blocked call stays blocked until it is answered. -/
theorem effect_pending {s : Phys} {k : Kernel} {a : Action} (table : TableInv T) (awake : Awake T)
    (kept : NoDestroy k a) (effect : Effect s T a new T') (notWait : reason ≠ .onWait)
    (pending : Pending T t reason peerId) : Pending T' t reason peerId ∨ Answered t reason peerId new := by
  have notCurrent : ∀ {self}, T.currentTask = some self → t ≠ self := by
    rintro self current rfl
    exact notWait (pending.2.1.symm.trans (awake t current pending.1))
  have notNew : ∀ {u}, T.taskFreeList = some u → t ≠ u := fun free =>
    pending.not_ready (by rw [(table.headUnused free).1]; decide)
  cases effect with
  | quiet => exact .inl pending
  | returned => exact .inl pending
  | childless => exact .inl pending
  | resumed => exact .inl pending
  | start => exact .inl pending
  | create free => exact .inl (pending.of_slot (spawn_slot_other (notNew free)))
  | createKernel _ free => exact .inl (pending.of_slot (spawn_slot_other (notNew free)))
  | fork _ _ _ free => exact .inl (pending.of_slot (spawn_slot_other (notNew free)))
  | destroy t => exact absurd rfl (kept t)
  | prepare u _ _ _ runnable =>
    refine .inl (pending.of_slot ?_)
    rw [resumeAt_slot, modify_slot_other (pending.not_ready (by rw [runnable]; decide))]
  | @deliver self target _ bytes value current _ awaits =>
    by_cases isTarget : t = target
    · subst isTarget
      simp only [awaitsSender, pending.2.1, pending.2.2, Bool.and_eq_true, Bool.or_eq_true, decide_eq_true_eq] at awaits
      obtain ⟨⟨_, rfl⟩, accepts⟩ := awaits
      refine .inr ⟨[], self, bytes, [.ret self value], rfl, ?_⟩
      rw [(table.slots self).id] at accepts
      exact accepts.elim (fun any => .inr ⟨rfl, any⟩) .inl
    · exact .inl (pending.of_slot (modify_slot_other isTarget))
  | @collect self sender _ bytes value current _ _ _ offers =>
    by_cases isSender : t = sender
    · subst isSender
      simp only [offersMessage, pending.2.1, pending.2.2, Bool.and_eq_true, decide_eq_true_eq] at offers
      obtain ⟨⟨⟨⟨_, rfl⟩, toSelf⟩, _⟩, _⟩ := offers
      rw [(table.slots self).id] at toSelf
      exact .inr ⟨[], self, bytes, [.ret self value], rfl, .inl toSelf⟩
    · refine .inl (pending.of_slot ?_)
      rw [taskWake, modify_slot_other isSender, modify_slot_other isSender]
  | blockAlone _ current => exact .inl (pending.of_slot (block_slot_other (notCurrent current)))
  | spin _ current => exact .inl (pending.of_slot (block_slot_other (notCurrent current)))
  | @blockSwitch self next reason' peer buf len _ _ current _ _ other picked =>
    have blocked : Pending (T.block self reason' peer buf len) t reason peerId :=
      pending.of_slot (block_slot_other (notCurrent current))
    have runnable := picked_runnable (T := TaskTable.block ..) table.noIdle picked other
    exact .inl (blocked.of_slot (switchTo_slot_other (blocked.not_ready (by rw [runnable]; decide))))
  | @exit self waiter _ code current _ waits =>
    have exited : Pending (T.exit self code) t reason peerId :=
      pending.of_slot (exit_slot_other (notCurrent current))
    refine .inl (exited.of_slot (modify_slot_other ?_))
    rintro rfl
    simp only [awaitsChild, Bool.and_eq_true, decide_eq_true_eq] at waits
    exact notWait (exited.2.1.symm.trans waits.1.1.2)
  | exitUnseen _ _ current => exact .inl (pending.of_slot (exit_slot_other (notCurrent current)))
  | reap _ _ _ _ dead =>
    exact .inl (pending.of_slot (taskDestroy_slot_other (pending.not_ready (by rw [dead]; decide))))
  | @switch prev next current _ picked other =>
    have runnable := picked_runnable table.noIdle picked other
    refine .inl (pending.of_slot ?_)
    rw [switchTo_slot_other (pending.not_ready (by rw [runnable]; decide)), preempt_slot_other (notCurrent current)]

theorem effect_accounted {k : Kernel} {a : Action} (table : TableInv k.tasks) (awake : Awake k.tasks)
    (may : NeverAlone k a) (effect : Effect k.phys k.tasks a new T') (accounted : Accounted events k.tasks) :
    Accounted (events ++ new) T' := by
  intro t reason peerId first since notWait split
  rcases append_split split with ⟨middle, old, rfl⟩ | ⟨before, _, recent⟩
  · rcases accounted t reason peerId first middle notWait old with pending | answered
    · rcases effect_pending table awake may.1 effect notWait pending with still | ⟨before, peer, bytes, after, rfl, accepts⟩
      · exact .inl still
      · exact .inr ⟨middle ++ before, peer, bytes, after, by simp, accepts⟩
    · exact .inr answered.append
  · refine .inl (effect_blocked effect notWait ?_)
    rw [recent]
    exact List.mem_append_right _ List.mem_cons_self

theorem effect_returnsAnswered {k : Kernel} {a : Action} (awake : Awake k.tasks) (may : NeverAlone k a)
    (effect : Effect k.phys k.tasks a new T') (accounted : Accounted events k.tasks)
    (answers : ReturnsAnswered events) : ReturnsAnswered (events ++ new) := by
  refine Each.append answers ?_
  rintro before e after recent t value rfl reason peerId first since notWait split
  have returned : .ret t value ∈ new := by
    rw [recent]
    exact List.mem_append_right _ List.mem_cons_self
  obtain ⟨current, noBlock⟩ := effect_ret may effect returned
  rcases append_split split with ⟨middle, old, rfl⟩ | ⟨earlier, _, isBefore⟩
  · rcases accounted t reason peerId first middle notWait old with pending | answered
    · exact absurd (pending.2.1.symm.trans (awake t current pending.1)) notWait
    · exact answered.append
  · refine absurd ?_ (noBlock t reason peerId)
    rw [recent, isBefore]
    exact List.mem_append_left _ (List.mem_append_right _ List.mem_cons_self)

theorem run_awake {k₀ k : Kernel} (booted : Booted k₀) (run : Run step NeverAlone k₀ events k) :
    Awake k.tasks ∧ Accounted events k.tasks ∧ ReturnsAnswered events := by
  obtain ⟨T, nobody, noIdle, isInit⟩ := booted
  have all := run.invariant (fun events k => TableInv k.tasks ∧ Awake k.tasks ∧ Accounted events k.tasks ∧
    ReturnsAnswered events) ⟨?_, ?_, ?_, Each.nil⟩ ?_
  · exact all.2
  · rw [isInit]
    exact taskTableInit_inv nobody noIdle
  · intro t _ blocked
    rw [isInit, taskTableInit_unused] at blocked
    cases blocked
  · intro t reason peerId first since _ split
    cases first <;> cases split
  · rintro events k a k' new ⟨table, awake, accounted, answers⟩ may did
    have effect := step_effect table.clean (fun _ current => table.headNotCurrent current) did
    exact ⟨step_tableInv table did, effect_awake table awake may effect,
      effect_accounted table awake may effect accounted, effect_returnsAnswered awake may effect accounted answers⟩

/-- Whoever runs in ring 3 is ready to run. -/
def UserReady (T : TaskTable) : Prop :=
  ∀ t, T.currentTask = some t → T.control t = .user → (T.slot t).state = .running ∨ (T.slot t).state = .runnable

/-- **A blocked task never runs user code.** In every run in which each call
that has to block in front of a message finds another task that is ready, the
current task is ready whenever it is in ring 3, and a call that has blocked
returns only after a peer made the copy and woke it. -/
theorem blocked_never_runs {k₀ k : Kernel} (booted : Booted k₀) (run : Run step NeverAlone k₀ events k) :
    UserReady k.tasks ∧ ReturnsAnswered events := by
  obtain ⟨awake, _, answers⟩ := run_awake booted run
  refine ⟨fun t current user => ?_, answers⟩
  have table := run_tableInv booted run
  have waits := run_waitInv booted (run.mono fun k a may => may.1)
  cases state : (k.tasks.slot t).state with
  | running => exact .inl rfl
  | runnable => exact .inr rfl
  | unused => exact absurd state (table.currentUsed t current)
  | dead =>
    have halted := (table.slots t).dead state
    rw [user] at halted
    cases halted
  | blocked =>
    have inside := waits.inside t ⟨state, awake t current state⟩
    rw [user] at inside
    cases inside

/-- A test for `NeverAlone`: somebody else is ready whenever a task sends or
receives. -/
def hasCompany (k : Kernel) : Action → Bool
  | .syscall regs => (regs.rax ≠ SYS_SEND && regs.rax ≠ SYS_RECV) ||
      k.tasks.currentTask.all fun self => slots.any fun t => t ≠ self && (k.tasks.slot t).state = .runnable
  | _ => true

theorem neverAlone_of_test {k : Kernel} {a : Action} (kept : NoDestroy k a) (test : hasCompany k a = true) :
    NeverAlone k a := by
  refine ⟨kept, ?_⟩
  rintro regs self reason resume rfl current call _
  have talks : regs.rax = SYS_SEND ∨ regs.rax = SYS_RECV := by
    cases reason with
    | onSend => exact .inl call
    | onRecv => exact .inr call
    | onWait => exact call.elim
    | none => exact call.elim
  simp only [hasCompany, current, Option.all_some, Bool.or_eq_true, Bool.and_eq_true, decide_eq_true_eq,
    List.any_eq_true] at test
  rcases test with ⟨notSend, notRecv⟩ | ⟨t, _, other, runnable⟩
  · exact (talks.elim notSend notRecv).elim
  · exact ⟨t, other, runnable⟩

/-- The first task receives from anybody, its first child sends, its second
child keeps the processor busy. -/
theorem blocked_never_runs_received : ∃ k events, Run step NeverAlone (bootKernel 20) events k ∧
    .blocked 1 .onRecv IPC_ANY_SENDER ∈ events ∧ .ret 1 0 ∈ events ∧
    (k.tasks.slot 1).state ∈ [TaskState.running, .runnable] ∧ ReturnsAnswered events := by
  let actions := started ([call SYS_FORK 0, call SYS_FORK 0, call SYS_RECV IPC_ANY_SENDER, call SYS_SEND 1] ++
    slice ++ slice ++ [.resume])
  have kept : ∀ k, ∀ a ∈ actions, NoDestroy k a := by simp [actions, started, call, slice, NoDestroy]
  have ran : (exec hasCompany step (bootKernel 20) actions).map (fun out =>
        (out.1.tasks.currentTask, out.1.tasks.control 1, out.2)) = some (some 1, .user,
          [.forked 1 2, .ret 1 2, .forked 1 3, .ret 1 3, .blocked 1 .onRecv IPC_ANY_SENDER, .copied 2 1 [], .woken 1,
            .ret 2 0, .ret 1 0]) := by
    decide +kernel
  obtain ⟨⟨k, events⟩, did, now⟩ := Option.map_eq_some_iff.mp ran
  have run : Run step NeverAlone (bootKernel 20) events k :=
    run_of_exec (fun k a member => neverAlone_of_test (kept k a member)) did
  simp only [Prod.mk.injEq] at now
  obtain ⟨current, user, isTrace⟩ := now
  obtain ⟨ready, answers⟩ := blocked_never_runs (bootKernel_booted 20) run
  refine ⟨k, events, run, by simp [isTrace], by simp [isTrace], ?_, answers⟩
  simpa using ready 1 current user

/-- The only task sends to itself: it is back in ring 3 while it is blocked. -/
theorem blocked_alone_runs : ¬ ∀ k₀ events k, Booted k₀ → Run step NoDestroy k₀ events k →
    UserReady k.tasks ∧ ReturnsAnswered events := by
  intro all
  have ran : (exec (fun _ _ => true) step (bootKernel 2) (started [call SYS_SEND 1])).map (fun (k, _) =>
        (k.tasks.currentTask, k.tasks.control 1, (k.tasks.slot 1).state)) = some (some 1, .user, .blocked) := by
    decide +kernel
  obtain ⟨⟨k, events⟩, did, now⟩ := Option.map_eq_some_iff.mp ran
  have run : Run step NoDestroy (bootKernel 2) events k := run_of_exec (by simp [started, call, NoDestroy]) did
  simp only [Prod.mk.injEq] at now
  obtain ⟨current, user, blocked⟩ := now
  have ready := (all _ _ _ (bootKernel_booted 2) run).1 1 current user
  rw [blocked] at ready
  exact absurd ready (by decide)

end HobbyKernel.BlockProofs
