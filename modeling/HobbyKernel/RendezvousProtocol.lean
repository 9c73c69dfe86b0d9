import HobbyKernel.BlockProofs
import HobbyKernel.Lib.Rendezvous
import HobbyKernel.RendezvousOrder

/-! The message calls are a rendezvous protocol. Every step of the kernel is a
sequence of the protocol's steps, so what the protocol promises holds of every
run: a call that sleeps in front of a message takes part in exactly one copy
before it returns. -/
namespace HobbyKernel.RendezvousProtocol
open TaskTable TaskEffects TaskInvariant WaitProofs BlockProofs RendezvousProofs RendezvousOrder Runs Rendezvous

variable {k₀ k : Kernel} {s : Phys} {T T' : TaskTable} {t u self next : Slot} {a : Action} {events new : List Event}
  {reason : BlockReason} {peerId : U64}

/-- Where a task is in its exchange of messages. -/
def phaseOf (task : Task) (c : Control) : Phase Slot :=
  match task.state, task.blockReason with
  | .blocked, .onSend => .offering {u | Accepts .onSend task.ipcPeer u}
  | .blocked, .onRecv => .accepting {u | Accepts .onRecv task.ipcPeer u}
  | .running, _ | .runnable, _ => if c = .inSend ∨ c = .inRecv then .met else .idle
  | _, _ => .idle

def phases (T : TaskTable) (t : Slot) : Phase Slot := phaseOf (T.slot t) (T.control t)

/-- The protocol's view of an event. -/
def label : Event → Option (Label Slot (List Byte))
  | .blocked t .onSend peerId => some (.offers t {u | Accepts .onSend peerId u})
  | .blocked t .onRecv peerId => some (.accepts t {u | Accepts .onRecv peerId u})
  | .copied sender receiver bytes => some (.passes sender receiver bytes)
  | .ret t _ => some (.returns t)
  | _ => none

/-- A task that sleeps in front of a message sleeps in the call for it. -/
def Inside (T : TaskTable) : Prop := ∀ t, (T.slot t).state = .blocked →
  ((T.slot t).blockReason = .onSend → T.control t = .inSend) ∧ ((T.slot t).blockReason = .onRecv → T.control t = .inRecv)

theorem phases_same (slot : T'.slot t = T.slot t) (control : T'.control t = T.control t) : phases T' t = phases T t := by
  rw [phases, slot, control, phases]

theorem idle_of_state {task : Task} {c : Control} (state : task.state = .unused ∨ task.state = .dead) : phaseOf task c = .idle := by
  rcases state with state | state <;> simp [phaseOf, state]

theorem idle_of_wait {task : Task} {c : Control} (state : task.state = .blocked) (onWait : task.blockReason = .onWait) :
    phaseOf task c = .idle := by
  simp [phaseOf, state, onWait]

theorem phase_ready {task : Task} {c : Control} (ready : task.state = .running ∨ task.state = .runnable) :
    phaseOf task c = if c = .inSend ∨ c = .inRecv then .met else .idle := by
  rcases ready with state | state <;> simp [phaseOf, state]

/-- The current task does not sleep in front of a message. -/
theorem current_phase (awake : Awake T) (current : T.currentTask = some self) :
    phases T self = if (T.control self = .inSend ∨ T.control self = .inRecv) ∧
      ((T.slot self).state = .running ∨ (T.slot self).state = .runnable) then .met else .idle := by
  cases state : (T.slot self).state with
  | unused => rw [phases, idle_of_state (.inl state), if_neg (by simp)]
  | dead => rw [phases, idle_of_state (.inr state), if_neg (by simp)]
  | blocked => rw [phases, idle_of_wait state (awake self current state), if_neg (by simp)]
  | running => simp [phases, phase_ready (.inl state)]
  | runnable => simp [phases, phase_ready (.inr state)]

theorem current_idle (awake : Awake T) (current : T.currentTask = some self)
    (outside : T.control self ≠ .inSend ∧ T.control self ≠ .inRecv) : phases T self = .idle := by
  rw [current_phase awake current, if_neg (by simp [outside])]

theorem phases_update {phase : Phase Slot} (others : ∀ u, u ≠ t → phases T' u = phases T u) (mine : phases T' t = phase) :
    phases T' = Function.update (phases T) t phase := by
  funext u
  by_cases isT : u = t
  · subst isT
    rw [Function.update_self, mine]
  · rw [Function.update_of_ne isT, others u isT]

/-- A call that sends no message returns. -/
theorem returns_silent (awake : phases T self = .idle ∨ phases T self = .met) (others : ∀ u, u ≠ self → phases T' u = phases T u)
    (done : phases T' self = .idle) : Steps (phases T) ([.returns self] : List (Label Slot (List Byte))) (phases T') := by
  rw [phases_update others done]
  exact .cons (.returns awake) (.nil _)

/-- Nothing that concerns the protocol. -/
theorem silent (same : ∀ u, phases T' u = phases T u) : Steps (phases T) ([] : List (Label Slot (List Byte))) (phases T') := by
  rw [funext same]
  exact .nil _

theorem phases_switchTo (runnable : (T.slot next).state = .runnable) (u : Slot) : phases (T.switchTo next) u = phases T u := by
  by_cases isNext : u = next
  · subst isNext
    rw [phases, phases, phase_ready (.inr runnable), phase_ready (by simp)]
    rfl
  · exact phases_same (switchTo_slot_other isNext) rfl

theorem phases_preempt (u : Slot) : phases (T.preempt self) u = phases T u := by
  unfold TaskTable.preempt
  split
  · rename_i running
    by_cases isSelf : u = self
    · subst isSelf
      rw [phases, phases, phase_ready (.inl running), phase_ready (by simp)]
      rfl
    · exact phases_same (modify_slot_other isSelf) rfl
  · rfl

/-- A new task takes part in nothing. -/
theorem phases_spawn {task : Task} {c : Control} (table : TableInv T) (free : T.taskFreeList = some t)
    (made : Spawned (T.slot t) task) (outside : c ≠ .inSend ∧ c ≠ .inRecv) (u : Slot) :
    phases (T.spawn t task c) u = phases T u := by
  by_cases isT : u = t
  · subst isT
    rw [phases, phases, idle_of_state (.inl (table.headUnused free).1), spawn_slot_same, spawn_control_same,
      phase_ready (.inr made.state), if_neg (by simp [outside])]
  · exact phases_same (spawn_slot_other isT) (spawn_control_other isT)

/-- The child of `sys_wait` goes, and the caller is back in ring 3. -/
theorem phases_resumeUser (u : Slot) (other : u ≠ self) (same : phases T' u = phases T u) :
    phases (T'.resumeAt self .user) u = phases T u := by
  rw [phases, resumeAt_slot, resumeAt_control_other other]
  exact same

theorem phases_user (notAsleep : (T.slot self).state = .blocked → (T.slot self).blockReason = .onWait) :
    phases (T.resumeAt self .user) self = .idle := by
  rw [phases, resumeAt_slot, resumeAt_control_same]
  cases state : (T.slot self).state with
  | unused => exact idle_of_state (.inl state)
  | dead => exact idle_of_state (.inr state)
  | blocked => exact idle_of_wait state (notAsleep state)
  | running => rw [phase_ready (.inl state), if_neg (by simp)]
  | runnable => rw [phase_ready (.inr state), if_neg (by simp)]

/-- Whoever is woken is ready. -/
theorem effect_woken (effect : Effect s T a new T') (woken : .woken t ∈ new) : (T'.slot t).state = .runnable := by
  cases effect with
  | deliver =>
    obtain rfl : t = _ := by simpa using woken
    simp [taskWake]
  | collect =>
    obtain rfl : t = _ := by simpa using woken
    simp [taskWake]
  | exit =>
    obtain rfl : t = _ := by simpa using woken
    simp [taskWake]
  | quiet | create | createKernel | destroy | prepare | start | returned | fork | blockAlone | spin | blockSwitch | exitUnseen
  | reap | childless | resumed | switch => simp at woken

/-- A call that has just blocked goes on behind its block point. -/
theorem effect_inCall {s : Phys} {peer buf len : U64} {resume : Control} (may : NeverAlone k a)
    (effect : Effect k.phys k.tasks a new T') (notWait : reason ≠ .onWait) (blocked : .blocked t reason peerId ∈ new)
    (cause : Cause s T t reason peer buf len resume) : T'.control t = resume := by
  cases effect with
  | @blockAlone self _ _ regs current _ call why alone =>
    obtain ⟨u, other, runnable⟩ := may.2 regs self _ _ rfl current call why
    refine absurd alone (picked_other (t := u) ?_ ?_)
    · simp [TaskTable.block, other, runnable]
    · simp [TaskTable.block]
  | spin =>
    simp only [List.mem_singleton, Event.blocked.injEq] at blocked
    exact absurd blocked.2.1 notWait
  | blockSwitch _ _ _ why =>
    simp only [List.mem_singleton, Event.blocked.injEq] at blocked
    obtain ⟨rfl, rfl, rfl⟩ := blocked
    rw [switchTo_control, resumeAt_control_same]
    cases cause <;> cases why <;> first | rfl | exact absurd rfl notWait
  | quiet | create | createKernel | destroy | prepare | start | returned | fork | deliver | collect | exit | exitUnseen | reap
  | childless | resumed | switch => simp at blocked

theorem effect_inside (table : TableInv k.tasks) (awake : Awake k.tasks) (may : NeverAlone k a)
    (effect : Effect k.phys k.tasks a new T') (inside : Inside k.tasks) : Inside T' := by
  intro t blocked
  have control : ∀ {reason c}, reason ≠ .onWait → (T'.slot t).blockReason = reason →
      (∀ {s T peer buf len resume}, Cause s T t reason peer buf len resume → resume = c) →
      ((k.tasks.slot t).state = .blocked → (k.tasks.slot t).blockReason = reason → k.tasks.control t = c) →
      (c = .inSend ∨ c = .inRecv) → T'.control t = c := by
    intro reason c notWait isReason isResume before call
    rcases effect_parked effect blocked (isReason ▸ notWait) with same | ⟨_, reason', _, _, _, _, cause, event, now⟩
    · -- it has slept before the step, and this step has not reached it
      rw [same] at blocked isReason
      have inCall := before blocked isReason
      have notCurrent : k.tasks.currentTask ≠ some t := fun current =>
        notWait (isReason.symm.trans (awake t current blocked))
      have unwoken : .woken t ∉ new := fun woken => by
        have ready := effect_woken effect woken
        rw [same, blocked] at ready
        cases ready
      have asleep : RendezvousOrder.Asleep k.tasks t := ⟨.inl blocked, inCall ▸ call⟩
      rw [(effect_undisturbed table effect asleep notCurrent (may.1 t) unwoken).1, inCall]
    · have isReason' : reason' = reason := by
        rw [now, TaskTable.block, modify_slot_same] at isReason
        exact isReason
      subst isReason'
      rw [effect_inCall may effect notWait event cause, isResume cause]
  refine ⟨fun onSend => ?_, fun onRecv => ?_⟩
  · refine control (by decide) onSend (fun cause => ?_) (fun asleep reason => (inside t asleep).1 reason) (.inl rfl)
    cases cause
    rfl
  · refine control (by decide) onRecv (fun cause => ?_) (fun asleep reason => (inside t asleep).2 reason) (.inr rfl)
    cases cause
    rfl

/-- What blocked in front of a message sleeps in the protocol. -/
theorem phases_block {peer buf len : U64} {resume : Control} (other : next ≠ self)
    (runnable : ((T.block self reason peer buf len).slot next).state = .runnable) (u : Slot) :
    phases (((T.block self reason peer buf len).resumeAt self resume).switchTo next) u =
      if u = self then phaseOf ((T.block self reason peer buf len).slot self) resume else phases T u := by
  rw [phases_switchTo (by exact runnable)]
  split
  · rename_i isSelf
    subst isSelf
    rw [phases, resumeAt_slot, resumeAt_control_same]
  · rename_i notSelf
    rw [phases, resumeAt_slot, resumeAt_control_other notSelf, block_slot_other notSelf]
    rfl

/-- The current task serves a partner that sleeps, and returns. -/
theorem served {partner : Slot} {l : Label Slot (List Byte)} {P : Slot → Phase Slot} (meets : Step (phases T) l P)
    (idle : phases T self = .idle) (apart : self ≠ partner) (partnerMet : P partner = .met) (selfMet : P self = .met)
    (same : ∀ u, u ≠ self → u ≠ partner → P u = phases T u) (met : phases T' partner = .met)
    (others : ∀ u, u ≠ partner → phases T' u = phases T u) : Steps (phases T) [l, .returns self] (phases T') := by
  have final : phases T' = Function.update P self .idle := by
    funext u
    by_cases isSelf : u = self
    · subst isSelf
      rw [Function.update_self, others u apart, idle]
    · rw [Function.update_of_ne isSelf]
      by_cases isPartner : u = partner
      · subst isPartner
        rw [partnerMet, met]
      · rw [same u isSelf isPartner, others u isPartner]
  rw [final]
  exact .cons meets (.cons (.returns (.inr selfMet)) (.nil _))

theorem phases_exit {code : U64} (idle : phases T self = .idle) (u : Slot) : phases (T.exit self code) u = phases T u := by
  by_cases isSelf : u = self
  · subst isSelf
    rw [idle]
    exact idle_of_state (.inr (by simp [TaskTable.exit]))
  · exact phases_same (exit_slot_other isSelf) (resumeAt_control_other isSelf)

/-- One step of the kernel is a sequence of steps of the protocol. -/
theorem effect_follows (table : TableInv k.tasks) (awake : Awake k.tasks) (family : WaitInv k.tasks) (inside : Inside k.tasks)
    (may : NeverAlone k a) (effect : Effect k.phys k.tasks a new T') : Steps (phases k.tasks) (new.filterMap label) (phases T') := by
  have outside : ∀ {self peer}, k.tasks.control self = .user ∨ k.tasks.control self = .inWait peer →
      k.tasks.control self ≠ .inSend ∧ k.tasks.control self ≠ .inRecv := by
    rintro self peer (control | control) <;> simp [control]
  cases effect with
  | quiet => exact silent fun _ => rfl
  | create free made => exact silent (phases_spawn table free made (by decide))
  | createKernel _ free made => exact silent (phases_spawn table free made (by decide))
  | destroy t => exact absurd rfl (may.1 t)
  | prepare t _ _ rsp runnable fresh =>
    refine silent fun u => ?_
    by_cases isT : u = t
    · subst isT
      rw [phases, phases, phase_ready (.inr runnable), resumeAt_slot, resumeAt_control_same,
        phase_ready (.inr (by simpa using runnable)), if_neg (by simp), if_neg (by simp [fresh])]
    · exact phases_same (by rw [resumeAt_slot, modify_slot_other isT]) (resumeAt_control_other isT)
  | start => exact silent fun _ => rfl
  | returned _ _ current user =>
    have idle := current_idle awake current (by simp [user])
    exact returns_silent (.inl idle) (fun _ _ => rfl) idle
  | @fork self child _ _ current user free made =>
    have idle := current_idle awake current (by simp [user])
    have same := phases_spawn (c := .user) table free made (by decide)
    exact returns_silent (.inl idle) (fun u _ => same u) ((same self).trans idle)
  | @deliver self target _ bytes value current user awaits =>
    have idle := current_idle awake current (by simp [user])
    simp only [awaitsSender, Bool.and_eq_true, Bool.or_eq_true, decide_eq_true_eq] at awaits
    obtain ⟨⟨blocked, onRecv⟩, accepts⟩ := awaits
    have asleep : phases k.tasks target = .accepting {u | Accepts .onRecv (k.tasks.slot target).ipcPeer u} := by
      simp [phases, phaseOf, blocked, onRecv]
    have wanted : Accepts .onRecv (k.tasks.slot target).ipcPeer self := by
      rw [(table.slots self).id] at accepts
      exact accepts.elim (fun any => .inr ⟨rfl, any⟩) .inl
    have apart : self ≠ target := by
      rintro rfl
      rw [idle] at asleep
      cases asleep
    have met : phases (k.tasks.taskWake target) target = .met := by
      rw [phases, taskWake, modify_slot_same, modify_control, phase_ready (by simp), if_pos (.inr ((inside target blocked).2 onRecv))]
    refine served (.given bytes idle asleep wanted) idle apart (Function.update_self ..) ?_ ?_ met
      (fun u other => phases_same (modify_slot_other other) rfl)
    · rw [Function.update_of_ne apart, Function.update_self]
    · intro u notSelf notTarget
      rw [Function.update_of_ne notTarget, Function.update_of_ne notSelf]
  | @collect self sender _ bytes value current user _ _ offers =>
    have idle := current_idle awake current (by simp [user])
    simp only [offersMessage, Bool.and_eq_true, decide_eq_true_eq] at offers
    obtain ⟨⟨⟨⟨blocked, onSend⟩, toSelf⟩, _⟩, _⟩ := offers
    have asleep : phases k.tasks sender = .offering {u | Accepts .onSend (k.tasks.slot sender).ipcPeer u} := by
      simp [phases, phaseOf, blocked, onSend]
    have wanted : Accepts .onSend (k.tasks.slot sender).ipcPeer self := by
      rw [(table.slots self).id] at toSelf
      exact .inl toSelf
    have apart : self ≠ sender := by
      rintro rfl
      rw [idle] at asleep
      cases asleep
    have met : phases ((k.tasks.modify sender fun task => { task with ipcLen := value }).taskWake sender) sender = .met := by
      rw [phases, taskWake, modify_slot_same, modify_control, phase_ready (by simp),
        if_pos (.inl ((inside sender blocked).1 onSend))]
    refine served (.taken bytes asleep wanted idle) idle apart ?_ (Function.update_self ..) ?_ met
      (fun u other => phases_same (by rw [taskWake, modify_slot_other other, modify_slot_other other]) rfl)
    · rw [Function.update_of_ne apart.symm, Function.update_self]
    · intro u notSelf notSender
      rw [Function.update_of_ne notSelf, Function.update_of_ne notSender]
  | @blockAlone self reason _ regs current _ call cause alone =>
    obtain ⟨u, other, runnable⟩ := may.2 regs self reason _ rfl current call cause
    refine absurd alone (picked_other (t := u) ?_ ?_)
    · simp [TaskTable.block, other, runnable]
    · simp [TaskTable.block]
  | @spin self peer _ current control =>
    refine silent fun u => ?_
    by_cases isSelf : u = self
    · subst isSelf
      rw [current_idle awake current (outside control), phases, resumeAt_slot]
      exact idle_of_wait (by simp [TaskTable.block]) (by simp [TaskTable.block])
    · exact phases_same (block_slot_other isSelf) (resumeAt_control_other isSelf)
  | @blockSwitch self next reason peer buf len resume _ current control cause other picked =>
    have runnable := picked_runnable (T := TaskTable.block ..) table.noIdle picked other
    have now : ∀ u, phases (((k.tasks.block self reason peer buf len).resumeAt self resume).switchTo next) u =
        if u = self then phaseOf ((k.tasks.block self reason peer buf len).slot self) resume else phases k.tasks u :=
      fun u => phases_block other runnable u
    have idle : phases k.tasks self = .idle := by
      refine current_idle awake current ?_
      rcases control with user | ⟨rfl, same⟩
      · simp [user]
      · cases cause
        simp [same]
    have others : ∀ u, u ≠ self → phases (((k.tasks.block self reason peer buf len).resumeAt self resume).switchTo next) u =
        phases k.tasks u := fun u notSelf => by rw [now, if_neg notSelf]
    have mine := (now self).trans (if_pos rfl)
    cases cause with
    | send =>
      have offers : phases (((k.tasks.block self .onSend peer buf len).resumeAt self .inSend).switchTo next) self =
          .offering {u | Accepts .onSend peer u} := by
        rw [mine]
        simp [phaseOf, TaskTable.block]
      rw [phases_update others offers]
      exact .cons (.offers idle) (.nil _)
    | recv =>
      have accepts : phases (((k.tasks.block self .onRecv peer buf len).resumeAt self .inRecv).switchTo next) self =
          .accepting {u | Accepts .onRecv peer u} := by
        rw [mine]
        simp [phaseOf, TaskTable.block]
      rw [phases_update others accepts]
      exact .cons (.accepts idle) (.nil _)
    | wait =>
      refine silent fun u => ?_
      by_cases isSelf : u = self
      · subst isSelf
        rw [mine, idle]
        exact idle_of_wait (by simp [TaskTable.block]) (by simp [TaskTable.block])
      · exact others u isSelf
  | @exit self waiter _ code current user waits =>
    refine silent fun u => ?_
    simp only [awaitsChild, Bool.and_eq_true, decide_eq_true_eq] at waits
    have other : waiter ≠ self := by
      rintro rfl
      simp [TaskTable.exit] at waits
    rw [exit_slot_other other] at waits
    have idle := current_idle awake current (by simp [user])
    by_cases isWaiter : u = waiter
    · subst isWaiter
      have inWait := family.inside u waits.1.1
      rw [phases, phases, idle_of_wait waits.1.1.1 waits.1.1.2, taskWake, modify_slot_same, phase_ready (by simp), modify_control,
        TaskTable.exit, resumeAt_control_other other, modify_control, if_neg (by simp [inWait])]
    · exact (phases_same (modify_slot_other isWaiter) rfl).trans (phases_exit idle u)
  | exitUnseen _ code current user =>
    exact silent (phases_exit (current_idle awake current (by simp [user])))
  | @reap self child childId _ current control _ dead =>
    have idle := current_idle awake current (outside control)
    have same : ∀ u, phases (k.tasks.taskDestroy child) u = phases k.tasks u := fun u => by
      by_cases isChild : u = child
      · subst isChild
        rw [phases, phases, idle_of_state (.inr dead), taskDestroy_slot_same (by rw [dead]; decide), idle_of_state (.inl rfl)]
      · exact phases_same (taskDestroy_slot_other isChild) (by rw [taskDestroy_control])
    refine returns_silent (.inl idle) (fun u other => phases_resumeUser u other (same u)) (phases_user fun blocked => ?_)
    by_cases isChild : self = child
    · subst isChild
      rw [taskDestroy_slot_same (by rw [dead]; decide)] at blocked
      cases blocked
    · rw [taskDestroy_slot_other isChild] at blocked ⊢
      exact awake self current blocked
  | childless _ current control =>
    refine returns_silent (.inl (current_idle awake current (outside control))) (fun u other => phases_resumeUser u other rfl) ?_
    exact phases_user fun blocked => awake _ current blocked
  | resumed current =>
    refine returns_silent ?_ (fun u other => phases_resumeUser u other rfl) ?_
    · rw [current_phase awake current]
      split
      · exact .inr rfl
      · exact .inl rfl
    · exact phases_user fun blocked => awake _ current blocked
  | @switch prev next current _ picked other =>
    have runnable := picked_runnable table.noIdle picked other
    refine silent fun u => ?_
    rw [phases_switchTo (by rwa [preempt_slot_other other]), phases_preempt]

/-- What a run keeps, with its trace. -/
structure ProtocolInv (events : List Event) (k : Kernel) : Prop where
  table : TableInv k.tasks
  awake : Awake k.tasks
  family : WaitInv k.tasks
  inside : Inside k.tasks
  steps : Steps (fun _ => .idle) (events.filterMap label) (phases k.tasks)

theorem boot_protocolInv (booted : Booted k₀) : ProtocolInv [] k₀ := by
  obtain ⟨T, nobody, noIdle, isInit⟩ := booted
  have unused : ∀ t, (k₀.tasks.slot t).state = .unused := fun t => by rw [isInit, taskTableInit_unused]
  refine ⟨?_, fun t _ blocked => ?_, ?_, fun t blocked => ?_, ?_⟩
  · rw [isInit]
    exact taskTableInit_inv nobody noIdle
  · rw [unused] at blocked
    cases blocked
  · have never : ∀ t, ¬ Waiting k₀.tasks t := by
      rintro t ⟨blocked, _⟩
      rw [unused] at blocked
      cases blocked
    exact ⟨fun t waiting => absurd waiting (never t), fun t waiting => absurd waiting (never t),
      fun t _ waiting => absurd waiting (never t)⟩
  · rw [unused] at blocked
    cases blocked
  · have idle : phases k₀.tasks = fun _ => .idle := funext fun t => idle_of_state (.inl (unused t))
    rw [idle]
    exact .nil _

theorem run_protocolInv (booted : Booted k₀) (run : Run step NeverAlone k₀ events k) : ProtocolInv events k := by
  refine run.invariant ProtocolInv (boot_protocolInv booted) ?_
  rintro events k a k' new ⟨table, awake, family, inside, steps⟩ may did
  have effect := step_effect table.clean (fun _ current => table.headNotCurrent current) did
  refine ⟨step_tableInv table did, effect_awake table awake may effect, effect_waitInv table family may.1 effect,
    effect_inside table awake may effect inside, ?_⟩
  rw [List.filterMap_append]
  exact steps.append (effect_follows table awake family inside may effect)

/-- **The protocol.** In every run in which each call that has to block in front
of a message finds another task that is ready, what happens is a sequence of the
protocol's steps, from where everybody is outside of any exchange to where the
tasks are now. -/
theorem follows_protocol (booted : Booted k₀) (run : Run step NeverAlone k₀ events k) :
    Steps (fun _ => .idle) (events.filterMap label) (phases k.tasks) := (run_protocolInv booted run).steps

/-- The second task sends to the first, which receives from anybody and returns;
then the second one blocks in front of the first. -/
theorem received_run : ∃ k events, Run step NeverAlone (bootKernel 20) events k ∧ events =
    [.forked 1 2, .ret 1 2, .forked 1 3, .ret 1 3, .blocked 1 .onRecv IPC_ANY_SENDER, .copied 2 1 [], .woken 1, .ret 2 0,
      .blocked 2 .onSend 1, .ret 1 0, .copied 2 1 [], .woken 2, .ret 1 0] := by
  let actions := started ([call SYS_FORK 0, call SYS_FORK 0, call SYS_RECV IPC_ANY_SENDER, call SYS_SEND 1, call SYS_SEND 1] ++
    slice ++ [.resume, call SYS_RECV IPC_ANY_SENDER])
  have kept : ∀ k, ∀ a ∈ actions, NoDestroy k a := by simp [actions, started, call, slice, NoDestroy]
  have ran : (exec hasCompany step (bootKernel 20) actions).map (·.2) = some
      [.forked 1 2, .ret 1 2, .forked 1 3, .ret 1 3, .blocked 1 .onRecv IPC_ANY_SENDER, .copied 2 1 [], .woken 1, .ret 2 0,
        .blocked 2 .onSend 1, .ret 1 0, .copied 2 1 [], .woken 2, .ret 1 0] := by
    decide +kernel
  obtain ⟨⟨k, events⟩, did, isTrace⟩ := Option.map_eq_some_iff.mp ran
  exact ⟨k, events, run_of_exec (fun k a member => neverAlone_of_test (kept k a member)) did, isTrace⟩

/-- Two messages between the same tasks, one in each order of arrival. -/
theorem follows_protocol_received : ∃ k events, Run step NeverAlone (bootKernel 20) events k ∧
    events.filterMap label = [.returns 1, .returns 1, .accepts 1 {u | Accepts .onRecv IPC_ANY_SENDER u}, .passes 2 1 [],
      .returns 2, .offers 2 {u | Accepts .onSend 1 u}, .returns 1, .passes 2 1 [], .returns 1] ∧
    Steps (fun _ => .idle) (events.filterMap label) (phases k.tasks) := by
  obtain ⟨k, events, run, rfl⟩ := received_run
  exact ⟨k, _, run, rfl, follows_protocol (bootKernel_booted 20) run⟩

/-- The event is a copy from the task or to it. -/
def TakesPart (t : Slot) : Event → Prop
  | .copied sender receiver _ => t = sender ∨ t = receiver
  | _ => False

/-- A call that blocks for this reason waits for a message. -/
def ForMessage (reason : BlockReason) : Prop := reason = .onSend ∨ reason = .onRecv

/-- No message is lost, none arrives twice and none comes from nowhere. -/
structure ExactlyOnce (events : List Event) : Prop where
  served : ∀ before t reason peerId middle value after, ForMessage reason →
    events = before ++ .blocked t reason peerId :: (middle ++ .ret t value :: after) → (∀ earlier, .ret t earlier ∉ middle) →
    ∃ early peer bytes late, middle = early ++ copyFor t reason peer bytes :: late ∧ Accepts reason peerId peer ∧
      ∀ e ∈ early ++ late, ¬ TakesPart t e
  awaited : ∀ before sender receiver bytes after, events = before ++ .copied sender receiver bytes :: after →
    ∃ t reason peerId peer early late, ForMessage reason ∧ copyFor t reason peer bytes = .copied sender receiver bytes ∧
      Accepts reason peerId peer ∧ before = early ++ .blocked t reason peerId :: late ∧
      ∀ e ∈ late, ¬ TakesPart t e ∧ ∀ value, e ≠ .ret t value

/-- The phase of a call that has blocked in front of a message. -/
def sleeping (reason : BlockReason) (peerId : U64) : Phase Slot :=
  if reason = .onSend then .offering {u | Accepts .onSend peerId u} else .accepting {u | Accepts .onRecv peerId u}

theorem sleeping_asleep : (sleeping reason peerId).Asleep := by
  unfold sleeping
  split <;> trivial

theorem label_blocked (forMessage : ForMessage reason) :
    label (.blocked t reason peerId) = (sleeping reason peerId).begins t := by
  rcases forMessage with rfl | rfl <;> rfl

theorem label_copied {e : Event} {sender receiver : Slot} {bytes : List Byte}
    (isLabel : label e = some (.passes sender receiver bytes)) : e = .copied sender receiver bytes := by
  cases e with
  | copied =>
    cases isLabel
    rfl
  | blocked _ reason => cases reason <;> cases isLabel
  | ret | forked | reaped | woken | exited => cases isLabel

theorem label_begins {e : Event} {phase : Phase Slot} (isLabel : label e = phase.begins t) (asleep : phase.Asleep) :
    ∃ reason peerId, ForMessage reason ∧ e = .blocked t reason peerId ∧ phase = sleeping reason peerId := by
  cases phase with
  | idle | met => exact asleep.elim
  | offering | accepting =>
    cases e with
    | blocked _ reason peerId =>
      cases reason <;> cases isLabel
      · exact ⟨_, peerId, by simp [ForMessage], rfl, rfl⟩
    | ret | forked | reaped | copied | woken | exited => cases isLabel

/-- The copy that a sleeping call waits for. -/
theorem awaits_copied {sender receiver : Slot} {bytes : List Byte} (forMessage : ForMessage reason)
    (awaits : (sleeping reason peerId).Awaits t (.passes sender receiver bytes)) :
    ∃ peer, copyFor t reason peer bytes = .copied sender receiver bytes ∧ Accepts reason peerId peer := by
  rcases forMessage with rfl | rfl
  · obtain ⟨rfl, accepts⟩ := awaits
    exact ⟨receiver, rfl, accepts⟩
  · obtain ⟨rfl, accepts⟩ := awaits
    exact ⟨sender, rfl, accepts⟩

/-- What does not concern a task in the protocol is no copy of it and no return. -/
theorem untouched (none : ∀ l ∈ events.filterMap label, ¬ l.Involves t) :
    ∀ e ∈ events, ¬ TakesPart t e ∧ ∀ value, e ≠ .ret t value := by
  refine fun e member => ⟨fun part => ?_, ?_⟩
  · cases e with
    | copied sender receiver bytes => exact none _ (List.mem_filterMap.mpr ⟨_, member, rfl⟩) part
    | ret | forked | reaped | woken | blocked | exited => exact part
  · rintro value rfl
    exact none _ (List.mem_filterMap.mpr ⟨_, member, rfl⟩) rfl

/-- **Exactly once.** A call that blocks in front of a message and returns has
taken part in one copy in between, with a partner it accepts, and every copy is
one that a blocked call has waited for since. -/
theorem exactly_once (booted : Booted k₀) (run : Run step NeverAlone k₀ events k) : ExactlyOnce events := by
  have steps := (run_protocolInv booted run).steps
  refine ⟨?_, ?_⟩
  · rintro before t reason peerId middle value after forMessage rfl first
    rw [List.filterMap_append] at steps
    obtain ⟨P, _, steps⟩ := steps.split
    obtain ⟨l, isLabel⟩ : ∃ l, label (.blocked t reason peerId) = some l := by
      rcases forMessage with rfl | rfl <;> exact ⟨_, rfl⟩
    rw [List.filterMap_cons_some isLabel, List.filterMap_append,
      List.filterMap_cons_some (show label (.ret t value) = _ from rfl)] at steps
    cases steps with
    | cons fell steps =>
      have begins := (label_blocked forMessage).symm.trans isLabel
      have inside : .returns t ∉ middle.filterMap label := fun member => by
        obtain ⟨e, member', isReturn⟩ := List.mem_filterMap.mp member
        cases e with
        | ret =>
          cases isReturn
          exact first _ member'
        | blocked _ reason => cases reason <;> cases isReturn
        | forked | reaped | copied | woken | exited => cases isReturn
      have phase := fell.falls_asleep begins
      obtain ⟨_, l', _, split, awaits, none⟩ := steps.met_once (by rw [phase]; exact sleeping_asleep) inside
      rw [phase] at awaits
      obtain ⟨sender, receiver, bytes, rfl⟩ := Phase.awaits_passes awaits
      obtain ⟨early, rest, rfl, rfl, isRest⟩ := List.filterMap_eq_append_iff.mp split
      obtain ⟨skipped, e, late, rfl, unlabelled, isLabel', rfl⟩ := List.filterMap_eq_cons_iff.mp isRest
      obtain ⟨peer, isCopy, accepts⟩ := awaits_copied forMessage awaits
      refine ⟨early ++ skipped, peer, bytes, late, by rw [label_copied isLabel', isCopy]; simp, accepts, ?_⟩
      have none' : ∀ l ∈ (early ++ skipped ++ late).filterMap label, ¬ l.Involves t := fun l member => none l (by
        rw [List.filterMap_append, List.filterMap_append, List.filterMap_eq_nil_iff.mpr unlabelled, List.append_nil] at member
        exact member)
      exact fun e member => (untouched none' e member).1
  · rintro before sender receiver bytes after rfl
    rw [List.filterMap_append, List.filterMap_cons_some (show label (.copied sender receiver bytes) = _ from rfl)] at steps
    obtain ⟨t, _, l, _, phase, split, begins, awaits, none⟩ := steps.awaited (fun _ => rfl)
    obtain ⟨first, rest, rfl, _, isRest⟩ := List.filterMap_eq_append_iff.mp split
    obtain ⟨skipped, e, late, rfl, _, isLabel, rfl⟩ := List.filterMap_eq_cons_iff.mp isRest
    obtain ⟨reason, peerId, forMessage, rfl, rfl⟩ := label_begins (isLabel.trans begins.symm) (Phase.begins_asleep begins)
    obtain ⟨peer, isCopy, accepts⟩ := awaits_copied forMessage awaits
    exact ⟨t, reason, peerId, peer, first ++ skipped, late, forMessage, isCopy, accepts, by simp, untouched none⟩

/-- The same run: both copies are between a call and its return. -/
theorem exactly_once_received : ∃ k events, Run step NeverAlone (bootKernel 20) events k ∧ .copied 2 1 [] ∈ events ∧
    ExactlyOnce events := by
  obtain ⟨k, events, run, rfl⟩ := received_run
  exact ⟨k, _, run, by simp, exactly_once (bootKernel_booted 20) run⟩

end HobbyKernel.RendezvousProtocol
