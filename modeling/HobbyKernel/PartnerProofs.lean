import HobbyKernel.RendezvousProofs

/-! Senders and the partners they wait for. `sys_send` looks its target up once,
before it blocks. Nobody tells a blocked sender that the target has exited, and
a target that has exited but is not reaped yet is still found. As long as
neither happens, the partner of a blocked sender is the task it was. -/
namespace HobbyKernel.PartnerProofs
open TaskTable TaskEffects TaskInvariant WaitProofs RendezvousProofs Runs

variable {k₀ k k' : Kernel} {s : Phys} {T T' : TaskTable} {t p self : Slot} {a : Action} {events new : List Event}

/-- There is a task in the slot, and it has not exited. -/
def Alive (T : TaskTable) (p : Slot) : Prop := (T.slot p).state ≠ .dead ∧ (T.slot p).state ≠ .unused

/-- The system call that an event of a step comes from. -/
def CalledFor (k : Kernel) (a : Action) : Event → Prop
  | .exited _ => ∃ regs, a = .syscall regs ∧ regs.rax = SYS_EXIT
  | .blocked self .onSend peer => ∃ regs, a = .syscall regs ∧ regs.rax = SYS_SEND ∧ regs.rdi = peer ∧
    Cause k.phys k.tasks self .onSend peer regs.rsi (clampLen regs.rdx) .inSend
  | _ => True

/-- No event of the call says that somebody exited or blocked in a send. -/
def NoPartner (result : SysResult) : Prop :=
  ∀ k' value events, result = some (k', value, events) → ∀ e ∈ events, ∀ k a, CalledFor k a e

theorem sysWrite_noPartner (k : Kernel) (userPtr len : U64) : NoPartner (sysWrite k userPtr len) := by
  intro k' value events did e member k₁ a
  unfold sysWrite at did
  grind

theorem sysFork_noPartner (k : Kernel) (regs : SyscallRegs) : NoPartner (sysFork k regs) := by
  intro k' value events did e member k₁ a
  unfold sysFork at did
  grind [CalledFor]

theorem recvFrom_noPartner (k : Kernel) (self sender : Slot) (userBuf len : U64) :
    NoPartner (recvFrom k self sender userBuf len) := by
  intro k' value events did e member k₁ a
  unfold recvFrom at did
  dsimp only at did
  split at did
  · cases did
  · split at did
    · cases did
    · split at did
      · cases did
      · cases did
        simp only [List.mem_cons, List.not_mem_nil, or_false] at member
        rcases member with rfl | rfl <;> trivial

theorem sysRecv_noPartner (k : Kernel) (fromId userBuf len : U64) : NoPartner (sysRecv k fromId userBuf len) := by
  intro k' value events did e member k₁ a
  unfold sysRecv at did
  split at did
  · cases did
    cases member
  · dsimp only at did
    split at did
    · cases did
    · split at did
      · cases did
        cases member
      · split at did
        · exact recvFrom_noPartner k _ _ userBuf _ k' value events did e member k₁ a
        · split at did
          all_goals
            cases did
            rw [List.mem_singleton.mp member]
            trivial

theorem sysWaitRound_noPartner (k : Kernel) (self : Slot) (childId : U64) : NoPartner (sysWaitRound k self childId) := by
  intro k' value events did e member k₁ a
  unfold sysWaitRound at did
  grind [CalledFor]

/-- A send that blocks names its own target. -/
theorem sendTo_called (regs : SyscallRegs) (isSend : regs.rax = SYS_SEND) {self target : Slot}
    {value : Option U64} (cause : awaitsSender (k.tasks.slot target) (k.tasks.slot self).taskId = false →
      Cause k.phys k.tasks self .onSend regs.rdi regs.rsi (clampLen regs.rdx) .inSend)
    (did : sendTo k self target regs.rdi regs.rsi (clampLen regs.rdx) = some (k', value, events)) :
    ∀ e ∈ events, CalledFor k (.syscall regs) e := by
  intro e member
  unfold sendTo at did
  dsimp only at did
  split at did
  · split at did
    · cases did
    · split at did
      · cases did
        cases member
      · split at did
        · cases did
        · split at did
          · cases did
          · cases did
            simp only [List.mem_cons, List.not_mem_nil, or_false] at member
            rcases member with rfl | rfl <;> trivial
  · rename_i busy
    have blocks := cause (Bool.eq_false_iff.mpr busy)
    split at did
    all_goals
      cases did
      rw [List.mem_singleton.mp member]
      exact ⟨regs, rfl, isSend, rfl, blocks⟩

theorem sysSend_called (regs : SyscallRegs) (isSend : regs.rax = SYS_SEND) {value : Option U64}
    (did : sysSend k regs.rdi regs.rsi regs.rdx = some (k', value, events)) :
    ∀ e ∈ events, CalledFor k (.syscall regs) e := by
  intro e member
  unfold sysSend at did
  split at did
  · cases did
    cases member
  · dsimp only at did
    split at did
    · cases did
    · rename_i space
      split at did
      · cases did
        cases member
      · rename_i valid
        split at did
        · cases did
          cases member
        · rename_i found
          exact sendTo_called regs isSend (fun busy => .send space (by simpa using valid) found busy) did e member

theorem sysExit_called (regs : SyscallRegs) (isExit : regs.rax = SYS_EXIT) {value : Option U64} {code : U64}
    (did : sysExit k code = some (k', value, events)) : ∀ e ∈ events, CalledFor k (.syscall regs) e := by
  intro e member
  unfold sysExit at did
  grind [CalledFor]

theorem dispatch_called {regs : SyscallRegs} {value : Option U64}
    (did : syscallDispatch k regs = some (k', value, events)) : ∀ e ∈ events, CalledFor k (.syscall regs) e := by
  unfold syscallDispatch at did
  split at did
  · exact fun e member => sysWrite_noPartner _ _ _ _ _ _ did e member _ _
  · split at did
    · rename_i isExit
      exact sysExit_called regs isExit did
    · split at did
      · exact fun e member => sysFork_noPartner _ _ _ _ _ did e member _ _
      · split at did
        · rename_i isSend
          exact sysSend_called regs isSend did
        · split at did
          · exact fun e member => sysRecv_noPartner _ _ _ _ _ _ _ did e member _ _
          · split at did
            · unfold sysWait at did
              split at did
              · cases did
                simp
              · exact fun e member => sysWaitRound_noPartner _ _ _ _ _ _ did e member _ _
            · cases did
              simp

theorem returnTo_called {result : SysResult} (did : returnTo self result = some (k', new))
    (called : ∀ k₁ value events, result = some (k₁, value, events) → ∀ e ∈ events, CalledFor k a e) :
    ∀ e ∈ new, CalledFor k a e := by
  intro e member
  match result, did, called with
  | some (k₁, none, events), did, called =>
    cases did
    exact called _ _ _ rfl e member
  | some (k₁, some value, events), did, called =>
    cases did
    rcases List.mem_append.mp member with earlier | last
    · exact called _ _ _ rfl e earlier
    · rw [List.mem_singleton.mp last]
      trivial

/-- Only `sys_exit` ends a task, and only `sys_send` blocks in a send. -/
theorem step_called (did : step k a = some (k', new)) : ∀ e ∈ new, CalledFor k a e := by
  cases a with
  | syscall regs =>
    simp only [step] at did
    split at did
    · cases did
    · split at did
      · exact returnTo_called did (fun _ _ _ => dispatch_called)
      · cases did
  | resume =>
    simp only [step] at did
    split at did
    · cases did
    · split at did
      · cases did
        simp [CalledFor]
      · cases did
        simp [CalledFor]
      · exact returnTo_called did fun k₁ value events round e member => sysWaitRound_noPartner _ _ _ k₁ value events round e member _ _
      · cases did
  | create | createKernel =>
    cases did
    simp
  | destroy | elfLoad | mapStack | prepare | start | tick =>
    simp only [step] at did
    split at did <;> cases did
    simp
  | store va b =>
    simp only [step] at did
    split at did
    · cases did
    · split at did
      · obtain ⟨s, _, same⟩ := Option.map_eq_some_iff.mp did
        cases same
        simp
      · cases did

/-- A task stays as long as it does not exit: only the dead are reaped. -/
theorem effect_alive (table : TableInv T) (kept : NoDestroy k a) (effect : Effect s T a new T') (alive : Alive T p) :
    Alive T' p ∨ .exited p ∈ new := by
  have notNew : ∀ {u}, T.taskFreeList = some u → p ≠ u := by
    rintro u free rfl
    exact alive.2 (table.headUnused free).1
  have woken : ∀ {T : TaskTable} {u}, Alive T p → Alive (T.taskWake u) p := by
    intro T u alive
    by_cases isU : p = u
    · subst isU
      simp [Alive, taskWake]
    · simpa [Alive, taskWake, isU] using alive
  have switched : ∀ {T : TaskTable} {u}, Alive T p → Alive (T.switchTo u) p := by
    intro T u alive
    by_cases isU : p = u
    · subst isU
      simp [Alive]
    · simpa [Alive, isU] using alive
  have blocked : ∀ {u reason peer buf len}, Alive (T.block u reason peer buf len) p := by
    intro u reason peer buf len
    by_cases isU : p = u
    · subst isU
      simp [Alive, TaskTable.block]
    · simpa [Alive, isU] using alive
  have exited : ∀ {u code}, p ≠ u → Alive (T.exit u code) p := by
    intro u code other
    rw [Alive, exit_slot_other other]
    exact alive
  cases effect with
  | quiet => exact .inl alive
  | returned => exact .inl alive
  | childless => exact .inl alive
  | resumed => exact .inl alive
  | start => exact .inl alive
  | create free => exact .inl (by rw [Alive, spawn_slot_other (notNew free)]; exact alive)
  | createKernel _ free => exact .inl (by rw [Alive, spawn_slot_other (notNew free)]; exact alive)
  | fork _ _ _ free => exact .inl (by rw [Alive, spawn_slot_other (notNew free)]; exact alive)
  | destroy t => exact absurd rfl (kept t)
  | prepare u =>
    left
    by_cases isU : p = u
    · subst isU
      simpa [Alive] using alive
    · simpa [Alive, isU] using alive
  | deliver => exact .inl (woken alive)
  | @collect _ sender =>
    refine .inl (woken ?_)
    by_cases isSender : p = sender
    · subst isSender
      simpa [Alive] using alive
    · simpa [Alive, isSender] using alive
  | blockAlone => exact .inl blocked
  | spin => exact .inl blocked
  | blockSwitch => exact .inl (switched blocked)
  | @exit self =>
    by_cases isSelf : p = self
    · subst isSelf
      exact .inr List.mem_cons_self
    · exact .inl (woken (exited isSelf))
  | @exitUnseen self =>
    by_cases isSelf : p = self
    · subst isSelf
      exact .inr List.mem_cons_self
    · exact .inl (exited isSelf)
  | @reap _ child _ _ _ _ _ dead =>
    have other : p ≠ child := fun same => alive.1 (same ▸ dead)
    exact .inl (by rw [Alive, resumeAt_slot, taskDestroy_slot_other other]; exact alive)
  | @switch prev =>
    refine .inl (switched ?_)
    by_cases isPrev : p = prev
    · subst isPrev
      unfold TaskTable.preempt
      split
      · simp [Alive]
      · exact alive
    · rw [Alive, preempt_slot_other isPrev]
      exact alive

/-- Whoever exits is the current task, and dead afterwards. -/
theorem effect_exited (effect : Effect s T a new T') (exited : .exited p ∈ new) :
    T.currentTask = some p ∧ (T'.slot p).state = .dead := by
  cases effect with
  | @exit self waiter _ code current _ waits =>
    have isSelf : p = self := by simpa using exited
    subst isSelf
    refine ⟨current, ?_⟩
    have other : p ≠ waiter := by
      rintro rfl
      simp [awaitsChild, TaskTable.exit] at waits
    rw [taskWake, modify_slot_other other]
    simp [TaskTable.exit]
  | @exitUnseen self _ code current =>
    have isSelf : p = self := by simpa using exited
    subst isSelf
    exact ⟨current, by simp [TaskTable.exit]⟩
  | quiet | create | createKernel | destroy | prepare | start | returned | fork | deliver | collect | blockAlone | spin
  | blockSwitch | reap | childless | resumed | switch => simp at exited

/-- The sender is blocked in front of this task. -/
def BlockedOn (T : TaskTable) (t p : Slot) : Prop :=
  (T.slot t).state = .blocked ∧ (T.slot t).blockReason = .onSend ∧ (T.slot t).ipcPeer = (T.slot p).taskId

/-- A send that has to block finds a target that has not exited, and nobody
exits while another task is blocked in front of him. -/
def KeepsPartners (k : Kernel) (a : Action) : Prop :=
  NoDestroy k a ∧ ∀ regs self, a = .syscall regs → k.tasks.currentTask = some self →
    (∀ target, regs.rax = SYS_SEND → Cause k.phys k.tasks self .onSend regs.rdi regs.rsi (clampLen regs.rdx) .inSend →
      k.tasks.taskFindById regs.rdi = some target → (k.tasks.slot target).state ≠ .dead) ∧
    (regs.rax = SYS_EXIT → ∀ t, t ≠ self → ¬ BlockedOn k.tasks t self)

/-- Slot `p` holds the task that was there when `t` called `sys_send`: the call
blocked, and in every state from there on the slot was neither dead nor free. -/
def SamePartner (k₀ : Kernel) (t p : Slot) (k : Kernel) : Prop :=
  ∃ before k₁ regs k₂ new after, Run step NoDestroy k₀ before k₁ ∧ k₁.tasks.currentTask = some t ∧
    regs.rax = SYS_SEND ∧ step k₁ (.syscall regs) = some (k₂, new) ∧
    .blocked t .onSend (k₁.tasks.slot p).taskId ∈ new ∧ Alive k₁.tasks p ∧
    Run step (fun k a => NoDestroy k a ∧ Alive k.tasks p) k₂ after k

/-- Every blocked sender waits for a task that is there, and that was there when
it called. -/
def PartnersLive (k₀ k : Kernel) : Prop :=
  ∀ t, (k.tasks.slot t).state = .blocked → (k.tasks.slot t).blockReason = .onSend →
    ∃ p, (k.tasks.slot p).taskId = (k.tasks.slot t).ipcPeer ∧ Alive k.tasks p ∧ SamePartner k₀ t p k

/-- The two ways a partner could be lost are what the condition excludes. -/
theorem step_partnersLive (table : TableInv k.tasks) (run : Run step NoDestroy k₀ events k) (live : PartnersLive k₀ k)
    (may : KeepsPartners k a) (did : step k a = some (k', new)) : PartnersLive k₀ k' := by
  have effect := step_effect table.clean (fun _ current => table.headNotCurrent current) did
  have table' := effect_tableInv table effect
  have sameId : ∀ p, (k'.tasks.slot p).taskId = (k.tasks.slot p).taskId := by
    intro p
    rw [(table'.slots p).id, (table.slots p).id]
  intro t blocked onSend
  rcases effect_parked effect blocked (by rw [onSend]; decide) with
    same | ⟨current, reason, peer, buf, len, resume, _, parked, same⟩
  · rw [same] at blocked onSend
    obtain ⟨p, isPeer, alive, before, k₁, regs, k₂, first, after, earlier, current, isSend, blocks, event, was, since⟩ :=
      live t blocked onSend
    have stays : Alive k'.tasks p := by
      rcases effect_alive table may.1 effect alive with stays | exits
      · exact stays
      · exfalso
        obtain ⟨regs, rfl, isExit⟩ := step_called did _ exits
        obtain ⟨current, dead⟩ := effect_exited effect exits
        have other : t ≠ p := by
          rintro rfl
          rw [same, blocked] at dead
          cases dead
        exact (may.2 regs p rfl current).2 isExit t other ⟨blocked, onSend, isPeer.symm⟩
    refine ⟨p, by rw [sameId, same, isPeer], stays, ?_⟩
    exact ⟨before, k₁, regs, k₂, first, _, earlier, current, isSend, blocks, event, was, since.next a ⟨may.1, alive⟩ did⟩
  · rw [same] at onSend ⊢
    simp only [TaskTable.block, modify_slot_same] at onSend ⊢
    subst onSend
    obtain ⟨regs, rfl, isSend, rfl, cause⟩ := step_called did _ parked
    have ofSend := (may.2 regs t rfl current).1
    cases cause with
    | @send _ target _ _ _ space valid found busy =>
      have named := find_slots_some found
      simp only [Bool.and_eq_true, decide_eq_true_eq] at named
      have alive : Alive k.tasks target :=
        ⟨ofSend target isSend (.send space valid found busy) found, named.1⟩
      refine ⟨target, by rw [sameId, named.2], ?_, ?_⟩
      · rcases effect_alive table may.1 effect alive with stays | exits
        · exact stays
        · obtain ⟨regs', same, isExit⟩ := step_called did _ exits
          cases same
          rw [isSend] at isExit
          exact absurd isExit (by decide)
      · exact ⟨_, k, regs, k', new, [], run, current, isSend, did, by rw [named.2]; exact parked, alive, .start⟩

/-- **No sender waits for a dead partner.** In every run in which no send blocks
in front of a dead task and nobody exits in front of a blocked sender, each
blocked sender's peer is alive and is the task it was when `sys_send` was called. -/
theorem partners_live (booted : Booted k₀) (run : Run step KeepsPartners k₀ events k) : PartnersLive k₀ k := by
  have table₀ := run_tableInv booted (.start : Run step NoDestroy k₀ [] k₀)
  obtain ⟨T, _, _, isInit⟩ := booted
  have all := run.invariant
    (fun events k => Run step NoDestroy k₀ events k ∧ TableInv k.tasks ∧ PartnersLive k₀ k) ⟨.start, table₀, ?_⟩ ?_
  · exact all.2.2
  · intro t blocked
    rw [isInit, taskTableInit_unused] at blocked
    cases blocked
  · rintro events k a k' new ⟨before, table, live⟩ may did
    exact ⟨before.next a may.1 did, step_tableInv table did, step_partnersLive table before live may did⟩

/-- The test of `KeepsPartners` for one state. -/
def partnersTest (k : Kernel) : Action → Bool
  | .syscall regs => k.tasks.currentTask.all fun self =>
    (regs.rax ≠ SYS_SEND || (k.tasks.taskFindById regs.rdi).all fun target => (k.tasks.slot target).state ≠ .dead) &&
    (regs.rax ≠ SYS_EXIT || slots.all fun t => t = self || (k.tasks.slot t).state ≠ .blocked)
  | _ => true

theorem keepsPartners_of_test (kept : NoDestroy k a) (test : partnersTest k a = true) : KeepsPartners k a := by
  refine ⟨kept, fun regs self isCall current => ?_⟩
  subst isCall
  simp only [partnersTest, current, Option.all_some, Bool.and_eq_true, Bool.or_eq_true, decide_eq_true_eq] at test
  refine ⟨fun target isSend _ found => ?_, fun isExit t other on => ?_⟩
  · have live := test.1.resolve_left (fun notSend => notSend isSend)
    rw [found] at live
    simpa using live
  · have all := test.2.resolve_left (fun notExit => notExit isExit)
    rw [List.all_eq_true] at all
    have asleep := all t (List.mem_finRange t)
    simp only [Bool.or_eq_true, decide_eq_true_eq, other, false_or] at asleep
    exact asleep on.1

/-- The first task forks and sends to its child, which is then alive. -/
theorem partners_live_child : ∃ k events, Run step KeepsPartners (bootKernel 20) events k ∧
    (k.tasks.slot 1).state = .blocked ∧ (k.tasks.slot 1).ipcPeer = 2 ∧ Alive k.tasks 2 ∧
    SamePartner (bootKernel 20) 1 2 k := by
  let actions := started [call SYS_FORK 0, call SYS_SEND 2]
  have kept : ∀ k, ∀ a ∈ actions, NoDestroy k a := by simp [actions, started, call, NoDestroy]
  have ran : (exec partnersTest step (bootKernel 20) actions).map (fun out =>
        ((out.1.tasks.slot 1).state, (out.1.tasks.slot 1).blockReason, (out.1.tasks.slot 1).ipcPeer)) =
      some (.blocked, .onSend, 2) := by
    decide +kernel
  obtain ⟨⟨k, events⟩, did, now⟩ := Option.map_eq_some_iff.mp ran
  have run : Run step KeepsPartners (bootKernel 20) events k :=
    run_of_exec (fun k a member => keepsPartners_of_test (kept k a member)) did
  simp only [Prod.mk.injEq] at now
  obtain ⟨blocked, onSend, isPeer⟩ := now
  obtain ⟨p, named, alive, same⟩ := partners_live (bootKernel_booted 20) run 1 blocked onSend
  have isTwo : p = 2 := by
    rw [isPeer, ((run_tableInv (bootKernel_booted 20) run).slots p).id] at named
    exact slot_of_id (u := 2) named
  subst isTwo
  exact ⟨k, events, run, blocked, isPeer, alive, same⟩

/-- The first task sends to its child, and the child exits. -/
theorem partner_exits : ¬ ∀ k₀ events k, Booted k₀ → Run step NoDestroy k₀ events k → PartnersLive k₀ k := by
  intro all
  have ran : (exec (fun _ _ => true) step (bootKernel 20)
      (started [call SYS_FORK 0, call SYS_SEND 2, call SYS_EXIT 0])).map (fun (k, _) =>
        ((k.tasks.slot 1).state, (k.tasks.slot 1).blockReason, (k.tasks.slot 1).ipcPeer, (k.tasks.slot 2).state)) =
      some (.blocked, .onSend, 2, .dead) := by
    decide +kernel
  obtain ⟨⟨k, events⟩, did, now⟩ := Option.map_eq_some_iff.mp ran
  have run : Run step NoDestroy (bootKernel 20) events k := run_of_exec (by simp [started, call, NoDestroy]) did
  simp only [Prod.mk.injEq] at now
  obtain ⟨blocked, onSend, isPeer, dead⟩ := now
  obtain ⟨p, named, alive, _⟩ := all _ _ _ (bootKernel_booted 20) run 1 blocked onSend
  have isTwo : p = 2 := by
    rw [isPeer, ((run_tableInv (bootKernel_booted 20) run).slots p).id] at named
    exact slot_of_id (u := 2) named
  subst isTwo
  exact alive.1 dead

end HobbyKernel.PartnerProofs
