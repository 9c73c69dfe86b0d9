import HobbyKernel.IsolationProofs
import HobbyKernel.WaitProofs

/-! No rendezvous is missed. A sender blocks only when its receiver is not
waiting for it, and a receiver only when nobody offers it a message; that a
sender with a bad buffer is passed over does no harm, because the buffer of a
blocked task stays as good as it was when the task blocked. -/
namespace HobbyKernel.RendezvousProofs
open TaskTable TaskEffects TaskInvariant WalkProofs UaccessProofs WaitProofs Isolation IsolationSteps IsolationProofs Runs

variable {k₀ k k' : Kernel} {s : Phys} {T T' : TaskTable} {t self sender receiver : Slot} {a : Action}
  {events : List Event} {free : List Nat} {r : Frame} {buf len len' : U64} {needWrite : Bool}

/-- Two tasks are blocked although each is what the other waits for. -/
structure Missed (T : TaskTable) (sender receiver : Slot) : Prop where
  sends : (T.slot sender).state = .blocked ∧ (T.slot sender).blockReason = .onSend
  target : (T.slot sender).ipcPeer = (T.slot receiver).taskId
  receives : (T.slot receiver).state = .blocked ∧ (T.slot receiver).blockReason = .onRecv
  accepts : (T.slot receiver).ipcPeer = (T.slot sender).taskId ∨ (T.slot receiver).ipcPeer = IPC_ANY_SENDER

/-- A task's message buffer passes the check of its system call. -/
def BufferValid (s : Phys) (task : Task) (needWrite : Bool) : Prop :=
  ∃ r, task.pml4 = some r ∧ uvaCheckRange s r task.ipcBuf task.ipcLen needWrite = true

structure RendezvousInv (k : Kernel) : Prop where
  sendBuffer : ∀ t, (k.tasks.slot t).state = .blocked → (k.tasks.slot t).blockReason = .onSend →
    BufferValid k.phys (k.tasks.slot t) false
  recvBuffer : ∀ t, (k.tasks.slot t).state = .blocked → (k.tasks.slot t).blockReason = .onRecv →
    BufferValid k.phys (k.tasks.slot t) true
  met : ∀ sender receiver, sender ≠ receiver → ¬ Missed k.tasks sender receiver

theorem minLen_le (a b : U64) : (minLen a b).toNat ≤ a.toNat ∧ (minLen a b).toNat ≤ b.toNat := by
  rw [minLen_toNat]
  exact ⟨Nat.min_le_left _ _, Nat.min_le_right _ _⟩

/-- A shorter piece of a valid buffer is valid. -/
theorem check_shorter (valid : uvaCheckRange s r buf len needWrite = true) (shorter : len'.toNat ≤ len.toNat) :
    uvaCheckRange s r buf len' needWrite = true := by
  rw [uvaCheckRange_iff] at valid ⊢
  rcases valid with rfl | ⟨fits, all⟩
  · left
    have zero : len'.toNat = 0 := by simpa using shorter
    exact BitVec.eq_of_toNat_eq zero
  · right
    exact ⟨by omega, fun byte low high => all byte low (by omega)⟩

/-- A valid buffer stays valid while its task keeps its address space. -/
theorem check_kept (kept : AccessKept k k') (before : (k.tasks.slot t).pml4 = some r)
    (after : (k'.tasks.slot t).pml4 = some r) (valid : uvaCheckRange k.phys r buf len needWrite = true) :
    uvaCheckRange k'.phys r buf len needWrite = true := by
  rw [uvaCheckRange_iff] at valid ⊢
  rcases valid with empty | ⟨fits, all⟩
  · exact .inl empty
  · refine .inr ⟨fits, fun byte low high => ?_⟩
    obtain ⟨small, permitted⟩ := all byte low high
    exact ⟨small, kept t r byte needWrite before after (lower_of_small small) permitted⟩

/-- One slot changes, to something that is not blocked. -/
theorem slot_of_blocked {u : Slot} (slot : ∀ t, t ≠ u → T'.slot t = T.slot t) (awake : (T'.slot u).state ≠ .blocked)
    (blocked : (T'.slot t).state = .blocked) : T'.slot t = T.slot t := by
  refine slot t ?_
  rintro rfl
  exact awake blocked

theorem wake_blocked {u : Slot} (blocked : ((T.taskWake u).slot t).state = .blocked) :
    (T.taskWake u).slot t = T.slot t :=
  slot_of_blocked (u := u) (fun _ other => modify_slot_other other) (by simp [taskWake]) blocked

theorem preempt_blocked (blocked : ((T.preempt self).slot t).state = .blocked) :
    (T.preempt self).slot t = T.slot t := by
  by_cases isSelf : t = self
  · subst isSelf
    unfold TaskTable.preempt at blocked ⊢
    split
    · rename_i running
      rw [if_pos running, modify_slot_same] at blocked
      cases blocked
    · rfl
  · exact preempt_slot_other isSelf

/-- A task blocked in front of a message was so before the step, or is the
current task and has just found that its call must block. -/
theorem effect_parked (effect : Effect s T a events T') (blocked : (T'.slot t).state = .blocked)
    (parked : (T'.slot t).blockReason ≠ .onWait) :
    T'.slot t = T.slot t ∨ (T.currentTask = some t ∧ ∃ reason peer buf len resume,
      Cause s T t reason peer buf len resume ∧ .blocked t reason peer ∈ events ∧
      T'.slot t = (T.block t reason peer buf len).slot t) := by
  cases effect with
  | quiet => exact .inl rfl
  | start => exact .inl rfl
  | returned => exact .inl rfl
  | childless => exact .inl rfl
  | resumed => exact .inl rfl
  | create _ made =>
    exact .inl (slot_of_blocked (fun u other => spawn_slot_other other) (by simp [made.state]) blocked)
  | createKernel _ _ made =>
    exact .inl (slot_of_blocked (fun u other => spawn_slot_other other) (by simp [made.state]) blocked)
  | fork _ _ _ _ made =>
    exact .inl (slot_of_blocked (fun u other => spawn_slot_other other) (by simp [made.state]) blocked)
  | destroy u _ used =>
    refine .inl (slot_of_blocked (u := u) (fun u other => taskDestroy_slot_other other) ?_ blocked)
    rw [taskDestroy_slot_same used]
    simp
  | reap _ _ _ _ dead =>
    refine .inl (slot_of_blocked (fun u other => taskDestroy_slot_other other) ?_ blocked)
    rw [resumeAt_slot, taskDestroy_slot_same (by rw [dead]; decide)]
    simp
  | prepare u _ _ _ runnable =>
    refine .inl (slot_of_blocked (u := u) (fun u other => ?_) ?_ blocked)
    · rw [resumeAt_slot, modify_slot_other other]
    · simp [runnable]
  | deliver => exact .inl (wake_blocked blocked)
  | @collect _ sender =>
    refine .inl (slot_of_blocked (u := sender) (fun u other => ?_) (by simp [taskWake]) blocked)
    rw [taskWake, modify_slot_other other, modify_slot_other other]
  | exit =>
    have asleep := wake_blocked blocked
    rw [asleep] at blocked ⊢
    exact .inl (slot_of_blocked (fun u other => exit_slot_other other) (by simp [TaskTable.exit]) blocked)
  | exitUnseen =>
    exact .inl (slot_of_blocked (fun u other => exit_slot_other other) (by simp [TaskTable.exit]) blocked)
  | switch =>
    have notNext := slot_of_blocked (fun u other => switchTo_slot_other other) (by simp) blocked
    rw [notNext] at blocked ⊢
    exact .inl (preempt_blocked blocked)
  | @blockAlone self _ _ regs current _ _ cause =>
    by_cases isSelf : t = self
    · subst isSelf
      exact .inr ⟨current, _, _, _, _, _, cause, List.mem_cons_self, rfl⟩
    · exact .inl (block_slot_other isSelf)
  | @spin self _ _ current _ cause =>
    by_cases isSelf : t = self
    · subst isSelf
      exact .inr ⟨current, _, _, _, _, _, cause, List.mem_cons_self, rfl⟩
    · exact .inl (block_slot_other isSelf)
  | @blockSwitch self next reason peer buf len resume _ current _ cause =>
    have notNext := slot_of_blocked (T := (T.block self reason peer buf len).resumeAt self resume)
      (fun u other => switchTo_slot_other other) (by simp) blocked
    rw [notNext]
    by_cases isSelf : t = self
    · subst isSelf
      exact .inr ⟨current, _, _, _, _, _, cause, List.mem_cons_self, rfl⟩
    · exact .inl (block_slot_other isSelf)

theorem find_target (table : TableInv T) {peer : U64} {target : Slot} (found : T.taskFindById peer = some target)
    (isPeer : peer = (T.slot receiver).taskId) : target = receiver := by
  have named := find_slots_some found
  simp only [Bool.and_eq_true, decide_eq_true_eq] at named
  exact table.id_inj (named.2.trans isPeer)

/-- A sender that must block has no receiver blocked in front of it. -/
theorem send_met {peer buf len : U64} {resume : Control} (table : TableInv T)
    (cause : Cause s T sender .onSend peer buf len resume) (isPeer : peer = (T.slot receiver).taskId) :
    awaitsSender (T.slot receiver) (T.slot sender).taskId = false := by
  cases cause with
  | send _ _ found busy =>
    rw [find_target table found isPeer] at busy
    exact busy

/-- A receiver that must block has no sender with a valid buffer blocked in
front of it. -/
theorem recv_met {peer buf len : U64} {resume : Control} (cause : Cause s T receiver .onRecv peer buf len resume)
    (sends : (T.slot sender).state = .blocked ∧ (T.slot sender).blockReason = .onSend)
    (target : (T.slot sender).ipcPeer = (T.slot receiver).taskId)
    (accepts : peer = (T.slot sender).taskId ∨ peer = IPC_ANY_SENDER) : ¬ BufferValid s (T.slot sender) false := by
  rintro ⟨r, isSpace, valid⟩
  cases cause with
  | recv _ _ silent =>
    have shorter := check_shorter valid (minLen_le len (T.slot sender).ipcLen).2
    have offers := silent sender
    rcases accepts with isSender | any
    · simp [offersMessage, sends, target, isSpace, shorter, isSender] at offers
    · simp [offersMessage, sends, target, isSpace, shorter, any] at offers

/-- The buffer of a blocked sender or receiver was valid before the step. -/
theorem parked_buffer (inv : RendezvousInv k) (effect : Effect k.phys k.tasks a events k'.tasks)
    (blocked : (k'.tasks.slot t).state = .blocked) (parked : (k'.tasks.slot t).blockReason ≠ .onWait) :
    (k'.tasks.slot t).pml4 = (k.tasks.slot t).pml4 ∧
      ((k'.tasks.slot t).blockReason = .onSend → BufferValid k.phys (k'.tasks.slot t) false) ∧
      ((k'.tasks.slot t).blockReason = .onRecv → BufferValid k.phys (k'.tasks.slot t) true) := by
  rcases effect_parked effect blocked parked with same | ⟨_, reason, peer, buf, len, resume, cause, _, same⟩
  · rw [same] at blocked ⊢
    exact ⟨rfl, inv.sendBuffer t blocked, inv.recvBuffer t blocked⟩
  · rw [same]
    refine ⟨by simp [TaskTable.block], fun isSend => ?_, fun isRecv => ?_⟩
    · simp only [TaskTable.block, modify_slot_same] at isSend
      subst isSend
      cases cause with
      | send space valid => exact ⟨_, by simpa [TaskTable.block] using space, by simpa [TaskTable.block] using valid⟩
    · simp only [TaskTable.block, modify_slot_same] at isRecv
      subst isRecv
      cases cause with
      | recv space valid => exact ⟨_, by simpa [TaskTable.block] using space, by simpa [TaskTable.block] using valid⟩

theorem BufferValid.kept (valid : BufferValid k.phys (k'.tasks.slot t) needWrite) (kept : AccessKept k k')
    (same : (k'.tasks.slot t).pml4 = (k.tasks.slot t).pml4) : BufferValid k'.phys (k'.tasks.slot t) needWrite := by
  obtain ⟨r, isSpace, checked⟩ := valid
  exact ⟨r, isSpace, check_kept kept (same ▸ isSpace) isSpace checked⟩

/-- Either side blocks only after it has looked for the other. -/
theorem effect_met (table : TableInv k.tasks) (inv : RendezvousInv k)
    (effect : Effect k.phys k.tasks a events T') (apart : sender ≠ receiver) : ¬ Missed T' sender receiver := by
  rintro ⟨sends, target, receives, accepts⟩
  rcases effect_parked effect sends.1 (by rw [sends.2]; decide) with
    sendsStill | ⟨current, reason, peer, buf, len, resume, cause, _, blocks⟩
  · rcases effect_parked effect receives.1 (by rw [receives.2]; decide) with
      receivesStill | ⟨_, reason, peer, buf, len, resume, cause, _, blocks⟩
    · rw [sendsStill] at sends
      rw [receivesStill] at receives
      rw [sendsStill, receivesStill] at target accepts
      exact inv.met sender receiver apart ⟨sends, target, receives, accepts⟩
    · rw [sendsStill] at sends target accepts
      simp only [blocks, TaskTable.block, modify_slot_same] at target receives accepts
      obtain ⟨_, rfl⟩ := receives
      exact recv_met cause sends target accepts (inv.sendBuffer sender sends.1 sends.2)
  · rcases effect_parked effect receives.1 (by rw [receives.2]; decide) with receivesStill | ⟨current', _⟩
    · rw [receivesStill] at receives target accepts
      simp only [blocks, TaskTable.block, modify_slot_same] at sends target accepts
      obtain ⟨_, rfl⟩ := sends
      have busy := send_met table cause target
      simp [awaitsSender, receives] at busy
      exact accepts.elim busy.2 busy.1
    · rw [current] at current'
      exact apart (Option.some.inj current')

theorem step_rendezvousInv (table : TableInv k.tasks) (inv : RendezvousInv k) (kept : AccessKept k k')
    (effect : Effect k.phys k.tasks a events k'.tasks) : RendezvousInv k' := by
  refine ⟨fun t blocked reason => ?_, fun t blocked reason => ?_, fun sender receiver => effect_met table inv effect⟩
  · obtain ⟨same, sendBuffer, _⟩ := parked_buffer inv effect blocked (by rw [reason]; decide)
    exact (sendBuffer reason).kept kept same
  · obtain ⟨same, _, recvBuffer⟩ := parked_buffer inv effect blocked (by rw [reason]; decide)
    exact (recvBuffer reason).kept kept same

theorem run_rendezvousInv (boot : BootedWith k₀ free) (run : Run step KeepsLower k₀ events k) : RendezvousInv k := by
  have all := run.invariant (fun _ k => TableInv k.tasks ∧
    (∃ rest, Isolated k₀.phys.mem (getCurrentPml4 k₀.cr3) k rest) ∧ RendezvousInv k) ⟨?_, ?_, ?_⟩ ?_
  · exact all.2.2
  · exact run_tableInv boot.booted (.start : Run step KeepsLower k₀ [] k₀)
  · exact ⟨free, boot.isolated⟩
  · obtain ⟨T, _, _, isInit⟩ := boot.booted
    have unblocked : ∀ t, (k₀.tasks.slot t).state ≠ .blocked := by
      intro t
      rw [isInit, taskTableInit_unused]
      decide
    exact ⟨fun t blocked => absurd blocked (unblocked t), fun t blocked => absurd blocked (unblocked t),
      fun sender _ _ missed => unblocked sender missed.sends.1⟩
  · rintro _ k a k' new ⟨table, ⟨rest, iso⟩, inv⟩ may did
    have effect := step_effect table.clean (fun _ current => table.headNotCurrent current) did
    have secure := step_secure table iso may did
    exact ⟨step_tableInv table did, secure.isolated, step_rendezvousInv table inv secure.access effect⟩

/-- **No rendezvous is missed.** In no state a system reaches is a sender
blocked whose receiver is blocked in front of it. -/
theorem no_missed_rendezvous (boot : BootedWith k₀ free) (run : Run step KeepsLower k₀ events k) :
    ∀ sender receiver, sender ≠ receiver → ¬ ((k.tasks.slot sender).state = .blocked ∧
      (k.tasks.slot sender).blockReason = .onSend ∧ (k.tasks.slot sender).ipcPeer = (k.tasks.slot receiver).taskId ∧
      (k.tasks.slot receiver).state = .blocked ∧ (k.tasks.slot receiver).blockReason = .onRecv ∧
      ((k.tasks.slot receiver).ipcPeer = (k.tasks.slot sender).taskId ∨
        (k.tasks.slot receiver).ipcPeer = IPC_ANY_SENDER)) := by
  rintro sender receiver apart ⟨sends, onSend, target, receives, onRecv, accepts⟩
  exact (run_rendezvousInv boot run).met sender receiver apart ⟨⟨sends, onSend⟩, target, ⟨receives, onRecv⟩, accepts⟩

/-- Task 1 waits for a message from task 3, so task 2 may block in front of it:
the receiver does not accept this sender. -/
theorem no_missed_rendezvous_third : ∃ k events, Run step KeepsLower (bootKernel 20) events k ∧
    (k.tasks.slot 2).state = .blocked ∧ (k.tasks.slot 2).ipcPeer = (k.tasks.slot 1).taskId ∧
    (k.tasks.slot 1).state = .blocked ∧ (k.tasks.slot 1).ipcPeer ≠ (k.tasks.slot 2).taskId := by
  have ran : (exec (fun _ _ => true) step (bootKernel 20) (started [call SYS_FORK 0, call SYS_FORK 0,
      call SYS_RECV 3, call SYS_SEND 1])).map (fun (k, _) => ((k.tasks.slot 1).taskId,
        (k.tasks.slot 1).state, (k.tasks.slot 1).blockReason, (k.tasks.slot 2).state, (k.tasks.slot 2).blockReason,
        (k.tasks.slot 2).ipcPeer)) = some (1, .blocked, .onRecv, .blocked, .onSend, 1) := by
    decide +kernel
  obtain ⟨⟨k, events⟩, did, now⟩ := Option.map_eq_some_iff.mp ran
  have run : Run step KeepsLower (bootKernel 20) events k := run_of_exec (by simp [started, call, KeepsLower]) did
  simp only [Prod.mk.injEq] at now
  obtain ⟨isOne, receives, onRecv, sends, onSend, target⟩ := now
  refine ⟨k, events, run, sends, target.trans isOne.symm, receives, fun accepts => ?_⟩
  exact no_missed_rendezvous (bootKernel_bootedWith (by decide)) run 2 1 (by decide)
    ⟨sends, onSend, target.trans isOne.symm, receives, onRecv, .inl accepts⟩

end HobbyKernel.RendezvousProofs
