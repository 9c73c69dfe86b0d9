import HobbyKernel.RendezvousProofs
import HobbyKernel.UserBytes

/-! Who arrives first at a rendezvous. The later call finds the earlier one
asleep with its buffer as it was, makes the copy and returns how much it was;
the earlier call returns `ipc_len` when its task runs again. `sys_recv` stores
the length of the copy there, `sys_send` does not. -/
namespace HobbyKernel.RendezvousOrder
open TaskTable TaskEffects TaskInvariant WalkProofs UaccessProofs WaitProofs Isolation IsolationSteps IsolationProofs
open RendezvousProofs SpaceEvolution PageWrites UserBytes Runs Radix

variable {k₀ k k' : Kernel} {s : Phys} {T T' : TaskTable} {t self sender receiver : Slot} {a : Action}
  {events : List Event} {free : List Nat} {mem₀ : PhysMem} {boot r : Frame} {va : U64} {needWrite : Bool}

/-- A step in which a task neither runs nor is dealt with by anybody. -/
def LeavesAlone (t : Slot) (k : Kernel) (a : Action) : Prop :=
  KeepsLower k a ∧ k.tasks.currentTask ≠ some t ∧ a ≠ .destroy t ∧ (∀ image, a ≠ .elfLoad t image) ∧
    (∀ vaddr, a ≠ .mapStack t vaddr) ∧ ∀ k' events, step k a = some (k', events) → .woken t ∉ events

/-- The task is in the middle of a system call. -/
def Asleep (T : TaskTable) (t : Slot) : Prop :=
  ((T.slot t).state = .blocked ∨ (T.slot t).state = .runnable) ∧ (T.control t = .inSend ∨ T.control t = .inRecv)

/-- Nothing happened to a task, or it was switched to. -/
def Undisturbed (T T' : TaskTable) (t : Slot) : Prop :=
  T'.control t = T.control t ∧ (T'.slot t = T.slot t ∨
    ((T.slot t).state = .runnable ∧ T'.slot t = { T.slot t with state := .running }))

theorem Undisturbed.of_slot (slot : T'.slot t = T.slot t) (control : T'.control t = T.control t) :
    Undisturbed T T' t := ⟨control, .inl slot⟩

/-- Switching to somebody leaves the others alone. -/
theorem undisturbed_switchTo {next : Slot} (runnable : (T.slot next).state = .runnable) :
    Undisturbed T (T.switchTo next) t := by
  by_cases isNext : t = next
  · subst isNext
    exact ⟨rfl, .inr ⟨runnable, switchTo_slot_same⟩⟩
  · exact .of_slot (switchTo_slot_other isNext) rfl

/-- What a step does to a task that does not run and that nobody wakes. -/
theorem effect_undisturbed (table : TableInv T) (effect : Effect s T a events T') (asleep : Asleep T t)
    (notCurrent : T.currentTask ≠ some t) (kept : a ≠ .destroy t) (unwoken : .woken t ∉ events) :
    Undisturbed T T' t := by
  have other : ∀ {self}, T.currentTask = some self → t ≠ self := by
    rintro self current rfl
    exact notCurrent current
  have alive : (T.slot t).state ≠ .unused ∧ (T.slot t).state ≠ .dead := by
    rcases asleep.1 with state | state <;> simp [state]
  have notNew : ∀ {u}, T.taskFreeList = some u → t ≠ u := by
    rintro u free rfl
    exact alive.1 (table.headUnused free).1
  cases effect with
  | quiet => exact .of_slot rfl rfl
  | returned => exact .of_slot rfl rfl
  | start => exact .of_slot rfl rfl
  | childless _ current => exact .of_slot rfl (resumeAt_control_other (other current))
  | resumed current => exact .of_slot rfl (resumeAt_control_other (other current))
  | create free => exact .of_slot (spawn_slot_other (notNew free)) (spawn_control_other (notNew free))
  | createKernel _ free => exact .of_slot (spawn_slot_other (notNew free)) (spawn_control_other (notNew free))
  | fork _ _ _ free => exact .of_slot (spawn_slot_other (notNew free)) (spawn_control_other (notNew free))
  | destroy u =>
    refine .of_slot (taskDestroy_slot_other ?_) (by rw [taskDestroy_control])
    rintro rfl
    exact kept rfl
  | prepare u _ _ _ _ fresh =>
    have isOther : t ≠ u := by
      rintro rfl
      rcases asleep.2 with inside | inside <;> rw [inside] at fresh <;> cases fresh
    exact .of_slot (by rw [resumeAt_slot, modify_slot_other isOther]) (resumeAt_control_other isOther)
  | @deliver self target =>
    refine .of_slot (modify_slot_other ?_) rfl
    rintro rfl
    exact unwoken (by simp)
  | @collect self sender =>
    have isOther : t ≠ sender := by
      rintro rfl
      exact unwoken (by simp)
    exact .of_slot (by rw [taskWake, modify_slot_other isOther, modify_slot_other isOther]) rfl
  | blockAlone _ current => exact .of_slot (block_slot_other (other current)) rfl
  | spin _ current => exact .of_slot (block_slot_other (other current)) (resumeAt_control_other (other current))
  | @blockSwitch self next reason peer buf len resume _ current _ _ isOther picked =>
    have runnable := picked_runnable (T := TaskTable.block ..) table.noIdle picked isOther
    have switched : Undisturbed ((T.block self reason peer buf len).resumeAt self resume) _ t :=
      undisturbed_switchTo runnable
    simp only [Undisturbed, resumeAt_slot, resumeAt_control_other (other current),
      block_slot_other (other current)] at switched
    exact switched
  | @exit self waiter _ code current =>
    refine .of_slot ?_ (resumeAt_control_other (other current))
    have isOther : t ≠ waiter := by
      rintro rfl
      exact unwoken (by simp)
    rw [taskWake, modify_slot_other isOther, exit_slot_other (other current)]
  | exitUnseen _ _ current => exact .of_slot (exit_slot_other (other current)) (resumeAt_control_other (other current))
  | @reap self child _ _ current _ _ dead =>
    have isOther : t ≠ child := by
      rintro rfl
      exact alive.2 dead
    refine .of_slot (taskDestroy_slot_other isOther) ?_
    rw [resumeAt_control_other (other current), taskDestroy_control]
  | @switch prev next current _ picked isOther =>
    have runnable : ((T.preempt prev).slot next).state = .runnable := by
      rw [preempt_slot_other isOther]
      exact picked_runnable table.noIdle picked isOther
    have switched : Undisturbed (T.preempt prev) _ t := undisturbed_switchTo runnable
    simp only [Undisturbed, preempt_slot_other (other current), preempt_control] at switched
    exact switched

/-- A task whose memory was not written to reads as before. -/
theorem spared_bytes {n : Nat} (spared : Spared k k' t) (isSpace : (k.tasks.slot t).pml4 = some r)
    (permitted : Permitted k.phys r va n needWrite) :
    Permitted k'.phys r va n needWrite ∧ bytesAt k'.phys r va n = bytesAt k.phys r va n := by
  have isRoot : spaces k.tasks t = some r := isSpace
  have leaf : ∀ a : U64, a.toNat < 2 ^ 47 → leafEntry k'.phys r a = leafEntry k.phys r a := fun a small =>
    leafEntry_frame isRoot (lower_of_small small) fun path f table => spared path f (table.mono (by decide))
  refine ⟨fun a low high => ?_, ?_⟩
  · obtain ⟨small, here⟩ := permitted a low high
    exact ⟨small, by rw [leaf a small]; exact here⟩
  · induction n generalizing va with
    | zero => rfl
    | succ n ih =>
      obtain ⟨small, here, _, later⟩ := permitted.next
      have page := spared _ _ (leaf_node isRoot (lower_of_small small) (present_of_permits here))
      rw [bytesAt_succ, bytesAt_succ, ih later, byteAt, byteAt, leaf va small, Phys.readByte, Phys.readByte, page]

/-- While a task sleeps, its slot stays as it was, up to being switched to. -/
theorem sleep_run (table : TableInv k.tasks) (asleep : Asleep k.tasks t) (run : Run step (LeavesAlone t) k events k') :
    Undisturbed k.tasks k'.tasks t := by
  have both := run.invariant (fun _ k' => TableInv k'.tasks ∧ Undisturbed k.tasks k'.tasks t)
    ⟨table, .of_slot rfl rfl⟩ ?_
  · exact both.2
  · rintro _ k₁ a k₂ new ⟨table₁, control, slot⟩ ⟨_, notCurrent, kept, _, _, unwoken⟩ did
    refine ⟨step_tableInv table₁ did, ?_⟩
    have effect := step_effect table₁.clean (fun _ current => table₁.headNotCurrent current) did
    rcases slot with slot | ⟨_, running⟩
    · have still : Asleep k₁.tasks t := by
        rw [Asleep, slot, control]
        exact asleep
      have next := effect_undisturbed table₁ effect still notCurrent kept (unwoken k₂ new did)
      rwa [Undisturbed, slot, control] at next
    · -- Once it was switched to, the task is current and the run ends.
      exact absurd ((table₁.slots t).running (by rw [running])) notCurrent

/-- A copy goes to the current task or to one that is woken. -/
theorem effect_sent (effect : Effect s T a events T') (sent : Sent events t) :
    T.currentTask = some t ∨ .woken t ∈ events := by
  obtain ⟨sender, bytes, copied⟩ := sent
  cases effect with
  | deliver => right; simp_all
  | collect _ _ _ current => left; simp_all
  | _ => simp at copied

/-- While a task is blocked, its buffer stays as it was. -/
theorem sleep_bytes {n : Nat} (table : TableInv k.tasks) (iso : Isolated mem₀ boot k free) (asleep : Asleep k.tasks t)
    (blocked : (k.tasks.slot t).state = .blocked) (isSpace : (k.tasks.slot t).pml4 = some r)
    (permitted : Permitted k.phys r va n needWrite) (run : Run step (LeavesAlone t) k events k') :
    Permitted k'.phys r va n needWrite ∧ bytesAt k'.phys r va n = bytesAt k.phys r va n := by
  have all := run.invariant (fun _ k' => TableInv k'.tasks ∧ (∃ rest, Isolated mem₀ boot k' rest) ∧
    k'.tasks.slot t = k.tasks.slot t ∧ k'.tasks.control t = k.tasks.control t ∧
    Permitted k'.phys r va n needWrite ∧ bytesAt k'.phys r va n = bytesAt k.phys r va n)
    ⟨table, ⟨free, iso⟩, rfl, rfl, permitted, rfl⟩ ?_
  · exact all.2.2.2.2
  · rintro _ k₁ a k₂ new ⟨table₁, ⟨rest, iso₁⟩, slot, control, permitted₁, same⟩
      ⟨keeps, notCurrent, kept, notLoaded, notMapped, unwoken⟩ did
    have effect := step_effect table₁.clean (fun _ current => table₁.headNotCurrent current) did
    have secure := step_secure table₁ iso₁ keeps did
    have spared : Spared k₁ k₂ t := by
      refine secure.spared t ?_
      rintro (⟨image, isLoad⟩ | ⟨vaddr, isMap⟩ | ⟨_, _, _, isCurrent⟩ | sent)
      · exact notLoaded image isLoad
      · exact notMapped vaddr isMap
      · exact notCurrent isCurrent
      · exact (effect_sent effect sent).elim notCurrent (unwoken k₂ new did)
    have still : Asleep k₁.tasks t := by
      rw [Asleep, slot, control]
      exact asleep
    obtain ⟨permitted₂, same₂⟩ := spared_bytes spared (by rw [slot]; exact isSpace) permitted₁
    obtain ⟨control₂, slot₂ | ⟨runnable, _⟩⟩ :=
      effect_undisturbed table₁ effect still notCurrent kept (unwoken k₂ new did)
    · exact ⟨step_tableInv table₁ did, secure.isolated, slot₂.trans slot, control₂.trans control, permitted₂,
        same₂.trans same⟩
    · rw [slot, blocked] at runnable
      cases runnable

/-- A task in ring 3 calls `sys_send` with a valid buffer, and this is what the
buffer holds. -/
structure Sends (k : Kernel) (regs : SyscallRegs) (sender receiver : Slot) (message : List Byte) : Prop where
  current : k.tasks.currentTask = some sender
  user : k.tasks.control sender = .user
  call : regs.rax = SYS_SEND
  target : regs.rdi = BitVec.ofNat 64 receiver.val
  buffer : ∃ r, (k.tasks.slot sender).pml4 = some r ∧
    uvaCheckRange k.phys r regs.rsi (clampLen regs.rdx) false = true ∧
    Cpu.loadBytes k.phys r regs.rsi (clampLen regs.rdx).toNat = some message

/-- A task in ring 3 calls `sys_recv` with a valid buffer, and accepts the
sender. -/
structure Receives (k : Kernel) (regs : SyscallRegs) (sender receiver : Slot) : Prop where
  current : k.tasks.currentTask = some receiver
  user : k.tasks.control receiver = .user
  call : regs.rax = SYS_RECV
  accepts : regs.rdi = IPC_ANY_SENDER ∨ regs.rdi = BitVec.ofNat 64 sender.val
  buffer : ∃ r, (k.tasks.slot receiver).pml4 = some r ∧
    uvaCheckRange k.phys r regs.rsi (clampLen regs.rdx) true = true

section Calls
variable {regs : SyscallRegs} {message : List Byte}

theorem step_send (sends : Sends k regs sender receiver message) :
    step k (.syscall regs) = returnTo sender (sysSend k regs.rdi regs.rsi regs.rdx) := by
  have isSend : syscallDispatch k regs = sysSend k regs.rdi regs.rsi regs.rdx := by
    simp [syscallDispatch, sends.call, SYS_SEND, SYS_WRITE, SYS_EXIT, SYS_FORK]
  simp only [step, sends.current, sends.user, if_true, isSend]

theorem step_recv (receives : Receives k regs sender receiver) :
    step k (.syscall regs) = returnTo receiver (sysRecv k regs.rdi regs.rsi regs.rdx) := by
  have isRecv : syscallDispatch k regs = sysRecv k regs.rdi regs.rsi regs.rdx := by
    simp [syscallDispatch, receives.call, SYS_RECV, SYS_SEND, SYS_WRITE, SYS_EXIT, SYS_FORK]
  simp only [step, receives.current, receives.user, if_true, isRecv]

/-- The caller was suspended: it did not come back at once. -/
theorem block_suspended {resume : Control} {reason : BlockReason} {peer buf len : U64}
    (did : returnTo self (match taskBlockAndSwitch k self resume reason peer buf len with
      | (k, true) => some (k, some (k.tasks.slot self).ipcLen, [Event.blocked self reason peer])
      | (k, false) => some (k, none, [Event.blocked self reason peer])) = some (k', [.blocked self reason peer])) :
    k'.phys = k.phys ∧ k'.tasks.slot self = (k.tasks.block self reason peer buf len).slot self ∧
      k'.tasks.control self = resume := by
  have memory := (taskBlockAndSwitch_memory k self resume reason peer buf len).1
  rcases taskBlockAndSwitch_cases k self resume reason peer buf len with ⟨_, ran⟩ | ⟨next, other, _, ran⟩
  · rw [ran] at did
    simp [returnTo] at did
  · rw [ran] at did memory
    cases did
    refine ⟨memory, ?_, ?_⟩
    · rw [switchCurrent_tasks, switchTo_slot_other other.symm, resumeAt_slot]
    · rw [switchCurrent_tasks, switchTo_control, resumeAt_control_same]

theorem send_suspended (sends : Sends k regs sender receiver message)
    (did : step k (.syscall regs) = some (k', [.blocked sender .onSend regs.rdi])) : k'.phys = k.phys ∧
      k'.tasks.slot sender = (k.tasks.block sender .onSend regs.rdi regs.rsi (clampLen regs.rdx)).slot sender ∧
      k'.tasks.control sender = .inSend := by
  obtain ⟨r, isSpace, valid, _⟩ := sends.buffer
  rw [step_send sends] at did
  simp only [sysSend, sends.current, isSpace, valid, Bool.not_true, Bool.false_eq_true, if_false] at did
  split at did
  · simp [returnTo] at did
  · simp only [sendTo] at did
    split at did
    · -- A call that finds its receiver waiting does not block.
      exfalso
      revert did
      repeat' split
      all_goals simp [returnTo]
    · exact block_suspended did

theorem recv_suspended (receives : Receives k regs sender receiver)
    (did : step k (.syscall regs) = some (k', [.blocked receiver .onRecv regs.rdi])) : k'.phys = k.phys ∧
      k'.tasks.slot receiver = (k.tasks.block receiver .onRecv regs.rdi regs.rsi (clampLen regs.rdx)).slot receiver ∧
      k'.tasks.control receiver = .inRecv := by
  obtain ⟨r, isSpace, valid⟩ := receives.buffer
  rw [step_recv receives] at did
  simp only [sysRecv, receives.current, isSpace, valid, Bool.not_true, Bool.false_eq_true, if_false] at did
  split at did
  · simp only [recvFrom] at did
    exfalso
    revert did
    repeat' split
    all_goals simp [returnTo]
  · exact block_suspended did

/-- A scan that only one slot passes finds it. -/
theorem find_slots_only {p : Slot → Bool} (found : p t = true) (only : ∀ u, u ≠ t → p u = false) :
    slots.find? p = some t := by
  cases result : slots.find? p with
  | none => exact absurd found (by rw [find_slots_none result t]; decide)
  | some u =>
    by_cases isT : u = t
    · rw [isT]
    · exact absurd (find_slots_some result) (by rw [only u isT]; decide)

theorem taskFindById_slot (table : TableInv T) (used : (T.slot t).state ≠ .unused) :
    T.taskFindById (BitVec.ofNat 64 t.val) = some t := by
  refine find_slots_only ?_ fun u other => ?_
  · simp [used, (table.slots t).id]
  · have differs : (T.slot u).taskId ≠ BitVec.ofNat 64 t.val := by
      rw [(table.slots u).id]
      exact fun same => other (slot_of_id same)
    simp [differs]

/-- The address space in use is the current task's. -/
theorem current_space (iso : Isolated mem₀ boot k free) (current : k.tasks.currentTask = some self)
    (isSpace : (k.tasks.slot self).pml4 = some r) : getCurrentPml4 k.cr3 = r := by
  rcases iso.inSpace with ⟨nobody, _⟩ | ⟨t, isCurrent, isOwn⟩
  · rw [current] at nobody
    cases nobody
  · rw [current] at isCurrent
    cases isCurrent
    exact Option.some.inj (isOwn.symm.trans isSpace)

theorem space_small (iso : Isolated mem₀ boot k free) (isSpace : (k.tasks.slot t).pml4 = some r) :
    getCurrentPml4 (pml4Phys r) = r := by
  have used : (k.tasks.slot t).state ≠ .unused := by
    intro unused
    rw [((iso.slots t).unused unused).1] at isSpace
    cases isSpace
  obtain ⟨r', _, isRoot, small, _⟩ := (iso.slots t).used used
  rw [isSpace] at isRoot
  cases isRoot
  exact getCurrentPml4_pml4Phys small

/-- `sys_recv` finds its only sender asleep, makes the copy, and notes its
length for the sender. -/
theorem recv_collects {n : U64} (table : TableInv k.tasks) (iso : Isolated mem₀ boot k free) (inv : RendezvousInv k)
    (receives : Receives k regs sender receiver) (blocked : (k.tasks.slot sender).state = .blocked)
    (onSend : (k.tasks.slot sender).blockReason = .onSend)
    (target : (k.tasks.slot sender).ipcPeer = BitVec.ofNat 64 receiver.val)
    (isSpace : (k.tasks.slot sender).pml4 = some r)
    (alone : ∀ t, t ≠ sender → offersMessage k.phys (k.tasks.slot receiver).taskId regs.rdi (clampLen regs.rdx)
      (k.tasks.slot t) = false)
    (isLen : minLen (clampLen regs.rdx) (k.tasks.slot sender).ipcLen = n) :
    ∃ k' r', step k (.syscall regs) = some (k', [.copied sender receiver
        (bytesAt k.phys r (k.tasks.slot sender).ipcBuf n.toNat), .woken sender, .ret receiver n]) ∧
      k'.tasks = ((k.tasks.modify sender fun task => { task with ipcLen := n }).taskWake sender).resumeAt receiver .user ∧
      (k.tasks.slot receiver).pml4 = some r' ∧ Permitted k'.phys r' regs.rsi n.toNat true ∧
      bytesAt k'.phys r' regs.rsi n.toNat = bytesAt k.phys r (k.tasks.slot sender).ipcBuf n.toNat := by
  obtain ⟨r', isOwn, valid⟩ := receives.buffer
  obtain ⟨_, isSpace', validSender⟩ := inv.sendBuffer sender blocked onSend
  rw [isSpace] at isSpace'
  cases isSpace'
  obtain ⟨shorter, shorter'⟩ := minLen_le (clampLen regs.rdx) (k.tasks.slot sender).ipcLen
  have offers : offersMessage k.phys (k.tasks.slot receiver).taskId regs.rdi (clampLen regs.rdx)
      (k.tasks.slot sender) = true := by
    have checked := check_shorter validSender shorter'
    have accepts := receives.accepts
    rw [← (table.slots sender).id] at accepts
    simp [offersMessage, blocked, onSend, target, (table.slots receiver).id, isSpace, checked, accepts.imp_right Eq.symm]
  have found := find_slots_only (p := fun t => offersMessage k.phys (k.tasks.slot receiver).taskId regs.rdi
    (clampLen regs.rdx) (k.tasks.slot t)) offers alone
  rw [isLen] at shorter shorter'
  have loaded := loadBytes_lower (k := sender) iso.forest isSpace (permitted_of_check validSender shorter')
  have length := bytesAt_length k.phys r (k.tasks.slot sender).ipcBuf n.toNat
  generalize bytesAt k.phys r (k.tasks.slot sender).ipcBuf n.toNat = bytes at *
  rw [← length] at shorter
  obtain ⟨s', stored, wrote, read⟩ := storeBytes_lower (k := receiver) iso.forest isOwn
    (permitted_of_check valid shorter)
  have after := wrote.permitted (i := receiver) isOwn (permitted_of_check valid shorter)
  rw [length] at read after
  rw [step_recv receives]
  simp only [sysRecv, receives.current, isOwn, valid, Bool.not_true, Bool.false_eq_true, if_false, found, recvFrom,
    isSpace, space_small iso isSpace, current_space iso receives.current isOwn, isLen, loaded, space_small iso isOwn,
    stored]
  exact ⟨_, r', rfl, rfl, rfl, after, read⟩

/-- `sys_send` finds its receiver asleep and makes the copy. The receiver's
`ipc_len` stays what its own call put there. -/
theorem send_delivers {n : U64} {message : List Byte} (table : TableInv k.tasks) (iso : Isolated mem₀ boot k free)
    (inv : RendezvousInv k) (sends : Sends k regs sender receiver message)
    (blocked : (k.tasks.slot receiver).state = .blocked) (onRecv : (k.tasks.slot receiver).blockReason = .onRecv)
    (accepts : (k.tasks.slot receiver).ipcPeer = IPC_ANY_SENDER ∨
      (k.tasks.slot receiver).ipcPeer = BitVec.ofNat 64 sender.val)
    (isLen : minLen (clampLen regs.rdx) (k.tasks.slot receiver).ipcLen = n) :
    ∃ k' r', step k (.syscall regs) = some (k', [.copied sender receiver (message.take n.toNat), .woken receiver,
        .ret sender n]) ∧
      k'.tasks = (k.tasks.taskWake receiver).resumeAt sender .user ∧ (k.tasks.slot receiver).pml4 = some r' ∧
      Permitted k'.phys r' (k.tasks.slot receiver).ipcBuf n.toNat true ∧
      bytesAt k'.phys r' (k.tasks.slot receiver).ipcBuf n.toNat = message.take n.toNat := by
  obtain ⟨r, isOwn, valid, isMessage⟩ := sends.buffer
  obtain ⟨r', isSpace, validReceiver⟩ := inv.recvBuffer receiver blocked onRecv
  obtain ⟨shorter, shorter'⟩ := minLen_le (clampLen regs.rdx) (k.tasks.slot receiver).ipcLen
  have awaits : awaitsSender (k.tasks.slot receiver) (k.tasks.slot sender).taskId = true := by
    simp [awaitsSender, blocked, onRecv, (table.slots sender).id, accepts]
  have found := taskFindById_slot table (t := receiver) (by rw [blocked]; decide)
  rw [← sends.target] at found
  have checked := check_shorter validReceiver shorter'
  rw [isLen] at shorter shorter' checked
  have whole := loadBytes_lower (k := sender) iso.forest isOwn (permitted_of_check valid (Nat.le_refl _))
  have loaded := loadBytes_lower (k := sender) iso.forest isOwn (permitted_of_check valid shorter)
  rw [isMessage] at whole
  cases whole
  rw [bytesAt_take k.phys r regs.rsi shorter]
  have length := bytesAt_length k.phys r regs.rsi n.toNat
  generalize bytesAt k.phys r regs.rsi n.toNat = bytes at *
  rw [← length] at shorter'
  obtain ⟨s', stored, wrote, read⟩ := storeBytes_lower (k := receiver) iso.forest isSpace
    (permitted_of_check validReceiver shorter')
  have after := wrote.permitted (i := receiver) isSpace (permitted_of_check validReceiver shorter')
  rw [length] at read after
  rw [step_send sends]
  simp only [sysSend, sends.current, isOwn, valid, Bool.not_true, Bool.false_eq_true, if_false, found, sendTo, awaits,
    if_true, isSpace, isLen, checked, current_space iso sends.current isOwn, loaded, space_small iso isSpace, stored]
  exact ⟨_, r', rfl, rfl, rfl, after, read⟩

end Calls

/-- The number of bytes a rendezvous is meant to move. -/
def copyLength (lenSend lenRecv : U64) : U64 := BitVec.ofNat 64 (min (min lenSend.toNat lenRecv.toNat) 256)

theorem clampLen_toNat (len : U64) : (clampLen len).toNat = min len.toNat 256 := by
  have most : (256 : U64).toNat = 256 := rfl
  unfold clampLen
  split
  · rename_i longer
    rw [BitVec.lt_def] at longer
    omega
  · rename_i short
    rw [BitVec.lt_def] at short
    omega

theorem copyLength_toNat (lenSend lenRecv : U64) :
    (copyLength lenSend lenRecv).toNat = min (clampLen lenSend).toNat (clampLen lenRecv).toNat := by
  rw [clampLen_toNat, clampLen_toNat, copyLength, BitVec.toNat_ofNat]
  omega

/-- The earlier caller runs again, after a later call of the other side. -/
def ComesBack (k : Kernel) (regs : SyscallRegs) (t : Slot) (k' : Kernel) : Prop :=
  k'.tasks.currentTask = some t ∧ ∀ k₁ events, step k (.syscall regs) = some (k₁, events) →
    ∃ later, Run step (LeavesAlone t) k₁ later k'

/-- The sender arrives first and is suspended; the receiver's call finds nobody
else with a message for it. `k` is the state of the later call, `k'` the one in
which the earlier caller runs again. -/
inductive SendFirst (k₀ : Kernel) (sender receiver : Slot) (send recv : SyscallRegs) (message : List Byte) :
    Kernel → Kernel → Prop where
  | meets {start asleep k k' : Kernel} {before between : List Event} (reached : Run step KeepsLower k₀ before start)
      (sends : Sends start send sender receiver message)
      (suspended : step start (.syscall send) = some (asleep, [.blocked sender .onSend send.rdi]))
      (waits : Run step (LeavesAlone sender) asleep between k) (receives : Receives k recv sender receiver)
      (alone : ∀ t, t ≠ sender → offersMessage k.phys (k.tasks.slot receiver).taskId recv.rdi (clampLen recv.rdx)
        (k.tasks.slot t) = false)
      (back : ComesBack k recv sender k') : SendFirst k₀ sender receiver send recv message k k'

/-- The receiver arrives first and is suspended. -/
inductive RecvFirst (k₀ : Kernel) (sender receiver : Slot) (send recv : SyscallRegs) (message : List Byte) :
    Kernel → Kernel → Prop where
  | meets {start asleep k k' : Kernel} {before between : List Event} (reached : Run step KeepsLower k₀ before start)
      (receives : Receives start recv sender receiver)
      (suspended : step start (.syscall recv) = some (asleep, [.blocked receiver .onRecv recv.rdi]))
      (waits : Run step (LeavesAlone receiver) asleep between k) (sends : Sends k send sender receiver message)
      (back : ComesBack k send receiver k') : RecvFirst k₀ sender receiver send recv message k k'

/-- The later call copies the first `n` bytes of the message to the receiver's
buffer and returns `n`. -/
def Copies (k : Kernel) (regs : SyscallRegs) (sender receiver caller sleeper : Slot) (buf : U64) (message : List Byte)
    (n : U64) : Prop :=
  ∃ k' r, step k (.syscall regs) = some (k', [.copied sender receiver (message.take n.toNat), .woken sleeper,
      .ret caller n]) ∧
    (k'.tasks.slot receiver).pml4 = some r ∧ Cpu.loadBytes k'.phys r buf n.toNat = some (message.take n.toNat)

/-- The earlier call returns a value. -/
def ReturnsWith (k : Kernel) (t : Slot) (value : U64) : Prop := ∃ k', step k .resume = some (k', [.ret t value])

section Meetings
variable {send recv : SyscallRegs} {message : List Byte}

/-- A sleeper that runs again returns its `ipc_len`, and nothing else. -/
theorem returnsWith_iff (current : k.tasks.currentTask = some t)
    (inside : k.tasks.control t = .inSend ∨ k.tasks.control t = .inRecv) (value : U64) :
    ReturnsWith k t value ↔ (k.tasks.slot t).ipcLen = value := by
  have ran : step k .resume = some ({ k with tasks := k.tasks.resumeAt t .user }, [.ret t (k.tasks.slot t).ipcLen]) := by
    rcases inside with inside | inside
    · simp [step, current, inside, returnTo]
    · simp [step, current, inside, returnTo]
  rw [ReturnsWith, ran]
  simp

theorem Undisturbed.ipcLen (undisturbed : Undisturbed T T' t) : (T'.slot t).ipcLen = (T.slot t).ipcLen := by
  rcases undisturbed.2 with same | ⟨_, switched⟩
  · rw [same]
  · rw [switched]

theorem Undisturbed.blocked (undisturbed : Undisturbed T T' t) (blocked : (T.slot t).state = .blocked) :
    T'.slot t = T.slot t := by
  rcases undisturbed.2 with same | ⟨runnable, _⟩
  · exact same
  · rw [blocked] at runnable
    cases runnable

theorem LeavesAlone.keepsLower (alone : LeavesAlone t k a) : KeepsLower k a := alone.1

/-- What holds in every state of a running system. -/
theorem run_facts (boot : BootedWith k₀ free) (run : Run step KeepsLower k₀ events k) :
    TableInv k.tasks ∧ (∃ rest, Isolated k₀.phys.mem (getCurrentPml4 k₀.cr3) k rest) ∧ RendezvousInv k :=
  ⟨run_tableInv boot.booted run, run_isolated boot run, run_rendezvousInv boot run⟩

theorem sendFirst_copies (boot : BootedWith k₀ free) (apart : sender ≠ receiver)
    (meeting : SendFirst k₀ sender receiver send recv message k k') :
    Copies k recv sender receiver receiver sender recv.rsi message (copyLength send.rdx recv.rdx) ∧
      ReturnsWith k' sender (copyLength send.rdx recv.rdx) := by
  cases meeting with
  | @meets start asleep _ _ before between reached sends suspended waits receives alone back =>
    obtain ⟨_, ⟨_, iso₀⟩, _⟩ := run_facts boot reached
    have slept : Run step KeepsLower k₀ _ asleep := .next (.syscall send) reached trivial suspended
    obtain ⟨table₁, ⟨_, iso₁⟩, _⟩ := run_facts boot slept
    obtain ⟨table, ⟨_, iso⟩, inv⟩ := run_facts boot (slept.trans (waits.mono fun _ _ => LeavesAlone.keepsLower))
    obtain ⟨phys, slot₁, control₁⟩ := send_suspended sends suspended
    obtain ⟨r, isSpace, valid, isMessage⟩ := sends.buffer
    simp only [TaskTable.block, modify_slot_same] at slot₁
    have asleep₁ : Asleep asleep.tasks sender := ⟨.inl (by rw [slot₁]), .inl control₁⟩
    have undisturbed := sleep_run table₁ asleep₁ waits
    have slot := (undisturbed.blocked (by rw [slot₁])).trans slot₁
    -- The message is still in the buffer when the receiver calls.
    have permitted := permitted_of_check valid (Nat.le_refl _)
    rw [loadBytes_lower (k := sender) iso₀.forest isSpace permitted, Option.some.injEq] at isMessage
    rw [← phys] at permitted isMessage
    have kept := (sleep_bytes table₁ iso₁ asleep₁ (by rw [slot₁]) (by rw [slot₁]; exact isSpace) permitted waits).2
    rw [isMessage] at kept
    have isLen : minLen (clampLen recv.rdx) (k.tasks.slot sender).ipcLen = copyLength send.rdx recv.rdx := by
      apply BitVec.eq_of_toNat_eq
      rw [minLen_toNat, copyLength_toNat, slot, Nat.min_comm]
    have shorter : (copyLength send.rdx recv.rdx).toNat ≤ (clampLen send.rdx).toNat := by
      rw [copyLength_toNat]
      exact Nat.min_le_left _ _
    obtain ⟨k₁, r', ran, tasks, isSpace', permitted', read⟩ := recv_collects (n := copyLength send.rdx recv.rdx) table iso
      inv receives (by rw [slot]) (by rw [slot]) (by rw [slot]; exact sends.target) (by rw [slot]; exact isSpace) alone isLen
    rw [slot] at ran read
    dsimp only at ran read
    rw [← bytesAt_take k.phys r send.rsi shorter, kept] at ran read
    have table' := step_tableInv table ran
    have slot' : k₁.tasks.slot sender = { k.tasks.slot sender with
        ipcLen := copyLength send.rdx recv.rdx, state := .runnable, blockReason := .none } := by
      rw [tasks, resumeAt_slot, taskWake, modify_slot_same, modify_slot_same]
    have control' : k₁.tasks.control sender = .inSend := by
      rw [tasks, resumeAt_control_other apart]
      exact undisturbed.1.trans control₁
    obtain ⟨_, iso'⟩ := (step_secure table iso (a := .syscall recv) trivial ran).isolated
    have isSpace₁ : (k₁.tasks.slot receiver).pml4 = some r' := by
      rw [tasks, resumeAt_slot, taskWake, modify_slot_other apart.symm, modify_slot_other apart.symm]
      exact isSpace'
    refine ⟨⟨k₁, r', ran, isSpace₁, ?_⟩, ?_⟩
    · rw [loadBytes_lower (k := receiver) iso'.forest isSpace₁ permitted', read]
    · obtain ⟨later, wakes⟩ := back.2 k₁ _ ran
      have after := sleep_run table' ⟨.inr (by rw [slot']), .inl control'⟩ wakes
      rw [returnsWith_iff back.1 (.inl (after.1.trans control')), after.ipcLen, slot']

/-- When the receiver came first, its own call returns the length it asked for. -/
theorem recvFirst_copies (boot : BootedWith k₀ free) (apart : sender ≠ receiver)
    (meeting : RecvFirst k₀ sender receiver send recv message k k') :
    Copies k send sender receiver sender receiver recv.rsi message (copyLength send.rdx recv.rdx) ∧
      ∀ value, ReturnsWith k' receiver value ↔ clampLen recv.rdx = value := by
  cases meeting with
  | @meets start asleep _ _ before between reached receives suspended waits sends back =>
    have slept : Run step KeepsLower k₀ _ asleep := .next (.syscall recv) reached trivial suspended
    obtain ⟨table₁, _, _⟩ := run_facts boot slept
    obtain ⟨table, ⟨_, iso⟩, inv⟩ := run_facts boot (slept.trans (waits.mono fun _ _ => LeavesAlone.keepsLower))
    obtain ⟨_, slot₁, control₁⟩ := recv_suspended receives suspended
    simp only [TaskTable.block, modify_slot_same] at slot₁
    have undisturbed := sleep_run table₁ ⟨.inl (by rw [slot₁]), .inr control₁⟩ waits
    have slot := (undisturbed.blocked (by rw [slot₁])).trans slot₁
    have isLen : minLen (clampLen send.rdx) (k.tasks.slot receiver).ipcLen = copyLength send.rdx recv.rdx := by
      apply BitVec.eq_of_toNat_eq
      rw [minLen_toNat, copyLength_toNat, slot]
    obtain ⟨k₁, r', ran, tasks, isSpace', permitted', read⟩ := send_delivers (n := copyLength send.rdx recv.rdx) table
      iso inv sends (by rw [slot]) (by rw [slot]) (by rw [slot]; exact receives.accepts) isLen
    have table' := step_tableInv table ran
    have slot' : k₁.tasks.slot receiver = { k.tasks.slot receiver with state := .runnable, blockReason := .none } := by
      rw [tasks, resumeAt_slot, taskWake, modify_slot_same]
    have control' : k₁.tasks.control receiver = .inRecv := by
      rw [tasks, resumeAt_control_other apart.symm]
      exact undisturbed.1.trans control₁
    obtain ⟨_, iso'⟩ := (step_secure table iso (a := .syscall send) trivial ran).isolated
    have isSpace₁ : (k₁.tasks.slot receiver).pml4 = some r' := by
      rw [slot']
      exact isSpace'
    have isBuf : (k.tasks.slot receiver).ipcBuf = recv.rsi := by rw [slot]
    rw [isBuf] at permitted' read
    refine ⟨⟨k₁, r', ran, isSpace₁, ?_⟩, fun value => ?_⟩
    · rw [loadBytes_lower (k := receiver) iso'.forest isSpace₁ permitted', read]
    · obtain ⟨later, wakes⟩ := back.2 k₁ _ ran
      have after := sleep_run table' ⟨.inr (by rw [slot']), .inr control'⟩ wakes
      have isAsked : (k.tasks.slot receiver).ipcLen = clampLen recv.rdx := by rw [slot]
      rw [returnsWith_iff back.1 (.inr (after.1.trans control')), after.ipcLen, slot', isAsked]

/-- **The order of arrival.** For every two tasks that meet once with the sender
first and once with the receiver first, with the same message and the same two
calls, either order copies the same min(lenS, lenR, 256) bytes and the later
call returns that number; the earlier call returns it in both orders exactly
when the receiver asked for no more than the sender sent. -/
theorem rendezvous_order {l l' : Kernel} (boot : BootedWith k₀ free) (apart : sender ≠ receiver)
    (sendFirst : SendFirst k₀ sender receiver send recv message k k')
    (recvFirst : RecvFirst k₀ sender receiver send recv message l l') :
    (Copies k recv sender receiver receiver sender recv.rsi message (copyLength send.rdx recv.rdx) ∧
      ReturnsWith k' sender (copyLength send.rdx recv.rdx) ∧
      Copies l send sender receiver sender receiver recv.rsi message (copyLength send.rdx recv.rdx) ∧
      ReturnsWith l' receiver (copyLength send.rdx recv.rdx)) ↔
      clampLen recv.rdx ≤ clampLen send.rdx := by
  obtain ⟨copies, returns⟩ := sendFirst_copies boot apart sendFirst
  obtain ⟨copies', returns'⟩ := recvFirst_copies boot apart recvFirst
  have exactly : clampLen recv.rdx = copyLength send.rdx recv.rdx ↔ clampLen recv.rdx ≤ clampLen send.rdx := by
    rw [← BitVec.toNat_inj, copyLength_toNat, BitVec.le_def]
    omega
  rw [returns', exactly]
  exact ⟨fun all => all.2.2.2, fun noMore => ⟨copies, returns, copies', noMore⟩⟩

end Meetings

/-- The timer and stores in ring 3 leave the tasks alone that do not run. -/
theorem leavesAlone_of_quiet (quiet : a = .tick ∨ ∃ va b, a = .store va b) (other : k.tasks.currentTask ≠ some t) :
    LeavesAlone t k a := by
  rcases quiet with rfl | ⟨va, b, rfl⟩
  · refine ⟨trivial, other, by simp, by simp, by simp, fun k' events did => ?_⟩
    simp only [step] at did
    split at did <;> cases did
    simp
  · refine ⟨trivial, other, by simp, by simp, by simp, fun k' events did => ?_⟩
    simp only [step] at did
    split at did
    · cases did
    · split at did
      · obtain ⟨s, _, same⟩ := Option.map_eq_some_iff.mp did
        cases same
        simp
      · cases did

/-- Take actions while a task does not run. -/
def without (t : Slot) (k : Kernel) (actions : List Action) : Option (Kernel × List Event) :=
  exec (fun k _ => k.tasks.currentTask ≠ some t) step k actions

theorem run_of_without {actions : List Action} (quiet : ∀ a ∈ actions, a = .tick ∨ ∃ va b, a = .store va b)
    (did : without t k actions = some (k', events)) : Run step (LeavesAlone t) k events k' :=
  run_of_exec (fun _ a member other => leavesAlone_of_quiet (quiet a member) (by simpa using other)) did

/-- Two calls that meet: boot code and tasks up to the first call, the steps up
to the second one, and a time slice that brings the first caller back. -/
def meet (before between : List Action) (first second : SyscallRegs) (sleeper : Slot) :
    Option (Kernel × (Kernel × List Event) × Kernel × Kernel) :=
  (exec (fun _ _ => true) step (bootKernel 30) before).bind fun start =>
    (step start.1 (.syscall first)).bind fun asleep =>
      (without sleeper asleep.1 between).bind fun k =>
        (step k.1 (.syscall second)).bind fun called =>
          (without sleeper called.1 slice).map fun k' => (start.1, asleep, k.1, k'.1)

theorem meet_run {before between : List Action} {first second : SyscallRegs} {start asleep : Kernel}
    {blocked : List Event} (lower : ∀ k, ∀ a ∈ before, KeepsLower k a)
    (quiet : ∀ a ∈ between, a = .tick ∨ ∃ va b, a = .store va b) (back : k'.tasks.currentTask = some t)
    (met : meet before between first second t = some (start, (asleep, blocked), k, k')) :
    (∃ events, Run step KeepsLower (bootKernel 30) events start) ∧
      step start (.syscall first) = some (asleep, blocked) ∧
      (∃ events, Run step (LeavesAlone t) asleep events k) ∧ ComesBack k second t k' := by
  obtain ⟨⟨start, e₁⟩, ran, met⟩ := Option.bind_eq_some_iff.mp met
  obtain ⟨asleep, called, met⟩ := Option.bind_eq_some_iff.mp met
  obtain ⟨⟨k, e₂⟩, waits, met⟩ := Option.bind_eq_some_iff.mp met
  obtain ⟨⟨k₁, e₃⟩, met', met⟩ := Option.bind_eq_some_iff.mp met
  obtain ⟨⟨k', e₄⟩, slept, same⟩ := Option.map_eq_some_iff.mp met
  cases same
  refine ⟨⟨e₁, run_of_exec (fun k a member _ => lower k a member) ran⟩, called, ⟨e₂, run_of_without quiet waits⟩, back,
    fun k₂ events did => ⟨e₄, ?_⟩⟩
  rw [met'] at did
  cases did
  exact run_of_without (by simp [slice]) slept

/-- Task 2 sends to task 1, from the page each of them has. -/
def sendCall (len : U64) : SyscallRegs := callRegs SYS_SEND 1 0x5000 len

def recvCall (len : U64) : SyscallRegs := callRegs SYS_RECV IPC_ANY_SENDER 0x5000 len

/-- A task with one page forks. -/
def twoTasks : List Action := [.create, .mapStack 1 0x5000, .prepare 1 0 0, .start 1, call SYS_FORK 0]

def sendReady (k : Kernel) (len : U64) (message : List Byte) : Bool :=
  k.tasks.currentTask = some 2 && k.tasks.control 2 = .user && (k.tasks.slot 2).pml4.any fun r =>
    uvaCheckRange k.phys r 0x5000 (clampLen len) false &&
      Cpu.loadBytes k.phys r 0x5000 (clampLen len).toNat = some message

def recvReady (k : Kernel) (len : U64) : Bool :=
  k.tasks.currentTask = some 1 && k.tasks.control 1 = .user &&
    (k.tasks.slot 1).pml4.any fun r => uvaCheckRange k.phys r 0x5000 (clampLen len) true

/-- Nobody but task 2 offers task 1 a message. -/
def onlySender (k : Kernel) (len : U64) : Bool :=
  slots.all fun t => t = 2 || !offersMessage k.phys (k.tasks.slot 1).taskId IPC_ANY_SENDER (clampLen len) (k.tasks.slot t)

theorem sends_of_ready {len : U64} {message : List Byte} (test : sendReady k len message = true) :
    Sends k (sendCall len) 2 1 message := by
  simp only [sendReady, Bool.and_eq_true, decide_eq_true_eq, Option.any_eq_true] at test
  obtain ⟨⟨current, user⟩, r, isSpace, valid, content⟩ := test
  exact ⟨current, user, rfl, rfl, r, isSpace, valid, content⟩

theorem receives_of_ready {len : U64} (test : recvReady k len = true) : Receives k (recvCall len) 2 1 := by
  simp only [recvReady, Bool.and_eq_true, decide_eq_true_eq, Option.any_eq_true] at test
  obtain ⟨⟨current, user⟩, r, isSpace, valid⟩ := test
  exact ⟨current, user, rfl, .inl rfl, r, isSpace, valid⟩

theorem twoTasks_lower (k : Kernel) : ∀ a ∈ twoTasks, KeepsLower k a := by
  have lower : (pml4Index 0x5000).toNat < KERNEL_PML4_START := by decide
  simp only [twoTasks, call, List.forall_mem_cons, KeepsLower]
  simpa using lower

/-- Task 2 stores a message and sends it; then task 1 receives. -/
theorem sendFirst_of_test (lenSend lenRecv : U64) (b : Byte) (message : List Byte)
    (test : (meet (twoTasks ++ slice ++ [.store 0x5000 b]) [] (sendCall lenSend) (recvCall lenRecv) 2).any
      (fun (start, asleep, k, k') => sendReady start lenSend message && asleep.2 = [.blocked 2 .onSend 1] &&
        recvReady k lenRecv && onlySender k lenRecv && k'.tasks.currentTask = some 2) = true) :
    ∃ k k', SendFirst (bootKernel 30) 2 1 (sendCall lenSend) (recvCall lenRecv) message k k' := by
  rw [Option.any_eq_true] at test
  obtain ⟨⟨start, ⟨asleep, blocked⟩, k, k'⟩, met, passed⟩ := test
  simp only [Bool.and_eq_true, decide_eq_true_eq] at passed
  obtain ⟨⟨⟨⟨sends, rfl⟩, receives⟩, only⟩, back⟩ := passed
  have lower : ∀ k, ∀ a ∈ twoTasks ++ slice ++ [.store 0x5000 b], KeepsLower k a := by
    intro k a member
    simp only [List.mem_append, slice, List.mem_replicate, List.mem_singleton] at member
    rcases member with (setup | ⟨_, rfl⟩) | rfl
    · exact twoTasks_lower k a setup
    · trivial
    · trivial
  obtain ⟨⟨before, reached⟩, suspended, ⟨between, waits⟩, comesBack⟩ := meet_run lower (by simp) back met
  refine ⟨k, k', .meets reached (sends_of_ready sends) suspended waits (receives_of_ready receives) (fun t other => ?_)
    comesBack⟩
  have offers := List.all_eq_true.mp only t (List.mem_finRange t)
  simp only [other, decide_false, Bool.false_or, Bool.not_eq_true'] at offers
  exact offers

/-- Task 1 receives; then task 2 stores a message and sends it. -/
theorem recvFirst_of_test (lenSend lenRecv : U64) (b : Byte) (message : List Byte)
    (test : (meet twoTasks [.store 0x5000 b] (recvCall lenRecv) (sendCall lenSend) 1).any
      (fun (start, asleep, k, k') => recvReady start lenRecv && asleep.2 = [.blocked 1 .onRecv IPC_ANY_SENDER] &&
        sendReady k lenSend message && k'.tasks.currentTask = some 1) = true) :
    ∃ k k', RecvFirst (bootKernel 30) 2 1 (sendCall lenSend) (recvCall lenRecv) message k k' := by
  rw [Option.any_eq_true] at test
  obtain ⟨⟨start, ⟨asleep, blocked⟩, k, k'⟩, met, passed⟩ := test
  simp only [Bool.and_eq_true, decide_eq_true_eq] at passed
  obtain ⟨⟨⟨receives, rfl⟩, sends⟩, back⟩ := passed
  obtain ⟨⟨before, reached⟩, suspended, ⟨between, waits⟩, comesBack⟩ := meet_run twoTasks_lower (by simp) back met
  exact ⟨k, k', .meets reached (receives_of_ready receives) suspended waits (sends_of_ready sends) comesBack⟩

/-- One byte is sent and one byte is asked for: either order copies it, and
every call returns 1. -/
theorem rendezvous_order_byte : ∃ k k' l l', SendFirst (bootKernel 30) 2 1 (sendCall 1) (recvCall 1) [7] k k' ∧
    RecvFirst (bootKernel 30) 2 1 (sendCall 1) (recvCall 1) [7] l l' ∧ ReturnsWith k' 2 1 ∧ ReturnsWith l' 1 1 := by
  obtain ⟨k, k', sendFirst⟩ := sendFirst_of_test 1 1 7 [7] (by decide +kernel)
  obtain ⟨l, l', recvFirst⟩ := recvFirst_of_test 1 1 7 [7] (by decide +kernel)
  obtain ⟨_, returns, _, returns'⟩ := (rendezvous_order (bootKernel_bootedWith (by decide)) (by decide) sendFirst
    recvFirst).mpr (by decide)
  exact ⟨k, k', l, l', sendFirst, recvFirst, returns, returns'⟩

/-- Nothing is sent and one byte is asked for: a receiver that came first is
told that it got one byte. -/
theorem recvFirst_overcounts : ¬ ∀ k₀ free sender receiver send recv message k k' l l', BootedWith k₀ free →
    sender ≠ receiver → SendFirst k₀ sender receiver send recv message k k' →
    RecvFirst k₀ sender receiver send recv message l l' →
    Copies k recv sender receiver receiver sender recv.rsi message (copyLength send.rdx recv.rdx) ∧
      ReturnsWith k' sender (copyLength send.rdx recv.rdx) ∧
      Copies l send sender receiver sender receiver recv.rsi message (copyLength send.rdx recv.rdx) ∧
      ReturnsWith l' receiver (copyLength send.rdx recv.rdx) := by
  intro all
  have boot : BootedWith (bootKernel 30) (List.range' 1 30) := bootKernel_bootedWith (by decide)
  obtain ⟨k, k', sendFirst⟩ := sendFirst_of_test 0 1 7 [] (by decide +kernel)
  obtain ⟨l, l', recvFirst⟩ := recvFirst_of_test 0 1 7 [] (by decide +kernel)
  have returns := (all _ _ _ _ _ _ _ _ _ _ _ boot (by decide) sendFirst recvFirst).2.2.2
  rw [(recvFirst_copies boot (by decide) recvFirst).2] at returns
  exact absurd returns (by decide)

end HobbyKernel.RendezvousOrder
