import HobbyKernel.RendezvousOrder

/-! A rendezvous moves the bytes of the message and no others, whichever side
calls last. The call that makes the copy has checked both ranges, and a call
that answers with an error has done nothing at all. -/
namespace HobbyKernel.MessageCopies
open TaskTable TaskEffects TaskInvariant WalkProofs UaccessProofs Isolation IsolationSteps IsolationProofs
open RendezvousProofs RendezvousOrder SpaceEvolution PageWrites UserBytes Runs Radix

variable {k₀ k k' : Kernel} {s : Phys} {t self sender receiver : Slot} {a : Action} {reason : BlockReason} {peer buf len : U64}
  {value : Option U64} {events new : List Event} {free : List Nat} {mem₀ : PhysMem} {boot r : Frame} {regs : SyscallRegs}
  {bytes : List Byte} {allowed : Kernel → Action → Prop}

/-- What one call of `sys_send` or `sys_recv` does. -/
inductive MessageCall (k : Kernel) (self : Slot) (buf len : U64) :
    BlockReason → U64 → Kernel → Option U64 → List Event → Prop where
  | refused {reason : BlockReason} {peer : U64} : MessageCall k self buf len reason peer k (some SYS_ERROR) []
  | alone {reason : BlockReason} {peer : U64} :
      MessageCall k self buf len reason peer { k with tasks := k.tasks.block self reason peer buf len } (some len)
        [.blocked self reason peer]
  | blocks {reason : BlockReason} {peer : U64} {next : Slot} {k' : Kernel} (resume : Control) (other : next ≠ self)
      (phys : k'.phys = k.phys) (tasks : k'.tasks = ((k.tasks.block self reason peer buf len).resumeAt self resume).switchTo next) :
      MessageCall k self buf len reason peer k' none [.blocked self reason peer]
  | sends {peer : U64} {receiver : Slot} {r r' : Frame} {bytes : List Byte} {s : Phys} (space : (k.tasks.slot self).pml4 = some r)
      (valid : uvaCheckRange k.phys r buf len false = true) (awaits : (k.tasks.slot receiver).state = .blocked)
      (onRecv : (k.tasks.slot receiver).blockReason = .onRecv) (space' : (k.tasks.slot receiver).pml4 = some r')
      (valid' : uvaCheckRange k.phys r' (k.tasks.slot receiver).ipcBuf (minLen len (k.tasks.slot receiver).ipcLen) true = true)
      (loaded : Cpu.loadBytes k.phys (getCurrentPml4 k.cr3) buf (minLen len (k.tasks.slot receiver).ipcLen).toNat = some bytes)
      (stored : Cpu.storeBytes k.phys (getCurrentPml4 (pml4Phys r')) (k.tasks.slot receiver).ipcBuf bytes = some s) :
      MessageCall k self buf len .onSend peer
        { k with phys := s, cr3 := pml4Phys (getCurrentPml4 k.cr3), tasks := k.tasks.taskWake receiver }
        (some (minLen len (k.tasks.slot receiver).ipcLen)) [.copied self receiver bytes, .woken receiver]
  | receives {peer : U64} {sender : Slot} {r r' : Frame} {bytes : List Byte} {s : Phys} (space : (k.tasks.slot self).pml4 = some r)
      (valid : uvaCheckRange k.phys r buf len true = true) (offers : (k.tasks.slot sender).state = .blocked)
      (onSend : (k.tasks.slot sender).blockReason = .onSend) (space' : (k.tasks.slot sender).pml4 = some r')
      (valid' : uvaCheckRange k.phys r' (k.tasks.slot sender).ipcBuf (minLen len (k.tasks.slot sender).ipcLen) false = true)
      (loaded : Cpu.loadBytes k.phys (getCurrentPml4 (pml4Phys r')) (k.tasks.slot sender).ipcBuf
        (minLen len (k.tasks.slot sender).ipcLen).toNat = some bytes)
      (stored : Cpu.storeBytes k.phys (getCurrentPml4 (pml4Phys (getCurrentPml4 k.cr3))) buf bytes = some s) :
      MessageCall k self buf len .onRecv peer
        { k with phys := s, cr3 := pml4Phys (getCurrentPml4 k.cr3),
                 tasks := (k.tasks.modify sender fun task =>
                   { task with ipcLen := minLen len (k.tasks.slot sender).ipcLen }).taskWake sender }
        (some (minLen len (k.tasks.slot sender).ipcLen)) [.copied sender self bytes, .woken sender]

theorem block_call {resume : Control}
    (did : (match taskBlockAndSwitch k self resume reason peer buf len with
      | (k, true) => some (k, some (k.tasks.slot self).ipcLen, [Event.blocked self reason peer])
      | (k, false) => some (k, none, [Event.blocked self reason peer])) = some (k', value, new)) :
    MessageCall k self buf len reason peer k' value new := by
  rcases taskBlockAndSwitch_cases k self resume reason peer buf len with ⟨_, ran⟩ | ⟨next, other, _, ran⟩
  · rw [ran] at did
    cases did
    simp only [TaskTable.block, modify_slot_same]
    exact .alone
  · rw [ran] at did
    cases did
    exact .blocks resume other (switchCurrent_memory k _).1 (switchCurrent_tasks _ _)

theorem sysSend_call (current : k.tasks.currentTask = some self) (did : sysSend k peer buf len = some (k', value, new)) :
    MessageCall k self buf (clampLen len) .onSend peer k' value new := by
  simp only [sysSend, current] at did
  cases space : (k.tasks.slot self).pml4 with
  | none =>
    rw [space] at did
    cases did
  | some r =>
    simp only [space] at did
    split at did
    · cases did
      exact .refused
    · rename_i valid
      split at did
      · cases did
        exact .refused
      · rename_i receiver _
        simp only [sendTo] at did
        split at did
        · rename_i awaits
          simp only [awaitsSender, Bool.and_eq_true, decide_eq_true_eq] at awaits
          split at did
          · cases did
          · rename_i space'
            split at did
            · cases did
              exact .refused
            · rename_i valid'
              split at did
              · cases did
              · rename_i loaded
                split at did
                · cases did
                · rename_i stored
                  cases did
                  exact .sends space (by simpa using valid) awaits.1.1 awaits.1.2 space' (by simpa using valid') loaded stored
        · exact block_call did

theorem sysRecv_call (current : k.tasks.currentTask = some self) (did : sysRecv k peer buf len = some (k', value, new)) :
    MessageCall k self buf (clampLen len) .onRecv peer k' value new := by
  simp only [sysRecv, current] at did
  cases space : (k.tasks.slot self).pml4 with
  | none =>
    rw [space] at did
    cases did
  | some r =>
    simp only [space] at did
    split at did
    · cases did
      exact .refused
    · rename_i valid
      split at did
      · rename_i sender found
        have offers := find_slots_some found
        simp only [offersMessage, Bool.and_eq_true, decide_eq_true_eq, Option.any_eq_true] at offers
        obtain ⟨⟨⟨⟨blocked, onSend⟩, _⟩, _⟩, r', space', valid'⟩ := offers
        simp only [recvFrom, space'] at did
        split at did
        · cases did
        · rename_i loaded
          split at did
          · cases did
          · rename_i stored
            cases did
            exact .receives space (by simpa using valid) blocked onSend space' valid' loaded stored
      · exact block_call did

/-- Only `sys_send` and `sys_recv` copy messages, or block in front of one. -/
def IsMessage : Event → Prop
  | .copied .. => True
  | .blocked _ reason _ => reason ≠ .onWait
  | _ => False

theorem sysWaitRound_quietly {childId : U64} {e : Event} (did : sysWaitRound k self childId = some (k', value, new)) (member : e ∈ new) :
    ¬ IsMessage e := by
  simp only [sysWaitRound] at did
  split at did
  · cases did
    rw [List.mem_singleton.mp member]
    exact id
  · split at did
    · cases did
      cases member
    · generalize taskBlockAndSwitch k self (.inWait childId) .onWait childId 0 0 = out at did
      obtain ⟨k₁, _ | _⟩ := out
      all_goals
        cases did
        rw [List.mem_singleton.mp member]
        exact fun isMessage => isMessage rfl

theorem returnTo_some {result : SysResult} (did : returnTo self result = some (k', events)) :
    ∃ k₁ value new, result = some (k₁, value, new) ∧ k'.phys = k₁.phys ∧ k'.tasks.slot = k₁.tasks.slot ∧
      (events = new ++ (value.map (.ret self)).toList) ∧
      k'.tasks.control = (value.elim k₁.tasks fun _ => k₁.tasks.resumeAt self .user).control := by
  rcases result with _ | ⟨k₁, _ | value, new⟩
  · cases did
  · cases did
    exact ⟨k', none, events, rfl, rfl, rfl, (List.append_nil _).symm, rfl⟩
  · cases did
    exact ⟨k₁, some value, new, rfl, rfl, rfl, rfl, rfl⟩

theorem dispatch_message {e : Event} (did : syscallDispatch k regs = some (k', value, new)) (member : e ∈ new) (isMessage : IsMessage e) :
    regs.rax = SYS_SEND ∨ regs.rax = SYS_RECV := by
  unfold syscallDispatch at did
  split at did
  · simp only [sysWrite] at did
    generalize (if 255 < regs.rsi then 255 else regs.rsi) = clamped at did
    repeat (split at did <;> try (cases did; try cases member))
  · split at did
    · simp only [sysExit] at did
      split at did
      · cases did
        cases member
      · split at did
        · cases did
          simp only [List.mem_cons, List.not_mem_nil, or_false] at member
          rcases member with rfl | rfl <;> cases isMessage
        · cases did
          rw [List.mem_singleton.mp member] at isMessage
          cases isMessage
    · split at did
      · simp only [sysFork] at did
        split at did
        · cases did
          cases member
        · split at did
          · cases did
          · split at did
            · cases did
              cases member
            · cases did
              rw [List.mem_singleton.mp member] at isMessage
              cases isMessage
      · split at did
        · rename_i isSend
          exact .inl isSend
        · split at did
          · rename_i isRecv
            exact .inr isRecv
          · split at did
            · simp only [sysWait] at did
              split at did
              · cases did
                cases member
              · exact absurd isMessage (sysWaitRound_quietly did member)
            · cases did
              cases member

/-- What is added to the events of a call when it returns. -/
theorem mem_returned {e : Event} {value : Option U64} (member : e ∈ new ++ (value.map (.ret self)).toList) :
    e ∈ new ∨ ∃ v, value = some v ∧ e = .ret self v := by
  rcases List.mem_append.mp member with here | ret
  · exact .inl here
  · cases value with
    | none => cases ret
    | some v => exact .inr ⟨v, rfl, List.mem_singleton.mp ret⟩

theorem message_mem {e : Event} {value : Option U64} (member : e ∈ new ++ (value.map (.ret self)).toList) (isMessage : IsMessage e) :
    e ∈ new := by
  rcases mem_returned member with here | ⟨v, _, rfl⟩
  · exact here
  · cases isMessage

/-- Returning adds no message. -/
theorem returnTo_message {result : SysResult} {e : Event} (did : returnTo self result = some (k', events)) (member : e ∈ events)
    (isMessage : IsMessage e) : ∃ k₁ value new, result = some (k₁, value, new) ∧ e ∈ new := by
  obtain ⟨k₁, value, new, ran, _, _, rfl, _⟩ := returnTo_some did
  exact ⟨k₁, value, new, ran, message_mem member isMessage⟩

/-- A message is dealt with by a call of the current task. -/
theorem step_message {e : Event} (did : step k a = some (k', events)) (member : e ∈ events) (isMessage : IsMessage e) :
    ∃ regs, a = .syscall regs ∧ (regs.rax = SYS_SEND ∨ regs.rax = SYS_RECV) := by
  cases a with
  | syscall regs =>
    simp only [step] at did
    split at did
    · cases did
    · split at did
      · obtain ⟨_, _, _, dispatched, here⟩ := returnTo_message did member isMessage
        exact ⟨regs, rfl, dispatch_message dispatched here isMessage⟩
      · cases did
  | resume =>
    simp only [step] at did
    split at did
    · cases did
    · split at did
      · obtain ⟨_, _, _, ran, here⟩ := returnTo_message did member isMessage
        cases ran
        cases here
      · obtain ⟨_, _, _, ran, here⟩ := returnTo_message did member isMessage
        cases ran
        cases here
      · obtain ⟨_, _, _, ran, here⟩ := returnTo_message did member isMessage
        exact absurd isMessage (sysWaitRound_quietly ran here)
      · cases did
  | store va b =>
    simp only [step] at did
    split at did
    · cases did
    · split at did
      · obtain ⟨_, _, same⟩ := Option.map_eq_some_iff.mp did
        cases same
        cases member
      · cases did
  | create | createKernel =>
    cases did
    cases member
  | destroy | prepare | start | tick | elfLoad | mapStack =>
    simp only [step] at did
    split at did <;> cases did
    cases member

theorem rendezvous_of_call (isCall : regs.rax = SYS_SEND ∨ regs.rax = SYS_RECV) : ∃ reason, Rendezvous regs reason :=
  isCall.elim (fun isSend => ⟨.onSend, isSend⟩) fun isRecv => ⟨.onRecv, isRecv⟩

/-- A call of `sys_send` or `sys_recv`, as a step. -/
theorem step_call (did : step k (.syscall regs) = some (k', events)) (isCall : Rendezvous regs reason) :
    ∃ self k₁ value new, k.tasks.currentTask = some self ∧
      MessageCall k self regs.rsi (clampLen regs.rdx) reason regs.rdi k₁ value new ∧
      k'.phys = k₁.phys ∧ k'.tasks.slot = k₁.tasks.slot ∧ events = new ++ (value.map (.ret self)).toList ∧
      k'.tasks.control = (value.elim k₁.tasks fun _ => k₁.tasks.resumeAt self .user).control := by
  simp only [step] at did
  split at did
  · cases did
  · rename_i self current
    split at did
    · obtain ⟨k₁, value, new, dispatched, same⟩ := returnTo_some did
      refine ⟨self, k₁, value, new, current, ?_, same⟩
      cases reason with
      | onSend =>
        rw [syscallDispatch, show regs.rax = SYS_SEND from isCall] at dispatched
        exact sysSend_call current dispatched
      | onRecv =>
        rw [syscallDispatch, show regs.rax = SYS_RECV from isCall] at dispatched
        exact sysRecv_call current dispatched
      | none => cases isCall
      | onWait => cases isCall
    · cases did

/-- A call that blocks notes its buffer. -/
theorem MessageCall.blocked {k₁ : Kernel} {reason' : BlockReason} {peer' : U64} (call : MessageCall k self buf len reason' peer' k₁ value new)
    (member : .blocked t reason peer ∈ new) : reason = reason' ∧ (k₁.tasks.slot t).ipcBuf = buf ∧ (k₁.tasks.slot t).ipcLen = len := by
  cases call with
  | refused => cases member
  | alone =>
    cases List.mem_singleton.mp member
    simp [TaskTable.block]
  | blocks resume other phys tasks =>
    cases List.mem_singleton.mp member
    rw [tasks, switchTo_slot_other other.symm, resumeAt_slot, TaskTable.block, modify_slot_same]
    exact ⟨rfl, rfl, rfl⟩
  | sends => simp at member
  | receives => simp at member

/-- A call that answers with an error has changed nothing. -/
theorem MessageCall.error (call : MessageCall k self buf len reason peer k' (some SYS_ERROR) new) (short : len.toNat ≤ 256) : k' = k := by
  have tooLong : SYS_ERROR.toNat ≤ 256 → False := by decide
  generalize isError : some SYS_ERROR = value at call
  cases call with
  | refused => rfl
  | alone =>
    cases isError
    exact (tooLong short).elim
  | blocks => cases isError
  | @sends _ receiver =>
    have shorter := (minLen_le len (k.tasks.slot receiver).ipcLen).1
    rw [← Option.some.inj isError] at shorter
    exact (tooLong (Nat.le_trans shorter short)).elim
  | @receives _ sender =>
    have shorter := (minLen_le len (k.tasks.slot sender).ipcLen).1
    rw [← Option.some.inj isError] at shorter
    exact (tooLong (Nat.le_trans shorter short)).elim

theorem MessageCall.noReturn {k₁ : Kernel} {error : U64} (call : MessageCall k self buf len reason peer k₁ value new) :
    .ret t error ∉ new := by
  cases call <;> simp

/-- The first bytes of one task's buffer have become those of another's, both
within ranges that `uva_check_range` accepts, and nothing else has changed. -/
structure Delivered (k k' : Kernel) (sender receiver : Slot) (source target : U64) (bytes : List Byte) : Prop where
  read : ∃ r len, (k.tasks.slot sender).pml4 = some r ∧ uvaCheckRange k.phys r source len false = true ∧
    bytes.length ≤ len.toNat ∧ bytes = bytesAt k.phys r source bytes.length
  written : ∃ r len, (k.tasks.slot receiver).pml4 = some r ∧ uvaCheckRange k.phys r target len true = true ∧
    bytes.length ≤ len.toNat ∧ bytesAt k'.phys r target bytes.length = bytes
  rest : Overwritten (spaces k.tasks) receiver target bytes.length k.phys k'.phys

/-- The copy, in the address spaces of the two tasks. -/
theorem delivered_of_copy {r r' : Frame} {n lenS lenR source target : U64} (iso : Isolated mem₀ boot k free)
    (spaceS : (k.tasks.slot sender).pml4 = some r) (validS : uvaCheckRange k.phys r source lenS false = true) (shortS : n.toNat ≤ lenS.toNat)
    (spaceR : (k.tasks.slot receiver).pml4 = some r') (validR : uvaCheckRange k.phys r' target lenR true = true)
    (shortR : n.toNat ≤ lenR.toNat) (loaded : Cpu.loadBytes k.phys r source n.toNat = some bytes)
    (stored : Cpu.storeBytes k.phys r' target bytes = some s) (phys : k'.phys = s) :
    bytes.length = n.toNat ∧ Delivered k k' sender receiver source target bytes := by
  have permittedS := permitted_of_check validS shortS
  have permittedR := permitted_of_check validR shortR
  have length := loadBytes_length loaded
  rw [loadBytes_lower (k := sender) iso.forest spaceS permittedS] at loaded
  rw [← length] at permittedS permittedR loaded
  obtain ⟨s', stored', wrote, reads⟩ := storeBytes_lower (k := receiver) iso.forest spaceR permittedR
  rw [stored] at stored'
  cases stored'
  rw [← phys] at wrote reads
  exact ⟨length, ⟨r, lenS, spaceS, validS, by omega, (Option.some.inj loaded).symm⟩,
    ⟨r', lenR, spaceR, validR, by omega, reads⟩, wrote⟩

/-- Lengths are clamped before they are stored. -/
def Clamped (T : TaskTable) : Prop := ∀ t, T.control t = .inSend ∨ T.control t = .inRecv → (T.slot t).ipcLen.toNat ≤ 256

/-- A call that had to wait does not answer with an error. -/
theorem resume_no_error {T T' : TaskTable} (clamped : Clamped T) (effect : Effect s T .resume events T')
    (failed : .ret self SYS_ERROR ∈ events) (inside : T.control self = .inSend ∨ T.control self = .inRecv) : False := by
  cases effect with
  | quiet => cases failed
  | resumed =>
    simp only [List.mem_singleton, Event.ret.injEq] at failed
    obtain ⟨rfl, isLen⟩ := failed
    have short := clamped self inside
    rw [← isLen] at short
    exact absurd short (by decide)
  | spin => simp at failed
  | blockSwitch => simp at failed
  | reap _ _ waits =>
    simp only [List.mem_cons, Event.ret.injEq, reduceCtorEq, List.not_mem_nil, or_false, false_or] at failed
    obtain ⟨rfl, _⟩ := failed
    rcases inside with inside | inside <;> simp [inside] at waits
  | childless _ _ waits =>
    simp only [List.mem_singleton, Event.ret.injEq] at failed
    obtain ⟨rfl, _⟩ := failed
    rcases inside with inside | inside <;> simp [inside] at waits

theorem clampLen_short (len : U64) : (clampLen len).toNat ≤ 256 := by
  rw [clampLen_toNat]
  exact Nat.min_le_right _ _

/-- A call stores at most 256 as the length of anything. -/
theorem call_clamped {k₁ : Kernel} (clamped : Clamped k.tasks) (short : len.toNat ≤ 256)
    (call : MessageCall k self buf len reason peer k₁ value new) (slot : k'.tasks.slot = k₁.tasks.slot)
    (control : k'.tasks.control = (value.elim k₁.tasks fun _ => k₁.tasks.resumeAt self .user).control) : Clamped k'.tasks := by
  intro t inside
  rw [slot]
  rw [control] at inside
  -- Back in user mode, the caller itself is not in the middle of a call.
  have away : ∀ {T : TaskTable}, (T.resumeAt self .user).control t = .inSend ∨ (T.resumeAt self .user).control t = .inRecv →
      t ≠ self ∧ (T.control t = .inSend ∨ T.control t = .inRecv) := by
    intro T inside
    have other : t ≠ self := by
      rintro rfl
      simp at inside
    rw [resumeAt_control_other other] at inside
    exact ⟨other, inside⟩
  cases call with
  | refused => exact clamped t (away inside).2
  | alone =>
    obtain ⟨other, inside⟩ := away inside
    rw [block_slot_other other]
    exact clamped t inside
  | @blocks _ _ next _ resume other phys tasks =>
    rw [Option.elim_none, tasks, switchTo_control] at inside
    rw [tasks]
    by_cases isSelf : t = self
    · subst isSelf
      rw [switchTo_slot_other other.symm, resumeAt_slot, TaskTable.block, modify_slot_same]
      exact short
    · rw [resumeAt_control_other isSelf] at inside
      have kept := clamped t inside
      by_cases isNext : t = next
      · subst isNext
        rw [switchTo_slot_same, resumeAt_slot, block_slot_other isSelf]
        exact kept
      · rw [switchTo_slot_other isNext, resumeAt_slot, block_slot_other isSelf]
        exact kept
  | @sends _ receiver =>
    obtain ⟨_, inside⟩ := away inside
    by_cases isReceiver : t = receiver
    · subst isReceiver
      rw [taskWake, modify_slot_same]
      exact clamped t inside
    · rw [taskWake, modify_slot_other isReceiver]
      exact clamped t inside
  | @receives _ sender =>
    obtain ⟨_, inside⟩ := away inside
    by_cases isSender : t = sender
    · subst isSender
      rw [taskWake, modify_slot_same, modify_slot_same]
      exact Nat.le_trans (minLen_le len _).1 short
    · rw [taskWake, modify_slot_other isSender, modify_slot_other isSender]
      exact clamped t inside

/-- All other steps leave the lengths of those in the middle of a call alone. -/
theorem effect_clamped {T T' : TaskTable} (clamped : Clamped T) (effect : Effect s T a events T') (quiet : ∀ e ∈ events, ¬ IsMessage e) :
    Clamped T' := by
  have wakes : ∀ (T : TaskTable) (u t : Slot), ((T.taskWake u).slot t).ipcLen = (T.slot t).ipcLen := by
    intro T u t
    by_cases same : t = u
    · rw [same, taskWake, modify_slot_same]
    · rw [taskWake, modify_slot_other same]
  have destroys : ∀ u t, ((T.taskDestroy u).slot t).ipcLen = (T.slot t).ipcLen := by
    intro u t
    by_cases same : t = u
    · subst same
      by_cases used : (T.slot t).state = .unused
      · simp [taskDestroy, used]
      · rw [taskDestroy_slot_same used]
    · rw [taskDestroy_slot_other same]
  have switches : ∀ (T : TaskTable) (u t : Slot), ((T.switchTo u).slot t).ipcLen = (T.slot t).ipcLen := by
    intro T u t
    by_cases same : t = u
    · rw [same, switchTo_slot_same]
    · rw [switchTo_slot_other same]
  -- Whoever is resumed somewhere else is not in the middle of a call.
  have resumes : ∀ {T : TaskTable} {u t : Slot} {c : Control},
      (T.resumeAt u c).control t = .inSend ∨ (T.resumeAt u c).control t = .inRecv → c ≠ .inSend → c ≠ .inRecv →
      t ≠ u ∧ (T.control t = .inSend ∨ T.control t = .inRecv) := by
    intro T u t c inside notSend notRecv
    by_cases same : t = u
    · rw [same, resumeAt_control_same] at inside
      exact absurd inside (not_or.mpr ⟨notSend, notRecv⟩)
    · rw [resumeAt_control_other same] at inside
      exact ⟨same, inside⟩
  have spawns : ∀ {u : Slot} {task : Task} {c : Control}, c ≠ .inSend → c ≠ .inRecv → Clamped (T.spawn u task c) := by
    intro u task c notSend notRecv t inside
    by_cases same : t = u
    · rw [same, spawn_control_same] at inside
      exact absurd inside (not_or.mpr ⟨notSend, notRecv⟩)
    · rw [spawn_control_other same] at inside
      rw [spawn_slot_other same]
      exact clamped t inside
  cases effect with
  | quiet => exact clamped
  | start => exact clamped
  | returned => exact clamped
  | create => exact spawns (by decide) (by decide)
  | createKernel => exact spawns (by decide) (by decide)
  | fork => exact spawns (by decide) (by decide)
  | deliver => exact absurd trivial (quiet _ List.mem_cons_self)
  | collect => exact absurd trivial (quiet _ List.mem_cons_self)
  | blockAlone _ _ _ call =>
    refine absurd ?_ (quiet _ List.mem_cons_self)
    rintro rfl
    exact call
  | destroy u =>
    intro t inside
    rw [taskDestroy_control] at inside
    rw [destroys]
    exact clamped t inside
  | prepare u =>
    intro t inside
    obtain ⟨other, inside⟩ := resumes inside (by decide) (by decide)
    rw [resumeAt_slot, modify_slot_other other]
    exact clamped t inside
  | spin =>
    intro t inside
    obtain ⟨other, inside⟩ := resumes inside (by simp) (by simp)
    rw [resumeAt_slot, block_slot_other other]
    exact clamped t inside
  | @blockSwitch self next reason peer buf len resume _ _ _ cause =>
    have waits : reason = .onWait := by
      by_contra notWait
      exact quiet _ List.mem_cons_self notWait
    subst waits
    cases cause
    intro t inside
    rw [switchTo_control] at inside
    obtain ⟨other, inside⟩ := resumes inside (by simp) (by simp)
    rw [switches, resumeAt_slot, block_slot_other other]
    exact clamped t inside
  | exit =>
    intro t inside
    obtain ⟨other, inside⟩ := resumes inside (by decide) (by decide)
    rw [wakes, exit_slot_other other]
    exact clamped t inside
  | exitUnseen =>
    intro t inside
    obtain ⟨other, inside⟩ := resumes inside (by decide) (by decide)
    rw [exit_slot_other other]
    exact clamped t inside
  | reap =>
    intro t inside
    obtain ⟨other, inside⟩ := resumes inside (by decide) (by decide)
    rw [taskDestroy_control] at inside
    rw [resumeAt_slot, destroys]
    exact clamped t inside
  | childless =>
    intro t inside
    exact clamped t (resumes inside (by decide) (by decide)).2
  | resumed =>
    intro t inside
    exact clamped t (resumes inside (by decide) (by decide)).2
  | @switch prev next =>
    intro t inside
    rw [switchTo_control, preempt_control] at inside
    rw [switches, preempt]
    split
    · by_cases same : t = prev
      · rw [same, modify_slot_same]
        exact clamped prev (same ▸ inside)
      · rw [modify_slot_other same]
        exact clamped t inside
    · exact clamped t inside

theorem step_clamped (table : TableInv k.tasks) (clamped : Clamped k.tasks) (did : step k a = some (k', events)) : Clamped k'.tasks := by
  by_cases quiet : ∀ e ∈ events, ¬ IsMessage e
  · exact effect_clamped clamped (step_effect table.clean (fun _ current => table.headNotCurrent current) did) quiet
  · simp only [not_forall, not_not] at quiet
    obtain ⟨e, member, isMessage⟩ := quiet
    obtain ⟨regs, rfl, isCall⟩ := step_message did member isMessage
    obtain ⟨reason, isReason⟩ := rendezvous_of_call isCall
    obtain ⟨_, _, _, _, _, call, _, slot, _, control⟩ := step_call did isReason
    exact call_clamped clamped (clampLen_short _) call slot control

/-- A task made a call of `sys_send` or `sys_recv` on the way to a state. -/
def Asked (allowed : Kernel → Action → Prop) (k₀ : Kernel) (t : Slot) (reason : BlockReason) (buf len : U64) (k : Kernel) : Prop :=
  ∃ regs k₁ k₂ before now after, Run step allowed k₀ before k₁ ∧ k₁.tasks.currentTask = some t ∧ Rendezvous regs reason ∧
    regs.rsi = buf ∧ regs.rdx = len ∧ allowed k₁ (.syscall regs) ∧ step k₁ (.syscall regs) = some (k₂, now) ∧
    Run step allowed k₂ after k

/-- The buffer of a blocked task is that of its call, and its length the length
given there, clamped. -/
def Registered (allowed : Kernel → Action → Prop) (k₀ k : Kernel) : Prop :=
  ∀ t, (k.tasks.slot t).state = .blocked → (k.tasks.slot t).blockReason = .onSend ∨ (k.tasks.slot t).blockReason = .onRecv →
    ∃ len, (k.tasks.slot t).ipcLen = clampLen len ∧
      Asked allowed k₀ t (k.tasks.slot t).blockReason (k.tasks.slot t).ipcBuf len k

theorem step_registered {before : List Event} (table : TableInv k.tasks) (run : Run step allowed k₀ before k) (may : allowed k a)
    (registered : Registered allowed k₀ k) (did : step k a = some (k', events)) : Registered allowed k₀ k' := by
  intro t blocked parked
  have effect := step_effect table.clean (fun _ current => table.headNotCurrent current) did
  have notWait : (k'.tasks.slot t).blockReason ≠ .onWait := by
    rcases parked with isSend | isRecv
    · rw [isSend]
      decide
    · rw [isRecv]
      decide
  rcases effect_parked effect blocked notWait with same | ⟨current, reason, peer, buf, len, resume, _, member, same⟩
  · rw [same] at blocked parked ⊢
    obtain ⟨len, isLen, regs, k₁, k₂, before, now, after, reached, current, isCall, isBuf, isArg, may₁, did₁, later⟩ :=
      registered t blocked parked
    exact ⟨len, isLen, regs, k₁, k₂, before, now, _, reached, current, isCall, isBuf, isArg, may₁, did₁, .next a later may did⟩
  · have isReason : (k'.tasks.slot t).blockReason = reason := by
      rw [same, TaskTable.block, modify_slot_same]
    rw [isReason] at notWait parked
    obtain ⟨regs, rfl, isCall⟩ := step_message did member notWait
    obtain ⟨reason', isReason'⟩ := rendezvous_of_call isCall
    obtain ⟨self, k₁, value, new, _, call, _, slot, isEvents, _⟩ := step_call did isReason'
    rw [isEvents] at member
    obtain ⟨rfl, isBuf, isLen⟩ := call.blocked (message_mem member notWait)
    rw [← slot] at isBuf isLen
    rw [isReason, isBuf]
    exact ⟨regs.rdx, isLen, regs, k, k', before, events, [], run, current, isReason', rfl, rfl, may, did, .start⟩

theorem run_registered {before : List Event} (booted : Booted k₀) (run : Run step allowed k₀ before k) :
    Clamped k.tasks ∧ Registered allowed k₀ k := by
  obtain ⟨T, nobody, noIdle, isInit⟩ := booted
  induction run with
  | start =>
    refine ⟨fun t _ => ?_, fun t blocked => ?_⟩
    · obtain ⟨link, init⟩ := (taskTableInit_slots T).1 t
      rw [isInit, init]
      exact Nat.zero_le 256
    · rw [isInit, taskTableInit_unused] at blocked
      cases blocked
  | next a run may did ih =>
    have table := run_tableInv ⟨T, nobody, noIdle, isInit⟩ run
    exact ⟨step_clamped table ih.1 did, step_registered table run may ih.2 did⟩

/-- The part a task has in a rendezvous: it makes its call now, or is blocked in
the one it made before. -/
inductive Takes (allowed : Kernel → Action → Prop) (k₀ k : Kernel) (a : Action) (t : Slot) (reason : BlockReason) (buf len : U64) : Prop where
  | now (regs : SyscallRegs) (isCall : a = .syscall regs) (current : k.tasks.currentTask = some t) (call : Rendezvous regs reason)
      (isBuf : regs.rsi = buf) (isLen : regs.rdx = len)
  | before (blocked : (k.tasks.slot t).state = .blocked) (isReason : (k.tasks.slot t).blockReason = reason)
      (isBuf : (k.tasks.slot t).ipcBuf = buf) (isLen : (k.tasks.slot t).ipcLen = clampLen len)
      (asked : Asked allowed k₀ t reason buf len k)

/-- The end of a call of `sys_send` or `sys_recv`. -/
def EndsMessage (k : Kernel) (a : Action) (self : Slot) : Prop :=
  (∃ regs, a = .syscall regs ∧ (regs.rax = SYS_SEND ∨ regs.rax = SYS_RECV)) ∨
    (a = .resume ∧ (k.tasks.control self = .inSend ∨ k.tasks.control self = .inRecv))

theorem call_copied {k₁ : Kernel} (iso : Isolated mem₀ boot k free) (registered : Registered allowed k₀ k)
    (current : k.tasks.currentTask = some self) (isCall : Rendezvous regs reason)
    (call : MessageCall k self regs.rsi (clampLen regs.rdx) reason peer k₁ value new) (phys : k'.phys = k₁.phys)
    (copied : .copied sender receiver bytes ∈ new) :
    ∃ source lenS target lenR, Takes allowed k₀ k (.syscall regs) sender .onSend source lenS ∧
      Takes allowed k₀ k (.syscall regs) receiver .onRecv target lenR ∧
      bytes.length = min (clampLen lenS).toNat (clampLen lenR).toNat ∧ Delivered k k' sender receiver source target bytes := by
  cases call with
  | refused => cases copied
  | alone => simp at copied
  | blocks => simp at copied
  | @sends _ receiver r r' bytes s space valid awaits onRecv space' valid' loaded stored =>
    simp only [List.mem_cons, Event.copied.injEq, reduceCtorEq, List.not_mem_nil, or_false] at copied
    obtain ⟨rfl, rfl, rfl⟩ := copied
    obtain ⟨lenR, isLen, asked⟩ := registered receiver awaits (.inr onRecv)
    rw [current_space iso current space] at loaded
    rw [space_small iso space'] at stored
    obtain ⟨length, delivered⟩ := delivered_of_copy iso space valid (minLen_le _ _).1 space' valid' (Nat.le_refl _) loaded stored phys
    rw [minLen_toNat, isLen] at length
    rw [onRecv] at asked
    exact ⟨regs.rsi, regs.rdx, _, lenR, .now regs rfl current isCall rfl rfl, .before awaits onRecv rfl isLen asked, length, delivered⟩
  | @receives _ sender r r' bytes s space valid offers onSend space' valid' loaded stored =>
    simp only [List.mem_cons, Event.copied.injEq, reduceCtorEq, List.not_mem_nil, or_false] at copied
    obtain ⟨rfl, rfl, rfl⟩ := copied
    obtain ⟨lenS, isLen, asked⟩ := registered sender offers (.inl onSend)
    rw [space_small iso space'] at loaded
    rw [current_space iso current space, space_small iso space] at stored
    obtain ⟨length, delivered⟩ := delivered_of_copy iso space' valid' (Nat.le_refl _) space valid (minLen_le _ _).1 loaded stored phys
    rw [minLen_toNat, isLen, Nat.min_comm] at length
    rw [onSend] at asked
    exact ⟨_, lenS, regs.rsi, regs.rdx, .before offers onSend rfl isLen asked, .now regs rfl current isCall rfl rfl, length, delivered⟩

/-- **Messages are copied exactly.** In any state a system reaches whose address
spaces are isolated: whoever calls last, a rendezvous copies as many bytes as
both sides named, at most 256, from the buffer of one to that of the other, and
changes no other byte; and a call that fails changes nothing. -/
theorem messages_exact {before : List Event} {rest : List Nat} (booted : Booted k₀) (run : Run step allowed k₀ before k)
    (iso : Isolated k₀.phys.mem (getCurrentPml4 k₀.cr3) k rest) :
    (∀ a k' events sender receiver bytes, step k a = some (k', events) → .copied sender receiver bytes ∈ events → sender ≠ receiver →
      ∃ source lenS target lenR, Takes allowed k₀ k a sender .onSend source lenS ∧ Takes allowed k₀ k a receiver .onRecv target lenR ∧
        bytes.length = min (clampLen lenS).toNat (clampLen lenR).toNat ∧ bytes.length ≤ 256 ∧
        Delivered k k' sender receiver source target bytes) ∧
    ∀ a k' events self, step k a = some (k', events) → .ret self SYS_ERROR ∈ events → EndsMessage k a self →
      k'.tasks.slot = k.tasks.slot ∧ k'.phys = k.phys := by
  obtain ⟨clamped, registered⟩ := run_registered booted run
  refine ⟨fun a k' events sender receiver bytes did copied _ => ?_, fun a k' events self did failed ends => ?_⟩
  · obtain ⟨regs, rfl, isCall⟩ := step_message did copied trivial
    obtain ⟨reason, isReason⟩ := rendezvous_of_call isCall
    obtain ⟨self, k₁, value, new, current, call, phys, _, rfl, _⟩ := step_call did isReason
    obtain ⟨source, lenS, target, lenR, sends, receives, length, delivered⟩ :=
      call_copied iso registered current isReason call phys (message_mem copied trivial)
    refine ⟨source, lenS, target, lenR, sends, receives, length, ?_, delivered⟩
    rw [length]
    exact Nat.le_trans (Nat.min_le_left _ _) (clampLen_short lenS)
  · rcases ends with ⟨regs, rfl, isCall⟩ | ⟨rfl, inside⟩
    · obtain ⟨reason, isReason⟩ := rendezvous_of_call isCall
      obtain ⟨_, k₁, value, new, _, call, phys, slot, rfl, _⟩ := step_call did isReason
      have isError : value = some SYS_ERROR := by
        rcases mem_returned failed with here | ⟨_, isValue, same⟩
        · exact absurd here call.noReturn
        · cases same
          exact isValue
      rw [isError] at call
      have same := call.error (clampLen_short regs.rdx)
      rw [phys, slot, same]
      exact ⟨rfl, rfl⟩
    · have table := run_tableInv booted run
      have effect := step_effect table.clean (fun _ current => table.headNotCurrent current) did
      exact (resume_no_error clamped effect failed inside).elim

/-- Task 1 waits for a message; task 2 stores a 7 and sends it. -/
theorem messages_exact_byte : ∃ k k' events source target, Run step KeepsLower (bootKernel 30) events k ∧
    step k (.syscall (sendCall 1)) = some (k', [.copied 2 1 [7], .woken 1, .ret 2 1]) ∧ Delivered k k' 2 1 source target [7] := by
  have ran : (exec (fun _ _ => true) step (bootKernel 30) (twoTasks ++ [.syscall (recvCall 1), .store 0x5000 7])).bind
      (fun (k, _) => (step k (.syscall (sendCall 1))).map fun out => out.2) = some [.copied 2 1 [7], .woken 1, .ret 2 1] := by
    decide +kernel
  obtain ⟨⟨k, events⟩, did, sent⟩ := Option.bind_eq_some_iff.mp ran
  obtain ⟨⟨k', new⟩, called, isNew⟩ := Option.map_eq_some_iff.mp sent
  dsimp only at isNew
  subst isNew
  have lower : ∀ a ∈ twoTasks ++ [.syscall (recvCall 1), .store 0x5000 7], KeepsLower k a := by
    intro a member
    rcases List.mem_append.mp member with setup | after
    · exact twoTasks_lower k a setup
    · simp only [List.mem_cons, List.not_mem_nil, or_false] at after
      rcases after with rfl | rfl <;> trivial
  have run : Run step KeepsLower (bootKernel 30) events k := run_of_exec (fun _ a member _ => lower a member) did
  obtain ⟨rest, iso⟩ := run_isolated (bootKernel_bootedWith (by decide)) run
  obtain ⟨source, _, target, _, _, _, _, _, delivered⟩ :=
    (messages_exact (bootKernel_booted 30) run iso).1 _ k' _ 2 1 [7] called List.mem_cons_self (by decide)
  exact ⟨k, k', events, source, target, run, called, delivered⟩

end HobbyKernel.MessageCopies
