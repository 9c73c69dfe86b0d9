import HobbyKernel.RendezvousOrder

/-! No call faults. Kernel code reads and writes user memory with plain loads and
stores, and an exception in ring 0 halts the machine. It only touches ranges
that `uva_check_range` has just accepted, through the tables of the task whose
range it is, so whatever a task passes to a system call, what the call does next
is defined: it comes back, suspends the task, or goes round the loop of
`sys_wait` again. -/
namespace HobbyKernel.CallsReturn
open TaskTable TaskInvariant TaskEffects Isolation IsolationSteps IsolationProofs UserBytes RendezvousProofs Runs

variable {mem₀ : PhysMem} {boot : Frame} {k k₀ : Kernel} {free : List Nat} {self t : Slot} {r : Frame} {s : Phys}
  {uva len n : U64} {needWrite : Bool} {bytes : List Byte} {events : List Event}

/-- The tables in use are those of the current task. -/
theorem current_space (iso : Isolated mem₀ boot k free) (current : k.tasks.currentTask = some self) :
    (k.tasks.slot self).pml4 = some (getCurrentPml4 k.cr3) := by
  rcases iso.inSpace with ⟨nobody, _⟩ | ⟨t, isCurrent, isSpace⟩
  · rw [current] at nobody
    cases nobody
  · rw [current] at isCurrent
    cases isCurrent
    exact isSpace

/-- A task that is there has tables, which survive a trip through `cr3`. -/
theorem used_space (iso : Isolated mem₀ boot k free) (used : (k.tasks.slot t).state ≠ .unused) :
    ∃ r, (k.tasks.slot t).pml4 = some r ∧ getCurrentPml4 (pml4Phys r) = r := by
  obtain ⟨r, _, isSpace, _⟩ := (iso.slots t).used used
  exact ⟨r, isSpace, RendezvousOrder.space_small iso isSpace⟩

theorem load_checked (iso : Isolated mem₀ boot k free) (isSpace : (k.tasks.slot t).pml4 = some r)
    (valid : uvaCheckRange k.phys r uva len needWrite = true) (shorter : n.toNat ≤ len.toNat) :
    ∃ bytes, Cpu.loadBytes k.phys r uva n.toNat = some bytes ∧ bytes.length = n.toNat :=
  ⟨_, loadBytes_lower (k := t) iso.forest isSpace (permitted_of_check valid shorter), bytesAt_length ..⟩

theorem store_checked (iso : Isolated mem₀ boot k free) (isSpace : (k.tasks.slot t).pml4 = some r)
    (valid : uvaCheckRange k.phys r uva len true = true) (shorter : bytes.length ≤ len.toNat) :
    ∃ s, Cpu.storeBytes k.phys r uva bytes = some s := by
  obtain ⟨s, stored, _⟩ := storeBytes_lower (k := t) iso.forest isSpace (permitted_of_check valid shorter)
  exact ⟨s, stored⟩

theorem accepted {b : Bool} (checked : ¬ (!b) = true) : b = true := by
  cases b
  · exact (checked rfl).elim
  · rfl

theorem block_returns {resume : Control} {reason : BlockReason} {peer buf : U64} :
    (match taskBlockAndSwitch k self resume reason peer buf len with
      | (k, true) => some (k, some (k.tasks.slot self).ipcLen, [Event.blocked self reason peer])
      | (k, false) => some (k, none, [Event.blocked self reason peer])) ≠ none := by
  split <;> simp

/-- `sys_write` reads what it has checked. -/
theorem sysWrite_returns (iso : Isolated mem₀ boot k free) (current : k.tasks.currentTask = some self) (userPtr len : U64) :
    sysWrite k userPtr len ≠ none := by
  have isSpace := current_space iso current
  simp only [sysWrite, current, isSpace]
  generalize (if 255 < len then 255 else len) = n
  split
  · simp
  · rename_i checked
    have valid := accepted checked
    obtain ⟨bytes, loaded, _⟩ := load_checked iso isSpace valid (Nat.le_refl _)
    rw [loaded]
    simp

theorem sendTo_returns (iso : Isolated mem₀ boot k free) (current : k.tasks.currentTask = some self) {target : Slot}
    {targetId userBuf : U64} (valid : uvaCheckRange k.phys (getCurrentPml4 k.cr3) userBuf len false = true)
    (found : k.tasks.taskFindById targetId = some target) : sendTo k self target targetId userBuf len ≠ none := by
  have used : (k.tasks.slot target).state ≠ .unused := by
    have passed := find_slots_some found
    simp only [Bool.and_eq_true, decide_eq_true_eq] at passed
    exact passed.1
  obtain ⟨r, isSpace, same⟩ := used_space iso used
  simp only [sendTo, isSpace]
  split
  · split
    · simp
    · rename_i checked
      have validTarget := accepted checked
      obtain ⟨shorter, shorter'⟩ := minLen_le len (k.tasks.slot target).ipcLen
      obtain ⟨bytes, loaded, length⟩ := load_checked iso (current_space iso current) valid shorter
      have fits : bytes.length ≤ (minLen len (k.tasks.slot target).ipcLen).toNat := by omega
      obtain ⟨s, stored⟩ := store_checked iso isSpace validTarget fits
      rw [loaded]
      simp only [same, stored]
      simp
  · exact block_returns

theorem sysSend_returns (iso : Isolated mem₀ boot k free) (current : k.tasks.currentTask = some self)
    (targetId userBuf len : U64) : sysSend k targetId userBuf len ≠ none := by
  simp only [sysSend, current, current_space iso current]
  split
  · simp
  · rename_i checked
    have valid := accepted checked
    split
    · simp
    · rename_i target found
      exact sendTo_returns iso current valid found

theorem recvFrom_returns (iso : Isolated mem₀ boot k free) (current : k.tasks.currentTask = some self) {sender : Slot}
    {userBuf selfId fromId : U64} (valid : uvaCheckRange k.phys (getCurrentPml4 k.cr3) userBuf len true = true)
    (offers : offersMessage k.phys selfId fromId len (k.tasks.slot sender) = true) :
    recvFrom k self sender userBuf len ≠ none := by
  simp only [offersMessage, Bool.and_eq_true, decide_eq_true_eq] at offers
  obtain ⟨⟨⟨⟨isBlocked, _⟩, _⟩, _⟩, passed⟩ := offers
  obtain ⟨r, isSpace, same⟩ := used_space iso (t := sender) (by rw [isBlocked]; decide)
  simp only [isSpace, Option.any_some] at passed
  obtain ⟨shorter, _⟩ := minLen_le len (k.tasks.slot sender).ipcLen
  obtain ⟨bytes, loaded, length⟩ := load_checked iso isSpace passed (Nat.le_refl _)
  obtain ⟨s, stored⟩ := store_checked iso (current_space iso current) valid (show bytes.length ≤ len.toNat by omega)
  have back := getCurrentPml4_pml4Phys (getCurrentPml4_lt k.cr3)
  simp only [recvFrom, isSpace, same, loaded, back, stored]
  simp

theorem sysRecv_returns (iso : Isolated mem₀ boot k free) (current : k.tasks.currentTask = some self)
    (fromId userBuf len : U64) : sysRecv k fromId userBuf len ≠ none := by
  simp only [sysRecv, current, current_space iso current]
  split
  · simp
  · rename_i checked
    have valid := accepted checked
    split
    · rename_i sender found
      exact recvFrom_returns iso current valid (find_slots_some found)
    · exact block_returns

theorem sysWaitRound_returns (childId : U64) : sysWaitRound k self childId ≠ none := by
  simp only [sysWaitRound]
  split
  · simp
  · split
    · simp
    · split <;> simp

theorem sysFork_returns (iso : Isolated mem₀ boot k free) (current : k.tasks.currentTask = some self) (regs : SyscallRegs) :
    sysFork k regs ≠ none := by
  simp only [sysFork, current, current_space iso current]
  split <;> simp

theorem dispatch_returns (iso : Isolated mem₀ boot k free) (current : k.tasks.currentTask = some self) (regs : SyscallRegs) :
    syscallDispatch k regs ≠ none := by
  simp only [syscallDispatch]
  split
  · exact sysWrite_returns iso current _ _
  · split
    · simp only [sysExit, current]
      split <;> simp
    · split
      · exact sysFork_returns iso current regs
      · split
        · exact sysSend_returns iso current _ _ _
        · split
          · exact sysRecv_returns iso current _ _ _
          · split
            · simp only [sysWait, current]
              exact sysWaitRound_returns _
            · simp

theorem returnTo_ne_none {result : SysResult} (returns : result ≠ none) : returnTo self result ≠ none := by
  rcases result with _ | ⟨_, _ | _, _⟩
  · exact (returns rfl).elim
  · simp [returnTo]
  · simp [returnTo]

/-- **No call faults.** In every state a system reaches, the step that a system
call of the current task takes is defined whatever its registers hold, and so is
the next step of a call that is under way. In `sys_wait` a step is one round of
its loop, which need not end. -/
theorem no_call_faults (booted : BootedWith k₀ free) (run : Run step KeepsLower k₀ events k)
    (current : k.tasks.currentTask = some self) :
    (k.tasks.control self = .user → ∀ regs, ∃ k' new, step k (.syscall regs) = some (k', new)) ∧
      ((k.tasks.control self).interruptible = false → ∃ k' new, step k .resume = some (k', new)) := by
  obtain ⟨rest, iso⟩ := run_isolated booted run
  have outcome : ∀ {a}, step k a ≠ none → ∃ k' new, step k a = some (k', new) := fun returns => by
    obtain ⟨⟨k', new⟩, did⟩ := Option.ne_none_iff_exists'.mp returns
    exact ⟨k', new, did⟩
  refine ⟨fun user regs => outcome ?_, fun inside => outcome ?_⟩
  · simp only [step, current, user, if_true]
    exact returnTo_ne_none (dispatch_returns iso current regs)
  · simp only [step, current]
    cases isControl : k.tasks.control self with
    | inSend => simp [returnTo]
    | inRecv => simp [returnTo]
    | inWait childId => exact returnTo_ne_none (sysWaitRound_returns childId)
    | user => rw [isControl] at inside; cases inside
    | halted => rw [isControl] at inside; cases inside
    | thread => rw [isControl] at inside; cases inside
    | fresh => rw [isControl] at inside; cases inside

/-- A task that has just been started, and any call of it. -/
theorem no_call_faults_started : ∃ k events, Run step KeepsLower (bootKernel 20) events k ∧
    k.tasks.currentTask = some 1 ∧ ∀ regs, ∃ k' new, step k (.syscall regs) = some (k', new) := by
  have ran : (exec (fun _ _ => true) step (bootKernel 20) (started [])).map (fun out =>
      (out.1.tasks.currentTask, out.1.tasks.control 1)) = some (some 1, .user) := by
    decide +kernel
  obtain ⟨⟨k, events⟩, did, now⟩ := Option.map_eq_some_iff.mp ran
  simp only [Prod.mk.injEq] at now
  have kept : ∀ k, ∀ a ∈ started [], KeepsLower k a := by simp [started, KeepsLower]
  have run : Run step KeepsLower (bootKernel 20) events k := run_of_exec (fun k a member _ => kept k a member) did
  exact ⟨k, events, run, now.1, (no_call_faults (bootKernel_bootedWith (by decide)) run now.1).1 now.2⟩

end HobbyKernel.CallsReturn
