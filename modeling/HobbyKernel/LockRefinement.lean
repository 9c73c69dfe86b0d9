import HobbyKernel.LockDiscipline

/-! With nothing in between, the functions that take the lock do to the kernel's
data what those without it do. -/
namespace HobbyKernel.Locked
open LockProgram Prog

variable {k : Kernel} {i f : Bool} {self target t : Slot} {slots : List Slot} {selfId childId fromId targetId userBuf len : U64}

theorem taskSlotAlloc_alone (i : Bool) (k : Kernel) :
    taskSlotAlloc.alone i k = some ({ k with tasks := k.tasks.taskSlotAlloc.1 }, i, some k.tasks.taskSlotAlloc.2) := by
  rw [taskSlotAlloc, TaskTable.taskSlotAlloc, alone_lock, alone_look]
  cases k.tasks.taskFreeList <;> rfl

theorem taskSlotFree_alone (t : Slot) (i : Bool) (k : Kernel) :
    (taskSlotFree t).alone i k = some ({ k with tasks := k.tasks.taskSlotFree t }, i, some ()) := rfl

theorem taskDestroy_alone (t : Slot) (i : Bool) (k : Kernel) :
    (taskDestroy t).alone i k = some ({ k with tasks := k.tasks.taskDestroy t }, i, some ()) := by
  rw [taskDestroy, TaskTable.taskDestroy, alone_look]
  split
  · rfl
  · rfl

theorem findLoop_alone (taskId : U64) (f i : Bool) (k : Kernel) : (findLoop taskId f slots).alone i k =
    some (k, f, some (slots.find? fun t => (k.tasks.slot t).state ≠ .unused && (k.tasks.slot t).taskId = taskId)) := by
  induction slots with
  | nil => rfl
  | cons t rest ih =>
    rw [findLoop, alone_look, List.find?_cons]
    split
    · next found =>
      rw [found]
      rfl
    · next other =>
      rw [Bool.eq_false_iff.mpr other]
      exact ih

theorem taskFindById_alone (taskId : U64) (i : Bool) (k : Kernel) :
    (taskFindById taskId).alone i k = some (k, i, some (k.tasks.taskFindById taskId)) :=
  findLoop_alone taskId i false k

theorem pickLoop_alone (i : Bool) (k : Kernel) :
    (pickLoop slots).alone i k = some (k, i, some (slots.find? fun t => (k.tasks.slot t).state = .runnable)) := by
  induction slots with
  | nil => rfl
  | cons t rest ih =>
    rw [pickLoop, alone_look, List.find?_cons]
    split
    · next found =>
      rw [decide_eq_true found]
      rfl
    · next other =>
      rw [decide_eq_false other]
      exact ih

theorem schedulerPickNext_alone (current : Option Slot) (i : Bool) (k : Kernel) :
    (schedulerPickNext current).alone i k = some (k, i, some (k.tasks.schedulerPickNext current)) := by
  rw [schedulerPickNext, alone_lock, alone_bind, pickLoop_alone, TaskTable.schedulerPickNext]
  dsimp only
  cases (TaskTable.pickOrder current).find? fun t => (k.tasks.slot t).state = .runnable with
  | some t => rfl
  | none => rfl

theorem schedulerSwitchTo_alone (old : Option Slot) (new : Slot) (i : Bool) (k : Kernel) :
    (schedulerSwitchTo old new).alone i k = some (HobbyKernel.schedulerSwitchTo k new, i, none) := rfl

theorem taskBlockAndSwitch_alone (self : Slot) (resume : Control) (reason : BlockReason) (peer buf len : U64) (i : Bool) (k : Kernel) :
    (taskBlockAndSwitch self resume reason peer buf len).alone i k =
      some ((HobbyKernel.taskBlockAndSwitch k self resume reason peer buf len).1, i,
        if (HobbyKernel.taskBlockAndSwitch k self resume reason peer buf len).2 = true then some () else none) := by
  rw [taskBlockAndSwitch, alone_lock, onTasks, alone_modify, alone_unlock, alone_bind, schedulerPickNext_alone,
    HobbyKernel.taskBlockAndSwitch]
  dsimp only
  cases TaskTable.schedulerPickNext _ (some self) with
  | none => rfl
  | some next =>
    dsimp only
    split
    · rfl
    · rfl

theorem timerTickHandler_alone (i : Bool) (k : Kernel) :
    (timerTickHandler.alone i k).map Prod.fst = some (HobbyKernel.timerTickHandler k) := by
  rw [timerTickHandler, alone_modify, alone_look, HobbyKernel.timerTickHandler]
  dsimp only
  split
  · rfl
  rw [alone_look]
  dsimp only
  cases k.tasks.currentTask with
  | none => rfl
  | some prev =>
    dsimp only
    rw [alone_bind, schedulerPickNext_alone]
    dsimp only
    cases TaskTable.schedulerPickNext _ (some prev) with
    | none => rfl
    | some next =>
      dsimp only
      split
      · rfl
      · rw [alone_lock, alone_look]
        dsimp only
        split
        · rfl
        · rfl

theorem taskCreate_alone (i : Bool) (k : Kernel) :
    taskCreate.alone i k = some ((HobbyKernel.taskCreate k).1, i, some (HobbyKernel.taskCreate k).2) := by
  rw [taskCreate, alone_bind, taskSlotAlloc_alone, HobbyKernel.taskCreate]
  rcases k.tasks.taskSlotAlloc with ⟨T, _ | t⟩
  · rfl
  dsimp only
  rw [alone_answer]
  dsimp only
  rcases vmmNewAddressSpace k.phys k.cr3 with ⟨s, _ | pml4⟩
  · rfl
  dsimp only
  rw [alone_answer]
  rcases taskKstackAlloc _ t with ⟨k, _ | _⟩
  · rfl
  · rfl

theorem taskCreateKernel_alone (entry : U64) (i : Bool) (k : Kernel) :
    (taskCreateKernel entry).alone i k = some ((HobbyKernel.taskCreateKernel k entry).1, i, some (HobbyKernel.taskCreateKernel k entry).2) := by
  rw [taskCreateKernel, alone_bind, taskSlotAlloc_alone, HobbyKernel.taskCreateKernel]
  rcases k.tasks.taskSlotAlloc with ⟨T, _ | t⟩
  · rfl
  dsimp only
  rw [alone_answer]
  rcases taskKstackAlloc _ t with ⟨k, _ | _⟩
  · rfl
  · rfl

theorem taskFork_alone (parent : Slot) (pml4 : Frame) (regs : SyscallRegs) (i : Bool) (k : Kernel) :
    (taskFork parent pml4 regs).alone i k =
      some ((HobbyKernel.taskFork k parent pml4 regs).1, i, some (HobbyKernel.taskFork k parent pml4 regs).2) := by
  rw [taskFork, alone_bind, taskSlotAlloc_alone, HobbyKernel.taskFork]
  rcases k.tasks.taskSlotAlloc with ⟨T, _ | child⟩
  · rfl
  dsimp only
  rw [alone_answer]
  dsimp only
  rcases vmmCopyAddressSpace k.phys pml4 with ⟨s, _ | childPml4⟩
  · rfl
  dsimp only
  rw [alone_answer]
  rcases taskKstackAlloc _ child with ⟨k, _ | _⟩
  · rfl
  · rfl

/-- What a call leaves behind, without what others can notice of it. -/
def outcome (result : SysResult) : Option (Kernel × Option U64) := result.map fun out => (out.1, out.2.1)

/-- What is left when a program stops by itself. -/
def stop (p : P U64) (k : Kernel) : Option (Kernel × Option U64) := (p.alone false k).map fun out => (out.1, out.2.2)

theorem sysFork_stop (regs : SyscallRegs) (k : Kernel) : stop (sysFork regs) k = outcome (HobbyKernel.sysFork k regs) := by
  rw [stop, sysFork, alone_look, HobbyKernel.sysFork]
  cases k.tasks.currentTask with
  | none => rfl
  | some self =>
    dsimp only
    rw [alone_look]
    cases (k.tasks.slot self).pml4 with
    | none => rfl
    | some pml4 =>
      dsimp only
      rw [alone_bind, taskFork_alone]
      rcases HobbyKernel.taskFork k self pml4 regs with ⟨k, _ | child⟩ <;> rfl

theorem sysWrite_stop (userPtr len : U64) (k : Kernel) : stop (sysWrite userPtr len) k = outcome (HobbyKernel.sysWrite k userPtr len) := by
  rw [stop, sysWrite, alone_look, HobbyKernel.sysWrite]
  cases k.tasks.currentTask with
  | none => rfl
  | some self =>
    dsimp only
    rw [alone_look]
    cases (k.tasks.slot self).pml4 with
    | none => rfl
    | some pml4 =>
      dsimp only
      rw [alone_look]
      generalize (if 255 < len then 255 else len) = bytes
      split
      · rfl
      · rw [loadBytes, alone_perform]
        cases Cpu.loadBytes k.phys (getCurrentPml4 k.cr3) userPtr _ <;> rfl

theorem sendTo_stop (k : Kernel) (self target : Slot) (targetId userBuf len : U64) :
    stop (sendTo self target targetId userBuf len) k = outcome (HobbyKernel.sendTo k self target targetId userBuf len) := by
  rw [stop, sendTo, alone_lock, alone_look, alone_look, HobbyKernel.sendTo]
  dsimp only
  split
  · cases (k.tasks.slot target).pml4 with
    | none => rfl
    | some targetPml4 =>
      dsimp only
      rw [alone_look]
      split
      · rfl
      · rw [loadBytes, alone_perform]
        cases Cpu.loadBytes k.phys (getCurrentPml4 k.cr3) userBuf _ with
        | none => rfl
        | some tmp =>
          simp only [Option.map_some, Option.elim_some]
          rw [alone_look, vmmSwitchAddressSpace, alone_modify, storeBytes, alone_perform]
          dsimp only
          cases Cpu.storeBytes k.phys _ (k.tasks.slot target).ipcBuf tmp <;> rfl
  · rw [alone_unlock, alone_bind, taskBlockAndSwitch_alone]
    rcases HobbyKernel.taskBlockAndSwitch k self .inSend .onSend targetId userBuf len with ⟨k, _ | _⟩ <;> rfl

theorem sysSend_stop (targetId userBuf len : U64) (k : Kernel) :
    stop (sysSend targetId userBuf len) k = outcome (HobbyKernel.sysSend k targetId userBuf len) := by
  rw [stop, sysSend, alone_look, HobbyKernel.sysSend]
  cases k.tasks.currentTask with
  | none => rfl
  | some self =>
    dsimp only
    rw [alone_look]
    cases (k.tasks.slot self).pml4 with
    | none => rfl
    | some pml4 =>
      dsimp only
      rw [alone_look]
      split
      · rfl
      · rw [alone_bind, taskFindById_alone]
        dsimp only
        cases k.tasks.taskFindById targetId with
        | none => rfl
        | some target => exact sendTo_stop k self target targetId userBuf _

theorem recvFrom_stop (k : Kernel) (self sender : Slot) (userBuf len : U64) (f : Bool) :
    stop (recvFrom sender userBuf len f) k = outcome (HobbyKernel.recvFrom k self sender userBuf len) := by
  rw [stop, recvFrom, alone_look, HobbyKernel.recvFrom]
  dsimp only
  cases (k.tasks.slot sender).pml4 with
  | none => rfl
  | some senderPml4 =>
    dsimp only
    rw [alone_look, vmmSwitchAddressSpace, alone_modify, loadBytes, alone_perform]
    dsimp only
    cases Cpu.loadBytes k.phys _ (k.tasks.slot sender).ipcBuf _ with
    | none => rfl
    | some tmp =>
      simp only [Option.map_some, Option.elim_some]
      rw [vmmSwitchAddressSpace, alone_modify, storeBytes, alone_perform]
      dsimp only
      cases Cpu.storeBytes k.phys _ userBuf tmp <;> rfl

/-- The loop takes the first sender that offers a message. -/
theorem recvLoop_stop (k : Kernel) (self : Slot) (fromId userBuf len : U64) (f : Bool) :
    stop (recvLoop self fromId userBuf len f slots) k =
      match slots.find? fun t => offersMessage k.phys (k.tasks.slot self).taskId fromId len (k.tasks.slot t) with
      | some sender => stop (recvFrom sender userBuf len f) k
      | none => stop (recvLoop self fromId userBuf len f []) k := by
  induction slots with
  | nil => rfl
  | cons t rest ih =>
    generalize stop (recvLoop self fromId userBuf len f []) k = blocks at *
    rw [List.find?_cons, stop, recvLoop, alone_look]
    split
    · next offers =>
      rw [offers]
      rfl
    · next other =>
      rw [Bool.eq_false_iff.mpr other]
      exact ih

theorem sysRecv_stop (fromId userBuf len : U64) (k : Kernel) :
    stop (sysRecv fromId userBuf len) k = outcome (HobbyKernel.sysRecv k fromId userBuf len) := by
  rw [stop, sysRecv, alone_look, HobbyKernel.sysRecv]
  cases k.tasks.currentTask with
  | none => rfl
  | some self =>
    dsimp only
    rw [alone_look]
    cases (k.tasks.slot self).pml4 with
    | none => rfl
    | some pml4 =>
      dsimp only
      rw [alone_look]
      split
      · rfl
      · rw [alone_lock]
        refine (recvLoop_stop k self fromId userBuf (clampLen len) false).trans ?_
        cases TaskTable.slots.find? _ with
        | some sender => exact recvFrom_stop k self sender userBuf _ false
        | none =>
          dsimp only
          rw [stop, recvLoop, alone_unlock, alone_bind, taskBlockAndSwitch_alone]
          rcases HobbyKernel.taskBlockAndSwitch k self .inRecv .onRecv fromId userBuf _ with ⟨k, _ | _⟩ <;> rfl

theorem wakeLoop_alone (self : Slot) (i : Bool) (k : Kernel) : (wakeLoop self slots).alone i k =
    some ((slots.find? fun t => awaitsChild (k.tasks.slot self) (k.tasks.slot t)).elim k fun waiter =>
      { k with tasks := k.tasks.taskWake waiter }, i, some ()) := by
  induction slots with
  | nil => rfl
  | cons t rest ih =>
    rw [List.find?_cons, wakeLoop, alone_look]
    split
    · next awaits =>
      rw [awaits]
      rfl
    · next other =>
      rw [Bool.eq_false_iff.mpr other]
      exact ih

theorem sysExit_stop (code : U64) (k : Kernel) : stop (sysExit code) k = outcome (HobbyKernel.sysExit k code) := by
  rw [stop, sysExit, alone_look, HobbyKernel.sysExit]
  cases k.tasks.currentTask with
  | none => rfl
  | some self =>
    dsimp only
    rw [onTasks, alone_modify, alone_lock, alone_bind, wakeLoop_alone]
    dsimp only
    cases TaskTable.slots.find? _ <;> rfl

theorem reapLoop_alone (selfId childId : U64) (f i : Bool) (k : Kernel) : (reapLoop selfId childId f slots).alone i k =
    some ((slots.find? fun t => isChild selfId childId (k.tasks.slot t) && (k.tasks.slot t).state = .dead).elim (k, f, some none)
      fun t => ({ k with tasks := k.tasks.taskDestroy t }, f, some (some (k.tasks.slot t).taskId))) := by
  induction slots with
  | nil => rfl
  | cons t rest ih =>
    rw [List.find?_cons, reapLoop, alone_look]
    split
    · next dead =>
      rw [dead, alone_look, alone_unlock, alone_bind, taskDestroy_alone]
      rfl
    · next other =>
      rw [Bool.eq_false_iff.mpr other]
      exact ih

theorem childLoop_alone (selfId childId : U64) (i : Bool) (k : Kernel) : (childLoop selfId childId slots).alone i k =
    some (k, i, some (slots.any fun t => isChild selfId childId (k.tasks.slot t))) := by
  induction slots with
  | nil => rfl
  | cons t rest ih =>
    rw [List.any_cons, childLoop, alone_look]
    split
    · next child =>
      rw [child]
      rfl
    · next other =>
      rw [Bool.eq_false_iff.mpr other]
      exact ih

theorem sysWaitRound_stop (k : Kernel) (self : Slot) (childId : U64) :
    stop (sysWaitRound self childId) k = outcome (HobbyKernel.sysWaitRound k self childId) := by
  rw [stop, sysWaitRound, alone_look, alone_lock, alone_bind, reapLoop_alone, HobbyKernel.sysWaitRound]
  cases TaskTable.slots.find? _ with
  | some t => rfl
  | none =>
    simp only [Option.elim_none]
    rw [alone_lock, alone_bind, childLoop_alone]
    dsimp only
    rw [alone_unlock]
    split
    · rfl
    · rw [alone_bind, taskBlockAndSwitch_alone]
      rcases HobbyKernel.taskBlockAndSwitch k self (.inWait childId) .onWait childId 0 0 with ⟨k, _ | _⟩ <;> rfl

theorem sysWait_stop (childId : U64) (k : Kernel) : stop (sysWait childId) k = outcome (HobbyKernel.sysWait k childId) := by
  rw [stop, sysWait, alone_look, HobbyKernel.sysWait]
  cases k.tasks.currentTask with
  | none => rfl
  | some self => exact sysWaitRound_stop k self childId

/-- A system call that nothing interrupts: the data and the answer, or none if
it leaves the caller suspended. -/
theorem syscallDispatch_stop (regs : SyscallRegs) (k : Kernel) :
    stop (syscallDispatch regs) k = outcome (HobbyKernel.syscallDispatch k regs) := by
  rw [syscallDispatch, HobbyKernel.syscallDispatch]
  split
  · exact sysWrite_stop _ _ k
  split
  · exact sysExit_stop _ k
  split
  · exact sysFork_stop regs k
  split
  · exact sysSend_stop _ _ _ k
  split
  · exact sysRecv_stop _ _ _ k
  split
  · exact sysWait_stop _ k
  · rfl

/-- On the machine, too: a call that no tick can come into, since its gate turned
interrupts off, leaves the data that the call without locks leaves. -/
theorem gate_runs {m : Machine Kernel Slot Routine U64} (regs : SyscallRegs) (free : m.locked = false) {k' : Kernel} {v : Option U64}
    (result : outcome (HobbyKernel.syscallDispatch m.data regs) = some (k', v)) :
    ∃ events m', Runs.Run (advance kernelCode) (fun _ c => c = .run) (m.enter (kernelCode.gate regs)) events m' ∧ m'.data = k' := by
  rw [← syscallDispatch_stop, stop] at result
  obtain ⟨⟨k'', i, v'⟩, ran, same⟩ := Option.map_eq_some_iff.mp result
  cases same
  obtain ⟨events, m', run, same, _⟩ := runs_alone kernelCode (m := m.enter (kernelCode.gate regs)) (syscallDispatch regs)
    (fun _ => pure ()) rfl (syscallDispatch_balanced regs) free ran
  exact ⟨events, m', run, same⟩

end HobbyKernel.Locked
