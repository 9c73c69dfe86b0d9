import HobbyKernel.Core.Locked
import HobbyKernel.TaskInvariant

/-! The lock of the task table: every branch of every function gives back what
it took before it leaves, whatever the data, so whatever the order of calls and
ticks nobody waits for a lock that the only processor holds itself. -/
namespace HobbyKernel.Locked
open LockProgram Prog

section Balanced
variable {self target t : Slot} {f : Bool} {slots : List Slot} {selfId childId fromId targetId userBuf len : U64}

theorem taskSlotAlloc_balanced : taskSlotAlloc.Balanced := by
  refine .lock fun f => .look fun found => ?_
  cases found with
  | none => exact .unlock (.pure _)
  | some t => exact .modify (.unlock (.pure _))

theorem taskSlotFree_balanced (t : Slot) : (taskSlotFree t).Balanced :=
  .lock fun _ => .modify ⟨rfl, rfl⟩

theorem taskDestroy_balanced (t : Slot) : (taskDestroy t).Balanced := by
  refine .look fun state => ?_
  split
  · exact .pure _
  · exact .modify (taskSlotFree_balanced t)

/-- The loop ends without the lock, wherever it ends. -/
theorem findLoop_moves (taskId : U64) : Moves none (some f) (findLoop taskId f slots) := by
  induction slots with
  | nil => exact .unlock (.pure _)
  | cons t rest ih =>
    refine .look fun found => ?_
    split
    · exact .unlock (.pure _)
    · exact ih

theorem taskFindById_balanced (taskId : U64) : (taskFindById taskId).Balanced :=
  .lock fun _ => findLoop_moves taskId

theorem pickLoop_moves : Moves (some f) (some f) (pickLoop slots) := by
  induction slots with
  | nil => exact .pure _
  | cons t rest ih =>
    refine .look fun state => ?_
    split
    · exact .pure _
    · exact ih

theorem schedulerPickNext_balanced (current : Option Slot) : (schedulerPickNext current).Balanced := by
  refine .lock fun f => .bind pickLoop_moves fun found => ?_
  cases found with
  | some t => exact .unlock (.pure _)
  | none => exact .look fun found => .unlock (.pure _)

theorem schedulerSwitchTo_balanced (old : Option Slot) (new : Slot) : (schedulerSwitchTo old new).Balanced :=
  .modify ⟨rfl, rfl⟩

theorem taskBlockAndSwitch_balanced (self : Slot) (resume : Control) (reason : BlockReason) (peer buf len : U64) :
    (taskBlockAndSwitch self resume reason peer buf len).Balanced := by
  refine .lock fun f => .modify (.unlock (.bind (schedulerPickNext_balanced _) fun next => ?_))
  cases next with
  | none => exact .pure _
  | some next =>
    dsimp only
    split
    · exact .pure _
    · exact .modify (.lock fun f => .modify (.unlock (schedulerSwitchTo_balanced _ _)))

theorem timerTickHandler_balanced : timerTickHandler.Balanced := by
  refine .modify (.look fun ticks => ?_)
  split
  · exact .pure _
  refine .look fun current => ?_
  cases current with
  | none => exact .pure _
  | some prev =>
    refine .bind (schedulerPickNext_balanced _) fun next => ?_
    cases next with
    | none => exact .pure _
    | some next =>
      dsimp only
      split
      · exact .pure _
      · refine .lock fun f => .look fun state => ?_
        split
        · exact .modify (.modify (.unlock (schedulerSwitchTo_balanced _ _)))
        · exact .modify (.unlock (schedulerSwitchTo_balanced _ _))

/-- A slot that was taken for a task that cannot be made is given back. -/
theorem slotBack_balanced {β : Type} (t : Slot) (result : β) : (taskSlotFree t >>= fun _ => (pure result : P β)).Balanced :=
  (taskSlotFree_balanced t).bind fun _ => .pure _

theorem taskCreate_balanced : taskCreate.Balanced := by
  refine taskSlotAlloc_balanced.bind fun found => ?_
  cases found with
  | none => exact .pure _
  | some t =>
    refine .answer fun pml4 => ?_
    cases pml4 with
    | none => exact slotBack_balanced t _
    | some pml4 =>
      refine .answer fun ok => ?_
      cases ok with
      | false => exact slotBack_balanced t _
      | true => exact .modify rfl

theorem taskCreateKernel_balanced (entry : U64) : (taskCreateKernel entry).Balanced := by
  refine taskSlotAlloc_balanced.bind fun found => ?_
  cases found with
  | none => exact .pure _
  | some t =>
    refine .answer fun ok => ?_
    cases ok with
    | false => exact slotBack_balanced t _
    | true => exact .modify rfl

theorem taskFork_balanced (parent : Slot) (pml4 : Frame) (regs : SyscallRegs) : (taskFork parent pml4 regs).Balanced := by
  refine taskSlotAlloc_balanced.bind fun found => ?_
  cases found with
  | none => exact .pure _
  | some child =>
    refine .answer fun pml4 => ?_
    cases pml4 with
    | none => exact slotBack_balanced child _
    | some pml4 =>
      refine .answer fun ok => ?_
      cases ok with
      | false => exact slotBack_balanced child _
      | true => exact .modify rfl

theorem sysFork_balanced (regs : SyscallRegs) : (sysFork regs).Balanced := by
  refine .look fun current => ?_
  cases current with
  | none => exact .pure _
  | some self =>
    refine .look fun pml4 => ?_
    cases pml4 with
    | none => trivial
    | some pml4 =>
      refine (taskFork_balanced self pml4 regs).bind fun found => ?_
      cases found with
      | none => exact .pure _
      | some child => exact fun _ => rfl

theorem sysWrite_balanced (userPtr len : U64) : (sysWrite userPtr len).Balanced := by
  refine .look fun current => ?_
  cases current with
  | none => exact .pure _
  | some self =>
    refine .look fun pml4 => ?_
    cases pml4 with
    | none => trivial
    | some pml4 =>
      refine .look fun readable => ?_
      split
      · exact .pure _
      · exact .perform fun _ => .pure _

theorem sendTo_balanced : (sendTo self target targetId userBuf len).Balanced := by
  refine .lock fun f => .look fun receiver => .look fun selfId => ?_
  split
  · cases receiver.pml4 with
    | none => trivial
    | some targetPml4 =>
      refine .look fun valid => ?_
      split
      · exact .unlock (.pure _)
      · exact .perform fun tmp => .look fun senderPml4 => .modify (.perform fun _ => .modify (.modify (.unlock (.pure _))))
  · exact .unlock ((taskBlockAndSwitch_balanced _ _ _ _ _ _).bind fun _ => fun _ => rfl)

theorem sysSend_balanced : (sysSend targetId userBuf len).Balanced := by
  refine .look fun current => ?_
  cases current with
  | none => exact .pure _
  | some self =>
    refine .look fun pml4 => ?_
    cases pml4 with
    | none => trivial
    | some pml4 =>
      refine .look fun readable => ?_
      split
      · exact .pure _
      · refine (taskFindById_balanced targetId).bind fun found => ?_
        cases found with
        | none => exact .pure _
        | some target => exact sendTo_balanced

theorem recvFrom_moves : Moves none (some f) (recvFrom t userBuf len f) := by
  refine .look fun task => ?_
  dsimp only
  cases task.pml4 with
  | none => trivial
  | some senderPml4 =>
    exact .look fun receiverPml4 => .modify (.perform fun tmp => .modify (.perform fun _ => .modify (.unlock (.pure _))))

/-- Every way out of the loop gives the lock back: a copy, a fault on the way,
or blocking. -/
theorem recvLoop_moves : Moves none (some f) (recvLoop self fromId userBuf len f slots) := by
  induction slots with
  | nil => exact .unlock ((taskBlockAndSwitch_balanced _ _ _ _ _ _).bind fun _ => fun _ => rfl)
  | cons t rest ih =>
    refine .look fun offers => ?_
    split
    · exact recvFrom_moves
    · exact ih

theorem sysRecv_balanced : (sysRecv fromId userBuf len).Balanced := by
  refine .look fun current => ?_
  cases current with
  | none => exact .pure _
  | some self =>
    refine .look fun pml4 => ?_
    cases pml4 with
    | none => trivial
    | some pml4 =>
      refine .look fun writable => ?_
      split
      · exact .pure _
      · exact .lock fun f => recvLoop_moves

theorem wakeLoop_moves : Moves (some f) (some f) (wakeLoop self slots) := by
  induction slots with
  | nil => exact .pure _
  | cons t rest ih =>
    refine .look fun awaits => ?_
    split
    · exact fun _ => rfl
    · exact ih

theorem sysExit_balanced (code : U64) : (sysExit code).Balanced := by
  have ends : Balanced (sti (call .hltLoop done) : P U64) := ⟨rfl, rfl, fun _ => rfl⟩
  refine .look fun current => ?_
  cases current with
  | none => exact ends
  | some self => exact .modify (.lock fun f => .bind wakeLoop_moves fun _ => .unlock ends)

/-- The lock is given back before the child is destroyed, which takes it again. -/
theorem reapLoop_moves : Moves none (some f) (reapLoop selfId childId f slots) := by
  induction slots with
  | nil => exact .unlock (.pure _)
  | cons t rest ih =>
    refine .look fun dead => ?_
    split
    · exact .look fun id => .unlock ((taskDestroy_balanced t).bind fun _ => .pure _)
    · exact ih

theorem childLoop_moves : Moves (some f) (some f) (childLoop selfId childId slots) := by
  induction slots with
  | nil => exact .pure _
  | cons t rest ih =>
    refine .look fun child => ?_
    split
    · exact .pure _
    · exact ih

theorem sysWaitRound_balanced (self : Slot) (childId : U64) : (sysWaitRound self childId).Balanced := by
  refine .look fun selfId => .lock fun f => .bind reapLoop_moves fun found => ?_
  cases found with
  | some id => exact .pure _
  | none =>
    refine .lock fun f => .bind childLoop_moves fun haveChild => .unlock ?_
    split
    · exact .pure _
    · exact (taskBlockAndSwitch_balanced _ _ _ _ _ _).bind fun _ => .modify ⟨rfl, fun _ => rfl⟩

theorem sysWait_balanced (childId : U64) : (sysWait childId).Balanced := by
  refine .look fun current => ?_
  cases current with
  | none => exact .pure _
  | some self => exact sysWaitRound_balanced self childId

theorem syscallDispatch_balanced (regs : SyscallRegs) : (syscallDispatch regs).Balanced := by
  unfold syscallDispatch
  split
  · exact sysWrite_balanced _ _
  split
  · exact sysExit_balanced _
  split
  · exact sysFork_balanced _
  split
  · exact sysSend_balanced
  split
  · exact sysRecv_balanced
  split
  · exact sysWait_balanced _
  · exact .pure _

/-- All code that takes the lock gives it back. -/
theorem kernelCode_balanced : kernelCode.Balanced where
  body r := by
    cases r with
    | waitLoop self childId => exact sysWaitRound_balanced self childId
    | hltLoop => exact ⟨rfl, fun _ => rfl⟩
  tick := timerTickHandler_balanced
  gate regs := (syscallDispatch_balanced regs).bind fun _ => .pure _
  direct c := by
    cases c with
    | create => exact taskCreate_balanced.bind fun _ => .pure _
    | createKernel entry => exact (taskCreateKernel_balanced entry).bind fun _ => .pure _
    | destroy t => exact taskDestroy_balanced t
    | prepare t entry userStackTop => exact .modify rfl
    | start t => exact schedulerSwitchTo_balanced none t

end Balanced

/-- `task_table_init` is done: the lock is free, boot code runs and no task has a
context. -/
def atBoot (k : Kernel) (interrupts : Bool) : Machine Kernel Slot Routine U64 := ⟨k, false, interrupts, [], fun _ => none⟩

theorem atBoot_sound (k : Kernel) (interrupts : Bool) : Sound (atBoot k interrupts) none :=
  ⟨rfl, fun some => absurd rfl some, rfl, nofun⟩

/-- Whatever system calls, ticks and calls of boot code follow each other, and
wherever a tick comes in: the lock is taken when it is free and given back with
interrupts as they were, and is free whenever a call or a tick begins or ends
and at every switch. Nobody ever waits for it. -/
theorem lock_discipline (k : Kernel) (interrupts : Bool) {events : List LockEvent} {m : Machine Kernel Slot Routine U64}
    (run : Runs.Run (advance kernelCode) (fun _ _ => True) (atBoot k interrupts) events m) :
    (∃ held, events.foldlM watch none = some held ∧ m.locked = held.isSome) ∧ LockEvent.spin ∉ events ∧
      (m.locked = true → m.interrupts = false) := by
  obtain ⟨held, inOrder, sound⟩ := disciplined kernelCode_balanced (atBoot_sound k interrupts) run
  refine ⟨⟨held, inOrder, sound.flag⟩, never_spins inOrder, fun isLocked => sound.masked ?_⟩
  rintro rfl
  rw [sound.flag] at isLocked
  cases isLocked

/-- Boot code makes a task and starts it; the task calls `sys_wait` and has no
children. -/
def bootAndWait : List (Choice Kernel SyscallRegs BootCall) :=
  [.direct .create] ++ List.replicate 9 .run ++ [.direct (.prepare 1 0x400000 0x6000000)] ++ List.replicate 3 .run ++
    [.work fun k => { k with tasks := { k.tasks with currentTask := some 1 } }, .direct (.start 1)] ++ List.replicate 3 .run ++
    [.gate (TaskInvariant.callRegs SYS_WAIT 7 0 0)] ++ List.replicate 135 .run

/-- The lock is taken once for the new slot and once for each scan. -/
theorem lock_discipline_wait : ∃ (m : Machine Kernel Slot Routine U64) (events : List LockEvent),
    Runs.Run (advance kernelCode) (fun _ _ => True) (atBoot (TaskInvariant.bootKernel 3) true) events m ∧
      events = [.acquire true, .release true, .leave, .leave, .contextSwitch, .leave, .enter, .acquire false, .release false,
        .acquire false, .release false, .leave] ∧
      (∃ held, events.foldlM watch none = some held ∧ m.locked = held.isSome) ∧ LockEvent.spin ∉ events := by
  have done : (Runs.exec (fun _ _ => true) (advance kernelCode) (atBoot (TaskInvariant.bootKernel 3) true) bootAndWait).map Prod.snd =
      some [.acquire true, .release true, .leave, .leave, .contextSwitch, .leave, .enter, .acquire false, .release false,
        .acquire false, .release false, .leave] := by decide +kernel
  obtain ⟨⟨m, events⟩, did, trace⟩ := Option.map_eq_some_iff.mp done
  have run : Runs.Run (advance kernelCode) (fun _ _ => True) (atBoot (TaskInvariant.bootKernel 3) true) events m :=
    Runs.run_of_exec (fun _ _ _ _ => trivial) did
  obtain ⟨inOrder, noSpin, _⟩ := lock_discipline _ true run
  exact ⟨m, events, run, trace, inOrder, noSpin⟩

end HobbyKernel.Locked
