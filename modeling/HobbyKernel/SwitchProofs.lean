import HobbyKernel.StackWords
import HobbyKernel.TaskInvariant
import HobbyKernel.Lib.Runs

/-! `context_switch` implements coroutines. A coroutine that is not running is
nothing but what it goes on with: its return address, its stack pointer and the
registers a callee has to keep. The machine keeps all that on the coroutine's
own kernel stack, and only a stack pointer in `struct task`. -/
namespace HobbyKernel.SwitchProofs
open AddressBits PageAllocProofs PageWrites TaskTable StackWords Runs

/-- What a task goes on with after a switch. -/
structure Context where
  rip : U64
  rsp : U64
  rbx : U64
  rbp : U64
  r12 : U64
  r13 : U64
  r14 : U64
  r15 : U64

def contextOf (p : Processor) : Context :=
  ⟨p.rip, p.rsp, p.reg .rbx, p.reg .rbp, p.reg .r12, p.reg .r13, p.reg .r14, p.reg .r15⟩

/-- A context as `context_switch` leaves it on a stack, lowest address first. -/
def Context.words (c : Context) : List U64 := [c.r15, c.r14, c.r13, c.r12, c.rbp, c.rbx, c.rip]

/-- Independent coroutines: the one that runs has the processor, the others
have what they go on with. -/
structure Coroutines where
  running : Option Slot
  now : Context
  saved : Slot → Context

/-- What the running task does: it works, or calls `context_switch` for another
task, to come back at a return address. Work leaves any registers and any
memory behind. -/
inductive Turn where
  | work (p : Processor)
  | switch (new : Slot) (returnAddress : U64)

/-- A task goes on with a context. -/
inductive Resumed where
  | resumed (t : Slot) (context : Context)

/-- The one that runs is to go on behind its call. -/
def Coroutines.park (c : Coroutines) (returnAddress : U64) : Slot → Context :=
  match c.running with
  | none => c.saved
  | some t => Function.update c.saved t { c.now with rip := returnAddress }

def coroutineStep (c : Coroutines) : Turn → Option (Coroutines × List Resumed)
  | .work p => some ({ c with now := contextOf p }, [])
  | .switch new returnAddress =>
    let saved := c.park returnAddress
    some (⟨some new, saved new, saved⟩, [.resumed new (saved new)])

/-- The machine, and the task that runs on it. -/
structure Machine where
  processor : Processor
  running : Option Slot

/-- The `call` of `context_switch` pushes the return address. -/
def machineStep (m : Machine) : Turn → Option (Machine × List Resumed)
  | .work p => some ({ m with processor := p }, [])
  | .switch new returnAddress =>
    let p := (m.processor.pushWord returnAddress).exec (contextSwitch m.running new)
    some (⟨p, some new⟩, [.resumed new (contextOf p)])

variable {tasks : Slot → Prop} {stack : Slot → Nat} {m m' : Machine} {c : Coroutines} {p : Processor} {k k' : Kernel}
  {t new : Slot} {f : Nat} {context : Context} {a : Turn} {events : List Resumed}

/-- The context of a task is on its own stack, right above the stack pointer in
its `struct task`. -/
structure Suspended (f : Nat) (k : Kernel) (t : Slot) (context : Context) : Prop where
  inside : InFrame f (k.tasks.slot t).contextRsp 7
  words : k.phys.readWords (k.tasks.slot t).contextRsp 7 = context.words
  rsp : context.rsp = (k.tasks.slot t).contextRsp + 56

theorem Suspended.congr (suspended : Suspended f k t context) (page : k'.phys.mem f = k.phys.mem f)
    (saved : (k'.tasks.slot t).contextRsp = (k.tasks.slot t).contextRsp) : Suspended f k' t context := by
  obtain ⟨inside, words, rsp⟩ := suspended
  refine ⟨saved ▸ inside, ?_, saved ▸ rsp⟩
  rw [saved, readWords_congr inside page, words]

/-- The second half of `context_switch` restores what is on the new stack. -/
theorem contextLoad_spec (suspended : Suspended f p.kernel new context) :
    contextOf (p.exec (contextLoad new)) = context ∧ (p.exec (contextLoad new)).kernel = p.kernel := by
  obtain ⟨_, words, isRsp⟩ := suspended
  have offset : (p.kernel.tasks.slot new).wordAt 32 = (p.kernel.tasks.slot new).contextRsp := rfl
  simp [Context.words, Phys.readWords, BitVec.add_assoc] at words
  refine ⟨?_, rfl⟩
  simp [Processor.exec, contextLoad, Instr.exec, contextOf, Processor.setReg, Processor.top, offset, words,
    BitVec.add_assoc]
  rw [show (p.kernel.tasks.slot new).contextRsp + 56#64 = context.rsp from isRsp.symm]

/-- The registers `context_switch` saves, in the order in which it pushes them. -/
def calleeSaved : List Reg := [.rbx, .rbp, .r12, .r13, .r14, .r15]

theorem exec_contextSave (p : Processor) (returnAddress : U64) (t : Slot) :
    (p.pushWord returnAddress).exec (contextSave t) =
      Instr.exec (pushAll p (returnAddress :: calleeSaved.map p.reg)) (.saveRsp t 32) := rfl

/-- The first half of `context_switch` suspends the caller on its own stack. -/
theorem contextSave_spec (returnAddress : U64) (t : Slot) (room : InFrame f (p.rsp - 56) 7) :
    let p' := (p.pushWord returnAddress).exec (contextSave t)
    Suspended f p'.kernel t { contextOf p with rip := returnAddress } ∧ Confined f p.kernel.phys p'.kernel.phys ∧
      ∀ u, u ≠ t → (p'.kernel.tasks.slot u).contextRsp = (p.kernel.tasks.slot u).contextRsp := by
  have seven : BitVec.ofNat 64 (8 * (returnAddress :: calleeSaved.map p.reg).length) = 56 := rfl
  obtain ⟨shape, confined, words⟩ := pushAll_spec (p := p) (n := 0) (returnAddress :: calleeSaved.map p.reg) (by
    rw [seven]
    exact room)
  rw [seven] at shape words
  have saved : ∀ task : Task, (task.setWordAt 32 (p.rsp - 56)).contextRsp = p.rsp - 56 := fun _ => rfl
  rw [exec_contextSave, shape]
  dsimp only [Instr.exec]
  generalize (pushAll p (returnAddress :: calleeSaved.map p.reg)).kernel.phys = s at confined words
  refine ⟨⟨?_, ?_, ?_⟩, confined, fun u other => ?_⟩
  · rw [modify_slot_same, saved]
    exact room
  · rw [modify_slot_same, saved]
    exact words
  · rw [modify_slot_same, saved]
    exact (BitVec.sub_add_cancel ..).symm
  · rw [modify_slot_other other]

/-- The running task keeps off the stacks of the others, and off what
`context_switch` has noted of them. A call pushes on the caller's own stack. -/
def KeepsToOwnStack (tasks : Slot → Prop) (stack : Slot → Nat) (m : Machine) : Turn → Prop
  | .work p => ∀ t, tasks t → m.running ≠ some t → p.kernel.phys.mem (stack t) = m.processor.kernel.phys.mem (stack t) ∧
    (p.kernel.tasks.slot t).contextRsp = (m.processor.kernel.tasks.slot t).contextRsp
  | .switch new _ => tasks new ∧
    match m.running with
    | none => ∀ t, tasks t → frameOf (m.processor.rsp - 8) ≠ stack t
    | some t => InFrame (stack t) (m.processor.rsp - 56) 7

/-- The machine stands for the coroutines. -/
structure Implements (tasks : Slot → Prop) (stack : Slot → Nat) (m : Machine) (c : Coroutines) : Prop where
  running : m.running = c.running
  now : contextOf m.processor = c.now
  member : ∀ t, m.running = some t → tasks t
  saved : ∀ t, tasks t → m.running ≠ some t → Suspended (stack t) m.processor.kernel t (c.saved t)

/-- After the first half of a switch every task is suspended, the caller with
what it had when it called. -/
theorem Implements.suspend (implements : Implements tasks stack m c)
    (apart : ∀ t u, tasks t → tasks u → stack t = stack u → t = u) (returnAddress : U64) (may : KeepsToOwnStack tasks stack m (.switch new returnAddress)) :
    ∃ p' : Processor,
      (m.processor.pushWord returnAddress).exec (contextSwitch m.running new) = p'.exec (contextLoad new) ∧
      ∀ t, tasks t → Suspended (stack t) p'.kernel t (c.park returnAddress t) := by
  obtain ⟨isNew, room⟩ := may
  rw [Coroutines.park, ← implements.running]
  cases running : m.running with
  | none =>
    rw [running] at room
    refine ⟨_, rfl, fun t isTask => ?_⟩
    have suspended := implements.saved t isTask (by rw [running]; simp)
    refine suspended.congr ?_ rfl
    have confined : Confined (frameOf (m.processor.rsp - 8)) m.processor.kernel.phys
        (m.processor.pushWord returnAddress).kernel.phys := writeEntry_confined ..
    exact confined.elsewhere _ (room t isTask).symm
  | some old =>
    rw [running] at room
    obtain ⟨suspended, confined, others⟩ := contextSave_spec returnAddress old room
    refine ⟨_, exec_append .., fun t isTask => ?_⟩
    by_cases isOld : t = old
    · subst isOld
      dsimp only
      rw [Function.update_self, ← implements.now]
      exact suspended
    · dsimp only
      rw [Function.update_of_ne isOld]
      have before := implements.saved t isTask (by rw [running]; simpa using Ne.symm isOld)
      have otherStack : stack t ≠ stack old :=
        fun same => isOld (apart t old isTask (implements.member old running) same)
      exact before.congr (confined.elsewhere _ otherStack) (others t isOld)

/-- One turn of the machine is one turn of the coroutines, with the same task
going on with the same context. -/
theorem step_implements (implements : Implements tasks stack m c)
    (apart : ∀ t u, tasks t → tasks u → stack t = stack u → t = u) (may : KeepsToOwnStack tasks stack m a)
    (did : machineStep m a = some (m', events)) :
    ∃ c', coroutineStep c a = some (c', events) ∧ Implements tasks stack m' c' := by
  cases a with
  | work p =>
    cases did
    refine ⟨_, rfl, implements.running, rfl, implements.member, fun t isTask other => ?_⟩
    obtain ⟨page, saved⟩ := may t isTask other
    exact (implements.saved t isTask other).congr page saved
  | switch new returnAddress =>
    cases did
    obtain ⟨p', split, suspended⟩ := implements.suspend apart returnAddress may
    obtain ⟨context, kernel⟩ := contextLoad_spec (suspended new may.1)
    refine ⟨⟨some new, c.park returnAddress new, c.park returnAddress⟩, ?_, rfl, ?_, ?_, fun t isTask _ => ?_⟩
    · simp only [coroutineStep, split, context]
    · exact (congrArg contextOf split).trans context
    · rintro t same
      cases same
      exact may.1
    · dsimp only
      rw [split, kernel]
      exact suspended t isTask

/-- The three places that build the first context of a task by hand, and the
context each of them means. -/
inductive Built : Kernel → Slot → U64 → Context → Prop where
  | stackInit (k : Kernel) (t : Slot) (top entry : U64) (isTop : (k.tasks.slot t).kstackTop = some top) :
      Built (taskStackInit k t entry) t top ⟨k.symbols.taskEntryTrampoline, top, 0, 0, entry, 0, 0, 0⟩
  | fork (k k' : Kernel) (parent t : Slot) (pml4 : Frame) (regs : SyscallRegs) (top : U64)
      (forked : taskFork k parent pml4 regs = (k', some t)) (isTop : (k'.tasks.slot t).kstackTop = some top) :
      Built k' t top ⟨k.symbols.syscallEntryReturn, top - SIZEOF_SYSCALL_REGS, 0, 0, top - SIZEOF_SYSCALL_REGS, 0, 0, 0⟩
  | prepare (k : Kernel) (t : Slot) (top entry userStackTop : U64) (isTop : (k.tasks.slot t).kstackTop = some top) :
      Built (taskPrepareUserEntry k t entry userStackTop) t top
        ⟨k.symbols.syscallEntryReturn, top - SIZEOF_SYSCALL_REGS, 0, 0, top - SIZEOF_SYSCALL_REGS, 0, 0, 0⟩

/-- A frame written by hand is a suspended task. -/
theorem suspended_of_frame {s : Phys} {sp r12 returnTo : U64} (inside : InFrame f sp 7)
    (phys : k.phys = s.writeWords sp (contextFrame r12 returnTo)) (saved : (k.tasks.slot t).contextRsp = sp) :
    Suspended f k t ⟨returnTo, sp + 56, 0, 0, r12, 0, 0, 0⟩ := by
  refine ⟨saved ▸ inside, ?_, by rw [saved]⟩
  rw [saved, phys]
  exact readWords_writeWords (contextFrame r12 returnTo) inside

/-- Seven words below the top of a stack, or below a register block there. -/
theorem frame_below (small : f < 2 ^ 40) : InFrame f (page2pa f + 4096 - 8 - 48) 7 ∧
    InFrame f (page2pa f + 4096 - SIZEOF_SYSCALL_REGS - 8 - 48) 7 := by
  have base := page2pa_toNat small
  have high : (page2pa f + 4096 - 8 - 48).toNat = f * 4096 + 4040 := by
    have same : page2pa f + 4096 - 8 - 48 = page2pa f + 4040 := by
      simp only [BitVec.sub_eq_add_neg, BitVec.add_assoc]
      rfl
    have off : (4040 : U64).toNat = 4040 := rfl
    rw [same, BitVec.toNat_add, base, off]
    omega
  have low : (page2pa f + 4096 - SIZEOF_SYSCALL_REGS - 8 - 48).toNat = f * 4096 + 3880 := by
    have same : page2pa f + 4096 - SIZEOF_SYSCALL_REGS - 8 - 48 = page2pa f + 3880 := by
      simp only [BitVec.sub_eq_add_neg, BitVec.add_assoc]
      rfl
    have off : (3880 : U64).toNat = 3880 := rfl
    rw [same, BitVec.toNat_add, base, off]
    omega
  exact ⟨⟨by omega, by omega, by omega, small⟩, ⟨by omega, by omega, by omega, small⟩⟩

theorem back_up (top : U64) : top - 8 - 48 + 56 = top := by
  simp only [BitVec.sub_eq_add_neg, BitVec.add_assoc]
  exact BitVec.add_zero top

/-- What `task_fork` leaves of a child's frame. -/
theorem taskFork_frame {parent : Slot} {pml4 : Frame} {regs : SyscallRegs}
    (forked : taskFork k parent pml4 regs = (k', some t)) :
    ∃ (s : Phys) (top : U64), (k'.tasks.slot t).kstackTop = some top ∧
      (k'.tasks.slot t).contextRsp = top - SIZEOF_SYSCALL_REGS - 8 - 48 ∧
      k'.phys = (s.writeWords (top - SIZEOF_SYSCALL_REGS) { regs with rax := 0 }.words).writeWords
        (top - SIZEOF_SYSCALL_REGS - 8 - 48) (contextFrame (top - SIZEOF_SYSCALL_REGS) k.symbols.syscallEntryReturn) := by
  unfold taskFork at forked
  split at forked
  · cases forked
  · rename_i T child _
    split at forked
    · cases forked
    · rename_i s childPml4 _
      rcases TaskEffects.taskKstackAlloc_cases { k with phys := s, tasks := T } child with ⟨s', failed⟩ | ⟨s', base, made⟩
      · rw [failed] at forked
        cases forked
      · rw [made] at forked
        cases forked
        exact ⟨s', base + 4096, by simp, by simp, by simp⟩

theorem Built.suspended (built : Built k t (page2pa f + 4096) context) (small : f < 2 ^ 40) : Suspended f k t context := by
  obtain ⟨high, low⟩ := frame_below small
  generalize isTop' : page2pa f + 4096 = top at built high low
  cases built with
  | stackInit k _ _ entry isTop =>
    have phys : (taskStackInit k t entry).phys =
        k.phys.writeWords (top - 8 - 48) (contextFrame entry k.symbols.taskEntryTrampoline) := by
      simp only [taskStackInit, isTop]
    have suspended := suspended_of_frame high phys (t := t) (by simp [taskStackInit, isTop])
    rwa [back_up] at suspended
  | fork k k' parent _ pml4 regs _ forked isTop =>
    obtain ⟨s, top', isTop', saved, phys⟩ := taskFork_frame forked
    rw [isTop] at isTop'
    cases isTop'
    have suspended := suspended_of_frame low phys saved
    rwa [back_up] at suspended
  | prepare k _ _ entry userStackTop isTop =>
    obtain ⟨s, phys⟩ : ∃ s : Phys, (taskPrepareUserEntry k t entry userStackTop).phys =
        s.writeWords (top - SIZEOF_SYSCALL_REGS - 8 - 48)
          (contextFrame (top - SIZEOF_SYSCALL_REGS) k.symbols.syscallEntryReturn) := by
      simp only [taskPrepareUserEntry, isTop]
      exact ⟨_, rfl⟩
    have suspended := suspended_of_frame low phys (t := t) (by simp [taskPrepareUserEntry, isTop])
    rwa [back_up] at suspended

/-- **`context_switch` implements independent coroutines.** Every run of the
machine over tasks with stacks of their own, each with a first context built by
the kernel, is a run of the coroutines: whenever a task goes on, it goes on with
what it had when it called, or with its first context. -/
theorem switches_are_coroutines (first : Slot → Context) {m₀ : Machine} (small : ∀ t, tasks t → stack t < 2 ^ 40)
    (apart : ∀ t u, tasks t → tasks u → stack t = stack u → t = u) (nobody : m₀.running = none)
    (built : ∀ t, tasks t → ∃ k, Built k t (page2pa (stack t) + 4096) (first t) ∧
      m₀.processor.kernel.phys.mem (stack t) = k.phys.mem (stack t) ∧
      (m₀.processor.kernel.tasks.slot t).contextRsp = (k.tasks.slot t).contextRsp)
    (run : Run machineStep (KeepsToOwnStack tasks stack) m₀ events m) :
    ∃ c, Run coroutineStep (fun _ _ => True) ⟨none, contextOf m₀.processor, first⟩ events c ∧
      contextOf m.processor = c.now ∧ m.running = c.running := by
  have start : Implements tasks stack m₀ ⟨none, contextOf m₀.processor, first⟩ := by
    refine ⟨nobody, rfl, fun t running => ?_, fun t isTask _ => ?_⟩
    · rw [nobody] at running
      cases running
    · obtain ⟨k, isBuilt, page, saved⟩ := built t isTask
      exact (isBuilt.suspended (small t isTask)).congr page saved
  obtain ⟨c, run', implements⟩ := run.simulated (fun _ _ => True) (Implements tasks stack) start (by
    intro m c a m' new implements may did
    obtain ⟨c', did', next⟩ := step_implements implements apart may did
    exact ⟨c', trivial, did', next⟩)
  exact ⟨c, run', implements.now, implements.running⟩

/-- Two slots with kernel stacks in frames 1 and 2. -/
def twoStacks : Kernel := (taskKstackAlloc (taskKstackAlloc (TaskInvariant.bootKernel 4) 1).1 2).1

/-- Two kernel threads, in front of boot code with its stack in frame 9. -/
def twoThreads : Machine where
  processor := {
    reg := fun _ => 0, rsp := 0x9100, rip := 0, cs := 0, rflags := 0, ss := 0, dataSegments := 0
    kernel := taskStackInit (taskStackInit twoStacks 1 0x1111) 2 0x2222 }
  running := none

/-- Each thread starts at the top of its stack, with its entry in `r12`. -/
def threadContext (t : Slot) : Context :=
  ⟨twoStacks.symbols.taskEntryTrampoline, page2pa t.val + 4096, 0, 0, if t = 1 then 0x1111 else 0x2222, 0, 0, 0⟩

/-- The first thread yields to the second one and gets the processor back. -/
theorem switches_are_coroutines_threads : ∃ m c events,
    Run machineStep (KeepsToOwnStack (fun t => t = 1 ∨ t = 2) Fin.val) twoThreads events m ∧ events.length = 3 ∧
    Run coroutineStep (fun _ _ => True) ⟨none, contextOf twoThreads.processor, threadContext⟩ events c ∧
    contextOf m.processor = c.now := by
  have run : Run machineStep (KeepsToOwnStack (fun t => t = 1 ∨ t = 2) Fin.val) twoThreads _ _ :=
    .next (.switch 1 0x30) (.next (.switch 2 0x20) (.next (.switch 1 0x10) .start
      ⟨.inl rfl, by rintro t (rfl | rfl) <;> decide +kernel⟩ rfl)
      ⟨.inr rfl, by decide +kernel, by decide +kernel, by decide +kernel, by decide⟩ rfl)
      ⟨.inl rfl, by decide +kernel, by decide +kernel, by decide +kernel, by decide⟩ rfl
  have page : ∀ k : Kernel, (k.tasks.slot 2).kstackTop = some (page2pa 2 + 4096) →
      (taskStackInit k 2 0x2222).phys.mem 1 = k.phys.mem 1 := by
    intro k isTop
    simp only [taskStackInit, isTop]
    exact (writeWords_confined k.phys (page2pa 2 + 4096 - 8 - 48) (contextFrame _ _) (by simp [contextFrame]; decide)).elsewhere 1 (by decide)
  obtain ⟨c, run', now, _⟩ := switches_are_coroutines threadContext (by rintro t (rfl | rfl) <;> decide)
    (by rintro t u (rfl | rfl) (rfl | rfl) <;> decide) rfl (by
      rintro t (rfl | rfl)
      · exact ⟨_, .stackInit twoStacks 1 _ 0x1111 rfl, page _ rfl, rfl⟩
      · exact ⟨_, .stackInit (taskStackInit twoStacks 1 0x1111) 2 _ 0x2222 rfl, rfl, rfl⟩) run
  exact ⟨_, c, _, run, rfl, run', now⟩

end HobbyKernel.SwitchProofs
