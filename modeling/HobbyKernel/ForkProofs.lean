import HobbyKernel.SwitchProofs
import HobbyKernel.ContextInvariant

/-! The registers of a task across `sys_fork`. Four layouts have to agree word
for word: what `int 0x80` and `syscall_entry_asm` push, `struct syscall_regs`,
the frame that `task_fork` builds for the child, and what `context_switch` and
`syscall_entry_return` take off again. -/
namespace HobbyKernel.ForkProofs
open AddressBits PageAllocProofs PageWrites TaskTable TaskEffects TaskInvariant CopyProofs ContextInvariant IsolationSteps
open StackWords SwitchProofs Runs

variable {p q q' : Processor} {k k' : Kernel} {f : Nat} {regs : SyscallRegs} {s s' : Phys} {free : List Nat}
  {self child t : Slot} {boot : Frame} {events new : List Event}

/-- The registers in ring 3 at an `int 0x80`, or after an `iretq`. -/
def userRegs (p : Processor) : SyscallRegs :=
  ⟨p.reg .rax, p.reg .rbx, p.reg .rcx, p.reg .rdx, p.reg .rsi, p.reg .rdi, p.reg .rbp, p.reg .r8, p.reg .r9, p.reg .r10,
    p.reg .r11, p.reg .r12, p.reg .r13, p.reg .r14, p.reg .r15, p.rip, p.cs, p.rflags, p.rsp, p.ss⟩

/-- A register block of twenty words lies at an address of a frame. -/
structure Block (f : Nat) (s : Phys) (phys : U64) (regs : SyscallRegs) : Prop where
  inside : InFrame f phys 20
  words : s.readWords phys 20 = regs.words

theorem Block.congr (block : Block f s a regs) (page : s'.mem f = s.mem f) : Block f s' a regs :=
  ⟨block.inside, by rw [readWords_congr block.inside page, block.words]⟩

theorem Block.readRegs (block : Block f s a regs) : s.readRegs a = regs := by
  have words := block.words
  simp [SyscallRegs.words, Phys.readWords, BitVec.add_assoc] at words
  simp [Phys.readRegs, words]

/-- `syscall_entry_return` puts a register block back where it came from. -/
theorem syscallEntryReturn_spec (block : Block f p.kernel.phys p.rsp regs) :
    userRegs (p.exec syscallEntryReturn) = regs := by
  have words := block.words
  simp [SyscallRegs.words, Phys.readWords, BitVec.add_assoc] at words
  simp [Processor.exec, syscallEntryReturn, Instr.exec, userRegs, Processor.setReg, Processor.top, words, BitVec.add_assoc]

/-- The return value replaces the first word of a block. -/
theorem Block.setRax (block : Block f s a regs) (value : U64) : Block f (s.writeWord a value) a { regs with rax := value } := by
  obtain ⟨inside, words⟩ := block
  obtain ⟨_, sum, above⟩ := inside.next
  refine ⟨inside, ?_⟩
  rw [Phys.readWords, SyscallRegs.words] at words
  rw [Phys.readWords, SyscallRegs.words, readWord_writeWord_same,
    readWords_writeWord_below _ inside.aligned above (by omega), (List.cons.inj words).2]

/-- The order in which `syscall_entry_asm` pushes. -/
def entryOrder : List Reg := [.r15, .r14, .r13, .r12, .r11, .r10, .r9, .r8, .rbp, .rdi, .rsi, .rdx, .rcx, .rbx, .rax]

theorem block_below (small : f < 2 ^ 40) :
    (page2pa f + 4096 - SIZEOF_SYSCALL_REGS).toNat = f * 4096 + 3936 ∧ InFrame f (page2pa f + 4096 - SIZEOF_SYSCALL_REGS) 20 := by
  have base := page2pa_toNat small
  have same : page2pa f + 4096 - SIZEOF_SYSCALL_REGS = page2pa f + 3936 := by
    simp only [BitVec.sub_eq_add_neg, BitVec.add_assoc]
    rfl
  have off : (3936 : U64).toNat = 3936 := rfl
  have value : (page2pa f + 4096 - SIZEOF_SYSCALL_REGS).toNat = f * 4096 + 3936 := by
    rw [same, BitVec.toNat_add, base, off]
    omega
  exact ⟨value, by omega, by omega, by omega, small⟩

/-- The top of a stack is aligned already. -/
theorem top_aligned (small : f < 2 ^ 40) : (page2pa f + 4096) &&& ~~~15 = page2pa f + 4096 := by
  have base := page2pa_toNat small
  have off : (4096 : U64).toNat = 4096 := rfl
  have value : (page2pa f + 4096).toNat = 16 * (256 * (f + 1)) := by
    rw [BitVec.toNat_add, base, off]
    omega
  have down := UaccessProofs.rounddown_pow (page2pa f + 4096) (by decide : 4 < 64)
  apply BitVec.eq_of_toNat_eq
  have same : page2pa f + 4096 &&& ~~~15 = rounddown (page2pa f + 4096) (BitVec.ofNat 64 (2 ^ 4)) := rfl
  rw [same, down, value]
  omega

/-- `int 0x80` and `syscall_entry_asm` leave the registers as a block at the
top of the kernel stack, and its address in `rdi`. -/
theorem entry_spec (isTop : p.kernel.rsp0 = page2pa f + 4096) (small : f < 2 ^ 40) :
    ∃ s, (p.int80.exec syscallEntryAsm).kernel = { p.kernel with phys := s } ∧ Confined f p.kernel.phys s ∧
      (p.int80.exec syscallEntryAsm).rsp = page2pa f + 4096 - SIZEOF_SYSCALL_REGS ∧
      (p.int80.exec syscallEntryAsm).reg .rdi = page2pa f + 4096 - SIZEOF_SYSCALL_REGS ∧
      Block f s (page2pa f + 4096 - SIZEOF_SYSCALL_REGS) (userRegs p) := by
  let values := p.ss :: p.rsp :: p.rflags :: p.cs :: p.rip :: entryOrder.map p.reg
  have pushes : p.int80.exec syscallEntryAsm =
      (pushAll { p with rsp := p.kernel.rsp0 &&& ~~~15 } values).exec [.movAx KERNEL_DS, .movSegments, .movRspRdi] := by
    have code : syscallEntryAsm = entryOrder.map .push ++ [.movAx KERNEL_DS, .movSegments, .movRspRdi] := rfl
    have hardware : p.int80 = pushAll { p with rsp := p.kernel.rsp0 &&& ~~~15 } [p.ss, p.rsp, p.rflags, p.cs, p.rip] := rfl
    have registers : p.int80.reg = p.reg := rfl
    rw [code, exec_append, exec_pushes, registers, hardware]
    simp only [pushAll, values, List.foldl_cons, List.foldl_nil]
  rw [isTop, top_aligned small] at pushes
  have twenty : BitVec.ofNat 64 (8 * values.length) = SIZEOF_SYSCALL_REGS := rfl
  obtain ⟨_, inside⟩ := block_below small
  obtain ⟨shape, confined, words⟩ := pushAll_spec (p := { p with rsp := page2pa f + 4096 }) (n := 0) values (by
    rw [twenty]
    exact inside)
  rw [twenty] at shape words
  rw [pushes, shape]
  refine ⟨_, rfl, confined, rfl, rfl, inside, ?_⟩
  exact words

/-- What a successful `task_fork` leaves: the child's stack holds the parent's
registers with 0 in `rax` below a context that returns to them, and nothing was
written that was not free. -/
theorem taskFork_spec {pml4 : Frame} (list : FreeList k.phys free) (held : pml4 ∉ free)
    (forked : taskFork k self pml4 regs = (k', some child)) :
    ∃ pp ∈ free, (k'.tasks.slot child).kstackTop = some (page2pa pp + 4096) ∧
      Suspended pp k' child ⟨k.symbols.syscallEntryReturn, page2pa pp + 4096 - SIZEOF_SYSCALL_REGS, 0, 0,
        page2pa pp + 4096 - SIZEOF_SYSCALL_REGS, 0, 0, 0⟩ ∧
      Block pp k'.phys (page2pa pp + 4096 - SIZEOF_SYSCALL_REGS) { regs with rax := 0 } ∧
      ∀ g, g ∉ free → k'.phys.mem g = k.phys.mem g := by
  have frame := taskFork_frame forked
  have result : ∃ pp s₂, pp ∈ free ∧ (k'.tasks.slot child).kstackTop = some (page2pa pp + 4096) ∧
      Confined pp s₂ k'.phys ∧ ∀ g, g ∉ free → s₂.mem g = k.phys.mem g := by
    unfold taskFork at forked
    split at forked
    · cases forked
    · rename_i T t _
      rcases vmmCopyAddressSpace_cases list held with ⟨_, failed⟩ | ⟨c, rest, s₁, result, copied, _, _, building⟩
      · rw [failed] at forked
        cases forked
      · rw [copied] at forked
        cases result with
        | none => cases forked
        | some c' =>
          dsimp only at forked
          rcases taskKstackAlloc_memory { k with phys := s₁, tasks := T } t building.list with
            ⟨_, failed⟩ | ⟨pp, rest', s₂, rfl, _, elsewhere, took⟩
          · rw [failed] at forked
            cases forked
          · have isFree : pp ∈ free := building.suffix.subset List.mem_cons_self
            rw [took] at forked
            cases forked
            refine ⟨pp, s₂, isFree, by simp, ?_, fun g notFree => ?_⟩
            · simp only [modify_slot_same, Option.getD_some]
              exact stack_confined (list.small pp isFree) s₂ _ _ _
            · rw [elsewhere g (fun isPp => notFree (isPp ▸ isFree)), building.outside g notFree]
  obtain ⟨pp, s₂, isFree, isTop, confined, outside⟩ := result
  have small := list.small pp isFree
  obtain ⟨s, top, isTop', saved, phys⟩ := frame
  obtain rfl := Option.some.inj (isTop.symm.trans isTop')
  obtain ⟨value, inside⟩ := block_below small
  obtain ⟨_, low⟩ := frame_below small
  refine ⟨pp, isFree, isTop, (Built.fork k k' self child pml4 regs _ forked isTop).suspended small, ⟨inside, ?_⟩, fun g notFree => ?_⟩
  · rw [phys, readWords_writeWords_below (contextFrame _ _) low inside ?_]
    · exact readWords_writeWords { regs with rax := 0 }.words inside
    · have below : (page2pa pp + 4096 - SIZEOF_SYSCALL_REGS - 8 - 48).toNat + 56 =
          (page2pa pp + 4096 - SIZEOF_SYSCALL_REGS).toNat := by
        rw [BitVec.toNat_sub, BitVec.toNat_sub, value, show (8 : U64).toNat = 8 from rfl, show (48 : U64).toNat = 48 from rfl]
        omega
      exact Nat.le_of_eq below
  · rw [confined.elsewhere g (fun isPp => notFree (isPp ▸ isFree)), outside g notFree]

/-- The switch to a task is made from a stack that is not the task's own. -/
def SwitchedFrom (p : Processor) (old : Option Slot) (f : Nat) : Prop :=
  ∀ t, old = some t → ∃ g, g ≠ f ∧ InFrame g (p.rsp - 48) 6

/-- The first half of a switch leaves other stacks and other tasks alone. -/
theorem suspended_switch {old : Option Slot} {context : Context} (suspended : Suspended f p.kernel t context)
    (from_ : SwitchedFrom p old f) (other : old ≠ some t) :
    contextOf (p.exec (contextSwitch old t)) = context ∧
      (p.exec (contextSwitch old t)).kernel.phys.mem f = p.kernel.phys.mem f := by
  cases old with
  | none =>
    obtain ⟨context, kernel⟩ := contextLoad_spec suspended
    exact ⟨context, by rw [show contextSwitch none t = contextLoad t from rfl, kernel]⟩
  | some o =>
    obtain ⟨g, apart, room⟩ := from_ o rfl
    have six : BitVec.ofNat 64 (8 * (calleeSaved.map p.reg).length) = 48 := rfl
    obtain ⟨shape, confined, _⟩ := pushAll_spec (p := p) (n := 0) (calleeSaved.map p.reg) (by
      rw [six]
      exact room)
    have code : p.exec (contextSwitch (some o) t) =
        (Instr.exec (pushAll p (calleeSaved.map p.reg)) (.saveRsp o 32)).exec (contextLoad t) := rfl
    have isOther : t ≠ o := fun same => other (by rw [same])
    rw [code]
    have saved : Suspended f (Instr.exec (pushAll p (calleeSaved.map p.reg)) (.saveRsp o 32)).kernel t context := by
      refine suspended.congr (confined.elsewhere f (Ne.symm apart)) ?_
      rw [shape]
      dsimp only [Instr.exec]
      rw [modify_slot_other isOther]
    obtain ⟨context, kernel⟩ := contextLoad_spec saved
    refine ⟨context, ?_⟩
    rw [kernel]
    exact confined.elsewhere f (Ne.symm apart)

/-- What `syscall_dispatch` does for a `sys_fork` that makes a child. -/
theorem callDispatch_fork (block : Block f q.kernel.phys (q.reg .rdi) regs) (isFork : regs.rax = SYS_FORK)
    (called : q.callDispatch = some (q', new)) (forked : .forked self child ∈ new) :
    ∃ pml4 k', q.kernel.tasks.currentTask = some self ∧ (q.kernel.tasks.slot self).pml4 = some pml4 ∧
      taskFork q.kernel self pml4 regs = (k', some child) ∧
      q' = { q with kernel := k' }.storeWord (q.reg .rdi) (k'.tasks.slot child).taskId := by
  have isCall : syscallDispatch q.kernel regs = sysFork q.kernel regs := by
    simp [syscallDispatch, isFork, SYS_FORK, SYS_WRITE, SYS_EXIT]
  simp only [Processor.callDispatch, block.readRegs, isCall, sysFork] at called
  cases current : q.kernel.tasks.currentTask with
  | none =>
    simp only [current] at called
    cases called
    cases forked
  | some t =>
    simp only [current] at called
    cases isSpace : (q.kernel.tasks.slot t).pml4 with
    | none => simp [isSpace] at called
    | some pml4 =>
      simp only [isSpace] at called
      cases made : taskFork q.kernel t pml4 regs with
      | mk k' result =>
        simp only [made] at called
        cases result with
        | none =>
          cases called
          cases forked
        | some c =>
          cases called
          obtain ⟨rfl, rfl⟩ : self = t ∧ child = c := by simpa using forked
          exact ⟨pml4, k', rfl, isSpace, made, rfl⟩

/-- **`sys_fork` duplicates the registers.** The task that makes the call gets
back what it had, with the child's id in `rax`. The child, when it is switched
to for the first time, leaves the kernel with the same registers and 0. -/
theorem fork_duplicates_registers {k₀ : Kernel} {may : Kernel → Action → Prop} (booted : Booted k₀)
    (list : FreeList k₀.phys free) (held : getCurrentPml4 k₀.cr3 ∉ free) (run : Run step may k₀ events p.kernel)
    (current : p.kernel.tasks.currentTask = some self) (isFork : p.reg .rax = SYS_FORK) (called : (p.int80.exec syscallEntryAsm).callDispatch = some (q, new))
    (forked : .forked self child ∈ new) :
    (∀ r : Processor, r.rsp = q.rsp → r.kernel.phys = q.kernel.phys →
      userRegs (r.exec syscallEntryReturn) = { userRegs p with rax := (q.kernel.tasks.slot child).taskId }) ∧
    1 ≤ (q.kernel.tasks.slot child).taskId.toNat ∧ (q.kernel.tasks.slot child).taskId.toNat ≤ 63 ∧
    ∃ pp, (q.kernel.tasks.slot child).kstackTop = some (page2pa pp + 4096) ∧
      ∀ (r : Processor) (old : Option Slot), old ≠ some child → SwitchedFrom r old pp →
        r.kernel.phys.mem pp = q.kernel.phys.mem pp →
        (r.kernel.tasks.slot child).contextRsp = (q.kernel.tasks.slot child).contextRsp →
        (r.exec (contextSwitch old child)).rip = p.kernel.symbols.syscallEntryReturn ∧
        userRegs ((r.exec (contextSwitch old child)).exec syscallEntryReturn) = { userRegs p with rax := 0 } := by
  obtain ⟨table, rest, fewer, places⟩ := run_places booted list run
  have used := table.currentUsed self current
  obtain ⟨sp, isTop, smallStack, stackHeld⟩ := places.stack self used
  obtain ⟨r, isSpace, _, spaceHeld⟩ := places.space self used
  have spaceOutside : r ∉ rest := fun member => held (spaceHeld member ▸ fewer r member)
  have isRsp0 : p.kernel.rsp0 = page2pa sp + 4096 := by
    rcases places.cpu with ⟨nobody, _⟩ | ⟨t, _, isCurrent, _, _, isRsp0⟩
    · rw [current] at nobody
      cases nobody
    · obtain rfl := Option.some.inj (current.symm.trans isCurrent)
      exact Option.some.inj (isRsp0.symm.trans isTop)
  -- The parent's registers are a block on its stack when `sys_fork` runs.
  obtain ⟨s, kernel, confined, isRsp, isRdi, block⟩ := entry_spec isRsp0 smallStack
  generalize p.int80.exec syscallEntryAsm = entered at *
  have entry : Block sp entered.kernel.phys (entered.reg .rdi) (userRegs p) := by
    rw [kernel, isRdi]
    exact block
  obtain ⟨pml4, k', _, isSpace', forks, rfl⟩ := callDispatch_fork entry isFork called forked
  have sameTasks : entered.kernel.tasks = p.kernel.tasks := by rw [kernel]
  rw [sameTasks, isSpace] at isSpace'
  obtain rfl := Option.some.inj isSpace'
  have list' : FreeList entered.kernel.phys rest := by
    rw [kernel]
    exact confined.list places.list
  obtain ⟨pp, wasFree, isChildTop, suspended, childBlock, outside⟩ := taskFork_spec list' spaceOutside forks
  have creation := taskFork_creation (sameTasks ▸ table.clean) (sameTasks ▸ table.headNotCurrent current) r (userRegs p)
  rw [forks] at creation
  obtain ⟨task, head, spawned, _, filled⟩ := creation.spawned
  rw [sameTasks] at head spawned
  have isId : (k'.tasks.slot child).taskId = BitVec.ofNat 64 child.val := by
    rw [filled, spawn_slot_same, spawned.taskId, (table.slots child).id]
  have range : 1 ≤ child.val ∧ child.val ≤ 63 := by
    have notReserved := (table.headUnused head).2
    have bound : child.val < 64 := child.isLt
    have positive : child.val ≠ 0 := fun zero => notReserved (Fin.ext zero)
    omega
  have number : (BitVec.ofNat 64 child.val).toNat = child.val := by
    rw [BitVec.toNat_ofNat]
    omega
  dsimp only [Processor.storeWord]
  refine ⟨fun back isBack phys => ?_, ?_, ?_, pp, isChildTop, fun back old other switched page saved => ?_⟩
  · have kept := (entry.congr (outside sp stackHeld)).setRax (k'.tasks.slot child).taskId
    refine syscallEntryReturn_spec (f := sp) ?_
    rw [phys, isBack, isRsp, ← isRdi]
    exact kept
  · rw [isId, number]
    exact range.1
  · rw [isId, number]
    exact range.2
  · -- The return value went to the parent's stack, which is another page.
    have apart : pp ≠ sp := fun same => stackHeld (same ▸ wasFree)
    have written : frameOf (entered.reg .rdi) = sp := by
      rw [isRdi]
      exact (block_below smallStack).2.next.1
    have same : back.kernel.phys.mem pp = k'.phys.mem pp := by
      rw [page]
      have confined' : Confined (frameOf (entered.reg .rdi)) k'.phys
        (k'.phys.writeWord (entered.reg .rdi) (k'.tasks.slot child).taskId) := writeEntry_confined ..
      exact confined'.elsewhere pp (written ▸ apart)
    obtain ⟨context, kept⟩ := suspended_switch (suspended.congr same saved) switched other
    have isRip := congrArg Context.rip context
    have isRsp := congrArg Context.rsp context
    refine ⟨isRip.trans (by rw [kernel]), syscallEntryReturn_spec (f := pp) ?_⟩
    rw [show ((back.exec (contextSwitch old child)).rsp) = page2pa pp + 4096 - SIZEOF_SYSCALL_REGS from isRsp]
    exact childBlock.congr (kept.trans same)

/-- A task in ring 3, about to fork, with a number of its own in each register. -/
def forking (k : Kernel) : Processor where
  reg := fun
    | .rax => SYS_FORK | .rbx => 101 | .rcx => 102 | .rdx => 103 | .rsi => 104 | .rdi => 105 | .rbp => 106
    | .r8 => 108 | .r9 => 109 | .r10 => 110 | .r11 => 111 | .r12 => 112 | .r13 => 113 | .r14 => 114 | .r15 => 115
  rsp := 0x7000
  rip := 0x4000
  cs := USER_CS
  rflags := 0x202
  ss := USER_DS
  dataSegments := 0x1B
  kernel := k

/-- The first task forks: it goes on in ring 3 with 2 in `rax`. -/
theorem fork_duplicates_registers_second : ∃ k q new, (forking k).kernel.tasks.currentTask = some 1 ∧
    ((forking k).int80.exec syscallEntryAsm).callDispatch = some (q, new) ∧
    userRegs (q.exec syscallEntryReturn) = { userRegs (forking k) with rax := 2 } := by
  have ran : ((exec (fun _ _ => true) step (bootKernel 20) (started [])).map fun (k, _) =>
      (k.tasks.currentTask, (((forking k).int80.exec syscallEntryAsm).callDispatch.map fun (q, new) =>
        (new, (q.kernel.tasks.slot 2).taskId)))) = some (some 1, some ([.forked 1 2], 2)) := by
    decide +kernel
  obtain ⟨⟨k, events⟩, did, now⟩ := Option.map_eq_some_iff.mp ran
  simp only [Prod.mk.injEq] at now
  obtain ⟨⟨q, new⟩, called, answer⟩ := Option.map_eq_some_iff.mp now.2
  simp only [Prod.mk.injEq] at answer
  have run : Run step (fun _ _ => True) (bootKernel 20) events k := run_of_exec (fun _ _ _ _ => trivial) did
  have both := fork_duplicates_registers (p := forking k) (bootKernel_booted 20) (clearedPhys_free (by decide)) (by decide) run now.1 rfl
    called (by rw [answer.1]; simp : Event.forked 1 2 ∈ new)
  refine ⟨k, q, new, now.1, called, ?_⟩
  rw [both.1 q rfl rfl, answer.2]

end HobbyKernel.ForkProofs
