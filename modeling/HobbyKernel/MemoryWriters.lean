import HobbyKernel.ContextProofs
import HobbyKernel.MessageCopies

/-! Who writes to a task's memory. A byte behind a lower-half address changes
because its task stores to it, because the task receives a message there, or
because boot code loads a program or maps a page for the task; nothing that
other tasks do on their own reaches it. -/
namespace HobbyKernel.MemoryWriters
open TaskTable TaskInvariant TaskEffects WalkProofs UserAccess UaccessProofs Isolation IsolationSteps IsolationProofs
open ContextInvariant ContextProofs SpaceEvolution PageWrites UserBytes RendezvousOrder MessageCopies Runs Radix

variable {mem₀ : PhysMem} {boot r : Frame} {k k' k₀ : Kernel} {free : List Nat} {t u self : Slot} {s s' : Phys} {va : U64}
  {a : Action} {events before : List Event} {κ : Type} {root : κ → Option Frame} {owner : κ}

/-- What the processor loads from an address of a task. -/
def userByte (k : Kernel) (t : Slot) (va : U64) : Option Byte := (k.tasks.slot t).pml4.bind fun r => Cpu.load k.phys r va

theorem load_leaf (walkable : Walkable Lower s.mem root) (isRoot : root owner = some r) (small : va.toNat < 2 ^ 47) :
    Cpu.load s r va = if present (leafEntry s r va) then some (byteAt s r va) else none := by
  rw [Cpu.load, translate_lower walkable isRoot small]
  split <;> rfl

/-- An address loads as before if its leaf entry and its byte are as before. -/
theorem load_congr {root' : κ → Option Frame} (walkable : Walkable Lower s.mem root) (walkable' : Walkable Lower s'.mem root')
    (isRoot : root owner = some r) (isRoot' : root' owner = some r) (small : va.toNat < 2 ^ 47)
    (leaf : leafEntry s' r va = leafEntry s r va)
    (byte : present (leafEntry s r va) = true → byteAt s' r va = byteAt s r va) : Cpu.load s' r va = Cpu.load s r va := by
  rw [load_leaf walkable isRoot small, load_leaf walkable' isRoot' small, leaf]
  split
  · rename_i isPresent
    rw [byte isPresent]
  · rfl

/-- A task whose frames are spared keeps what is behind its addresses. -/
theorem byte_spared (isSpace : (k.tasks.slot t).pml4 = some r) (small : va.toNat < 2 ^ 47) (spared : Spared k k' t) :
    leafEntry k'.phys r va = leafEntry k.phys r va ∧
      (present (leafEntry k.phys r va) = true → byteAt k'.phys r va = byteAt k.phys r va) := by
  have isRoot : spaces k.tasks t = some r := isSpace
  have leaf : leafEntry k'.phys r va = leafEntry k.phys r va :=
    leafEntry_frame isRoot (lower_of_small small) fun path t node => spared path t (node.mono (by decide))
  refine ⟨leaf, fun isPresent => ?_⟩
  rw [byteAt, byteAt, leaf, Phys.readByte, Phys.readByte,
    spared _ _ (leaf_node isRoot (lower_of_small small) isPresent)]

/-- A store in ring 3 that does not fault writes the byte it is aimed at. -/
theorem userStore_leaf {b : Byte} (walkable : Walkable Lower s.mem root) (isRoot : root owner = some r) (small : va.toNat < 2 ^ 47)
    (stored : Cpu.userStore s r va b = some s') :
    present (leafEntry s r va) = true ∧ s' = s.writeByte (tableOf (leafEntry s r va)) (va.toNat % 4096) b := by
  rw [Cpu.userStore, translate_lower walkable isRoot small] at stored
  by_cases isPresent : present (leafEntry s r va) = true
  · simp only [if_pos isPresent] at stored
    split at stored
    · cases stored
      exact ⟨isPresent, rfl⟩
    · cases stored
  · simp only [if_neg isPresent] at stored
    cases stored

/-- Steps that make a task leave those that are there alone. -/
theorem step_others (table : TableInv k.tasks) (makes : ¬ MakesNone a) (did : step k a = some (k', events))
    (used : (k.tasks.slot t).state ≠ .unused) : k'.tasks.slot t = k.tasks.slot t := by
  cases a with
  | create =>
    cases did
    exact creation_others table (taskCreate_creation table.clean) used
  | createKernel entry =>
    cases did
    exact creation_others table (taskCreateKernel_creation table.clean entry) used
  | syscall regs =>
    have isFork : regs.rax = SYS_FORK := by
      by_contra other
      exact makes ⟨by simp, by simp, by simpa using other⟩
    obtain ⟨self, pml4, current, _, _, rfl⟩ := step_fork isFork did
    have creation := taskFork_creation table.clean (table.headNotCurrent current) pml4 regs
    rw [resumeAt_slot]
    exact creation_others table creation used
  | destroy | elfLoad | mapStack | prepare | start | resume | tick | store => exact absurd (by simp [MakesNone]) makes

/-- A task that stays has the tables it had. -/
theorem step_pml4 (table : TableInv k.tasks) (did : step k a = some (k', events)) (used : (k.tasks.slot t).state ≠ .unused)
    (used' : (k'.tasks.slot t).state ≠ .unused) : (k'.tasks.slot t).pml4 = (k.tasks.slot t).pml4 := by
  by_cases none : MakesNone a
  · have effect := step_effect table.clean (fun _ current => table.headNotCurrent current) did
    rcases effect_shrinks table effect none.1 none.2.1 none.2.2 t with ⟨same, _⟩ | ⟨unused, _⟩
    · exact same
    · exact absurd unused used'
  · rw [step_others table none did used]

/-- How a byte of a task can change. -/
inductive Writer (k : Kernel) (a : Action) (events : List Event) (t : Slot) (va : U64) : Prop where
  /-- Boot code loads a program or maps a page. -/
  | given (boot : (∃ image, a = .elfLoad t image) ∨ ∃ vaddr, a = .mapStack t vaddr)
  /-- The task stores to the address. -/
  | stored (b : Byte) (isStore : a = .store va b) (current : k.tasks.currentTask = some t)
  /-- A message arrives in the buffer that the task has passed to `sys_recv`. -/
  | received (sender : Slot) (bytes : List Byte) (buf : U64) (copied : .copied sender t bytes ∈ events)
      (asked : (∃ regs, a = .syscall regs ∧ regs.rax = SYS_RECV ∧ k.tasks.currentTask = some t ∧ regs.rsi = buf) ∨
        ((k.tasks.slot t).state = .blocked ∧ (k.tasks.slot t).blockReason = .onRecv ∧ (k.tasks.slot t).ipcBuf = buf))
      (inside : buf.toNat ≤ va.toNat ∧ va.toNat < buf.toNat + bytes.length)

/-- What a step spares of a task reads as before. -/
theorem userByte_spared (iso : Isolated mem₀ boot k free) {rest : List Nat} (iso' : Isolated mem₀ boot k' rest)
    (isSpace : (k.tasks.slot t).pml4 = some r) (isSpace' : (k'.tasks.slot t).pml4 = some r) (small : va.toNat < 2 ^ 47)
    (leaf : leafEntry k'.phys r va = leafEntry k.phys r va)
    (byte : present (leafEntry k.phys r va) = true → byteAt k'.phys r va = byteAt k.phys r va) :
    userByte k' t va = userByte k t va := by
  rw [userByte, userByte, isSpace, isSpace', Option.bind_some, Option.bind_some]
  exact load_congr iso.forest.walkable iso'.forest.walkable isSpace isSpace' small leaf byte

/-- **Only these write to a task's memory.** Whatever step a system takes from a
state it can reach, what a task that is there loads from an address changes only
by its own store to that address, by a message into the buffer it has given to
`sys_recv`, or by what boot code gives it. -/
theorem memory_writers (booted : BootedWith k₀ free) (run : Run step KeepsLower k₀ before k) (may : KeepsLower k a)
    (did : step k a = some (k', events)) (used : (k.tasks.slot t).state ≠ .unused)
    (used' : (k'.tasks.slot t).state ≠ .unused) (small : va.toNat < 2 ^ 47) (changed : userByte k' t va ≠ userByte k t va) :
    Writer k a events t va := by
  have table := run_tableInv booted.booted run
  obtain ⟨rest, iso⟩ := run_isolated booted run
  obtain ⟨⟨rest', iso'⟩, _, spared⟩ := step_secure table iso may did
  obtain ⟨r, _, isSpace, _⟩ := (iso.slots t).used used
  have isSpace' : (k'.tasks.slot t).pml4 = some r := by rw [step_pml4 table did used used', isSpace]
  have same := userByte_spared iso iso' isSpace isSpace' small
  by_cases writes : Writes k a events t
  · rcases writes with ⟨image, rfl⟩ | ⟨vaddr, rfl⟩ | ⟨va', b, rfl, current⟩ | ⟨sender, bytes, copied⟩
    · exact .given (.inl ⟨image, rfl⟩)
    · exact .given (.inr ⟨vaddr, rfl⟩)
    · by_cases isVa : va' = va
      · subst isVa
        exact .stored b rfl current
      · exfalso
        simp only [step, current] at did
        split at did
        · rename_i inside
          obtain ⟨s, stored, isNew⟩ := Option.map_eq_some_iff.mp did
          cases isNew
          rw [current_space iso current isSpace] at stored
          have isRoot : spaces k.tasks t = some r := isSpace
          obtain ⟨isPresent, isWrite⟩ := userStore_leaf iso.forest.walkable isRoot inside.2 stored
          obtain ⟨wrote, _⟩ := writeByte_overwritten (k := t) iso.forest isSpace inside.2 isPresent b
          rw [← isWrite] at wrote
          refine changed (same (wrote.leaf t r va isSpace small) fun here => wrote.rest t r va isSpace small here fun _ => ?_)
          have other : va'.toNat ≠ va.toNat := fun same => isVa (BitVec.toNat_inj.mp same)
          omega
        · cases did
    · obtain ⟨regs, rfl, isCall⟩ := step_message did copied trivial
      obtain ⟨reason, isReason⟩ := rendezvous_of_call isCall
      obtain ⟨self, k₁, value, new, current, call, phys, _, rfl, _⟩ := step_call did isReason
      obtain ⟨_, registered⟩ := run_registered booted.booted run
      obtain ⟨_, _, buf, len, _, receives, _, delivered⟩ :=
        call_copied iso registered current isReason call phys (message_mem copied trivial)
      by_cases inside : buf.toNat ≤ va.toNat ∧ va.toNat < buf.toNat + bytes.length
      · refine .received sender bytes buf copied ?_ inside
        cases receives with
        | now regs' isCall current call isBuf _ =>
          cases isCall
          exact .inl ⟨regs, rfl, call, current, isBuf⟩
        | before blocked isReason isBuf _ _ => exact .inr ⟨blocked, isReason, isBuf⟩
      · refine absurd (same (delivered.rest.leaf t r va isSpace small) fun here => ?_) changed
        exact delivered.rest.rest t r va isSpace small here fun _ => by omega
  · obtain ⟨leaf, byte⟩ := byte_spared isSpace small (spared t writes)
    exact absurd (same leaf byte) changed

/-- A task stores to its stack page. -/
theorem memory_writers_store : ∃ k k' before, Run step KeepsLower (bootKernel 20) before k ∧
    step k (.store 0x5000 7) = some (k', []) ∧ userByte k' 1 0x5000 ≠ userByte k 1 0x5000 ∧
    Writer k (.store 0x5000 7) [] 1 0x5000 := by
  let actions : List Action := [.create, .mapStack 1 0x5000, .prepare 1 0 0, .start 1]
  have lower : (pml4Index 0x5000).toNat < KERNEL_PML4_START := by decide
  have kept : ∀ k, ∀ a ∈ actions, KeepsLower k a := by
    intro k
    simp only [actions, List.forall_mem_cons, KeepsLower]
    simpa using lower
  have ran : (exec (fun _ _ => true) step (bootKernel 20) actions).bind (fun p => (step p.1 (.store 0x5000 7)).map fun out =>
      (out.2, (p.1.tasks.slot 1).state, (out.1.tasks.slot 1).state, userByte p.1 1 0x5000, userByte out.1 1 0x5000)) =
      some ([], .runnable, .runnable, some 0, some 7) := by
    decide +kernel
  obtain ⟨⟨k, before⟩, did, next⟩ := Option.bind_eq_some_iff.mp ran
  obtain ⟨⟨k', new⟩, stored, now⟩ := Option.map_eq_some_iff.mp next
  simp only [Prod.mk.injEq] at now
  obtain ⟨isNew, state, state', byte, byte'⟩ := now
  subst isNew
  have run : Run step KeepsLower (bootKernel 20) before k := run_of_exec (fun k a member _ => kept k a member) did
  have changed : userByte k' 1 0x5000 ≠ userByte k 1 0x5000 := by
    rw [byte, byte']
    decide
  refine ⟨k, k', before, run, stored, changed, memory_writers (bootKernel_bootedWith (by decide)) run trivial stored ?_ ?_ ?_ changed⟩
  · rw [state]
    decide
  · rw [state']
    decide
  · decide

end HobbyKernel.MemoryWriters
