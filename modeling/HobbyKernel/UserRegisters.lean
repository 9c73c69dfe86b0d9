import HobbyKernel.ContextProofs
import HobbyKernel.ForkProofs
import HobbyKernel.IsolationProofs

/-! A system call gives its caller's registers back, however long it sleeps. The
registers lie at the top of the caller's kernel stack, and while the call sleeps
the kernel, its stacks and the memory of all tasks go on being written to. -/
namespace HobbyKernel.UserRegisters
open AddressBits PageAllocProofs PageWrites TaskTable TaskEffects TaskInvariant CopyProofs Isolation IsolationSteps IsolationProofs
open Radix WalkProofs ContextInvariant ContextProofs StackWords SwitchProofs ForkProofs Runs

variable {mem₀ : PhysMem} {boot : Frame} {k k' k₀ : Kernel} {T T' : TaskTable} {s : Phys} {p p' q : Processor} {t self : Slot}
  {a : Action} {events new : List Event} {free : List Nat} {f : Nat} {regs : SyscallRegs} {sp : U64}

/-- `task_fork` writes to nothing but frames that were free. -/
theorem taskFork_outside {pml4 : Frame} (iso : Isolated mem₀ boot k free) (isSpace : (k.tasks.slot self).pml4 = some pml4)
    (f : Frame) (held : f ∉ free) : (taskFork k self pml4 regs).1.phys.mem f = k.phys.mem f := by
  unfold taskFork
  cases head : k.tasks.taskFreeList with
  | none => simp only [taskSlotAlloc, head]
  | some t =>
    have took : k.tasks.taskSlotAlloc = (k.tasks.taskSlotAlloc.1, some t) := by simp only [taskSlotAlloc, head]
    rw [took]
    generalize k.tasks.taskSlotAlloc.1 = T at *
    rcases vmmCopyAddressSpace_cases iso.forest.list (iso.forest.root_unfree (k := self) isSpace) with ⟨_, failed⟩ |
      ⟨child, rest, s₁, result, made, _, rfl | rfl, building⟩
    · simp only [failed]
    · simp only [made]
      exact building.outside f held
    · simp only [made]
      rcases taskKstackAlloc_memory { k with phys := s₁, tasks := T } t building.list with
        ⟨_, ran⟩ | ⟨pp, rest', s₂, rfl, list, elsewhere, ran⟩
      · simp only [ran]
        exact building.outside f held
      · have small := building.list.small pp List.mem_cons_self
        have other : f ≠ pp := fun same => held (building.suffix.subset (same ▸ List.mem_cons_self))
        simp only [ran, modify_slot_same, Option.getD_some]
        rw [(stack_confined small s₂ _ _ _).elsewhere f other, elsewhere f other, building.outside f held]

/-- What a running system writes to: free frames, and pages of the tasks. -/
theorem step_frame (iso : Isolated mem₀ boot k free) (serves : Serves a)
    (did : step k a = some (k', new)) {f : Frame} {i : Index} (changed : k'.phys.mem f i ≠ k.phys.mem f i) :
    f ∈ free ∨ ∃ t path, Node (layout Lower) k.phys.mem (spaces k.tasks) 4 t path f := by
  have quietly : Quiet k k' new → f ∈ free ∨ ∃ t path, Node (layout Lower) k.phys.mem (spaces k.tasks) 4 t path f := by
    rintro ⟨same | ⟨t, r, va, bytes, _, isSpace, inside, stored⟩, _⟩
    · exact absurd (by rw [same]) changed
    · rcases (storeBytes_evolves (k := t) iso.forest isSpace inside stored).frame f i changed with isFree | ⟨path, node, _⟩
      · exact .inl isFree
      · exact .inr ⟨t, path, node⟩
  rcases serves with ⟨regs, rfl⟩ | rfl | rfl | ⟨va, b, rfl⟩
  · by_cases isFork : regs.rax = SYS_FORK
    · obtain ⟨self, pml4, _, _, isSpace, rfl⟩ := step_fork isFork did
      by_contra neither
      exact changed (by rw [taskFork_outside iso isSpace f fun isFree => neither (.inl isFree)])
    · simp only [step] at did
      split at did
      · cases did
      · split at did
        · exact quietly (returnTo_quiet did fun k₁ value new => dispatch_quiet iso isFork)
        · cases did
  · simp only [step] at did
    split at did
    · cases did
    · split at did
      · cases did
        exact absurd rfl changed
      · cases did
        exact absurd rfl changed
      · exact quietly (returnTo_quiet did fun k₁ value new => sysWaitRound_quiet)
      · cases did
  · simp only [step] at did
    split at did
    · cases did
      exact quietly (timerTickHandler_quiet k)
    · cases did
  · simp only [step] at did
    split at did
    · cases did
    · rename_i self current
      split at did
      · rename_i ready
        obtain ⟨s, stored, same⟩ := Option.map_eq_some_iff.mp did
        cases same
        rcases iso.inSpace with ⟨noTask, _⟩ | ⟨t, _, isSpace⟩
        · rw [current] at noTask
          cases noTask
        · rcases (userStore_evolves (k := t) iso.forest isSpace ready.2 stored).frame f i changed with isFree | ⟨path, node, _⟩
          · exact .inl isFree
          · exact .inr ⟨t, path, node⟩
      · cases did

/-- A running system leaves the kernel stacks to themselves. -/
theorem step_stacks (iso : Isolated mem₀ boot k free) (serves : Serves a)
    (did : step k a = some (k', new)) (used : (k.tasks.slot t).state ≠ .unused)
    (isTop : (k.tasks.slot t).kstackTop = some (page2pa f + 4096)) (small : f < 2 ^ 40) : k'.phys.mem f = k.phys.mem f := by
  obtain ⟨_, pp, _, _, smallStack, isBase, isTop'⟩ := (iso.slots t).used used
  have sameFrame : pp = f := by
    rw [isTop, Option.some.injEq, BitVec.add_left_inj] at isTop'
    have frames := congrArg frameOf isTop'
    rwa [frameOf_page2pa small, frameOf_page2pa smallStack, eq_comm] at frames
  subst sameFrame
  have isStack : holds mem₀ boot k.tasks (.kstack t) pp := ⟨_, isBase, (frameOf_page2pa small).symm⟩
  funext i
  by_contra changed
  rcases step_frame iso serves did changed with isFree | ⟨u, path, node⟩
  · exact iso.forest.exclusive.unfree (.other (.kstack t)) pp isStack isFree
  · exact iso.stack_ne_node isStack node rfl

/-- A task that sleeps in a call, or whose call has not come back yet. -/
def InCall (T : TaskTable) (t : Slot) : Prop := (T.control t).interruptible = false ∧ (T.slot t).state ≠ .unused

/-- A call that blocks goes on inside the call. -/
theorem resume_inside {reason : BlockReason} {peer buf len : U64} {resume : Control}
    (cause : Cause s T self reason peer buf len resume) : resume.interruptible = false := by
  cases cause <;> rfl

/-- One slot is written, and stays used. -/
theorem InCall.modify {g : Task → Task} (inside : InCall T t) (state : (T.slot self).state ≠ .unused → (g (T.slot self)).state ≠ .unused) :
    InCall (T.modify self g) t := by
  refine ⟨inside.1, ?_⟩
  by_cases isSelf : t = self
  · subst isSelf
    rw [modify_slot_same]
    exact state inside.2
  · rw [modify_slot_other isSelf]
    exact inside.2

theorem InCall.resumeAt {c : Control} (inside : InCall T t) (still : t = self → c.interruptible = false) : InCall (T.resumeAt self c) t := by
  refine ⟨?_, inside.2⟩
  by_cases isSelf : t = self
  · subst isSelf
    rw [resumeAt_control_same]
    exact still rfl
  · rw [resumeAt_control_other isSelf]
    exact inside.1

theorem InCall.switchTo {next : Slot} (inside : InCall T t) : InCall (T.switchTo next) t :=
  ⟨inside.1, (inside.modify (g := fun task => { task with state := .running }) (by simp)).2⟩

/-- A call ends only with its return. -/
theorem effect_inCall (table : TableInv T) (serves : Serves a) (effect : Effect s T a new T') (inside : InCall T t)
    (silent : ∀ value, .ret t value ∉ new) : InCall T' t := by
  have notUser : ∀ {self}, T.control self = .user → t ≠ self := by
    rintro self user rfl
    rw [InCall, user] at inside
    cases inside.1
  cases effect with
  | quiet => exact inside
  | returned => exact inside
  | create | createKernel | destroy | prepare | start => exact absurd serves (by simp [Serves])
  | @fork _ child _ _ _ _ free =>
    have other : t ≠ child := by
      rintro rfl
      exact inside.2 (table.headUnused free).1
    exact ⟨by rw [spawn_control_other other]; exact inside.1, by rw [spawn_slot_other other]; exact inside.2⟩
  | deliver => exact inside.modify (by simp)
  | @collect self sender _ bytes value =>
    have measured : InCall (T.modify sender fun task => { task with ipcLen := value }) t := inside.modify id
    exact measured.modify (by simp)
  | blockAlone => exact inside.modify (by simp)
  | spin _ _ _ cause => exact (inside.modify (by simp)).resumeAt fun _ => resume_inside cause
  | blockSwitch _ _ _ cause => exact ((inside.modify (by simp)).resumeAt fun _ => resume_inside cause).switchTo
  | @exit self waiter _ code _ user =>
    have marked : InCall (T.modify self fun task => { task with exitCode := code, state := .dead }) t := inside.modify (by simp)
    exact (marked.resumeAt (c := .halted) fun isSelf => absurd isSelf (notUser user)).modify (by simp)
  | @exitUnseen self _ code _ user =>
    have marked : InCall (T.modify self fun task => { task with exitCode := code, state := .dead }) t := inside.modify (by simp)
    exact marked.resumeAt fun isSelf => absurd isSelf (notUser user)
  | @reap self child _ _ _ _ _ dead =>
    have other : t ≠ child := by
      rintro rfl
      have halted := (table.slots t).dead dead
      rw [InCall, halted] at inside
      cases inside.1
    have kept : InCall (T.taskDestroy child) t :=
      ⟨by rw [taskDestroy_control]; exact inside.1, by rw [taskDestroy_slot_other other]; exact inside.2⟩
    exact kept.resumeAt fun isSelf => absurd (by simp [isSelf]) (silent (T.slot child).taskId)
  | childless => exact inside.resumeAt fun isSelf => absurd (by simp [isSelf]) (silent SYS_ERROR)
  | @resumed self => exact inside.resumeAt fun isSelf => absurd (by simp [isSelf]) (silent (T.slot self).ipcLen)
  | @switch prev next current _ picked other =>
    have preempted : InCall (T.preempt prev) t := by
      unfold TaskTable.preempt
      split
      · exact inside.modify (by simp)
      · exact inside
    exact preempted.switchTo

/-- Nobody but the current task gets into a call. -/
theorem effect_notInCall (table : TableInv T) (serves : Serves a) (effect : Effect s T a new T') (notCurrent : T.currentTask ≠ some t)
    (inside : InCall T' t) : InCall T t := by
  have other : ∀ {self}, T.currentTask = some self → t ≠ self := by
    rintro self current rfl
    exact notCurrent current
  have resumed : ∀ {T : TaskTable} {self c}, t ≠ self → InCall (T.resumeAt self c) t → InCall T t := fun apart inside =>
    ⟨by rw [← resumeAt_control_other apart]; exact inside.1, inside.2⟩
  have modified : ∀ {T : TaskTable} {u : Slot} {g : Task → Task}, ((T.slot u).state = .unused → (g (T.slot u)).state = .unused) →
      InCall (T.modify u g) t → InCall T t := by
    rintro T u g unused ⟨control, used⟩
    refine ⟨control, fun was => used ?_⟩
    by_cases isU : t = u
    · subst isU
      rw [modify_slot_same]
      exact unused was
    · rwa [modify_slot_other isU]
  have switched : ∀ {T : TaskTable} {next : Slot}, (T.slot next).state = .runnable → InCall (T.switchTo next) t → InCall T t :=
    fun runnable inside => modified (g := fun task => { task with state := .running }) (by simp [runnable]) inside
  cases effect with
  | quiet => exact inside
  | returned => exact inside
  | create | createKernel | destroy | prepare | start => exact absurd serves (by simp [Serves])
  | @fork _ child =>
    by_cases isChild : t = child
    · subst isChild
      rw [InCall, spawn_control_same] at inside
      cases inside.1
    · rw [InCall, spawn_control_other isChild, spawn_slot_other isChild] at inside
      exact inside
  | deliver _ _ _ _ _ awaits =>
    simp only [awaitsSender, Bool.and_eq_true, decide_eq_true_eq] at awaits
    exact modified (by simp [awaits]) inside
  | collect _ _ _ _ _ offers =>
    simp only [offersMessage, Bool.and_eq_true, decide_eq_true_eq] at offers
    exact modified id (modified (by simp [offers]) inside)
  | blockAlone _ current => exact ⟨inside.1, by rw [← block_slot_other (other current)]; exact inside.2⟩
  | spin _ current =>
    have kept := resumed (other current) inside
    exact ⟨kept.1, by rw [← block_slot_other (other current)]; exact kept.2⟩
  | @blockSwitch self next reason peer buf len resume _ current _ _ apart picked =>
    have runnable := picked_runnable (T := TaskTable.block ..) table.noIdle picked apart
    have kept := resumed (T := T.block self reason peer buf len) (other current) (switched runnable inside)
    exact ⟨kept.1, by rw [← block_slot_other (other current)]; exact kept.2⟩
  | @exit self waiter _ code current _ awaits =>
    simp only [awaitsChild, Bool.and_eq_true, decide_eq_true_eq] at awaits
    have kept := resumed (other current) (modified (T := T.exit self code) (by simp [awaits]) inside)
    exact ⟨kept.1, by rw [← modify_slot_other (other current)]; exact kept.2⟩
  | exitUnseen _ code current =>
    have kept := resumed (other current) inside
    exact ⟨kept.1, by rw [← modify_slot_other (other current)]; exact kept.2⟩
  | @reap self child _ _ current _ _ dead =>
    have kept := resumed (other current) inside
    refine ⟨by rw [← taskDestroy_control]; exact kept.1, ?_⟩
    by_cases isChild : t = child
    · rw [isChild, dead]
      decide
    · rw [← taskDestroy_slot_other isChild]
      exact kept.2
  | childless _ current => exact resumed (other current) inside
  | resumed current => exact resumed (other current) inside
  | @switch prev next current _ picked apart =>
    have runnable := picked_runnable table.noIdle picked apart
    have kept := switched (T := T.preempt prev) (by rwa [WaitProofs.preempt_slot_other apart]) inside
    exact ⟨by rw [← preempt_control]; exact kept.1, by rw [← WaitProofs.preempt_slot_other (other current)]; exact kept.2⟩

/-- A task stays in its slot as long as nobody else reaps it. -/
theorem effect_stays (table : TableInv T) (serves : Serves a) (effect : Effect s T a new T') (used : (T.slot t).state ≠ .unused)
    (byItself : ∀ self, T.currentTask = some self → t = self) : (T'.slot t).state ≠ .unused := by
  have modified : ∀ {T : TaskTable} {u : Slot} {g : Task → Task}, (T.slot t).state ≠ .unused →
      ((T.slot u).state ≠ .unused → (g (T.slot u)).state ≠ .unused) → ((T.modify u g).slot t).state ≠ .unused := by
    intro T u g used still
    by_cases isU : t = u
    · subst isU
      rw [modify_slot_same]
      exact still used
    · rwa [modify_slot_other isU]
  cases effect with
  | quiet => exact used
  | returned => exact used
  | childless => exact used
  | resumed => exact used
  | create | createKernel | destroy | prepare | start => exact absurd serves (by simp [Serves])
  | @fork _ child _ _ _ _ free =>
    have other : t ≠ child := by
      rintro rfl
      exact used (table.headUnused free).1
    rwa [spawn_slot_other other]
  | deliver => exact modified used (by simp)
  | collect => exact modified (modified used id) (by simp)
  | blockAlone => exact modified used (by simp)
  | @spin self peer =>
    have blocked : ((T.block self .onWait peer 0 0).slot t).state ≠ .unused := modified used (by simp)
    exact blocked
  | @blockSwitch self next reason peer buf len =>
    have blocked : ((T.block self reason peer buf len).slot t).state ≠ .unused := modified used (by simp)
    exact modified (g := fun task => { task with state := .running }) blocked (by simp)
  | @exit self waiter _ code =>
    have exited : ((T.exit self code).slot t).state ≠ .unused :=
      modified (g := fun task => { task with exitCode := code, state := .dead }) used (by simp)
    exact modified exited (by simp)
  | @exitUnseen self _ code => exact modified (g := fun task => { task with exitCode := code, state := .dead }) used (by simp)
  | @reap self child _ _ current inside _ dead =>
    obtain rfl := byItself self current
    have other : t ≠ child := by
      rintro rfl
      have halted := (table.slots t).dead dead
      rcases inside with user | waiting
      · rw [user] at halted
        cases halted
      · rw [waiting] at halted
        cases halted
    rwa [resumeAt_slot, taskDestroy_slot_other other]
  | @switch prev =>
    have preempted : ((T.preempt prev).slot t).state ≠ .unused := by
      unfold TaskTable.preempt
      split
      · exact modified used (by simp)
      · exact used
    exact modified (g := fun task => { task with state := .running }) preempted (by simp)

/-- Pushing leaves what lies above alone. -/
theorem pushAll_above {n : Nat} {b : U64} (values : List U64) (room : InFrame f (p.rsp - BitVec.ofNat 64 (8 * values.length)) values.length)
    (inside : InFrame f b n) (above : p.rsp.toNat ≤ b.toNat) :
    (pushAll p values).kernel.phys.readWords b n = p.kernel.phys.readWords b n := by
  induction values generalizing p with
  | nil => rfl
  | cons value values ih =>
    have lower : p.rsp - BitVec.ofNat 64 (8 * (value :: values).length) =
        (p.pushWord value).rsp - BitVec.ofNat 64 (8 * values.length) := by
      rw [List.length_cons]
      show p.rsp - _ = p.rsp - 8 - _
      apply BitVec.eq_of_toNat_eq
      simp only [BitVec.toNat_sub, BitVec.toNat_ofNat, eight_toNat]
      omega
    have count : (value :: values).length = values.length + 1 := List.length_cons
    rw [lower, count] at room
    have top : InFrame f (p.rsp - 8) 1 := by
      have rest := room.skip.2
      rwa [BitVec.sub_add_cancel] at rest
    have sum : (p.rsp - 8).toNat + 8 = p.rsp.toNat := by
      have next := top.next.2.1
      rw [BitVec.sub_add_cancel] at next
      exact next.symm
    have unfolded : pushAll p (value :: values) = pushAll (p.pushWord value) values := rfl
    have pushed : (p.pushWord value).kernel.phys = p.kernel.phys.writeWord (p.rsp - 8) value := rfl
    have lowered : (p.pushWord value).rsp = p.rsp - 8 := rfl
    rw [unfolded, ih (room.mono (Nat.le_add_right _ _)) (by rw [lowered]; omega), pushed,
      readWords_writeWord_below value top.aligned inside (by omega)]

/-- The caller's registers go below what the call has put on its stack. -/
theorem contextSave_above {n : Nat} {b : U64} (p : Processor) (t : Slot) (room : InFrame f (p.rsp - 48) 7) (inside : InFrame f b n)
    (above : p.rsp.toNat ≤ b.toNat) : (p.exec (contextSave t)).kernel.phys.readWords b n = p.kernel.phys.readWords b n := by
  have split : p.exec (contextSave t) = Instr.exec (pushAll p (calleeSaved.map p.reg)) (.saveRsp t 32) := rfl
  have saved : ∀ q : Processor, (Instr.exec q (.saveRsp t 32)).kernel.phys = q.kernel.phys := fun _ => rfl
  have six : BitVec.ofNat 64 (8 * (calleeSaved.map p.reg).length) = 48 := rfl
  have fewer : InFrame f (p.rsp - BitVec.ofNat 64 (8 * (calleeSaved.map p.reg).length)) (calleeSaved.map p.reg).length := by
    rw [six]
    exact room.mono (by simp [calleeSaved])
  rw [split, saved, pushAll_above _ fewer inside above]

/-- The table of tasks, the owners of frames and the place of each context are
in order. -/
structure Sound (mem₀ : PhysMem) (boot : Frame) (k : Kernel) : Prop where
  table : TableInv k.tasks
  iso : ∃ free, Isolated mem₀ boot k free
  places : ∃ free, Places boot k free

theorem Sound.step (sound : Sound mem₀ boot k) (serves : Serves a) (did : step k a = some (k', new)) : Sound mem₀ boot k' := by
  obtain ⟨table, ⟨_, iso⟩, _, places⟩ := sound
  have lower : KeepsLower k a := by
    rcases serves with ⟨_, rfl⟩ | rfl | rfl | ⟨_, _, rfl⟩ <;> trivial
  exact ⟨step_tableInv table did, (step_secure table iso lower did).isolated, step_places table places did⟩

/-- The frame of the kernel stack that the current task enters the kernel on. -/
def ownStack (k : Kernel) : Nat := frameOf (k.rsp0 - 8)

/-- That is the current task's stack. -/
theorem Sound.stack (sound : Sound mem₀ boot k) (current : k.tasks.currentTask = some self) :
    (k.tasks.slot self).kstackTop = some (page2pa (ownStack k) + 4096) ∧ ownStack k < 2 ^ 40 ∧
      k.rsp0 = page2pa (ownStack k) + 4096 := by
  obtain ⟨_, places⟩ := sound.places
  obtain ⟨pp, isTop, small, _⟩ := places.stack self (sound.table.currentUsed self current)
  have isRsp0 : k.rsp0 = page2pa pp + 4096 := by
    rcases places.cpu with ⟨nobody, _⟩ | ⟨t, _, isCurrent, _, _, isRsp0⟩
    · rw [current] at nobody
      cases nobody
    · obtain rfl := Option.some.inj (current.symm.trans isCurrent)
      exact Option.some.inj (isRsp0.symm.trans isTop)
  have here : ownStack k = pp := by
    have base := page2pa_toNat small
    have below : page2pa pp + 4096 - 8 = page2pa pp + 4088 := by
      simp only [BitVec.sub_eq_add_neg, BitVec.add_assoc]
      rfl
    have sum : (page2pa pp + 4096 - 8).toNat = pp * 4096 + 4088 := by
      rw [below, BitVec.toNat_add, base, show (4088 : U64).toNat = 4088 from rfl]
      omega
    have quotient : (page2pa pp + 4096 - 8).toNat / 4096 = pp := by omega
    rw [ownStack, isRsp0]
    exact quotient
  rw [here]
  exact ⟨isTop, small, isRsp0⟩

/-- No two tasks share a stack. -/
theorem Sound.apart (sound : Sound mem₀ boot k) (current : k.tasks.currentTask = some self) (used : (k.tasks.slot t).state ≠ .unused)
    (isTop : (k.tasks.slot t).kstackTop = some (page2pa f + 4096)) (other : t ≠ self) : f ≠ ownStack k := by
  rintro rfl
  obtain ⟨_, places⟩ := sound.places
  refine other (places.apart t self used (sound.table.currentUsed self current) ?_)
  rw [isTop, (sound.stack current).1]

/-- A task's own stack is written, and where it is may be noted in its slot. -/
theorem Sound.write (sound : Sound mem₀ boot k) (used : (k.tasks.slot self).state ≠ .unused)
    (isTop : (k.tasks.slot self).kstackTop = some (page2pa f + 4096)) (small : f < 2 ^ 40) (confined : Confined f k.phys s)
    (tasks : T = k.tasks ∨ ∃ rsp, T = k.tasks.modify self fun task => { task with contextRsp := rsp }) :
    Sound mem₀ boot { k with phys := s, tasks := T } := by
  obtain ⟨table, ⟨_, iso⟩, _, places⟩ := sound
  have isStack : holds mem₀ boot k.tasks (.kstack self) f := by
    obtain ⟨_, pp, _, _, smallStack, isBase, isTop'⟩ := (iso.slots self).used used
    rw [isTop, Option.some.injEq, BitVec.add_left_inj] at isTop'
    have frames := congrArg frameOf isTop'
    rw [frameOf_page2pa small, frameOf_page2pa smallStack] at frames
    exact ⟨_, isBase, by rw [frameOf_page2pa smallStack]; exact frames⟩
  rcases tasks with rfl | ⟨rsp, rfl⟩
  · have iso' : ∃ free, Isolated mem₀ boot { k with phys := s } free :=
      Secure.isolated (iso.writeStack isStack confined (.refl _) (.inl ⟨rfl, rfl⟩) table.currentUsed)
    exact ⟨table, iso', _, places.draw rfl (confined.list places.list) (fun _ member => member) rfl rfl⟩
  · have table' := TableInv.save table self rsp
    have kept : Keeps k.tasks (k.tasks.modify self fun task => { task with contextRsp := rsp }) := Keeps.modify rfl rfl rfl Iff.rfl
    have iso' : ∃ free, Isolated mem₀ boot { k with
        phys := s
        tasks := k.tasks.modify self fun task => { task with contextRsp := rsp } } free :=
      Secure.isolated (iso.writeStack isStack confined kept.shrinks (.inl ⟨rfl, rfl⟩) table'.currentUsed)
    exact ⟨table', iso', _, Places.save places self rsp confined⟩

/-- A step of a running system, on the processor, leaves the stacks of the other
tasks alone, and of the current task's what lies above the code that ran. -/
structure Spares (owner : Slot) (sp : U64) (p p' : Processor) : Prop where
  others : ∀ t f, (p.kernel.tasks.slot t).state ≠ .unused → (p.kernel.tasks.slot t).kstackTop = some (page2pa f + 4096) →
    f < 2 ^ 40 → t ≠ owner → p'.kernel.phys.mem f = p.kernel.phys.mem f
  above : ∀ b n, InFrame (ownStack p.kernel) b n → sp.toNat ≤ b.toNat →
    p'.kernel.phys.readWords b n = p.kernel.phys.readWords b n
  tops : ∀ t, (p.kernel.tasks.slot t).state ≠ .unused → (p'.kernel.tasks.slot t).state ≠ .unused →
    (p'.kernel.tasks.slot t).kstackTop = (p.kernel.tasks.slot t).kstackTop

theorem processorStep_spares (sound : Sound mem₀ boot p.kernel) (serves : Serves a)
    (current : p.kernel.tasks.currentTask = some self) (room : InFrame (ownStack p.kernel) (sp - 48) 7)
    (did : processorStep p (a, sp) = some (p', new)) : Sound mem₀ boot p'.kernel ∧ Spares self sp p p' := by
  obtain ⟨k', stepped, ended⟩ := processorStep_cases did
  obtain ⟨isTop, small, _⟩ := sound.stack current
  obtain ⟨_, iso⟩ := sound.iso
  have used := sound.table.currentUsed self current
  have sound' := sound.step serves stepped
  have untouched : ∀ t f, (p.kernel.tasks.slot t).state ≠ .unused → (p.kernel.tasks.slot t).kstackTop = some (page2pa f + 4096) →
      f < 2 ^ 40 → k'.phys.mem f = p.kernel.phys.mem f :=
    fun t f used isTop small => step_stacks iso serves stepped used isTop small
  have words : ∀ b n, InFrame (ownStack p.kernel) b n → k'.phys.readWords b n = p.kernel.phys.readWords b n :=
    fun b n inside => readWords_congr inside (untouched self _ used isTop small)
  have tops : ∀ t, (p.kernel.tasks.slot t).state ≠ .unused → (k'.tasks.slot t).state ≠ .unused →
      (k'.tasks.slot t).kstackTop = (p.kernel.tasks.slot t).kstackTop :=
    fun t used used' => step_kstackTop sound.table stepped used used'
  rcases ended with ⟨rfl, _⟩ | ⟨next, _, _, rfl⟩
  · exact ⟨sound', fun t f used isTop small _ => untouched t f used isTop small, fun b n inside _ => words b n inside, tops⟩
  · -- The switch pushes on the stack of the task that is left.
    have effect := step_effect sound.table.clean (fun _ current => sound.table.headNotCurrent current) stepped
    have used' := effect_stays sound.table serves effect used fun u isU => Option.some.inj (current.symm.trans isU)
    obtain ⟨s, confined, saved⟩ := contextSave_kernel { p with kernel := k', rsp := sp } self room
    have above := fun b n => contextSave_above (b := b) (n := n) { p with kernel := k', rsp := sp } self room
    have shape : contextSwitch (some self) next = contextSave self ++ contextLoad next := rfl
    rw [current, shape, exec_append]
    obtain ⟨_, kernel⟩ := contextLoad_rsp ({ p with kernel := k', rsp := sp }.exec (contextSave self)) next
    rw [kernel]
    rw [saved] at above ⊢
    refine ⟨?_, fun t f usedT isTopT smallT other => ?_, fun b n inside higher => ?_, fun t usedT usedT' => ?_⟩
    · exact sound'.write used' ((tops self used used').trans isTop) small confined (.inr ⟨_, rfl⟩)
    · rw [kernel, saved]
      have apart := sound.apart current usedT isTopT other
      exact (confined.elsewhere f apart).trans (untouched t f usedT isTopT smallT)
    · rw [kernel, saved]
      exact (above b n inside higher).trans (words b n inside)
    · rw [kernel, saved] at usedT' ⊢
      by_cases isSelf : t = self
      · subst isSelf
        simp only [modify_slot_same] at usedT' ⊢
        exact tops t usedT usedT'
      · simp only [modify_slot_other isSelf] at usedT' ⊢
        exact tops t usedT usedT'

/-- A call that returns to its caller leaves it in ring 3. -/
theorem effect_returned {value : U64} (table : TableInv T) (effect : Effect s T a new T') (returns : .ret t value ∈ new) :
    T'.control t = .user := by
  cases effect with
  | quiet | create | createKernel | destroy | prepare | start | spin | blockSwitch | exit | exitUnseen | switch =>
    simp at returns
  | returned _ _ _ user | deliver _ _ _ _ user | collect _ _ _ _ user | blockAlone _ _ user =>
    obtain ⟨rfl, _⟩ : t = _ ∧ _ := by simpa using returns
    exact user
  | @fork self child _ _ current user free =>
    obtain ⟨rfl, _⟩ : t = _ ∧ _ := by simpa using returns
    have other : t ≠ child := by
      rintro rfl
      exact table.headNotCurrent current free
    rw [spawn_control_other other]
    exact user
  | reap | childless | resumed =>
    obtain ⟨rfl, _⟩ : t = _ ∧ _ := by simpa using returns
    exact resumeAt_control_same

/-- The border between ring 3 and the kernel is crossed, with these registers. -/
inductive Crossing where
  | enters (t : Slot) (regs : SyscallRegs)
  | leaves (t : Slot) (value : U64) (regs : SyscallRegs)

def Crossing.task : Crossing → Slot
  | .enters t _ => t
  | .leaves t _ _ => t

/-- What `syscall_dispatch` returns to a task. -/
def returnOf (self : Slot) : List Event → Option U64
  | [] => none
  | .ret t value :: events => if t = self then some value else returnOf self events
  | _ :: events => returnOf self events

theorem returnOf_mem {value : U64} (returns : returnOf self events = some value) : .ret self value ∈ events := by
  induction events with
  | nil => cases returns
  | cons event events ih =>
    unfold returnOf at returns
    split at returns
    · cases returns
    · rename_i t value' rest same
      cases same
      split at returns
      · rename_i isSelf
        cases returns
        rw [isSelf]
        exact List.mem_cons_self
      · exact List.mem_cons_of_mem _ (ih returns)
    · rename_i rest _ same
      cases same
      exact List.mem_cons_of_mem _ (ih returns)

/-- The processor, and for each task the argument of `syscall_dispatch` in its
latest call. The code of the call has it at hand however long it sleeps. -/
structure Gate where
  processor : Processor
  args : Slot → U64

/-- A step of the kernel on behalf of a call. When the call has come to its end,
the result is stored and `syscall_entry_return` gives up the kernel stack. -/
def Gate.serve (g : Gate) (self : Slot) (a : Action) (sp : U64) : Option (Gate × List Crossing) :=
  match processorStep g.processor (a, sp) with
  | none => none
  | some (p, events) =>
    match returnOf self events with
    | none => some ({ g with processor := p }, [])
    | some value =>
      let p := ({ p with rsp := g.args self }.storeWord (g.args self) value).exec syscallEntryReturn
      some ({ g with processor := p }, [.leaves self value (userRegs p)])

/-- `int 0x80` and `syscall_entry_asm`. -/
def Gate.enter (g : Gate) (self : Slot) : Gate :=
  let entered := g.processor.int80.exec syscallEntryAsm
  ⟨entered, Function.update g.args self (entered.reg .rdi)⟩

/-- What goes on: any code runs for the current task, or the kernel takes a step.
`sp` is where the kernel's code has its stack pointer when the step ends. -/
inductive Move where
  | run (code : Processor → Processor)
  | call (sp : U64)
  | resume (sp : U64)
  | tick (sp : U64)
  | store (va : U64) (b : Byte)

def gateStep (g : Gate) : Move → Option (Gate × List Crossing)
  | .run code => some ({ g with processor := code g.processor }, [])
  | .call sp =>
    match g.processor.kernel.tasks.currentTask with
    | none => none
    | some self =>
      let entered := g.enter self
      (entered.serve self (.syscall (entered.processor.kernel.phys.readRegs (entered.args self))) sp).map
        fun (g', crossings) => (g', .enters self (userRegs g.processor) :: crossings)
  | .resume sp =>
    match g.processor.kernel.tasks.currentTask with
    | none => none
    | some self => g.serve self .resume sp
  | .tick sp => (processorStep g.processor (.tick, sp)).map fun (p, _) => ({ g with processor := p }, [])
  | .store va b =>
    (processorStep g.processor (.store va b, g.processor.rsp)).map fun (p, _) => ({ g with processor := p }, [])

/-- The current task's code, entered from ring 3 or not, changes no memory but
its kernel stack, and while a call lasts the part of it below the registers. -/
structure RunsOnStack (g : Gate) (self : Slot) (p : Processor) : Prop where
  kernel : p.kernel = { g.processor.kernel with phys := p.kernel.phys }
  confined : Confined (ownStack g.processor.kernel) g.processor.kernel.phys p.kernel.phys
  block : InCall g.processor.kernel.tasks self →
    p.kernel.phys.readWords (g.args self) 20 = g.processor.kernel.phys.readWords (g.args self) 20

/-- Somebody is current, and code that runs in the kernel keeps to his stack. -/
def KeepsStack (g : Gate) (move : Move) : Prop :=
  ∃ self, g.processor.kernel.tasks.currentTask = some self ∧
    match move with
    | .run code => RunsOnStack g self (code g.processor)
    | .call sp => InFrame (ownStack g.processor.kernel) (sp - 48) 7 ∧ sp.toNat ≤ ((g.enter self).args self).toNat
    | .resume sp => InFrame (ownStack g.processor.kernel) (sp - 48) 7 ∧ sp.toNat ≤ (g.args self).toNat
    | .tick sp => InFrame (ownStack g.processor.kernel) (sp - 48) 7
    | .store _ _ => True

/-- A task that leaves a call has the registers that it last entered with, and
the result in `rax`. -/
def GivesBack (before : List Crossing) : Crossing → Prop
  | .enters _ _ => True
  | .leaves t value regs => ∃ saved, Since (·.task = t) (.enters t saved) before ∧ regs = { saved with rax := value }

/-- The registers of a call lie at the top of the caller's kernel stack. -/
structure Holds (g : Gate) (crossings : List Crossing) (t : Slot) (f : Nat) (regs : SyscallRegs) : Prop where
  entered : Since (·.task = t) (.enters t regs) crossings
  isTop : (g.processor.kernel.tasks.slot t).kstackTop = some (page2pa f + 4096)
  block : Block f g.processor.kernel.phys (g.args t) regs

structure GateInv (mem₀ : PhysMem) (boot : Frame) (crossings : List Crossing) (g : Gate) : Prop where
  sound : Sound mem₀ boot g.processor.kernel
  holds : ∀ t, InCall g.processor.kernel.tasks t → ∃ f regs, Holds g crossings t f regs
  given : Each GivesBack crossings

variable {g g' : Gate} {crossings more : List Crossing}

theorem Holds.keep (holds : Holds g crossings t f regs) (args : g'.args t = g.args t)
    (top : (g'.processor.kernel.tasks.slot t).kstackTop = (g.processor.kernel.tasks.slot t).kstackTop)
    (words : g'.processor.kernel.phys.readWords (g.args t) 20 = g.processor.kernel.phys.readWords (g.args t) 20)
    (quiet : ∀ later ∈ more, later.task ≠ t) : Holds g' (crossings ++ more) t f regs := by
  obtain ⟨entered, isTop, inside, read⟩ := holds
  refine ⟨entered.append quiet, top.trans isTop, ?_⟩
  rw [args]
  exact ⟨inside, words.trans read⟩

/-- What a step for the current task leaves of the calls of the others. -/
theorem GateInv.others {p' : Processor} (inv : GateInv mem₀ boot crossings g) (current : g.processor.kernel.tasks.currentTask = some self)
    (serves : Serves a) (did : processorStep g.processor (a, sp) = some (p', events)) (spares : Spares self sp g.processor p')
    (other : t ≠ self) (inside : InCall p'.kernel.tasks t) :
    ∃ f regs, Holds g crossings t f regs ∧ f ≠ ownStack g.processor.kernel ∧
      p'.kernel.phys.mem f = g.processor.kernel.phys.mem f ∧
      (p'.kernel.tasks.slot t).kstackTop = (g.processor.kernel.tasks.slot t).kstackTop := by
  obtain ⟨k', stepped, control, _, states⟩ := processorStep_table did
  have effect := step_effect inv.sound.table.clean (fun _ current => inv.sound.table.headNotCurrent current) stepped
  have inside' : InCall k'.tasks t := ⟨by rw [← control]; exact inside.1, by rw [← states]; exact inside.2⟩
  have notCurrent : g.processor.kernel.tasks.currentTask ≠ some t := by
    rw [current]
    exact fun same => other (Option.some.inj same).symm
  have before := effect_notInCall inv.sound.table serves effect notCurrent inside'
  obtain ⟨f, regs, holds⟩ := inv.holds t before
  exact ⟨f, regs, holds, inv.sound.apart current before.2 holds.isTop other,
    spares.others t f before.2 holds.isTop holds.block.inside.small other, spares.tops t before.2 inside.2⟩

/-- A step on behalf of a call keeps the registers of all calls, or gives the
caller's back. -/
theorem GateInv.serve (inv : GateInv mem₀ boot crossings g) (current : g.processor.kernel.tasks.currentTask = some self)
    (holds : Holds g crossings self f regs) (serves : Serves a) (room : InFrame (ownStack g.processor.kernel) (sp - 48) 7)
    (below : sp.toNat ≤ (g.args self).toNat) (did : g.serve self a sp = some (g', more)) :
    GateInv mem₀ boot (crossings ++ more) g' := by
  unfold Gate.serve at did
  split at did
  · cases did
  · rename_i p' events stepped
    obtain ⟨sound', spares⟩ := processorStep_spares inv.sound serves current room stepped
    obtain ⟨k', stepped', control, _, states⟩ := processorStep_table stepped
    have effect := step_effect inv.sound.table.clean (fun _ current => inv.sound.table.headNotCurrent current) stepped'
    have used := inv.sound.table.currentUsed self current
    have used' : (p'.kernel.tasks.slot self).state ≠ .unused := by
      rw [states]
      exact effect_stays inv.sound.table serves effect used fun u isU => Option.some.inj (current.symm.trans isU)
    have isOwn : ownStack g.processor.kernel = f := by
      have tops := (inv.sound.stack current).1.symm.trans holds.isTop
      rw [Option.some.injEq, BitVec.add_left_inj] at tops
      have frames := congrArg frameOf tops
      rwa [frameOf_page2pa (inv.sound.stack current).2.1, frameOf_page2pa holds.block.inside.small] at frames
    have top := spares.tops self used used'
    have words := spares.above (g.args self) 20 (isOwn ▸ holds.block.inside) below
    split at did
    · -- The call goes on, or sleeps.
      cases did
      refine ⟨sound', fun t inside => ?_, by rw [List.append_nil]; exact inv.given⟩
      by_cases isSelf : t = self
      · subst isSelf
        exact ⟨f, regs, holds.keep rfl top words (by simp)⟩
      · obtain ⟨_, _, holds', _, page, top⟩ := inv.others current serves stepped spares isSelf inside
        exact ⟨_, _, holds'.keep rfl top (readWords_congr holds'.block.inside page) (by simp)⟩
    · -- The call returns: the result goes into the block, and the block to the registers.
      rename_i value returns
      cases did
      have user := effect_returned inv.sound.table effect (returnOf_mem returns)
      have frame : frameOf (g.args self) = f := holds.block.inside.next.1
      have confined : Confined f p'.kernel.phys (p'.kernel.phys.writeWord (g.args self) value) := by
        rw [← frame]
        exact writeEntry_confined ..
      have block : Block f p'.kernel.phys (g.args self) regs := ⟨holds.block.inside, words.trans holds.block.words⟩
      refine ⟨?_, fun t inside => ?_, inv.given.append fun before e after split => ?_⟩
      · exact sound'.write used' (top.trans holds.isTop) holds.block.inside.small confined (.inl rfl)
      · have still : InCall p'.kernel.tasks t := inside
        have isOther : t ≠ self := by
          rintro rfl
          have outside := still.1
          rw [control, user] at outside
          cases outside
        obtain ⟨f', _, holds', apart, page, top⟩ := inv.others current serves stepped spares isOther still
        refine ⟨_, _, holds'.keep rfl top (readWords_congr holds'.block.inside ?_) ?_⟩
        · exact (confined.elsewhere f' (isOwn ▸ apart)).trans page
        · simpa using fun same => isOther same.symm
      · obtain ⟨rfl, rfl, rfl⟩ : before = [] ∧ e = _ ∧ after = [] := by
          cases before with
          | nil => simpa [eq_comm] using split
          | cons => simp at split
        rw [List.append_nil]
        exact ⟨regs, holds.entered, syscallEntryReturn_spec (block.setRax value)⟩

/-- Entering the kernel puts the registers on the stack. -/
theorem GateInv.enter (inv : GateInv mem₀ boot crossings g) (current : g.processor.kernel.tasks.currentTask = some self) :
    GateInv mem₀ boot (crossings ++ [.enters self (userRegs g.processor)]) (g.enter self) ∧
      Holds (g.enter self) (crossings ++ [.enters self (userRegs g.processor)]) self (ownStack g.processor.kernel) (userRegs g.processor) ∧
      ∃ s, (g.enter self).processor.kernel = { g.processor.kernel with phys := s } := by
  obtain ⟨isTop, small, isRsp0⟩ := inv.sound.stack current
  obtain ⟨s, kernel, confined, _, isRdi, block⟩ := entry_spec isRsp0 small
  have argument : (g.enter self).args self = page2pa (ownStack g.processor.kernel) + 4096 - SIZEOF_SYSCALL_REGS :=
    (Function.update_self ..).trans isRdi
  have inKernel : (g.enter self).processor.kernel = { g.processor.kernel with phys := s } := kernel
  have own : Holds (g.enter self) (crossings ++ [.enters self (userRegs g.processor)]) self (ownStack g.processor.kernel)
      (userRegs g.processor) := by
    refine ⟨⟨crossings, [], rfl, by simp⟩, ?_, ?_⟩
    · rw [inKernel]
      exact isTop
    · rw [inKernel, argument]
      exact block
  refine ⟨⟨?_, fun t inside => ?_, inv.given.append fun before e after split => ?_⟩, own, s, inKernel⟩
  · rw [inKernel]
    exact inv.sound.write (inv.sound.table.currentUsed self current) isTop small confined (.inl rfl)
  · by_cases isSelf : t = self
    · subst isSelf
      exact ⟨_, _, own⟩
    · rw [inKernel] at inside
      have before : InCall g.processor.kernel.tasks t := inside
      obtain ⟨f, regs, holds⟩ := inv.holds t before
      have apart := inv.sound.apart current before.2 holds.isTop isSelf
      refine ⟨f, regs, holds.keep (Function.update_of_ne isSelf ..) (by rw [inKernel]) ?_ (by simpa using fun same => isSelf same.symm)⟩
      rw [inKernel]
      exact readWords_congr holds.block.inside (confined.elsewhere f apart)
  · cases before with
    | nil =>
      obtain ⟨rfl, _⟩ := List.cons.inj split
      trivial
    | cons => simp at split

theorem timerTickHandler_control (k : Kernel) : (timerTickHandler k).tasks.control = k.tasks.control := by
  unfold timerTickHandler
  dsimp only
  split
  · rfl
  · split
    · rfl
    · split
      · rfl
      · split
        · rfl
        · rw [switchCurrent_tasks]
          split <;> rfl

/-- Nothing crosses the border, and the blocks of the calls stay where they are. -/
theorem GateInv.quiet (inv : GateInv mem₀ boot crossings g) (sound : Sound mem₀ boot p.kernel)
    (kept : ∀ t, InCall p.kernel.tasks t → ∃ f regs, Holds g crossings t f regs ∧
      p.kernel.phys.readWords (g.args t) 20 = g.processor.kernel.phys.readWords (g.args t) 20 ∧
      (p.kernel.tasks.slot t).kstackTop = (g.processor.kernel.tasks.slot t).kstackTop) :
    GateInv mem₀ boot (crossings ++ []) { g with processor := p } := by
  refine ⟨sound, fun t inside => ?_, by rw [List.append_nil]; exact inv.given⟩
  obtain ⟨f, regs, holds, words, top⟩ := kept t inside
  exact ⟨f, regs, holds.keep rfl top words (by simp)⟩

theorem GateInv.run (inv : GateInv mem₀ boot crossings g) (current : g.processor.kernel.tasks.currentTask = some self)
    (runs : RunsOnStack g self p) : GateInv mem₀ boot (crossings ++ []) { g with processor := p } := by
  obtain ⟨kernel, confined, block⟩ := runs
  obtain ⟨isTop, small, _⟩ := inv.sound.stack current
  have tasks : p.kernel.tasks = g.processor.kernel.tasks := by rw [kernel]
  refine inv.quiet ?_ fun t inside => ?_
  · rw [kernel]
    exact inv.sound.write (inv.sound.table.currentUsed self current) isTop small confined (.inl rfl)
  · rw [tasks] at inside ⊢
    obtain ⟨f, regs, holds⟩ := inv.holds t inside
    refine ⟨f, regs, holds, ?_, rfl⟩
    by_cases isSelf : t = self
    · subst isSelf
      exact block inside
    · have apart := inv.sound.apart current inside.2 holds.isTop isSelf
      exact readWords_congr holds.block.inside (confined.elsewhere f apart)

/-- A tick takes the processor from a task that is not in a call. -/
theorem GateInv.tick {p' : Processor} (inv : GateInv mem₀ boot crossings g) (current : g.processor.kernel.tasks.currentTask = some self)
    (room : InFrame (ownStack g.processor.kernel) (sp - 48) 7) (did : processorStep g.processor (.tick, sp) = some (p', events)) :
    GateInv mem₀ boot (crossings ++ []) { g with processor := p' } := by
  have serves : Serves .tick := .inr (.inr (.inl rfl))
  obtain ⟨sound', spares⟩ := processorStep_spares inv.sound serves current room did
  refine inv.quiet sound' fun t inside => ?_
  have isOther : t ≠ self := by
    rintro rfl
    obtain ⟨k', stepped, control, _⟩ := processorStep_table did
    simp only [step, current, Option.all_some] at stepped
    split at stepped
    · rename_i interruptible
      cases stepped
      have outside := inside.1
      rw [control, timerTickHandler_control, interruptible] at outside
      cases outside
    · cases stepped
  obtain ⟨f, regs, holds, _, page, top⟩ := inv.others current serves did spares isOther inside
  exact ⟨f, regs, holds, readWords_congr holds.block.inside page, top⟩

/-- Ring 3 cannot write to a kernel stack. -/
theorem GateInv.store {p' : Processor} {va : U64} {b : Byte} (inv : GateInv mem₀ boot crossings g)
    (current : g.processor.kernel.tasks.currentTask = some self)
    (did : processorStep g.processor (.store va b, sp) = some (p', events)) :
    GateInv mem₀ boot (crossings ++ []) { g with processor := p' } := by
  have serves : Serves (.store va b) := .inr (.inr (.inr ⟨va, b, rfl⟩))
  obtain ⟨k', stepped, ended⟩ := processorStep_cases did
  have tasks : k'.tasks = g.processor.kernel.tasks := by
    simp only [step, current] at stepped
    split at stepped
    · obtain ⟨s, _, same⟩ := Option.map_eq_some_iff.mp stepped
      cases same
      rfl
    · cases stepped
  have kernel : p'.kernel = k' := by
    rcases ended with ⟨rfl, _⟩ | ⟨_, isNext, other, _⟩
    · rfl
    · exact absurd (tasks ▸ isNext) other
  obtain ⟨_, iso⟩ := inv.sound.iso
  refine inv.quiet ?_ fun t inside => ?_
  · rw [kernel]
    exact inv.sound.step serves stepped
  · rw [kernel, tasks] at inside ⊢
    obtain ⟨f, regs, holds⟩ := inv.holds t inside
    have page := step_stacks iso serves stepped inside.2 holds.isTop holds.block.inside.small
    exact ⟨f, regs, holds, readWords_congr holds.block.inside page, rfl⟩

theorem gateStep_inv {move : Move} (inv : GateInv mem₀ boot crossings g) (keeps : KeepsStack g move)
    (did : gateStep g move = some (g', more)) : GateInv mem₀ boot (crossings ++ more) g' := by
  obtain ⟨self, current, keeps⟩ := keeps
  cases move with
  | run code =>
    cases did
    exact inv.run current keeps
  | call sp =>
    obtain ⟨room, below⟩ := keeps
    obtain ⟨entered, holds, s, kernel⟩ := inv.enter current
    simp only [gateStep, current] at did
    obtain ⟨⟨g₁, new⟩, served, same⟩ := Option.map_eq_some_iff.mp did
    cases same
    generalize g.enter self = g₂ at *
    have current' : g₂.processor.kernel.tasks.currentTask = some self := by rw [kernel]; exact current
    have room' : InFrame (ownStack g₂.processor.kernel) (sp - 48) 7 := by rw [kernel]; exact room
    have kept := entered.serve current' holds (.inl ⟨_, rfl⟩) room' below served
    rwa [List.append_assoc] at kept
  | resume sp =>
    obtain ⟨room, below⟩ := keeps
    simp only [gateStep, current] at did
    have waits : InCall g.processor.kernel.tasks self := by
      refine ⟨?_, inv.sound.table.currentUsed self current⟩
      cases control : g.processor.kernel.tasks.control self with
      | inSend | inRecv | inWait => rfl
      | _ => simp [Gate.serve, processorStep, step, current, control] at did
    obtain ⟨f, regs, holds⟩ := inv.holds self waits
    exact inv.serve current holds (.inr (.inl rfl)) room below did
  | tick sp =>
    obtain ⟨⟨p', events⟩, stepped, same⟩ := Option.map_eq_some_iff.mp did
    cases same
    exact inv.tick current keeps stepped
  | store va b =>
    obtain ⟨⟨p', events⟩, stepped, same⟩ := Option.map_eq_some_iff.mp did
    cases same
    exact inv.store current stepped

/-- **A system call gives the registers back.** Whatever runs between, and
however often the caller is switched away from, a task comes out of its latest
call with the registers it went in with, and the result in `rax`. -/
theorem call_gives_registers_back {g₀ : Gate} {booting : List Event} (boot : BootedWith k₀ free)
    (booted : Run step KeepsLower k₀ booting g₀.processor.kernel) (nobody : ∀ t, ¬ InCall g₀.processor.kernel.tasks t)
    (run : Run gateStep KeepsStack g₀ crossings g) : Each GivesBack crossings := by
  obtain ⟨table, _, _, places⟩ := run_places boot.booted boot.list booted
  have sound : Sound k₀.phys.mem (getCurrentPml4 k₀.cr3) g₀.processor.kernel := ⟨table, run_isolated boot booted, _, places⟩
  have inv := run.invariant (GateInv k₀.phys.mem (getCurrentPml4 k₀.cr3))
    ⟨sound, fun t inside => absurd inside (nobody t), Each.nil⟩ fun _ _ _ _ _ inv keeps did => gateStep_inv inv keeps did
  exact inv.given

/-- A task in ring 3, about to make a call. -/
def asks (number rdi rbx : U64) (p : Processor) : Processor :=
  { p with
    reg := fun r => if r = .rax then number else if r = .rdi then rdi else if r = .rbx then rbx else 0
    cs := USER_CS
    ss := USER_DS }

theorem asks_runsOnStack (g : Gate) (self : Slot) (number rdi rbx : U64) : RunsOnStack g self (asks number rdi rbx g.processor) :=
  ⟨rfl, .refl _ _, fun _ => rfl⟩

/-- The first task sleeps in a call until the second one sends to it and waits
itself. -/
def exchange : List Move :=
  [.run (asks SYS_RECV IPC_ANY_SENDER 11), .call 0x2F00, .run (asks SYS_SEND 1 22), .call 0x4F00,
    .run (asks SYS_RECV IPC_ANY_SENDER 33), .call 0x4F00, .resume 0x2F00]

instance : Decidable (InFrame f sp 7) :=
  decidable_of_iff (sp.toNat % 8 = 0 ∧ f * 4096 ≤ sp.toNat ∧ sp.toNat + 8 * 7 ≤ (f + 1) * 4096 ∧ f < 2 ^ 40)
    ⟨fun ⟨aligned, low, high, small⟩ => ⟨aligned, low, high, small⟩, fun ⟨aligned, low, high, small⟩ => ⟨aligned, low, high, small⟩⟩

/-- The exchange keeps to the stacks. -/
def keepsStack (g : Gate) (move : Move) : Bool :=
  g.processor.kernel.tasks.currentTask.any fun self =>
    match move with
    | .call sp => decide (InFrame (ownStack g.processor.kernel) (sp - 48) 7 ∧ sp.toNat ≤ ((g.enter self).args self).toNat)
    | .resume sp => decide (InFrame (ownStack g.processor.kernel) (sp - 48) 7 ∧ sp.toNat ≤ (g.args self).toNat)
    | _ => true

theorem exchange_keepsStack (g : Gate) (move : Move) (member : move ∈ exchange) (checked : keepsStack g move = true) :
    KeepsStack g move := by
  obtain ⟨self, current, checked⟩ := (Option.any_eq_true ..).mp checked
  simp only [exchange, List.mem_cons, List.not_mem_nil, or_false] at member
  rcases member with rfl | rfl | rfl | rfl | rfl | rfl | rfl
  · exact ⟨self, current, asks_runsOnStack ..⟩
  · exact ⟨self, current, of_decide_eq_true checked⟩
  · exact ⟨self, current, asks_runsOnStack ..⟩
  · exact ⟨self, current, of_decide_eq_true checked⟩
  · exact ⟨self, current, asks_runsOnStack ..⟩
  · exact ⟨self, current, of_decide_eq_true checked⟩
  · exact ⟨self, current, of_decide_eq_true checked⟩

/-- Two tasks, the first of which runs. -/
def twoStarted : Option (Kernel × List Event) :=
  exec (fun _ _ => true) step (bootKernel 20) [.create, .prepare 1 0 0, .create, .prepare 2 0 0, .start 1]

/-- Both tasks come out of their calls. -/
theorem call_gives_registers_back_exchanged : ∃ g₀ g crossings, Run gateStep KeepsStack g₀ crossings g ∧
    crossings.map Crossing.task = [1, 2, 2, 2, 1] ∧ Each GivesBack crossings := by
  have outside : twoStarted.map (fun out => decide (∀ t, ¬ ((out.1.tasks.control t).interruptible = false ∧
      (out.1.tasks.slot t).state ≠ .unused))) = some true := by decide +kernel
  obtain ⟨⟨k, booting⟩, started, awake⟩ := Option.map_eq_some_iff.mp outside
  have nobody : ∀ t, ¬ InCall k.tasks t := by
    unfold InCall
    exact of_decide_eq_true awake
  have exchanged : (twoStarted.bind fun out => exec keepsStack gateStep ⟨{ bootProcessor with kernel := out.1 }, fun _ => 0⟩ exchange).map
      (fun out => out.2.map Crossing.task) = some [1, 2, 2, 2, 1] := by decide +kernel
  rw [started, Option.bind_some] at exchanged
  obtain ⟨⟨g, crossings⟩, did, tasks⟩ := Option.map_eq_some_iff.mp exchanged
  have booted : Run step KeepsLower (bootKernel 20) booting k := by
    refine run_of_exec (fun k a member _ => ?_) started
    simp only [List.mem_cons, List.not_mem_nil, or_false] at member
    rcases member with rfl | rfl | rfl | rfl | rfl <;> trivial
  have run := run_of_exec exchange_keepsStack did
  exact ⟨_, g, crossings, run, tasks,
    call_gives_registers_back (bootKernel_bootedWith (by decide)) booted nobody run⟩

end HobbyKernel.UserRegisters
