import HobbyKernel.ContextProofs
import HobbyKernel.PickProofs

/-! Nobody starves. The clock counts up in time slices, every slice ends in a
pick, and a call that blocks picks too; whoever is ready comes closer with each
pick. What other tasks do in the meantime can only bring a pick forward. -/
namespace HobbyKernel.TimeSlices
open TaskTable TaskInvariant TaskEffects ContextProofs PickProofs RoundRobin Runs

variable {k k' k₀ : Kernel} {T T' : TaskTable} {s : Phys} {value : Option U64} {events before : List Event}
  {self t x current next : Slot} {a : Action} {regs : SyscallRegs} {actions : List Action}

section Clock

theorem schedulerSwitchTo_gTicks (k : Kernel) (t : Slot) : (schedulerSwitchTo k t).gTicks = k.gTicks := by
  unfold schedulerSwitchTo
  grind

theorem switchCurrent_gTicks (k : Kernel) (t : Slot) : (switchCurrent k t).gTicks = k.gTicks := by
  rw [switchCurrent, schedulerSwitchTo_gTicks]

theorem taskBlockAndSwitch_gTicks (k : Kernel) (self : Slot) (resume : Control) (reason : BlockReason) (peer buf len : U64) :
    (taskBlockAndSwitch k self resume reason peer buf len).1.gTicks = k.gTicks := by
  unfold taskBlockAndSwitch
  grind [switchCurrent_gTicks]

theorem taskKstackAlloc_gTicks (k : Kernel) (t : Slot) : (taskKstackAlloc k t).1.gTicks = k.gTicks := by
  unfold taskKstackAlloc
  grind

theorem taskStackInit_gTicks (k : Kernel) (t : Slot) (entry : U64) : (taskStackInit k t entry).gTicks = k.gTicks := by
  unfold taskStackInit
  grind

theorem taskCreate_gTicks (k : Kernel) : (taskCreate k).1.gTicks = k.gTicks := by
  unfold taskCreate
  grind [taskKstackAlloc_gTicks]

theorem taskCreateKernel_gTicks (k : Kernel) (entry : U64) : (taskCreateKernel k entry).1.gTicks = k.gTicks := by
  unfold taskCreateKernel
  grind [taskKstackAlloc_gTicks, taskStackInit_gTicks]

theorem taskFork_gTicks (k : Kernel) (parent : Slot) (pml4 : Frame) (regs : SyscallRegs) :
    (taskFork k parent pml4 regs).1.gTicks = k.gTicks := by
  unfold taskFork
  grind [taskKstackAlloc_gTicks]

theorem taskPrepareUserEntry_gTicks (k : Kernel) (t : Slot) (entry userStackTop : U64) :
    (taskPrepareUserEntry k t entry userStackTop).gTicks = k.gTicks := by
  unfold taskPrepareUserEntry
  grind

theorem sendTo_gTicks {target : Slot} {targetId userBuf len : U64}
    (did : sendTo k self target targetId userBuf len = some (k', value, events)) : k'.gTicks = k.gTicks := by
  unfold sendTo at did
  grind [taskBlockAndSwitch_gTicks]

theorem sysSend_gTicks {targetId userBuf len : U64} (did : sysSend k targetId userBuf len = some (k', value, events)) :
    k'.gTicks = k.gTicks := by
  unfold sysSend at did
  grind [sendTo_gTicks]

theorem recvFrom_gTicks {sender : Slot} {userBuf len : U64} (did : recvFrom k self sender userBuf len = some (k', value, events)) :
    k'.gTicks = k.gTicks := by
  unfold recvFrom at did
  grind

theorem sysRecv_gTicks {fromId userBuf len : U64} (did : sysRecv k fromId userBuf len = some (k', value, events)) :
    k'.gTicks = k.gTicks := by
  unfold sysRecv at did
  grind [recvFrom_gTicks, taskBlockAndSwitch_gTicks]

theorem sysExit_gTicks {code : U64} (did : sysExit k code = some (k', value, events)) : k'.gTicks = k.gTicks := by
  unfold sysExit at did
  grind

theorem sysWaitRound_gTicks {childId : U64} (did : sysWaitRound k self childId = some (k', value, events)) :
    k'.gTicks = k.gTicks := by
  unfold sysWaitRound at did
  grind [taskBlockAndSwitch_gTicks]

theorem dispatch_gTicks (did : syscallDispatch k regs = some (k', value, events)) : k'.gTicks = k.gTicks := by
  unfold syscallDispatch sysWrite sysFork sysWait at did
  grind [taskFork_gTicks, sysSend_gTicks, sysRecv_gTicks, sysExit_gTicks, sysWaitRound_gTicks]

theorem returnTo_gTicks {result : SysResult} (did : returnTo self result = some (k', events))
    (same : ∀ k₁ value new, result = some (k₁, value, new) → k₁.gTicks = k.gTicks) : k'.gTicks = k.gTicks := by
  unfold returnTo at did
  grind

/-- Only ticks count. -/
theorem step_gTicks (notTick : a ≠ .tick) (did : step k a = some (k', events)) : k'.gTicks = k.gTicks := by
  cases a with
  | create => cases did; exact taskCreate_gTicks k
  | createKernel entry => cases did; exact taskCreateKernel_gTicks k entry
  | prepare t entry userStackTop =>
    simp only [step] at did
    split at did
    · cases did
      exact taskPrepareUserEntry_gTicks k t entry userStackTop
    · cases did
  | syscall regs =>
    simp only [step] at did
    split at did
    · cases did
    · split at did
      · exact returnTo_gTicks did fun k₁ value new ran => dispatch_gTicks ran
      · cases did
  | resume =>
    simp only [step] at did
    split at did
    · cases did
    · split at did
      · cases did; rfl
      · cases did; rfl
      · exact returnTo_gTicks did fun k₁ value new ran => sysWaitRound_gTicks ran
      · cases did
  | start t =>
    simp only [step] at did
    split at did
    · cases did
      rw [schedulerSwitchTo_gTicks]
    · cases did
  | tick => exact absurd rfl notTick
  | destroy t => simp only [step] at did; grind
  | elfLoad t image => simp only [step] at did; grind
  | mapStack t vaddr => simp only [step] at did; grind
  | store va b => simp only [step] at did; grind [Option.map_eq_some_iff]

end Clock

/-- What a step leaves a ready task that does not get to run: it stays ready, and
if the processor was given to anybody else, that one is nearer to it. -/
structure Waits (T T' : TaskTable) (current x : Slot) : Prop where
  ready : (T'.slot x).state = .runnable
  closer : T'.currentTask = some current ∨ ∃ next, T'.currentTask = some next ∧ distance next x < distance current x

theorem Waits.same (ready : (T.slot x).state = .runnable) (isCurrent : T.currentTask = some current)
    (slot : T'.slot x = T.slot x) (same : T'.currentTask = T.currentTask) : Waits T T' current x :=
  ⟨by rw [slot, ready], .inl (by rw [same, isCurrent])⟩

theorem Waits.picked {T₀ T₁ : TaskTable} (ready : (T.slot x).state = .runnable) (asked : T₀.slot x = T.slot x)
    (picked : T₀.schedulerPickNext (some current) = some next) (slot : T₁.slot x = T.slot x)
    (notYet : (T₁.switchTo next).currentTask ≠ some x) : Waits T (T₁.switchTo next) current x := by
  have other : next ≠ x := fun isX => notYet (by rw [isX]; rfl)
  refine ⟨?_, .inr ⟨next, rfl, pick_closer (by rw [asked, ready]) picked other⟩⟩
  rw [switchTo_slot_other (Ne.symm other), slot, ready]

theorem preempt_slot_other {prev : Slot} (other : x ≠ prev) : (T.preempt prev).slot x = T.slot x := by
  unfold preempt
  split
  · exact modify_slot_other other
  · rfl

theorem taskWake_slot_other (other : x ≠ t) : (T.taskWake t).slot x = T.slot x := modify_slot_other other

/-- Every effect leaves a ready task waiting, but for its own destruction. -/
theorem effect_waits (table : TableInv T) (effect : Effect s T a events T') (isCurrent : T.currentTask = some current)
    (ready : (T.slot x).state = .runnable) (other : x ≠ current) (kept : a ≠ .destroy x) (notYet : T'.currentTask ≠ some x) :
    Waits T T' current x := by
  have asleep : ∀ {u}, (T.slot u).state ≠ .runnable → x ≠ u := by
    rintro u isAsleep rfl
    exact isAsleep ready
  have fresh : ∀ {u}, T.taskFreeList = some u → x ≠ u := fun head => asleep (by rw [(table.headUnused head).1]; decide)
  have self : ∀ {u}, T.currentTask = some u → x ≠ u := by
    rintro u isSelf rfl
    exact other (Option.some.inj (isSelf.symm.trans isCurrent))
  cases effect with
  | quiet | returned | childless | resumed => exact .same ready isCurrent rfl rfl
  | create head => exact .same ready isCurrent (spawn_slot_other (fresh head)) rfl
  | createKernel _ head => exact .same ready isCurrent (spawn_slot_other (fresh head)) rfl
  | fork _ _ _ head => exact .same ready isCurrent (spawn_slot_other (fresh head)) rfl
  | destroy t _ used =>
    have apart : x ≠ t := fun same => kept (by rw [same])
    exact .same ready isCurrent (taskDestroy_slot_other apart) taskDestroy_currentTask
  | reap _ _ _ _ dead =>
    have apart := asleep (by rw [dead]; decide)
    exact .same ready isCurrent (taskDestroy_slot_other apart) taskDestroy_currentTask
  | prepare t entry top rsp =>
    refine ⟨?_, .inl isCurrent⟩
    by_cases same : x = t
    · subst same
      rw [resumeAt_slot, modify_slot_same]
      exact ready
    · rw [resumeAt_slot, modify_slot_other same, ready]
  | start t nobody => rw [isCurrent] at nobody; cases nobody
  | deliver _ _ _ _ _ awaits =>
    simp only [awaitsSender, Bool.and_eq_true, decide_eq_true_eq] at awaits
    exact .same ready isCurrent (taskWake_slot_other (asleep (by rw [awaits.1.1]; decide))) rfl
  | collect _ _ _ _ _ offers =>
    simp only [offersMessage, Bool.and_eq_true, decide_eq_true_eq] at offers
    have apart := asleep (by rw [offers.1.1.1.1]; decide)
    exact .same ready isCurrent ((taskWake_slot_other apart).trans (modify_slot_other apart)) rfl
  | blockAlone _ isSelf => exact .same ready isCurrent (block_slot_other (self isSelf)) rfl
  | spin _ isSelf => exact .same ready isCurrent (block_slot_other (self isSelf)) rfl
  | @blockSwitch self next reason peer buf len _ _ isSelf _ _ _ picked =>
    have same := Option.some.inj (isSelf.symm.trans isCurrent)
    subst same
    have stays : (T.block self reason peer buf len).slot x = T.slot x := block_slot_other other
    exact .picked ready stays picked stays notYet
  | exit _ _ isSelf _ waits =>
    simp only [awaitsChild, Bool.and_eq_true, decide_eq_true_eq] at waits
    have apart := self isSelf
    refine .same ready isCurrent ?_ rfl
    rw [taskWake_slot_other, exit_slot_other apart]
    rintro rfl
    rw [exit_slot_other apart, ready] at waits
    cases waits.1.1.1
  | exitUnseen _ _ isSelf => exact .same ready isCurrent (exit_slot_other (self isSelf)) rfl
  | switch isSelf _ picked =>
    have same := Option.some.inj (isSelf.symm.trans isCurrent)
    subst same
    exact .picked ready rfl picked (preempt_slot_other other) notYet

/-- How far the current time slice is. -/
def sliceTick (k : Kernel) : Nat := (k.gTicks % TIME_SLICE_TICKS).toNat

theorem sliceTick_lt (k : Kernel) : sliceTick k < 20 := by
  rw [sliceTick, BitVec.toNat_umod]
  exact Nat.mod_lt _ (by decide)

/-- A tick that does not end the slice is the next one of it. When the counter
wraps, the slice ends early. -/
theorem sliceTick_next (count : U64) (inside : (count + 1) % TIME_SLICE_TICKS ≠ 0) :
    ((count + 1) % TIME_SLICE_TICKS).toNat = (count % TIME_SLICE_TICKS).toNat + 1 := by
  have nonzero : ((count + 1) % TIME_SLICE_TICKS).toNat ≠ 0 := fun isZero => inside (BitVec.toNat_inj.mp isZero)
  rw [BitVec.toNat_umod, BitVec.toNat_add, show (1 : U64).toNat = 1 from rfl, show TIME_SLICE_TICKS.toNat = 20 from rfl] at nonzero ⊢
  rw [BitVec.toNat_umod, show TIME_SLICE_TICKS.toNat = 20 from rfl]
  have bound := count.isLt
  have noWrap : count.toNat + 1 < 2 ^ 64 := by
    by_contra wraps
    have last : count.toNat + 1 = 2 ^ 64 := by omega
    rw [last, Nat.mod_self] at nonzero
    exact nonzero rfl
  rw [Nat.mod_eq_of_lt noWrap] at nonzero ⊢
  omega

/-- A tick inside the slice only counts, and the one that ends it picks. -/
theorem tick_slice (isCurrent : k.tasks.currentTask = some current) (ready : (k.tasks.slot x).state = .runnable)
    (notYet : (timerTickHandler k).tasks.currentTask ≠ some x) :
    ((timerTickHandler k).tasks.currentTask = some current ∧ sliceTick (timerTickHandler k) = sliceTick k + 1) ∨
      ∃ next, (timerTickHandler k).tasks.currentTask = some next ∧ distance next x < distance current x := by
  by_cases inside : (k.gTicks + 1) % TIME_SLICE_TICKS = 0
  · obtain ⟨next, picked⟩ := schedulerPickNext_some k.tasks current
    have isNext := (tick_picks inside isCurrent).trans picked
    exact .inr ⟨next, isNext, pick_closer ready picked fun isX => notYet (by rw [isNext, isX])⟩
  · have counted : timerTickHandler k = { k with gTicks := k.gTicks + 1 } := by
      simp only [timerTickHandler, ne_eq, inside, not_false_eq_true, if_true]
    rw [counted]
    exact .inl ⟨isCurrent, sliceTick_next k.gTicks inside⟩

def isTick : Action → Bool
  | .tick => true
  | _ => false

/-- The ticks among some steps. -/
def ticks (actions : List Action) : Nat := actions.countP isTick

theorem ticks_append (actions more : List Action) : ticks (actions ++ more) = ticks actions + ticks more := List.countP_append

/-- At most as many ticks pass before a task runs: 20 for each place that it is
ahead, less those of this slice that are over. -/
def ticksLeft (k : Kernel) (current x : Slot) : Nat := 20 * distance current x - sliceTick k

theorem ticksLeft_pos (k : Kernel) (current x : Slot) : 0 < ticksLeft k current x := by
  have near := (distance_range current x).1
  have inside := sliceTick_lt k
  unfold ticksLeft
  omega

/-- A step that does not run a ready task uses up its ticks. -/
theorem step_ticksLeft (table : TableInv k.tasks) (did : step k a = some (k', events)) (isCurrent : k.tasks.currentTask = some current)
    (ready : (k.tasks.slot x).state = .runnable) (other : x ≠ current) (kept : a ≠ .destroy x)
    (notYet : k'.tasks.currentTask ≠ some x) :
    (k'.tasks.slot x).state = .runnable ∧ ∃ next, k'.tasks.currentTask = some next ∧
      ticksLeft k' next x + ticks [a] ≤ ticksLeft k current x := by
  have effect := step_effect table.clean (fun _ current => table.headNotCurrent current) did
  obtain ⟨stillReady, closer⟩ := effect_waits table effect isCurrent ready other kept notYet
  refine ⟨stillReady, ?_⟩
  have inside := sliceTick_lt k
  by_cases isTicking : a = .tick
  · subst isTicking
    have ticked : k' = timerTickHandler k := by
      simp only [step] at did
      split at did
      · cases did
        rfl
      · cases did
    subst ticked
    have one : ticks [.tick] = 1 := rfl
    rcases tick_slice isCurrent ready notYet with ⟨same, counted⟩ | ⟨next, isNext, nearer⟩
    · refine ⟨current, same, ?_⟩
      have near := (distance_range current x).1
      have inside' := sliceTick_lt (timerTickHandler k)
      rw [ticksLeft, ticksLeft, counted, one]
      omega
    · refine ⟨next, isNext, ?_⟩
      rw [ticksLeft, ticksLeft, one]
      omega
  · have none : ticks [a] = 0 := by
      cases a with
      | tick => exact absurd rfl isTicking
      | _ => rfl
    have sameSlice : sliceTick k' = sliceTick k := by rw [sliceTick, sliceTick, step_gTicks isTicking did]
    rcases closer with same | ⟨next, isNext, nearer⟩
    · refine ⟨current, same, ?_⟩
      rw [ticksLeft, ticksLeft, sameSlice, none]
      omega
    · refine ⟨next, isNext, ?_⟩
      rw [ticksLeft, ticksLeft, sameSlice, none]
      omega

/-- A step whose event is the action itself. -/
def actionStep (k : Kernel) (a : Action) : Option (Kernel × List Action) := (step k a).map fun out => (out.1, [a])

theorem step_of_actionStep (did : actionStep k a = some (k', actions)) :
    actions = [a] ∧ ∃ events, step k a = some (k', events) := by
  obtain ⟨⟨k₁, events⟩, stepped, same⟩ := Option.map_eq_some_iff.mp did
  cases same
  exact ⟨rfl, events, stepped⟩

/-- While a task waits for the processor. -/
def Passes (x : Slot) (k : Kernel) (a : Action) : Prop := k.tasks.currentTask ≠ some x ∧ a ≠ .destroy x

theorem run_ticksLeft (table : TableInv k.tasks) (isCurrent : k.tasks.currentTask = some current)
    (ready : (k.tasks.slot x).state = .runnable) (run : Run actionStep (Passes x) k actions k') :
    TableInv k'.tasks ∧ (k'.tasks.currentTask ≠ some x → (k'.tasks.slot x).state = .runnable ∧
      ∃ next, k'.tasks.currentTask = some next ∧ ticksLeft k' next x + ticks actions ≤ ticksLeft k current x) := by
  refine run.invariant (fun actions k' => TableInv k'.tasks ∧ (k'.tasks.currentTask ≠ some x → (k'.tasks.slot x).state = .runnable ∧
    ∃ next, k'.tasks.currentTask = some next ∧ ticksLeft k' next x + ticks actions ≤ ticksLeft k current x))
    ⟨table, fun _ => ⟨ready, current, isCurrent, Nat.le_refl _⟩⟩ ?_
  rintro actions k₁ a k₂ new ⟨table₁, left⟩ ⟨notYet, kept⟩ did
  obtain ⟨rfl, events, stepped⟩ := step_of_actionStep did
  refine ⟨step_tableInv table₁ stepped, fun notYet' => ?_⟩
  obtain ⟨ready₁, current₁, isCurrent₁, left₁⟩ := left notYet
  have other : x ≠ current₁ := fun isX => notYet (by rw [isX, isCurrent₁])
  obtain ⟨ready₂, next, isNext, left₂⟩ := step_ticksLeft table₁ stepped isCurrent₁ ready₁ other kept notYet'
  refine ⟨ready₂, next, isNext, ?_⟩
  rw [ticks_append]
  omega

theorem distance_other (other : x ≠ current) : distance current x < MAX_TASKS := by
  have near := distance_range current x
  have inside := x.isLt
  have notSame : x.val ≠ current.val := fun same => other (Fin.ext same)
  unfold distance
  split <;> omega

/-- **Nobody starves.** While a task that is ready does not get the processor, it
stays ready, and fewer than `63 * 20` ticks pass, whatever calls the other tasks
make in the meantime. -/
theorem nobody_starves (booted : Booted k₀) (run : Run step (fun _ _ => True) k₀ before k)
    (isCurrent : k.tasks.currentTask = some current) (ready : (k.tasks.slot x).state = .runnable)
    (waits : Run actionStep (Passes x) k actions k') (notYet : k.tasks.currentTask ≠ some x)
    (notYet' : k'.tasks.currentTask ≠ some x) :
    (k'.tasks.slot x).state = .runnable ∧ ticks actions < (MAX_TASKS - 1) * 20 := by
  obtain ⟨_, left⟩ := run_ticksLeft (run_tableInv booted run) isCurrent ready waits
  obtain ⟨stillReady, next, _, most⟩ := left notYet'
  refine ⟨stillReady, ?_⟩
  have some := ticksLeft_pos k' next x
  have near : distance current x < MAX_TASKS := distance_other fun isX => notYet (by rw [isX, isCurrent])
  have bound : ticksLeft k current x ≤ 20 * distance current x := Nat.sub_le _ _
  omega

/-- The second of two tasks waits for the rest of the first slice. -/
theorem nobody_starves_second : ∃ k k' before actions, Run step (fun _ _ => True) (bootKernel 20) before k ∧
    Run actionStep (Passes 2) k actions k' ∧ k'.tasks.currentTask = some 1 ∧ ticks actions = 19 ∧
    (k'.tasks.slot 2).state = .runnable ∧ ticks actions < (MAX_TASKS - 1) * 20 := by
  have ran : (exec (fun _ _ => true) step (bootKernel 20) [.create, .prepare 1 0 0, .create, .prepare 2 0 0, .start 1]).bind
      (fun p => (exec (fun k _ => k.tasks.currentTask ≠ some 2) actionStep p.1 (List.replicate 19 .tick)).map fun out =>
        (p.1.tasks.currentTask, (p.1.tasks.slot 2).state, out.1.tasks.currentTask, ticks out.2)) =
      some (some 1, .runnable, some 1, 19) := by
    decide +kernel
  obtain ⟨⟨k, before⟩, did, next⟩ := Option.bind_eq_some_iff.mp ran
  obtain ⟨⟨k', actions⟩, ticked, now⟩ := Option.map_eq_some_iff.mp next
  simp only [Prod.mk.injEq] at now
  obtain ⟨isCurrent, ready, isCurrent', count⟩ := now
  have run : Run step (fun _ _ => True) (bootKernel 20) before k := run_of_exec (fun _ _ _ _ => trivial) did
  have waits : Run actionStep (Passes 2) k actions k' := run_of_exec (fun _ a member passes => by
    obtain ⟨_, rfl⟩ := List.mem_replicate.mp member
    exact ⟨of_decide_eq_true passes, by simp⟩) ticked
  obtain ⟨still, few⟩ := nobody_starves (bootKernel_booted 20) run isCurrent ready waits (by rw [isCurrent]; decide)
    (by rw [isCurrent']; decide)
  exact ⟨k, k', before, actions, run, waits, isCurrent', count, still, few⟩

end HobbyKernel.TimeSlices
