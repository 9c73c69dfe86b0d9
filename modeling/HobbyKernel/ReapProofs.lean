import HobbyKernel.WaitProofs

/-! Whose children `sys_wait` reaps. A child knows its parent by the number of
its slot, and slots are used again, so a task can inherit the children of the
one that had its slot before. The history of a run tells them apart: a slot has
the same occupant as long as nobody reaps it. -/
namespace HobbyKernel.ReapProofs
open TaskTable TaskEffects TaskInvariant WaitProofs Runs

variable {T T' : TaskTable} {t p c self child : Slot} {events new : List Event}

/-- The slot of the parent or of the child is given up. -/
def Parted (p c : Slot) (e : Event) : Prop := ∃ q, e = .reaped q p ∨ e = .reaped q c

/-- Task `c` was forked by the task that is in slot `p` now, and is still there. -/
def OwnChild (p c : Slot) (events : List Event) : Prop := Since (Parted p c) (.forked p c) events

/-- Every task that is known as the child of another one was forked by it. -/
def Lineage (events : List Event) (T : TaskTable) : Prop :=
  ∀ p c, (T.slot p).state ≠ .unused → (T.slot c).state ≠ .unused → (T.slot c).parentId = (T.slot p).taskId →
    OwnChild p c events

/-- Whoever is reaped is a child of the task that reaps it. -/
def OwnReaps (events : List Event) : Prop :=
  Each (fun before e => ∀ p c, e = .reaped p c → OwnChild p c before) events

/-- How a step changes who is whose child. -/
inductive Kinship (T : TaskTable) (a : Action) (new : List Event) (T' : TaskTable) : Prop where
  | same (kept : SameFamily T T') (quiet : ∀ q c, .reaped q c ∉ new)
  | orphan (t : Slot) (free : T.taskFreeList = some t) (creates : a = .create ∨ ∃ entry, a = .createKernel entry)
      (others : ∀ c, c ≠ t → T'.slot c = T.slot c) (taskId : (T'.slot t).taskId = (T.slot t).taskId)
      (parent : (T'.slot t).parentId = NO_PARENT) (quiet : new = [])
  | fork (self child : Slot) (value : U64) (free : T.taskFreeList = some child)
      (creates : ∃ regs, a = .syscall regs ∧ regs.rax = SYS_FORK) (others : ∀ c, c ≠ child → T'.slot c = T.slot c)
      (taskId : (T'.slot child).taskId = (T.slot child).taskId)
      (parent : (T'.slot child).parentId = (T.slot self).taskId)
      (forked : new = [.forked self child, .ret self value])
  | reap (self child : Slot) (used : (T.slot self).state ≠ .unused) (dead : (T.slot child).state = .dead)
      (parent : (T.slot child).parentId = (T.slot self).taskId) (gone : (T'.slot child).state = .unused)
      (others : ∀ c, c ≠ child → T'.slot c = T.slot c)
      (reaped : new = [.reaped self child, .ret self (T.slot child).taskId])

theorem effect_kinship {s : Phys} {k : Kernel} {a : Action} (table : TableInv T) (kept : NoDestroy k a)
    (effect : Effect s T a new T') : Kinship T a new T' := by
  cases effect with
  | quiet => exact .same (.refl T) (by simp)
  | returned => exact .same (.refl T) (by simp)
  | create free made orphan =>
    exact .orphan _ free (.inl rfl) (fun c other => spawn_slot_other other) (by simp [made.taskId])
      (by simp [orphan]) rfl
  | createKernel entry free made orphan =>
    exact .orphan _ free (.inr ⟨entry, rfl⟩) (fun c other => spawn_slot_other other) (by simp [made.taskId])
      (by simp [orphan]) rfl
  | fork regs current _ free made parent isFork =>
    exact .fork _ _ _ free ⟨regs, rfl, isFork⟩ (fun c other => spawn_slot_other other) (by simp [made.taskId])
      (by simp [parent]) rfl
  | destroy t => exact absurd rfl (kept t)
  | prepare t _ _ rsp =>
    have prepared : SameFamily T (T.modify t fun task => { task with contextRsp := rsp }) :=
      .modify ⟨rfl, rfl, Iff.rfl⟩
    exact .same prepared (by simp)
  | start => exact .same (.refl T) (by simp)
  | deliver _ _ _ _ _ awaits =>
    simp only [awaitsSender, Bool.and_eq_true, decide_eq_true_eq] at awaits
    exact .same (sameFamily_wake (by simp [awaits.1.1])) (by simp)
  | @collect _ sender _ _ value _ _ _ _ offers =>
    simp only [offersMessage, Bool.and_eq_true, decide_eq_true_eq] at offers
    have measured : SameFamily T (T.modify sender fun task => { task with ipcLen := value }) :=
      .modify ⟨rfl, rfl, Iff.rfl⟩
    exact .same (measured.trans (sameFamily_wake (by simp [offers.1.1.1.1]))) (by simp)
  | blockAlone _ current => exact .same (sameFamily_block (table.currentUsed _ current)) (by simp)
  | @spin self peer _ current =>
    have blocked : SameFamily T (T.block self .onWait peer 0 0) := sameFamily_block (table.currentUsed _ current)
    exact .same blocked (by simp)
  | @blockSwitch self next reason peer buf len _ _ current _ _ other picked =>
    have blocked : SameFamily T (T.block self reason peer buf len) := sameFamily_block (table.currentUsed _ current)
    have runnable := picked_runnable (T := TaskTable.block ..) table.noIdle picked other
    exact .same (blocked.trans (sameFamily_switchTo runnable)) (by simp)
  | exitUnseen _ code current => exact .same (sameFamily_exit code (table.currentUsed _ current)) (by simp)
  | exit _ code current _ waits =>
    simp only [awaitsChild, Bool.and_eq_true, decide_eq_true_eq] at waits
    have exited := sameFamily_exit code (table.currentUsed _ current)
    exact .same (exited.trans (sameFamily_wake (by simp [waits.1.1.1]))) (by simp)
  | @reap self child _ _ current _ mine dead =>
    have used : (T.slot child).state ≠ .unused := by rw [dead]; decide
    simp only [isChild, Bool.and_eq_true, decide_eq_true_eq] at mine
    refine .reap self child (table.currentUsed self current) dead mine.1.2 ?_ ?_ rfl
    · rw [resumeAt_slot, taskDestroy_slot_same used]
    · exact fun c other => taskDestroy_slot_other other
  | childless => exact .same (.refl T) (by simp)
  | resumed => exact .same (.refl T) (by simp)
  | @switch prev next current _ picked other =>
    have runnable : ((T.preempt prev).slot next).state = .runnable := by
      rw [preempt_slot_other other]
      exact picked_runnable table.noIdle picked other
    exact .same (sameFamily_preempt.trans (sameFamily_switchTo runnable)) (by simp)

/-- The action makes a task. -/
def Creates (a : Action) : Prop :=
  a = .create ∨ (∃ entry, a = .createKernel entry) ∨ ∃ regs, a = .syscall regs ∧ regs.rax = SYS_FORK

/-- Whenever a task is to be made, no older task still has the number of the
first free slot as its parent, whether or not the frames then suffice. -/
def NoInheritance (k : Kernel) (a : Action) : Prop :=
  NoDestroy k a ∧ (Creates a → ∀ t c, k.tasks.taskFreeList = some t → (k.tasks.slot c).state ≠ .unused →
    (k.tasks.slot c).parentId ≠ (k.tasks.slot t).taskId)

theorem not_parted_of_quiet (quiet : ∀ q c, .reaped q c ∉ new) : ∀ later ∈ new, ¬ Parted p c later := by
  rintro later member ⟨q, rfl | rfl⟩
  · exact quiet q p member
  · exact quiet q c member

/-- A new task in slot `t`: nobody is its child yet. -/
theorem Lineage.spawn {a : Action} {k : Kernel} (lineage : Lineage events k.tasks) (may : NoInheritance k a)
    (creates : Creates a) (free : k.tasks.taskFreeList = some t) (others : ∀ c, c ≠ t → T'.slot c = k.tasks.slot c)
    (taskId : (T'.slot t).taskId = (k.tasks.slot t).taskId) (quiet : ∀ q c, .reaped q c ∉ new)
    (parent : ∀ p, (T'.slot t).parentId = (k.tasks.slot p).taskId → OwnChild p t (events ++ new)) :
    Lineage (events ++ new) T' := by
  intro p c usedP usedC isParent
  by_cases isNew : c = t
  · subst isNew
    by_cases isP : p = c
    · subst isP
      exact parent p (isParent.trans taskId)
    · rw [others p isP] at isParent
      exact parent p isParent
  · rw [others c isNew] at usedC isParent
    by_cases isP : p = t
    · subst isP
      rw [taskId] at isParent
      exact absurd isParent (may.2 creates p c free usedC)
    · rw [others p isP] at usedP isParent
      exact (lineage p c usedP usedC isParent).append (not_parted_of_quiet quiet)

theorem OwnReaps.quiet (reaps : OwnReaps events) (quiet : ∀ q c, .reaped q c ∉ new) : OwnReaps (events ++ new) := by
  refine Each.append reaps ?_
  rintro before e after rfl p c rfl
  exact absurd (List.mem_append_right _ List.mem_cons_self) (quiet p c)

theorem noParent_ne_id (table : TableInv T) (t : Slot) : NO_PARENT ≠ (T.slot t).taskId := by
  intro same
  have small := id_lt table t
  rw [← same] at small
  exact absurd small (by decide)

/-- One step keeps the families as the history tells them. -/
theorem kinship_lineage {a : Action} {k : Kernel} (table : TableInv k.tasks) (lineage : Lineage events k.tasks)
    (reaps : OwnReaps events) (may : NoInheritance k a) (kinship : Kinship k.tasks a new T') :
    Lineage (events ++ new) T' ∧ OwnReaps (events ++ new) := by
  cases kinship with
  | same kept quiet =>
    refine ⟨fun p c usedP usedC isParent => ?_, reaps.quiet quiet⟩
    rw [(kept c).parentId, (kept p).taskId] at isParent
    have own := lineage p c ((kept p).used.mp usedP) ((kept c).used.mp usedC) isParent
    exact own.append (not_parted_of_quiet quiet)
  | orphan t free creates others taskId parent quiet =>
    subst quiet
    have creates : Creates a := creates.imp_right .inl
    refine ⟨lineage.spawn may creates free others taskId (by simp) (fun p isParent => ?_), reaps.quiet (by simp)⟩
    rw [parent] at isParent
    exact absurd isParent (noParent_ne_id table p)
  | fork self child value free creates others taskId parent forked =>
    subst forked
    refine ⟨lineage.spawn may (.inr (.inr creates)) free others taskId (by simp) (fun p isParent => ?_),
      reaps.quiet (by simp)⟩
    rw [parent] at isParent
    cases table.id_inj isParent
    refine ⟨events, _, rfl, ?_⟩
    simp [Parted]
  | reap self child used dead parent gone others reaped =>
    subst reaped
    refine ⟨fun p c usedP usedC isParent => ?_, Each.append reaps ?_⟩
    · have otherP : p ≠ child := fun same => usedP (same ▸ gone)
      have otherC : c ≠ child := fun same => usedC (same ▸ gone)
      rw [others c otherC] at usedC isParent
      rw [others p otherP] at usedP isParent
      refine (lineage p c usedP usedC isParent).append ?_
      simp [Parted, otherP.symm, otherC.symm]
    · rintro before e after split p c rfl
      have alive : (k.tasks.slot child).state ≠ .unused := by rw [dead]; decide
      have own := lineage self child used alive parent
      cases before with
      | nil =>
        cases split
        rwa [List.append_nil]
      | cons first rest =>
        cases rest with
        | nil => cases split
        | cons second rest => cases rest <;> cases split

theorem run_lineage {k₀ k : Kernel} (booted : Booted k₀) (run : Run step NoInheritance k₀ events k) :
    Lineage events k.tasks ∧ OwnReaps events := by
  obtain ⟨T, nobody, noIdle, isInit⟩ := booted
  have all := run.invariant
    (fun events k => TableInv k.tasks ∧ Lineage events k.tasks ∧ OwnReaps events) ⟨?_, ?_, Each.nil⟩ ?_
  · exact all.2
  · rw [isInit]
    exact taskTableInit_inv nobody noIdle
  · intro p c used
    rw [isInit] at used
    exact absurd (taskTableInit_unused T p) used
  · rintro events k a k' new ⟨table, lineage, reaps⟩ may did
    refine ⟨step_tableInv table did, kinship_lineage table lineage reaps may ?_⟩
    exact effect_kinship table may.1 (step_effect table.clean (fun _ current => table.headNotCurrent current) did)

/-- Whoever comes back from `sys_wait` with an id has reaped a child of his. -/
def WaitReapsOwn (events : List Event) (k : Kernel) : Prop :=
  ∀ self childId a k' new value, k.tasks.currentTask = some self → InWait k self childId a →
    step k a = some (k', new) → .ret self value ∈ new → 0 ≤ value.toInt →
    ∃ c, value = (k.tasks.slot c).taskId ∧ .reaped self c ∈ new ∧ OwnChild self c events

/-- Between two reaps of a slot somebody was forked into it. -/
def ReapedOnce (events : List Event) : Prop :=
  ∀ p q c before between after, events = before ++ .reaped p c :: between ++ .reaped q c :: after →
    ∃ r, .forked r c ∈ between

theorem OwnReaps.once (reaps : OwnReaps events) : ReapedOnce events := by
  intro p q c before between after split
  obtain ⟨earlier, later, same, still⟩ := reaps _ _ _ split q c rfl
  rcases List.append_eq_append_iff.mp same with ⟨first, _, rest⟩ | ⟨first, isBefore, rest⟩
  · -- The fork comes behind the first reap, or is no fork at all.
    cases first with
    | nil => cases rest
    | cons head tail =>
      cases rest
      exact ⟨q, List.mem_append_right _ List.mem_cons_self⟩
  · cases first with
    | nil => cases rest
    | cons head tail =>
      cases rest
      exact absurd ⟨p, .inr rfl⟩ (still (.reaped p c) (List.mem_append_right _ List.mem_cons_self))

/-- **`sys_wait` reaps the caller's own children.** In every run in which no
new task gets a slot that a living task still names as its parent, an id that
`sys_wait` returns is that of a child its caller has forked, and every forked
child is reaped once at most. -/
theorem reaps_own_children {k₀ k : Kernel} (booted : Booted k₀) (run : Run step NoInheritance k₀ events k) :
    WaitReapsOwn events k ∧ ReapedOnce events := by
  obtain ⟨lineage, reaps⟩ := run_lineage booted run
  refine ⟨fun self childId a k' new value current inWait did returned isId => ?_, reaps.once⟩
  have table := run_tableInv booted run
  rcases sysWaitRound_returned (inWait_round current inWait did) returned with
    ⟨c, mine, dead, rfl, rfl⟩ | ⟨rfl, _⟩
  · simp only [isChild, Bool.and_eq_true, decide_eq_true_eq] at mine
    refine ⟨c, rfl, List.mem_cons_self, lineage self c (table.currentUsed self current) mine.1.1 mine.1.2⟩
  · exact absurd isId (by decide)

/-- The test of `NoInheritance` for one state. -/
def namesNobody (k : Kernel) (_ : Action) : Bool :=
  k.tasks.taskFreeList.all fun t => slots.all fun c =>
    (k.tasks.slot c).state = .unused || (k.tasks.slot c).parentId ≠ (k.tasks.slot t).taskId

theorem noInheritance_of_test {k : Kernel} {a : Action} (kept : NoDestroy k a) (test : namesNobody k a = true) :
    NoInheritance k a := by
  refine ⟨kept, fun _ t c free used => ?_⟩
  simp only [namesNobody, free, Option.all_some, List.all_eq_true, Bool.or_eq_true, decide_eq_true_eq] at test
  exact (test c (List.mem_finRange c)).resolve_left used

/-- The first task forks, waits and gets its child's id. -/
theorem reaps_own_children_first : ∃ k events, Run step NoInheritance (bootKernel 20) events k ∧
    (step k .resume).map (·.2) = some [.reaped 1 2, .ret 1 2] ∧ OwnChild 1 2 events := by
  let actions := started ([call SYS_FORK 0, call SYS_WAIT IPC_ANY_SENDER, call SYS_EXIT 0] ++ slice)
  have kept : ∀ k, ∀ a ∈ actions, NoDestroy k a := by simp [actions, started, call, slice, NoDestroy]
  have ran : (exec namesNobody step (bootKernel 20) actions).map (fun out =>
        (out.1.tasks.currentTask, out.1.tasks.control 1, (step out.1 .resume).map (·.2))) =
      some (some 1, .inWait IPC_ANY_SENDER, some [.reaped 1 2, .ret 1 2]) := by
    decide +kernel
  obtain ⟨⟨k, events⟩, did, now⟩ := Option.map_eq_some_iff.mp ran
  have run : Run step NoInheritance (bootKernel 20) events k :=
    run_of_exec (fun k a member => noInheritance_of_test (kept k a member)) did
  simp only [Prod.mk.injEq] at now
  obtain ⟨current, control, moved⟩ := now
  obtain ⟨⟨k', new⟩, took, isNew⟩ := Option.map_eq_some_iff.mp moved
  cases isNew
  obtain ⟨c, _, reaped, own⟩ := (reaps_own_children (bootKernel_booted 20) run).1 1 IPC_ANY_SENDER .resume k' _ 2 current
    (.inr ⟨rfl, control⟩) took (by simp) (by decide)
  have isTwo : c = 2 := by simpa using reaped
  exact ⟨k, events, run, moved, isTwo ▸ own⟩

/-- A grandchild outlives its parent: the parent exits and is reaped, its slot
goes to another child of the first task, and that one reaps the grandchild. -/
def orphaned : List Action :=
  started ([call SYS_FORK 0, call SYS_WAIT IPC_ANY_SENDER, call SYS_FORK 0, call SYS_EXIT 0] ++ slice ++ slice ++
    [.resume, call SYS_FORK 0, call SYS_WAIT IPC_ANY_SENDER, call SYS_WAIT IPC_ANY_SENDER, call SYS_EXIT 0] ++ slice)

theorem reaps_a_stranger : ¬ ∀ k₀ events k, Booted k₀ → Run step NoDestroy k₀ events k →
    WaitReapsOwn events k ∧ ReapedOnce events := by
  intro all
  have ran : (exec (fun _ _ => true) step (bootKernel 20) orphaned).map (fun (k, events) =>
        (k.tasks.currentTask, k.tasks.control 2, (step k .resume).map (·.2), events)) =
      some (some 2, .inWait IPC_ANY_SENDER, some [.reaped 2 3, .ret 2 3],
        [.forked 1 2, .ret 1 2, .blocked 1 .onWait IPC_ANY_SENDER, .forked 2 3, .ret 2 3, .exited 2, .woken 1] ++
        .reaped 1 2 :: [.ret 1 2, .forked 1 2, .ret 1 2, .blocked 1 .onWait IPC_ANY_SENDER,
          .blocked 2 .onWait IPC_ANY_SENDER, .exited 3, .woken 2]) := by
    decide +kernel
  obtain ⟨⟨k, events⟩, did, now⟩ := Option.map_eq_some_iff.mp ran
  have run : Run step NoDestroy (bootKernel 20) events k :=
    run_of_exec (by simp [orphaned, started, call, slice, NoDestroy]) did
  simp only [Prod.mk.injEq] at now
  obtain ⟨current, control, moved, isTrace⟩ := now
  obtain ⟨⟨k', new⟩, took, isNew⟩ := Option.map_eq_some_iff.mp moved
  cases isNew
  obtain ⟨c, _, reaped, own⟩ := (all _ _ _ (bootKernel_booted 20) run).1 2 IPC_ANY_SENDER .resume k' _ 3 current
    (.inr ⟨rfl, control⟩) took (by simp) (by decide)
  have isThree : c = 3 := by simpa using reaped
  rw [isThree, isTrace] at own
  exact not_since ⟨1, .inl rfl⟩ (by decide) (by decide) own

end HobbyKernel.ReapProofs
