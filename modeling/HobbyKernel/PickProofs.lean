import HobbyKernel.Lib.RoundRobin
import HobbyKernel.TaskInvariant

/-! `scheduler_pick_next` is a round-robin scan. The current task is the last one
it looks at, and the answer if nobody is ready; a task that is ready whenever the
scheduler is asked is chosen before it has gone round the table. -/
namespace HobbyKernel.PickProofs
open TaskTable TaskInvariant RoundRobin

variable {T : TaskTable} {current next t x : Slot}

def ready (T : TaskTable) (t : Slot) : Bool := (T.slot t).state = .runnable

theorem ready_iff : ready T t = true ↔ (T.slot t).state = .runnable := decide_eq_true_iff

theorem pickOrder_eq (current : Slot) : pickOrder (some current) = order current := rfl

/-- The scan is what decides, if anybody is ready. -/
theorem pick_scan (T : TaskTable) (current : Slot) : T.schedulerPickNext (some current) =
    match (order current).find? (ready T) with
    | some t => some t
    | none => if (T.slot current).state = .runnable then some current else if T.idleTask.isSome then T.idleTask else some current := by
  rw [schedulerPickNext, pickOrder_eq]
  simp only [Option.any_some, decide_eq_true_eq]
  rfl

theorem pick_of_ready (current : Slot) (runnable : (T.slot t).state = .runnable) :
    ∃ next, (order current).find? (ready T) = some next ∧ T.schedulerPickNext (some current) = some next := by
  cases found : (order current).find? (ready T) with
  | none =>
    have notReady := scan_none_iff.mp found t
    rw [ready_iff.mpr runnable] at notReady
    cases notReady
  | some next => exact ⟨next, rfl, by rw [pick_scan, found]⟩

/-- The answer is the nearest task that is ready. -/
theorem pick_nearest (current : Slot) (runnable : (T.slot t).state = .runnable) : ∃ next, T.schedulerPickNext (some current) = some next ∧
    (T.slot next).state = .runnable ∧
    ∀ u, u ≠ next → (T.slot u).state = .runnable → distance current next < distance current u := by
  obtain ⟨next, found, picked⟩ := pick_of_ready current runnable
  obtain ⟨isReady, nearest⟩ := scan_nearest found
  exact ⟨next, picked, ready_iff.mp isReady, fun u other isRunnable => nearest u other (ready_iff.mpr isRunnable)⟩

/-- The current task is the answer when nobody else is ready. -/
theorem pick_current_iff (noIdle : T.idleTask = none) :
    T.schedulerPickNext (some current) = some current ↔ ∀ t, t ≠ current → (T.slot t).state ≠ .runnable := by
  constructor
  · intro picked t other runnable
    obtain ⟨next, picked', _, nearest⟩ := pick_nearest current runnable
    rw [picked] at picked'
    cases picked'
    have nearer := nearest t other runnable
    -- The current task is as far away as can be.
    have farthest : distance current current = MAX_TASKS := by
      rw [distance, if_neg (Nat.lt_irrefl _), Nat.add_sub_cancel_left]
    have most := (distance_range current t).2
    omega
  · intro nobody
    rw [pick_scan]
    cases found : (order current).find? (ready T) with
    | none =>
      rw [noIdle]
      dsimp only
      split
      · rfl
      · rfl
    | some next =>
      have runnable := ready_iff.mp (scan_nearest found).1
      by_cases same : next = current
      · rw [same]
      · exact absurd runnable (nobody next same)

/-- A task that is ready but not chosen comes closer. -/
theorem pick_closer (runnable : (T.slot x).state = .runnable) (picked : T.schedulerPickNext (some current) = some next)
    (other : next ≠ x) : distance next x < distance current x := by
  obtain ⟨next', picked', _, nearest⟩ := pick_nearest current runnable
  rw [picked] at picked'
  cases picked'
  exact distance_decreases (nearest x (Ne.symm other) runnable)

/-- At the end of a time slice the answer becomes the current task. -/
theorem tick_picks {k : Kernel} (slice : (k.gTicks + 1) % TIME_SLICE_TICKS = 0) (isCurrent : k.tasks.currentTask = some current) :
    (timerTickHandler k).tasks.currentTask = k.tasks.schedulerPickNext (some current) := by
  obtain ⟨next, picked⟩ := TaskEffects.schedulerPickNext_some k.tasks current
  simp only [timerTickHandler, slice, isCurrent, picked, ne_eq, not_true_eq_false, if_false]
  by_cases same : next = current
  · rw [if_pos same, same]
    exact isCurrent
  · rw [if_neg same, TaskEffects.switchCurrent_tasks]
    rfl

/-- **The scheduler is fair.** It answers with the nearest task that is ready,
with the current one when no other is, and in any sequence of picks a task that
is ready at each of them is chosen within `MAX_TASKS` picks. -/
theorem picks_round_robin :
    (∀ (T : TaskTable) (current : Slot),
      ((∃ t, (T.slot t).state = .runnable) → ∃ next, T.schedulerPickNext (some current) = some next ∧
        (T.slot next).state = .runnable ∧
        ∀ t, t ≠ next → (T.slot t).state = .runnable → distance current next < distance current t) ∧
      (T.idleTask = none →
        (T.schedulerPickNext (some current) = some current ↔ ∀ t, t ≠ current → (T.slot t).state ≠ .runnable)) ∧
      ∀ x next, (T.slot x).state = .runnable → T.schedulerPickNext (some current) = some next → next ≠ x →
        distance next x < distance current x) ∧
    ∀ (T : Nat → TaskTable) (current : Nat → Slot) (x : Slot) (first : Nat),
      (∀ i, first ≤ i → i < first + MAX_TASKS →
        (T i).schedulerPickNext (some (current i)) = some (current (i + 1)) ∧ ((T i).slot x).state = .runnable) →
      ∃ i, first ≤ i ∧ i < first + MAX_TASKS ∧ current (i + 1) = x := by
  refine ⟨fun T current => ⟨fun ⟨t, runnable⟩ => pick_nearest current runnable, pick_current_iff,
    fun x next runnable picked other => pick_closer runnable picked other⟩, fun T current x first picks => ?_⟩
  refine taken_within (fun i => ready (T i)) current x MAX_TASKS (distance_range (current first) x).2
    (fun i low high => ?_) (fun i low high => ready_iff.mpr (picks i low high).2)
  obtain ⟨picked, runnable⟩ := picks i low high
  obtain ⟨next, found, picked'⟩ := pick_of_ready (current i) runnable
  rw [picked] at picked'
  cases picked'
  exact found

end HobbyKernel.PickProofs
