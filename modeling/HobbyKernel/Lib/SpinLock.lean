import Mathlib.Logic.Function.Basic

/-! A spin lock over one word of memory. Any number of parties have jobs to do
under the lock, each a list of operations, and their steps mix in any order. The
operations come out job by job, in the order in which the lock was taken. -/
namespace HobbyKernel.SpinLock

variable {Name Op : Type}

/-- Where a party is: away from the lock, in the loop that waits for it, or
under it with some operations to go. -/
inductive Place (Op : Type) where
  | outside
  | spinning (job : List Op)
  | inside (rest : List Op)

structure State (Name Op : Type) where
  locked : Bool
  place : Name → Place Op

inductive Label (Name Op : Type) where
  | acquires (n : Name) (job : List Op)
  | acts (n : Name) (op : Op)
  | releases (n : Name)

/-- The jobs for which the lock was taken. -/
def jobs : List (Label Name Op) → List (List Op)
  | [] => []
  | .acquires _ job :: trace => job :: jobs trace
  | _ :: trace => jobs trace

/-- The operations that were done. -/
def ops : List (Label Name Op) → List Op
  | [] => []
  | .acts _ op :: trace => op :: ops trace
  | _ :: trace => ops trace

variable {trace more : List (Label Name Op)}

theorem jobs_append (trace more : List (Label Name Op)) : jobs (trace ++ more) = jobs trace ++ jobs more := by
  induction trace with
  | nil => rfl
  | cons l trace ih => cases l <;> simp [jobs, ih]

theorem ops_append (trace more : List (Label Name Op)) : ops (trace ++ more) = ops trace ++ ops more := by
  induction trace with
  | nil => rfl
  | cons l trace ih => cases l <;> simp [ops, ih]

variable {s s' s₀ : State Name Op} {n m : Name} {rest rest' : List Op} {place : Place Op}

/-- The lock word tells whether somebody is under the lock. All jobs but his are
done to the end, and his up to where he is. -/
inductive Serial (trace : List (Label Name Op)) (s : State Name Op) : Prop where
  | free (unlocked : s.locked = false) (nobody : ∀ n rest, s.place n ≠ .inside rest) (done : ops trace = (jobs trace).flatten)
  | held (n : Name) (rest : List Op) (locked : s.locked = true) (inside : s.place n = .inside rest)
      (alone : ∀ m rest', s.place m = .inside rest' → m = n) (done : ops trace ++ rest = (jobs trace).flatten)

/-- Two parties are never under the lock at once. -/
theorem Serial.exclusive (serial : Serial trace s) (first : s.place n = .inside rest) (second : s.place m = .inside rest') :
    n = m ∧ rest = rest' := by
  cases serial with
  | free _ nobody => exact absurd first (nobody n rest)
  | held h _ _ _ alone =>
    obtain rfl := alone n rest first
    obtain rfl := alone m rest' second
    rw [first] at second
    cases second
    exact ⟨rfl, rfl⟩

/-- Whoever is under the lock has done his job up to what is left of it. -/
theorem Serial.progress (serial : Serial trace s) (inside : s.place n = .inside rest) :
    s.locked = true ∧ ops trace ++ rest = (jobs trace).flatten := by
  cases serial with
  | free _ nobody => exact absurd inside (nobody n rest)
  | held h _ locked there alone done =>
    obtain rfl := alone n rest inside
    rw [inside] at there
    cases there
    exact ⟨locked, done⟩

variable [DecidableEq Name]

/-- Move one party. -/
def State.put (s : State Name Op) (n : Name) (place : Place Op) : State Name Op :=
  { s with place := Function.update s.place n place }

@[simp] theorem put_locked : (s.put n place).locked = s.locked := rfl

@[simp] theorem put_same : (s.put n place).place n = place := Function.update_self ..

theorem put_other (other : m ≠ n) : (s.put n place).place m = s.place m := Function.update_of_ne other ..

/-- The steps of the parties. Testing the lock and setting it is one step; the
test of a lock that is taken changes nothing. -/
inductive Step (s : State Name Op) : List (Label Name Op) → State Name Op → Prop where
  | idles : Step s [] s
  | calls {n : Name} (job : List Op) (outside : s.place n = .outside) : Step s [] (s.put n (.spinning job))
  | acquires {n : Name} {job : List Op} (spinning : s.place n = .spinning job) (free : s.locked = false) :
      Step s [.acquires n job] { s.put n (.inside job) with locked := true }
  | acts {n : Name} {op : Op} {rest : List Op} (inside : s.place n = .inside (op :: rest)) :
      Step s [.acts n op] (s.put n (.inside rest))
  | releases {n : Name} (inside : s.place n = .inside []) :
      Step s [.releases n] { s.put n .outside with locked := false }

inductive Steps : State Name Op → List (Label Name Op) → State Name Op → Prop where
  | nil (s : State Name Op) : Steps s [] s
  | snoc {s s' s'' : State Name Op} {trace new : List (Label Name Op)} (first : Steps s trace s') (last : Step s' new s'') :
      Steps s (trace ++ new) s''

/-- A party that is not under the lock moves, and not under it. -/
theorem Serial.put (serial : Serial trace s) (before : ∀ rest, s.place n ≠ .inside rest) (after : ∀ rest, place ≠ .inside rest) :
    Serial trace (s.put n place) := by
  have keeps : ∀ m rest, (s.put n place).place m = .inside rest → s.place m = .inside rest := by
    intro m rest inside
    by_cases isN : m = n
    · subst isN
      rw [put_same] at inside
      exact absurd inside (after rest)
    · rwa [put_other isN] at inside
  cases serial with
  | free unlocked nobody done => exact .free unlocked (fun m rest inside => nobody m rest (keeps m rest inside)) done
  | held h rest locked inside alone done =>
    have other : h ≠ n := by
      rintro rfl
      exact before rest inside
    exact .held h rest locked (by rwa [put_other other]) (fun m rest' there => alone m rest' (keeps m rest' there)) done

/-- Nobody but the one who moves is under the lock. -/
theorem alone_put (alone : ∀ m rest, s.place m = .inside rest → m = n) (m : Name) (rest : List Op)
    (inside : (s.put n place).place m = .inside rest) : m = n := by
  by_contra other
  rw [put_other other] at inside
  exact other (alone m rest inside)

theorem Step.serial {new : List (Label Name Op)} (step : Step s new s') (serial : Serial trace s) : Serial (trace ++ new) s' := by
  cases step with
  | idles => rwa [List.append_nil]
  | calls job outside =>
    rw [List.append_nil]
    exact serial.put (by simp [outside]) (by simp)
  | @acquires n job spinning free =>
    cases serial with
    | held _ _ locked =>
      rw [free] at locked
      cases locked
    | free _ nobody done =>
      refine .held n job rfl put_same (alone_put fun m rest inside => absurd inside (nobody m rest)) ?_
      simp [ops_append, jobs_append, ops, jobs, done]
  | @acts n op rest inside =>
    obtain ⟨locked, done⟩ := serial.progress inside
    refine .held n rest locked put_same (alone_put fun m rest' there => (serial.exclusive there inside).1) ?_
    simpa [ops_append, jobs_append, ops, jobs] using done
  | @releases n inside =>
    obtain ⟨_, done⟩ := serial.progress inside
    refine .free rfl (fun m rest there => ?_) ?_
    · have isN := alone_put (fun m rest' there => (serial.exclusive there inside).1) m rest there
      have outside : (s.put n .outside).place n = .inside rest := isN ▸ there
      rw [put_same] at outside
      cases outside
    · simpa [ops_append, jobs_append, ops, jobs] using done

/-- **Jobs under a spin lock do not mix.** -/
theorem serial_of_steps (steps : Steps s₀ trace s) (unlocked : s₀.locked = false) (nobody : ∀ n rest, s₀.place n ≠ .inside rest) :
    Serial trace s := by
  induction steps with
  | nil => exact .free unlocked nobody rfl
  | snoc _ last ih => exact last.serial ih

end HobbyKernel.SpinLock
