import Mathlib.Data.Nat.Bitwise
import Mathlib.Data.List.Basic

/-! Round robin on places in a ring. A scan looks at the places behind the
current one in turn, the current one last, and takes the first that is ready.
Whoever is ready at every scan comes closer with each of them until it is
taken. -/
namespace HobbyKernel.RoundRobin

variable {n : Nat} {start place other next : Fin n} {steps : Nat} {ready : Fin n → Bool}

/-- How many steps a place is ahead, from 1 for the next one to `n` for the
place itself. -/
def distance (start place : Fin n) : Nat :=
  if start.val < place.val then place.val - start.val else place.val + n - start.val

theorem distance_range (start place : Fin n) : 1 ≤ distance start place ∧ distance start place ≤ n := by
  have := start.isLt
  have := place.isLt
  unfold distance
  split <;> omega

/-- When another place is taken first, the ones behind it come closer. -/
theorem distance_decreases (nearer : distance start next < distance start place) :
    distance next place < distance start place := by
  have := start.isLt
  have := place.isLt
  have := next.isLt
  unfold distance at nearer ⊢
  split at nearer <;> split at nearer <;> split <;> omega

variable [NeZero n]

/-- The place some steps ahead. -/
def ahead (start : Fin n) (steps : Nat) : Fin n := Fin.ofNat n (start.val + steps)

/-- All places, in the order of the scan. -/
def order (start : Fin n) : List (Fin n) := (List.range' 1 n).map (ahead start)

theorem ahead_distance (start place : Fin n) : ahead start (distance start place) = place := by
  have := start.isLt
  have bound := place.isLt
  apply Fin.ext
  rw [ahead, Fin.val_ofNat, distance]
  split
  · rw [Nat.add_sub_cancel' (by omega), Nat.mod_eq_of_lt bound]
  · rw [Nat.add_sub_cancel' (by omega), Nat.add_mod_right, Nat.mod_eq_of_lt bound]

theorem distance_ahead (start : Fin n) (some : 1 ≤ steps) (most : steps ≤ n) : distance start (ahead start steps) = steps := by
  have bound := start.isLt
  rw [distance, ahead, Fin.val_ofNat]
  by_cases inside : start.val + steps < n
  · rw [Nat.mod_eq_of_lt inside, if_pos (by omega)]
    omega
  · have wraps : (start.val + steps) % n = start.val + steps - n := by
      rw [Nat.mod_eq_sub_mod (by omega), Nat.mod_eq_of_lt (by omega)]
    rw [wraps, if_neg (by omega)]
    omega

theorem mem_order (start place : Fin n) : place ∈ order start := by
  obtain ⟨some, most⟩ := distance_range start place
  refine List.mem_map.mpr ⟨distance start place, ?_, ahead_distance start place⟩
  rw [List.mem_range'_1]
  omega

/-- Of two places in the order the nearer one comes first. -/
theorem order_sorted (start : Fin n) : (order start).Pairwise fun place other => distance start place < distance start other := by
  rw [order, List.pairwise_map]
  refine List.Pairwise.imp_of_mem (fun {a b} first second before => ?_) (List.pairwise_lt_range' (s := 1) (n := n))
  rw [List.mem_range'_1] at first second
  rw [distance_ahead start (by omega) (by omega), distance_ahead start (by omega) (by omega)]
  exact before

/-- The scan takes the nearest place that is ready. -/
theorem scan_nearest (found : (order start).find? ready = some next) :
    ready next = true ∧ ∀ place, place ≠ next → ready place = true → distance start next < distance start place := by
  obtain ⟨isReady, before, after, split, passed⟩ := List.find?_eq_some_iff_append.mp found
  refine ⟨isReady, fun place other placeReady => ?_⟩
  have sorted := order_sorted start
  rw [split, List.pairwise_append] at sorted
  have member : place ∈ before ++ next :: after := split ▸ mem_order start place
  rcases List.mem_append.mp member with early | late
  · have notReady := passed place early
    rw [placeReady] at notReady
    cases notReady
  · rcases List.mem_cons.mp late with same | behind
    · exact absurd same other
    · exact (List.pairwise_cons.mp sorted.2.1).1 place behind

/-- Nothing is taken when nothing is ready. -/
theorem scan_none_iff : (order start).find? ready = none ↔ ∀ place, ready place = false := by
  rw [List.find?_eq_none]
  constructor
  · exact fun none place => Bool.eq_false_iff.mpr (none place (mem_order start place))
  · intro none place _
    rw [none place]
    decide

/-- A place that is ready at every scan is taken before the scans have gone round
the ring. -/
theorem taken_within (ready : Nat → Fin n → Bool) (current : Nat → Fin n) (place : Fin n) (count : Nat) {first : Nat}
    (near : distance (current first) place ≤ count)
    (scans : ∀ i, first ≤ i → i < first + count → (order (current i)).find? (ready i) = some (current (i + 1)))
    (waits : ∀ i, first ≤ i → i < first + count → ready i place = true) :
    ∃ i, first ≤ i ∧ i < first + count ∧ current (i + 1) = place := by
  induction count generalizing first with
  | zero =>
    have some := (distance_range (current first) place).1
    omega
  | succ count ih =>
    by_cases taken : current (first + 1) = place
    · exact ⟨first, by omega, by omega, taken⟩
    · have nearest := (scan_nearest (scans first (by omega) (by omega))).2 place (Ne.symm taken) (waits first (by omega) (by omega))
      have closer := distance_decreases nearest
      obtain ⟨i, later, soon, isPlace⟩ := @ih (first + 1) (by omega) (fun i low high => scans i (by omega) (by omega))
        (fun i low high => waits i (by omega) (by omega))
      exact ⟨i, by omega, by omega, isPlace⟩

end HobbyKernel.RoundRobin
