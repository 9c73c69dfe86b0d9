import Mathlib.Data.List.Basic

/-! Numerals by their last digit: what dividing by the base takes off, and what
is left at the front. -/
namespace HobbyKernel.Numerals

variable {base n : Nat}

/-- The digits down from the first that is not zero: none for zero itself. -/
def significant (base n : Nat) : List Char := if n = 0 then [] else Nat.toDigits base n

theorem significant_zero : significant base 0 = [] := if_pos rfl

theorem toDigits_significant (positive : 0 < n) : Nat.toDigits base n = significant base n := (if_neg (Nat.ne_of_gt positive)).symm

/-- Dividing by the base takes the last digit off. -/
theorem significant_step (large : 1 < base) (positive : 0 < n) :
    significant base n = significant base (n / base) ++ [Nat.digitChar (n % base)] := by
  rw [← toDigits_significant positive, Nat.toDigits_eq_if large]
  split
  · next small =>
    rw [Nat.div_eq_of_lt small, significant_zero, Nat.mod_eq_of_lt small]
    rfl
  · next big =>
    rw [toDigits_significant (Nat.div_pos (Nat.not_lt.mp big) (Nat.lt_of_succ_lt large))]

theorem mem_toDigits {c : Char} (large : 1 < base) (member : c ∈ Nat.toDigits base n) : ∃ d, d < base ∧ c = Nat.digitChar d := by
  induction n using Nat.strongRecOn with
  | ind n ih =>
    rw [Nat.toDigits_eq_if large] at member
    split at member
    · next small => exact ⟨n, small, List.mem_singleton.mp member⟩
    · next big =>
      rcases List.mem_append.mp member with before | last
      · exact ih _ (Nat.div_lt_self (by omega) large) before
      · exact ⟨n % base, Nat.mod_lt _ (Nat.lt_of_succ_lt large), List.mem_singleton.mp last⟩

/-- The first of them is not a zero. -/
theorem significant_head (large : 1 < base) (positive : 0 < n) :
    ∃ d, 0 < d ∧ d < base ∧ (significant base n).head? = some (Nat.digitChar d) := by
  induction n using Nat.strongRecOn with
  | ind n ih =>
    rw [significant_step large positive]
    by_cases small : n < base
    · rw [Nat.div_eq_of_lt small, significant_zero, Nat.mod_eq_of_lt small]
      exact ⟨n, positive, small, rfl⟩
    · have further : 0 < n / base := Nat.div_pos (Nat.not_lt.mp small) (Nat.lt_of_succ_lt large)
      obtain ⟨d, nonzero, below, head⟩ := ih _ (Nat.div_lt_self positive large) further
      exact ⟨d, nonzero, below, by rw [List.head?_append, head]; rfl⟩

end HobbyKernel.Numerals
