import Mathlib.Data.List.Basic

/-! Counted loops whose body may stop them early. The state is threaded through
the body; `false` stops the loop and keeps the state reached so far, as an
early `return` in the middle of a loop does. -/
namespace HobbyKernel.Loop

variable {ι κ σ : Type}

/-- Run the body on each index in turn until it answers `false`. -/
def forEach (body : ι → σ → σ × Bool) : List ι → σ → σ × Bool
  | [], s => (s, true)
  | i :: rest, s =>
    match body i s with
    | (s, true) => forEach body rest s
    | (s, false) => (s, false)

variable {body body' : ι → σ → σ × Bool} {indices : List ι} {s : σ}

@[simp] theorem forEach_nil : forEach body [] s = (s, true) := rfl

theorem forEach_cons (i : ι) : forEach body (i :: indices) s =
    if (body i s).2 = true then forEach body indices (body i s).1 else ((body i s).1, false) := by
  rw [forEach]
  rcases body i s with ⟨next, _ | _⟩ <;> rfl

theorem forEach_single (i : ι) : forEach body [i] s = body i s := by
  rw [forEach]
  rcases body i s with ⟨next, _ | _⟩ <;> rfl

theorem forEach_append (more : List ι) : forEach body (indices ++ more) s =
    if (forEach body indices s).2 = true then forEach body more (forEach body indices s).1
    else ((forEach body indices s).1, false) := by
  induction indices generalizing s with
  | nil => simp
  | cons i rest ih =>
    rw [List.cons_append, forEach_cons, forEach_cons]
    split
    · exact ih
    · rfl

/-- An invariant that every iteration keeps, whether or not it stops the loop,
holds where the loop ends. -/
theorem forEach_invariant (inv : σ → Prop) (start : inv s)
    (keep : ∀ i ∈ indices, ∀ s, inv s → inv (body i s).1) : inv (forEach body indices s).1 := by
  induction indices generalizing s with
  | nil => exact start
  | cons i rest ih =>
    have next := keep i (by simp) s start
    rw [forEach_cons]
    split
    · exact ih next (fun j member => keep j (by simp [member]))
    · exact next

/-- Loops whose rounds correspond, on related states, end alike. -/
theorem forEach_simulates {τ : Type} {other : ι → τ → τ × Bool} (rel : σ → τ → Prop) {t : τ} (start : rel s t)
    (step : ∀ i ∈ indices, ∀ s t, rel s t → (body i s).2 = (other i t).2 ∧ rel (body i s).1 (other i t).1) :
    (forEach body indices s).2 = (forEach other indices t).2 ∧
      rel (forEach body indices s).1 (forEach other indices t).1 := by
  induction indices generalizing s t with
  | nil => exact ⟨rfl, start⟩
  | cons i rest ih =>
    obtain ⟨alike, next⟩ := step i (by simp) s t start
    rw [forEach_cons, forEach_cons, ← alike]
    split
    · exact ih next (fun j member => step j (by simp [member]))
    · exact ⟨rfl, next⟩

/-- Two loops agree when their bodies agree on every state the invariant
allows. -/
theorem forEach_congr (inv : σ → Prop) (start : inv s)
    (keep : ∀ i ∈ indices, ∀ s, inv s → inv (body i s).1)
    (same : ∀ i ∈ indices, ∀ s, inv s → body' i s = body i s) :
    forEach body' indices s = forEach body indices s := by
  induction indices generalizing s with
  | nil => rfl
  | cons i rest ih =>
    rw [forEach_cons, forEach_cons, same i (by simp) s start]
    split
    · exact ih (keep i (by simp) s start) (fun j member => keep j (by simp [member]))
        (fun j member => same j (by simp [member]))
    · rfl

/-- A loop that only tests the state ends with whether all tests passed. -/
theorem forEach_test (test : ι → σ → Bool) (indices : List ι) :
    forEach (fun i s => (s, test i s)) indices s = (s, indices.all (test · s)) := by
  induction indices with
  | nil => rfl
  | cons i rest ih =>
    rw [forEach_cons, List.all_cons, ih]
    cases test i s <;> rfl

theorem forEach_map (f : κ → ι) (l : List κ) : forEach body (l.map f) s = forEach (fun k => body (f k)) l s := by
  induction l generalizing s with
  | nil => rfl
  | cons k rest ih =>
    rw [List.map_cons, forEach_cons, forEach_cons]
    split
    · exact ih
    · rfl

/-- A loop nested in a loop is one loop over the combined indices. -/
theorem forEach_flatMap (inner : κ → List ι) (outer : List κ) :
    forEach (fun k s => forEach body (inner k) s) outer s =
      forEach body (outer.flatMap inner) s := by
  induction outer generalizing s with
  | nil => rfl
  | cons k rest ih =>
    rw [forEach_cons, List.flatMap_cons, forEach_append, ih]

end HobbyKernel.Loop
