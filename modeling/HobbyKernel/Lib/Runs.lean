import Mathlib.Data.List.Basic

/-! Runs of a machine whose steps may fail and emit events. Which steps a run may
take is a condition on the state and the action, so that a property can be
proved of all runs that keep to some discipline. -/
namespace HobbyKernel.Runs

variable {σ α ε : Type} {step : σ → α → Option (σ × List ε)} {allowed allowed' : σ → α → Prop}
  {s s' : σ} {events : List ε}

/-- A state reached from `s` by allowed steps, and the events on the way. -/
inductive Run (step : σ → α → Option (σ × List ε)) (allowed : σ → α → Prop) (s : σ) : List ε → σ → Prop where
  | start : Run step allowed s [] s
  | next {events new : List ε} {s' s'' : σ} (a : α) (run : Run step allowed s events s') (may : allowed s' a)
      (did : step s' a = some (s'', new)) : Run step allowed s (events ++ new) s''

/-- What holds at the start and is kept by every allowed step holds in every
state reached, together with the events so far. -/
theorem Run.invariant (inv : List ε → σ → Prop) (run : Run step allowed s events s') (start : inv [] s)
    (keep : ∀ events s a s' new, inv events s → allowed s a → step s a = some (s', new) →
      inv (events ++ new) s') : inv events s' := by
  induction run with
  | start => exact start
  | next a _ may did ih => exact keep _ _ a _ _ ih may did

theorem Run.mono (run : Run step allowed s events s') (weaker : ∀ s a, allowed s a → allowed' s a) :
    Run step allowed' s events s' := by
  induction run with
  | start => exact .start
  | next a _ may did ih => exact .next a ih (weaker _ _ may) did

theorem Run.trans {more : List ε} {s'' : σ} (first : Run step allowed s events s')
    (second : Run step allowed s' more s'') : Run step allowed s (events ++ more) s'' := by
  induction second with
  | start => rwa [List.append_nil]
  | next a _ may did ih =>
    rw [← List.append_assoc]
    exact ih.next a may did

/-- A machine that can match every allowed step of another one, with the same
events, can match its runs. -/
theorem Run.simulated {τ : Type} {t : τ} {step' : τ → α → Option (τ × List ε)} (run : Run step allowed s events s')
    (may' : τ → α → Prop) (matched : σ → τ → Prop) (start : matched s t)
    (keep : ∀ s t a s' new, matched s t → allowed s a → step s a = some (s', new) →
      ∃ t', may' t a ∧ step' t a = some (t', new) ∧ matched s' t') :
    ∃ t', Run step' may' t events t' ∧ matched s' t' := by
  induction run with
  | start => exact ⟨t, .start, start⟩
  | next a _ may did ih =>
    obtain ⟨t₁, run', same⟩ := ih
    obtain ⟨t₂, allowed', did', next⟩ := keep _ _ a _ _ same may did
    exact ⟨t₂, run'.next a allowed' did', next⟩

/-- The event happened, and nothing of some kind has happened since. -/
def Since (ends : ε → Prop) (e : ε) (events : List ε) : Prop :=
  ∃ before after, events = before ++ e :: after ∧ ∀ later ∈ after, ¬ ends later

theorem Since.append {ends : ε → Prop} {e : ε} {new : List ε} (since : Since ends e events)
    (quiet : ∀ later ∈ new, ¬ ends later) : Since ends e (events ++ new) := by
  obtain ⟨before, after, rfl, still⟩ := since
  refine ⟨before, after ++ new, by simp, fun later member => ?_⟩
  rcases List.mem_append.mp member with old | recent
  · exact still later old
  · exact quiet later recent

/-- An event of a longer history is an old one or a new one. -/
theorem append_split {new before after : List ε} {e : ε} (split : events ++ new = before ++ e :: after) :
    (∃ middle, events = before ++ e :: middle ∧ after = middle ++ new) ∨
      ∃ first, before = events ++ first ∧ new = first ++ e :: after := by
  rcases List.append_eq_append_iff.mp split with ⟨first, isBefore, rest⟩ | ⟨middle, isEvents, rest⟩
  · exact .inr ⟨first, isBefore, rest⟩
  · cases middle with
    | nil => exact .inr ⟨[], by simpa using isEvents.symm, rest.symm⟩
    | cons head tail =>
      cases rest
      exact .inl ⟨tail, isEvents, rfl⟩

/-- Every event is in order after the ones before it. -/
def Each (fits : List ε → ε → Prop) (events : List ε) : Prop :=
  ∀ before e after, events = before ++ e :: after → fits before e

theorem Each.nil {fits : List ε → ε → Prop} : Each fits [] := by
  intro before e after split
  cases before <;> cases split

theorem Each.append {fits : List ε → ε → Prop} {new : List ε} (each : Each fits events)
    (next : ∀ before e after, new = before ++ e :: after → fits (events ++ before) e) :
    Each fits (events ++ new) := by
  intro before e after split
  rcases append_split split with ⟨middle, old, _⟩ | ⟨first, rfl, recent⟩
  · exact each before e middle old
  · exact next first e after recent

/-- An event that something of the kind has followed does not count any more. -/
theorem not_since {ends : ε → Prop} {e last : ε} {before after : List ε} (ended : ends last) (other : last ≠ e)
    (never : e ∉ after) : ¬ Since ends e (before ++ last :: after) := by
  rintro ⟨first, second, split, still⟩
  rcases List.append_eq_append_iff.mp split with ⟨middle, _, rest⟩ | ⟨middle, _, rest⟩
  · cases middle with
    | nil => exact other (List.cons.inj rest).1
    | cons head tail =>
      cases rest
      exact never (List.mem_append_right _ List.mem_cons_self)
  · cases middle with
    | nil => exact other (List.cons.inj rest).1.symm
    | cons head tail =>
      cases rest
      exact still last (List.mem_append_right _ List.mem_cons_self) ended

/-- Take a list of actions one after the other, each only if a test lets it. -/
def exec (check : σ → α → Bool) (step : σ → α → Option (σ × List ε)) (s : σ) : List α → Option (σ × List ε)
  | [] => some (s, [])
  | a :: rest =>
    if check s a then
      match step s a with
      | none => none
      | some (s', new) => (exec check step s' rest).map fun (s'', more) => (s'', new ++ more)
    else none

theorem Run.append_exec {check : σ → α → Bool} {actions : List α} {more : List ε} {s'' : σ}
    (run : Run step allowed s events s') (may : ∀ s a, a ∈ actions → check s a = true → allowed s a)
    (did : exec check step s' actions = some (s'', more)) : Run step allowed s (events ++ more) s'' := by
  induction actions generalizing events s' more with
  | nil =>
    cases did
    rwa [List.append_nil]
  | cons a rest ih =>
    simp only [exec] at did
    split at did
    · rename_i checked
      split at did
      · cases did
      · rename_i s₁ new moved
        obtain ⟨⟨s₂, later⟩, done, same⟩ := Option.map_eq_some_iff.mp did
        cases same
        rw [← List.append_assoc]
        refine ih (run.next a (may s' a List.mem_cons_self checked) moved) (fun s b member => ?_) done
        exact may s b (List.mem_cons_of_mem a member)
    · cases did

/-- Actions that can all be taken, and that pass a test for being allowed, are
a run. -/
theorem run_of_exec {check : σ → α → Bool} {actions : List α}
    (may : ∀ s a, a ∈ actions → check s a = true → allowed s a)
    (did : exec check step s actions = some (s', events)) : Run step allowed s events s' :=
  Run.append_exec .start may did

end HobbyKernel.Runs
