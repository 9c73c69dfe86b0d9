import Mathlib.Data.Set.Basic
import Mathlib.Logic.Function.Basic

/-! Synchronous messages between any number of parties. A party that finds its
partner asleep hands the message over and goes on; a party that finds nobody
falls asleep until a partner comes. Nothing here says how parties find each
other or in which order they run. -/
namespace HobbyKernel.Rendezvous

variable {Name Msg : Type}

/-- Where a party is in its exchange of messages. -/
inductive Phase (Name : Type) where
  | idle
  | offering (targets : Set Name)
  | accepting (sources : Set Name)
  | met

inductive Label (Name Msg : Type) where
  | offers (p : Name) (targets : Set Name)
  | accepts (p : Name) (sources : Set Name)
  | passes (sender receiver : Name) (message : Msg)
  | returns (p : Name)

/-- Whom a step is about. -/
def Label.Involves : Label Name Msg → Name → Prop
  | .offers p _, q => q = p
  | .accepts p _, q => q = p
  | .passes sender receiver _, q => q = sender ∨ q = receiver
  | .returns p, q => q = p

/-- The hand-over that a sleeping party waits for. -/
def Phase.Awaits (p : Name) : Phase Name → Label Name Msg → Prop
  | .offering targets, .passes sender receiver _ => sender = p ∧ receiver ∈ targets
  | .accepting sources, .passes sender receiver _ => receiver = p ∧ sender ∈ sources
  | _, _ => False

def Phase.Asleep : Phase Name → Prop
  | .offering _ | .accepting _ => True
  | _ => False

/-- The step with which a party falls asleep in a phase. -/
def Phase.begins (p : Name) : Phase Name → Option (Label Name Msg)
  | .offering targets => some (.offers p targets)
  | .accepting sources => some (.accepts p sources)
  | _ => none

theorem Phase.begins_asleep {phase : Phase Name} {p : Name} {l : Label Name Msg} (begins : phase.begins p = some l) :
    phase.Asleep := by
  cases phase with
  | offering | accepting => trivial
  | idle | met => cases begins

theorem Phase.awaits_passes {phase : Phase Name} {p : Name} {l : Label Name Msg} (awaits : phase.Awaits p l) :
    ∃ sender receiver message, l = .passes sender receiver message := by
  cases l with
  | passes sender receiver message => exact ⟨sender, receiver, message, rfl⟩
  | offers | accepts | returns => cases phase <;> exact awaits.elim

variable [DecidableEq Name]

open Function (update)

/-- The steps of the parties. Of the two that meet, one is asleep. -/
inductive Step (P : Name → Phase Name) : Label Name Msg → (Name → Phase Name) → Prop where
  | offers {p : Name} {targets : Set Name} (awake : P p = .idle) :
      Step P (.offers p targets) (update P p (.offering targets))
  | accepts {p : Name} {sources : Set Name} (awake : P p = .idle) :
      Step P (.accepts p sources) (update P p (.accepting sources))
  | given {sender receiver : Name} {sources : Set Name} (message : Msg) (awake : P sender = .idle)
      (asleep : P receiver = .accepting sources) (wanted : sender ∈ sources) :
      Step P (.passes sender receiver message) (update (update P sender .met) receiver .met)
  | taken {sender receiver : Name} {targets : Set Name} (message : Msg) (asleep : P sender = .offering targets)
      (wanted : receiver ∈ targets) (awake : P receiver = .idle) :
      Step P (.passes sender receiver message) (update (update P sender .met) receiver .met)
  | returns {p : Name} (awake : P p = .idle ∨ P p = .met) : Step P (.returns p) (update P p .idle)

inductive Steps : (Name → Phase Name) → List (Label Name Msg) → (Name → Phase Name) → Prop where
  | nil (P : Name → Phase Name) : Steps P [] P
  | cons {P P' P'' : Name → Phase Name} {l : Label Name Msg} {trace : List (Label Name Msg)} (first : Step P l P')
      (rest : Steps P' trace P'') : Steps P (l :: trace) P''

variable {P P' P'' : Name → Phase Name} {p : Name} {l : Label Name Msg} {trace more : List (Label Name Msg)}

theorem Steps.append (first : Steps P trace P') (second : Steps P' more P'') : Steps P (trace ++ more) P'' := by
  induction first with
  | nil => exact second
  | cons step _ ih => exact .cons step (ih second)

theorem Steps.split (steps : Steps P (trace ++ more) P'') : ∃ P', Steps P trace P' ∧ Steps P' more P'' := by
  induction trace generalizing P with
  | nil => exact ⟨P, .nil P, steps⟩
  | cons l rest ih =>
    cases steps with
    | cons first others =>
      obtain ⟨P', before, after⟩ := ih others
      exact ⟨P', .cons first before, after⟩

/-- A step leaves everybody else where they are. -/
theorem Step.others (step : Step P l P') (notMine : ¬ l.Involves p) : P' p = P p := by
  cases step with
  | offers => exact Function.update_of_ne notMine _ _
  | accepts => exact Function.update_of_ne notMine _ _
  | given | taken =>
    rw [Function.update_of_ne (fun same => notMine (.inr same)), Function.update_of_ne (fun same => notMine (.inl same))]
  | returns => exact Function.update_of_ne notMine _ _

/-- Whoever falls asleep is in the phase of its call. -/
theorem Step.falls_asleep {phase : Phase Name} (step : Step P l P') (begins : phase.begins p = some l) : P' p = phase := by
  cases phase with
  | offering | accepting =>
    cases begins
    cases step
    exact Function.update_self ..
  | idle | met => cases begins

/-- Whoever has met its partner can only return. -/
theorem Step.of_met (step : Step P l P') (met : P p = .met) (mine : l.Involves p) : l = .returns p := by
  cases step with
  | offers awake | accepts awake =>
    obtain rfl : p = _ := mine
    rw [met] at awake
    cases awake
  | given _ awake asleep =>
    rcases mine with rfl | rfl
    · rw [met] at awake
      cases awake
    · rw [met] at asleep
      cases asleep
  | taken _ asleep _ awake =>
    rcases mine with rfl | rfl
    · rw [met] at asleep
      cases asleep
    · rw [met] at awake
      cases awake
  | returns => exact congrArg _ (Eq.symm mine)

/-- Whoever sleeps is only reached by the hand-over it waits for. -/
theorem Step.of_asleep (step : Step P l P') (asleep : (P p).Asleep) (mine : l.Involves p) : (P p).Awaits p l ∧ P' p = .met := by
  cases step with
  | offers awake | accepts awake =>
    obtain rfl : p = _ := mine
    rw [awake] at asleep
    exact asleep.elim
  | @given sender receiver sources _ awake sleeps wanted =>
    rcases mine with rfl | rfl
    · rw [awake] at asleep
      exact asleep.elim
    · rw [sleeps]
      exact ⟨⟨rfl, wanted⟩, Function.update_self ..⟩
  | @taken sender receiver targets _ sleeps wanted awake =>
    rcases mine with rfl | rfl
    · have other : p ≠ receiver := by
        rintro rfl
        rw [sleeps] at awake
        cases awake
      rw [sleeps, Function.update_of_ne other]
      exact ⟨⟨rfl, wanted⟩, Function.update_self ..⟩
    · rw [awake] at asleep
      exact asleep.elim
  | returns awake =>
    obtain rfl : p = _ := mine
    rcases awake with awake | awake <;> (rw [awake] at asleep; exact asleep.elim)

/-- After a hand-over nothing happens to a party until it returns. -/
theorem Steps.of_met (steps : Steps P trace P') (met : P p = .met) (inside : .returns p ∉ trace) :
    (∀ l ∈ trace, ¬ l.Involves p) ∧ P' p = .met := by
  induction steps with
  | nil => exact ⟨by simp, met⟩
  | @cons P P₁ P₂ l rest first _ ih =>
    have notMine : ¬ l.Involves p := fun mine => inside (first.of_met met mine ▸ List.mem_cons_self)
    obtain ⟨others, still⟩ := ih (first.others notMine ▸ met) (fun later => inside (List.mem_cons_of_mem _ later))
    exact ⟨List.forall_mem_cons.mpr ⟨notMine, others⟩, still⟩

/-- A sleeping party sleeps on, or has met exactly one partner, and that one was
a partner it waited for. -/
theorem Steps.of_asleep (steps : Steps P trace P') (asleep : (P p).Asleep) (inside : .returns p ∉ trace) :
    ((∀ l ∈ trace, ¬ l.Involves p) ∧ P' p = P p) ∨
      (∃ before l after, trace = before ++ l :: after ∧ (P p).Awaits p l ∧ ∀ other ∈ before ++ after, ¬ other.Involves p) ∧
        P' p = .met := by
  induction steps with
  | nil => exact .inl ⟨by simp, rfl⟩
  | @cons P P₁ P₂ l rest first others ih =>
    have later : .returns p ∉ rest := fun member => inside (List.mem_cons_of_mem _ member)
    by_cases mine : l.Involves p
    · obtain ⟨awaited, met⟩ := first.of_asleep asleep mine
      obtain ⟨none, still⟩ := others.of_met met later
      exact .inr ⟨⟨[], l, rest, rfl, awaited, none⟩, still⟩
    · rw [first.others mine] at ih
      rcases ih asleep later with ⟨none, same⟩ | ⟨⟨before, l', after, rfl, awaited, none⟩, met⟩
      · exact .inl ⟨List.forall_mem_cons.mpr ⟨mine, none⟩, same⟩
      · exact .inr ⟨⟨l :: before, l', after, rfl, awaited, List.forall_mem_cons.mpr ⟨mine, none⟩⟩, met⟩

/-- Nobody returns in its sleep. -/
theorem Step.returns_awake (step : Step P (.returns p : Label Name Msg) P') : ¬ (P p).Asleep := by
  cases step with
  | returns awake => rcases awake with awake | awake <;> (rw [awake]; exact id)

/-- **Exactly once.** From the moment a party falls asleep to the moment it
returns, one message passes between it and a party it waits for, and nothing
else happens to it. -/
theorem Steps.met_once (steps : Steps P (trace ++ .returns p :: more) P') (asleep : (P p).Asleep)
    (inside : .returns p ∉ trace) : ∃ before l after, trace = before ++ l :: after ∧ (P p).Awaits p l ∧
      ∀ other ∈ before ++ after, ¬ other.Involves p := by
  obtain ⟨P₁, first, second⟩ := steps.split
  rcases first.of_asleep asleep inside with ⟨_, same⟩ | ⟨once, _⟩
  · cases second with
    | cons returned => exact absurd asleep (same ▸ returned.returns_awake)
  · exact once

/-- Whoever sleeps after a step slept before, or fell asleep in it. -/
theorem Step.fell_asleep (step : Step P l P') (asleep : (P' p).Asleep) (mine : l.Involves p) :
    (P' p).begins p = some l := by
  cases step with
  | offers | accepts =>
    obtain rfl : p = _ := mine
    rw [Function.update_self]
    rfl
  | @given sender receiver | @taken sender receiver =>
    by_cases isReceiver : p = receiver
    · rw [isReceiver, Function.update_self] at asleep
      exact asleep.elim
    · obtain rfl : p = sender := mine.resolve_right isReceiver
      rw [Function.update_of_ne isReceiver, Function.update_self] at asleep
      exact asleep.elim
  | returns =>
    obtain rfl : p = _ := mine
    rw [Function.update_self] at asleep
    exact asleep.elim

/-- Whoever sleeps has fallen asleep, and nothing has happened to it since. -/
theorem Steps.fell_asleep (steps : Steps P trace P') (asleep : (P' p).Asleep) :
    ((∀ l ∈ trace, ¬ l.Involves p) ∧ P p = P' p) ∨ ∃ before l after, trace = before ++ l :: after ∧
      (P' p).begins p = some l ∧ ∀ other ∈ after, ¬ other.Involves p := by
  induction steps with
  | nil => exact .inl ⟨by simp, rfl⟩
  | @cons P P₁ P₂ l rest first _ ih =>
    rcases ih asleep with ⟨none, same⟩ | ⟨before, l', after, rfl, begins, none⟩
    · by_cases mine : l.Involves p
      · exact .inr ⟨[], l, rest, rfl, same ▸ first.fell_asleep (same ▸ asleep) mine, none⟩
      · exact .inl ⟨List.forall_mem_cons.mpr ⟨mine, none⟩, (first.others mine).symm.trans same⟩
    · exact .inr ⟨l :: before, l', after, rfl, begins, none⟩

/-- **Nothing from nowhere.** A message passes only to or from a party that has
fallen asleep waiting for it and that nothing has happened to since. -/
theorem Steps.awaited {sender receiver : Name} {message : Msg} (steps : Steps P (trace ++ .passes sender receiver message :: more) P')
    (start : ∀ p, P p = .idle) : ∃ p before l after phase, trace = before ++ l :: after ∧ Phase.begins p phase = some l ∧
      phase.Awaits p (.passes sender receiver message) ∧ ∀ other ∈ after, ¬ other.Involves p := by
  obtain ⟨P₁, first, second⟩ := steps.split
  have slept : ∀ p, (P₁ p).Asleep → ∃ before l after, trace = before ++ l :: after ∧ (P₁ p).begins p = some l ∧
      ∀ other ∈ after, ¬ other.Involves p := fun p asleep => by
    rcases first.fell_asleep asleep with ⟨_, same⟩ | fell
    · rw [← same, start] at asleep
      exact asleep.elim
    · exact fell
  cases second with
  | cons meets _ =>
    cases meets with
    | given _ _ asleep wanted =>
      obtain ⟨before, l, after, split, begins, none⟩ := slept receiver (by rw [asleep]; trivial)
      exact ⟨receiver, before, l, after, P₁ receiver, split, begins, by rw [asleep]; exact ⟨rfl, wanted⟩, none⟩
    | taken _ asleep wanted _ =>
      obtain ⟨before, l, after, split, begins, none⟩ := slept sender (by rw [asleep]; trivial)
      exact ⟨sender, before, l, after, P₁ sender, split, begins, by rw [asleep]; exact ⟨rfl, wanted⟩, none⟩

end HobbyKernel.Rendezvous
