import HobbyKernel.Lib.Radix

/-! Sorted tables. Trees may share tables when every table has a sort: at which
level it is used, and by whom. The sort of a table and a place in it determine
the sort of what hangs there, so that entries of one sort can be written without
a thought for tables of another. A sorting only ever grows. -/
namespace HobbyKernel.Radix

variable {F I E S : Type} {L : Layout F I E} {below : S → I → Option S} {zone zone' : S → I → Prop}
  {mem mem' mem'' : F → I → E} {sort sort' sort'' : F → Option S} {f g t : F} {i j : I} {e : E} {σ σ' : S}
  {p before after : List I}

/-- Every edge leads to a table of the sort its place asks for. -/
def WellSorted (L : Layout F I E) (below : S → I → Option S) (mem : F → I → E) (sort : F → Option S) : Prop :=
  ∀ f σ i σ' g, sort f = some σ → below σ i = some σ' → L.dec (mem f i) = some g → sort g = some σ'

/-- Tables keep their sorts and their edges, and nothing in the zone is written. -/
structure Extends (L : Layout F I E) (below : S → I → Option S) (zone : S → I → Prop) (mem mem' : F → I → E)
    (sort sort' : F → Option S) : Prop where
  mono : ∀ f σ, sort f = some σ → sort' f = some σ
  edges : ∀ f σ i, sort f = some σ → below σ i ≠ none → L.dec (mem f i) ≠ none → mem' f i = mem f i
  kept : ∀ f σ i, sort f = some σ → zone σ i → mem' f i = mem f i

/-- A path from a table of some sort to a leaf entry, with every place on it in
the zone. -/
def Inside (below : S → I → Option S) (zone : S → I → Prop) : S → List I → Prop
  | _, [] => False
  | σ, [i] => zone σ i ∧ below σ i = none
  | σ, i :: j :: p => zone σ i ∧ ∃ σ', below σ i = some σ' ∧ Inside below zone σ' (j :: p)

theorem Extends.refl (sort : F → Option S) : Extends L below zone mem mem sort sort :=
  ⟨fun _ _ known => known, fun _ _ _ _ _ _ => rfl, fun _ _ _ _ _ => rfl⟩

theorem Extends.trans (first : Extends L below zone mem mem' sort sort')
    (second : Extends L below zone mem' mem'' sort' sort'') : Extends L below zone mem mem'' sort sort'' := by
  refine ⟨fun f σ known => second.mono f σ (first.mono f σ known), fun f σ i known inner edge => ?_,
    fun f σ i known inside => ?_⟩
  · have same := first.edges f σ i known inner edge
    rw [second.edges f σ i (first.mono f σ known) inner (same ▸ edge), same]
  · rw [second.kept f σ i (first.mono f σ known) inside, first.kept f σ i known inside]

theorem Extends.weaken (extension : Extends L below zone mem mem' sort sort') (fewer : ∀ σ i, zone' σ i → zone σ i) :
    Extends L below zone' mem mem' sort sort' :=
  ⟨extension.mono, extension.edges, fun f σ i known inside => extension.kept f σ i known (fewer σ i inside)⟩

/-- A path that stays in the zone meets only entries that were not written. -/
theorem Extends.visited (extension : Extends L below zone mem mem' sort sort') (sorted : WellSorted L below mem sort)
    (known : sort f = some σ) (inside : Inside below zone σ p) (split : p = before ++ j :: after)
    (reached : follow L mem f before = some t) : mem' t j = mem t j := by
  induction before generalizing f σ p with
  | nil =>
    cases reached
    subst split
    cases after with
    | nil => exact extension.kept t σ j known inside.1
    | cons k after => exact extension.kept t σ j known inside.1
  | cons i before ih =>
    obtain ⟨k, rest, tail⟩ : ∃ k rest, before ++ j :: after = k :: rest := by
      cases before with
      | nil => exact ⟨j, after, rfl⟩
      | cons k before => exact ⟨k, before ++ j :: after, rfl⟩
    subst split
    rw [List.cons_append, tail] at inside
    obtain ⟨_, σ', place, deeper⟩ := inside
    simp only [follow] at reached
    cases edge : L.dec (mem f i) with
    | none =>
      rw [edge] at reached
      cases reached
    | some g =>
      rw [edge] at reached
      exact ih (sorted f σ i σ' g known place edge) deeper tail.symm reached

/-- The table a path in the zone ends at holds leaf entries. -/
theorem WellSorted.leafTable (sorted : WellSorted L below mem sort) (known : sort f = some σ)
    (inside : Inside below zone σ (p ++ [i])) (reached : follow L mem f p = some t) :
    ∃ τ, sort t = some τ ∧ below τ i = none ∧ zone τ i := by
  induction p generalizing f σ with
  | nil =>
    cases reached
    exact ⟨σ, known, inside.2, inside.1⟩
  | cons j p ih =>
    obtain ⟨k, rest, tail⟩ : ∃ k rest, p ++ [i] = k :: rest := by
      cases p with
      | nil => exact ⟨i, [], rfl⟩
      | cons k p => exact ⟨k, p ++ [i], rfl⟩
    rw [List.cons_append, tail] at inside
    obtain ⟨_, σ', place, deeper⟩ := inside
    simp only [follow] at reached
    cases edge : L.dec (mem f j) with
    | none =>
      rw [edge] at reached
      cases reached
    | some g =>
      rw [edge] at reached
      exact ih (sorted f σ j σ' g known place edge) (tail ▸ deeper) reached

/-- Frames that are no tables may be written freely. -/
theorem WellSorted.elsewhere (zone : S → I → Prop) (sorted : WellSorted L below mem sort) (same : ∀ f, sort f ≠ none → mem' f = mem f) :
    WellSorted L below mem' sort ∧ Extends L below zone mem mem' sort sort := by
  have kept : ∀ f σ, sort f = some σ → mem' f = mem f := fun f σ known => same f (by simp [known])
  refine ⟨fun f σ i σ' g known place edge => ?_, fun _ _ known => known,
    fun f σ i known _ _ => congrFun (kept f σ known) i, fun f σ i known _ => congrFun (kept f σ known) i⟩
  rw [kept f σ known] at edge
  exact sorted f σ i σ' g known place edge

section Write
variable [DecidableEq F]

/-- A frame that was no table becomes one. -/
theorem WellSorted.adopt (zone : S → I → Prop) (σ : S) (sorted : WellSorted L below mem sort) (new : sort f = none)
    (same : ∀ g, sort g ≠ none → mem' g = mem g)
    (edges : ∀ i σ' g, below σ i = some σ' → L.dec (mem' f i) = some g → sort g = some σ') :
    WellSorted L below mem' (Function.update sort f (some σ)) ∧
      Extends L below zone mem mem' sort (Function.update sort f (some σ)) := by
  obtain ⟨sorted', extension⟩ := sorted.elsewhere zone same
  have grown : ∀ g τ, sort g = some τ → Function.update sort f (some σ) g = some τ := by
    intro g τ known
    rw [Function.update_of_ne, known]
    rintro rfl
    rw [new] at known
    cases known
  refine ⟨fun g τ i τ' h known place edge => grown h τ' ?_, grown, extension.edges, extension.kept⟩
  by_cases here : g = f
  · subst here
    rw [Function.update_self] at known
    cases known
    exact edges i τ' h place edge
  · rw [Function.update_of_ne here] at known
    exact sorted' g τ i τ' h known place edge

variable [DecidableEq I]

/-- A cleared frame is hung under an entry that was no edge. -/
theorem WellSorted.graft (zone : S → I → Prop) (sorted : WellSorted L below mem sort) (known : sort t = some σ) (place : below σ i = some σ')
    (absent : L.dec (mem t i) = none) (new : sort f = none) (edge : L.dec e = some f) (outside : ¬ zone σ i) :
    WellSorted L below (write (clear L mem f) t i e) (Function.update sort f (some σ')) ∧
      Extends L below zone mem (write (clear L mem f) t i e) sort (Function.update sort f (some σ')) := by
  have other : ∀ g τ, sort g = some τ → g ≠ f := by
    rintro g τ known rfl
    rw [new] at known
    cases known
  have grown : ∀ g τ, sort g = some τ → Function.update sort f (some σ') g = some τ := fun g τ known => by
    rw [Function.update_of_ne (other g τ known), known]
  have kept : ∀ g τ j, sort g = some τ → ¬ (g = t ∧ j = i) → write (clear L mem f) t i e g j = mem g j :=
    fun g τ j known apart => (write_other apart).trans (clear_other (other g τ known))
  refine ⟨fun g τ j τ' h sortOf place' edge' => ?_, grown, fun g τ j sortOf _ edge' => kept g τ j sortOf ?_,
    fun g τ j sortOf inside => kept g τ j sortOf ?_⟩
  · by_cases isNew : g = f
    · subst isNew
      rw [write_other fun both => other t σ known both.1.symm, clear_same, L.dec_empty] at edge'
      cases edge'
    · rw [Function.update_of_ne isNew] at sortOf
      by_cases here : g = t ∧ j = i
      · obtain ⟨rfl, rfl⟩ := here
        rw [known] at sortOf
        cases sortOf
        rw [place] at place'
        cases place'
        rw [write_same, edge] at edge'
        cases edge'
        exact Function.update_self ..
      · rw [kept g τ j sortOf here] at edge'
        exact grown h τ' (sorted g τ j τ' h sortOf place' edge')
  · rintro ⟨rfl, rfl⟩
    exact edge' absent
  · rintro ⟨rfl, rfl⟩
    rw [known] at sortOf
    cases sortOf
    exact outside inside

/-- A leaf entry is written. -/
theorem WellSorted.leaf (zone : S → I → Prop) (e : E) (sorted : WellSorted L below mem sort) (known : sort t = some σ) (bottom : below σ i = none)
    (outside : ¬ zone σ i) :
    WellSorted L below (write mem t i e) sort ∧ Extends L below zone mem (write mem t i e) sort sort := by
  refine ⟨fun g τ j τ' h sortOf place edge => ?_, fun _ _ sortOf => sortOf, fun g τ j sortOf inner _ => write_other ?_,
    fun g τ j sortOf inside => write_other ?_⟩
  · rw [write_other] at edge
    · exact sorted g τ j τ' h sortOf place edge
    · rintro ⟨rfl, rfl⟩
      rw [known] at sortOf
      cases sortOf
      rw [bottom] at place
      cases place
  · rintro ⟨rfl, rfl⟩
    rw [known] at sortOf
    cases sortOf
    exact inner bottom
  · rintro ⟨rfl, rfl⟩
    rw [known] at sortOf
    cases sortOf
    exact outside inside

end Write

end HobbyKernel.Radix
