import Mathlib.Data.List.Count
import Mathlib.Logic.Function.Basic
import HobbyKernel.Lib.Loop

/-! A loop that serves items out of a supply. An item takes one unit for itself,
and one for each part that it needs and that is not there yet. When there is no
unit for an item the loop stops. When there is none for one of its parts the
rest of the supply is gone and the item is not served, but the loop goes on: it
can come to its end although an item was left out. -/
namespace HobbyKernel.Supplies

variable {α κ τ : Type}

structure Supply (κ τ : Type) where
  left : Nat
  parts : τ → Bool
  served : κ → Bool

/-- The parts that an item needs and that are not there. -/
def missing (needs : α → List τ) (parts : τ → Bool) (a : α) : Nat := (needs a).countP fun t => !parts t

variable [DecidableEq κ] [DecidableEq τ] (key : α → κ) (needs : α → List τ) (skip : Bool)

def addParts (parts : τ → Bool) (a : α) : τ → Bool := fun t => parts t || decide (t ∈ needs a)

/-- One round. Items that were served before may be skipped. -/
def serve (a : α) (s : Supply κ τ) : Supply κ τ × Bool :=
  if skip && s.served (key a) then (s, true)
  else if s.left = 0 then (s, false)
  else if s.left - 1 < missing needs s.parts a then ({ s with left := 0 }, true)
  else (⟨s.left - 1 - missing needs s.parts a, addParts needs s.parts a, Function.update s.served (key a) true⟩, true)

/-- The units that serving some items takes, one after another. -/
def demand : (τ → Bool) → List α → Nat
  | _, [] => 0
  | parts, a :: rest => 1 + missing needs parts a + demand (addParts needs parts a) rest

/-- The items that are not skipped. -/
def takers : (κ → Bool) → List α → List α
  | _, [] => []
  | served, a :: rest =>
    if skip && served (key a) then takers served rest else a :: takers (Function.update served (key a) true) rest

/-- There is a unit for the last item, but not for all of its parts. -/
structure GivesOut (s : Supply κ τ) (items before : List α) (last : α) : Prop where
  ends : takers key skip s.served items = before ++ [last]
  begun : demand needs s.parts before < s.left
  short : s.left < demand needs s.parts (before ++ [last])
  once : skip = true → (items.map key).count (key last) = 1

variable {key needs skip} {s : Supply κ τ} {parts : τ → Bool} {served : κ → Bool} {items before rest : List α} {a b last : α}

theorem takers_eq_nil : takers key skip served items = [] ↔ ∀ a ∈ items, (skip && served (key a)) = true := by
  induction items generalizing served with
  | nil => simp [takers]
  | cons a rest ih =>
    rw [takers]
    by_cases skipped : (skip && served (key a)) = true
    · rw [if_pos skipped, ih]
      simp only [List.mem_cons, forall_eq_or_imp, skipped, true_and]
    · rw [if_neg skipped]
      exact ⟨nofun, fun all => absurd (all a List.mem_cons_self) skipped⟩

/-- Where items are skipped, those that are not were not served before. -/
theorem unserved_of_taker (skips : skip = true) (member : b ∈ takers key skip served items) : served (key b) = false := by
  induction items generalizing served with
  | nil => cases member
  | cons a rest ih =>
    rw [takers] at member
    split at member
    · exact ih member
    · next taken =>
      rw [skips, Bool.true_and, Bool.not_eq_true] at taken
      rcases List.mem_cons.mp member with rfl | later
      · exact taken
      · have := ih later
        by_cases same : key b = key a
        · rw [same]
          exact taken
        · rwa [Function.update_of_ne same] at this

/-- Where items are skipped, no two that are not have the same key. -/
theorem takers_nodup (skips : skip = true) : ((takers key skip served items).map key).Nodup := by
  induction items generalizing served with
  | nil => exact List.nodup_nil
  | cons a rest ih =>
    rw [takers]
    split
    · exact ih
    · rw [List.map_cons, List.nodup_cons]
      refine ⟨fun member => ?_, ih⟩
      obtain ⟨b, isTaker, same⟩ := List.mem_map.mp member
      have unserved := unserved_of_taker skips isTaker
      rw [same, Function.update_self] at unserved
      cases unserved

/-- The items that are skipped have keys that were served, or that are served
for others. -/
theorem mem_takers (k : κ) : (served k || decide (k ∈ (takers key skip served items).map key)) =
    (served k || decide (k ∈ items.map key)) := by
  induction items generalizing served with
  | nil => rfl
  | cons a rest ih =>
    rw [takers]
    split
    · next skipped =>
      rw [ih, List.map_cons]
      by_cases same : k = key a
      · rw [Bool.and_eq_true] at skipped
        rw [same, skipped.2, Bool.true_or, Bool.true_or]
      · simp [same]
    · have later := @ih (Function.update served (key a) true)
      by_cases same : k = key a
      · simp [same]
      · simpa [same] using later

/-- Without supply the loop only gets past items that are skipped. -/
theorem exhausted (none : s.left = 0) : Loop.forEach (serve key needs skip) items s =
    (s, items.all fun a => skip && s.served (key a)) := by
  induction items with
  | nil => rfl
  | cons a rest ih =>
    rw [Loop.forEach_cons, serve, List.all_cons]
    by_cases skipped : (skip && s.served (key a)) = true
    · rw [if_pos skipped, if_pos rfl, ih, skipped, Bool.true_and]
    · rw [if_neg skipped, if_pos none, if_neg (by simp), Bool.eq_false_iff.mpr skipped, Bool.false_and]

theorem GivesOut.skipped (skipped : (skip && s.served (key a)) = true) :
    GivesOut key needs skip s (a :: rest) before last ↔ GivesOut key needs skip s rest before last := by
  have same : takers key skip s.served (a :: rest) = takers key skip s.served rest := by rw [takers, if_pos skipped]
  have other (isLast : takers key skip s.served rest = before ++ [last]) (skips : skip = true) :
      ((a :: rest).map key).count (key last) = (rest.map key).count (key last) := by
    have unserved := unserved_of_taker skips (isLast ▸ List.mem_append_right before (List.mem_singleton_self last))
    rw [List.map_cons, List.count_cons_of_ne]
    intro equal
    rw [← equal] at unserved
    simp [unserved] at skipped
  constructor
  · rintro ⟨isLast, begun, short, once⟩
    rw [same] at isLast
    exact ⟨isLast, begun, short, fun skips => other isLast skips ▸ once skips⟩
  · rintro ⟨isLast, begun, short, once⟩
    exact ⟨same.trans isLast, begun, short, fun skips => (other isLast skips).trans (once skips)⟩

/-- Serving an item leaves the rest of the supply for the rest of the items. -/
theorem GivesOut.paid (taken : ¬ (skip && s.served (key a)) = true) (enough : missing needs s.parts a + 1 ≤ s.left) :
    GivesOut key needs skip s (a :: rest) before last ↔ ∃ before', before = a :: before' ∧
      GivesOut key needs skip ⟨s.left - 1 - missing needs s.parts a, addParts needs s.parts a,
        Function.update s.served (key a) true⟩ rest before' last := by
  have first : takers key skip s.served (a :: rest) = a :: takers key skip (Function.update s.served (key a) true) rest := by
    rw [takers, if_neg taken]
  have other {before' : List α} (isLast : takers key skip (Function.update s.served (key a) true) rest = before' ++ [last])
      (skips : skip = true) : ((a :: rest).map key).count (key last) = (rest.map key).count (key last) := by
    have unserved := unserved_of_taker skips (isLast ▸ List.mem_append_right before' (List.mem_singleton_self last))
    rw [List.map_cons, List.count_cons_of_ne]
    intro equal
    rw [← equal, Function.update_self] at unserved
    cases unserved
  constructor
  · rintro ⟨isLast, begun, short, once⟩
    rw [first] at isLast
    cases before with
    | nil =>
      rw [List.nil_append, List.cons.injEq] at isLast
      obtain ⟨rfl, _⟩ := isLast
      simp only [List.nil_append, demand] at short
      omega
    | cons a' before' =>
      rw [List.cons_append, List.cons.injEq] at isLast
      obtain ⟨rfl, isLast⟩ := isLast
      simp only [List.cons_append, demand] at begun short
      exact ⟨before', rfl, isLast, by dsimp only; omega, by dsimp only; omega, fun skips => other isLast skips ▸ once skips⟩
  · rintro ⟨before', rfl, isLast, begun, short, once⟩
    dsimp only at begun short
    refine ⟨by rw [first, isLast, List.cons_append], ?_, ?_, fun skips => (other isLast skips).trans (once skips)⟩
    · rw [demand]
      omega
    · rw [List.cons_append, demand]
      omega

/-- The units last for all items, or give out between two of them. -/
def Affords (needs : α → List τ) : (τ → Bool) → Nat → List α → Prop
  | _, _, [] => True
  | parts, left, a :: rest => left = 0 ∨ (1 + missing needs parts a ≤ left ∧
      Affords needs (addParts needs parts a) (left - (1 + missing needs parts a)) rest)

instance decidableAffords (needs : α → List τ) (parts : τ → Bool) (left : Nat) :
    (items : List α) → Decidable (Affords needs parts left items)
  | [] => inferInstanceAs (Decidable True)
  | a :: rest =>
    have := decidableAffords needs (addParts needs parts a) (left - (1 + missing needs parts a)) rest
    inferInstanceAs (Decidable (left = 0 ∨ (1 + missing needs parts a ≤ left ∧
      Affords needs (addParts needs parts a) (left - (1 + missing needs parts a)) rest)))

/-- What the loop takes units for comes out even. -/
def Pays (key : α → κ) (needs : α → List τ) (skip : Bool) (s : Supply κ τ) (items : List α) : Prop :=
  Affords needs s.parts s.left (takers key skip s.served items)

instance decidablePays (s : Supply κ τ) (items : List α) : Decidable (Pays key needs skip s items) :=
  inferInstanceAs (Decidable (Affords needs s.parts s.left (takers key skip s.served items)))

theorem Affords.out (items : List α) : Affords needs parts 0 items := by
  cases items with
  | nil => exact trivial
  | cons a rest => exact .inl rfl

theorem Pays.next (pays : Pays key needs skip s (a :: rest)) : Pays key needs skip (serve key needs skip a s).1 rest := by
  rw [serve]
  by_cases skipped : (skip && s.served (key a)) = true
  · rw [Pays, takers, if_pos skipped] at pays
    rw [if_pos skipped]
    exact pays
  · rw [if_neg skipped]
    by_cases none : s.left = 0
    · rw [if_pos none, Pays, none]
      exact .out _
    · rw [Pays, takers, if_neg skipped, Affords] at pays
      obtain ⟨enough, later⟩ := pays.resolve_left none
      rw [if_neg none, if_neg (by omega), Pays]
      dsimp only
      rwa [Nat.sub_sub]

theorem demand_concat (items : List α) (last : α) (parts : τ → Bool) : demand needs parts (items ++ [last]) =
    demand needs parts items + (1 + missing needs (items.foldl (addParts needs) parts) last) := by
  induction items generalizing parts with
  | nil => simp only [List.nil_append, demand, List.foldl_nil, Nat.zero_add, Nat.add_zero]
  | cons a rest ih =>
    rw [List.cons_append, demand, demand, List.foldl_cons, ih]
    omega

/-- Fewer items do not take more. -/
theorem demand_takers_le (items more : List α) (parts : τ → Bool) (served : κ → Bool) :
    demand needs parts (takers key skip served items) ≤ demand needs parts (takers key skip served (items ++ more)) := by
  induction items generalizing parts served with
  | nil => exact Nat.zero_le _
  | cons a rest ih =>
    rw [List.cons_append, takers, takers]
    split
    · exact ih parts served
    · rw [demand, demand]
      exact Nat.add_le_add_left (ih _ _) _

theorem demand_le {n : Nat} (few : ∀ a, (needs a).length ≤ n) (items : List α) (parts : τ → Bool) :
    demand needs parts items ≤ (n + 1) * items.length := by
  induction items generalizing parts with
  | nil => exact Nat.zero_le _
  | cons a rest ih =>
    have here : missing needs parts a ≤ n := Nat.le_trans List.countP_le_length (few a)
    have later := ih (addParts needs parts a)
    rw [demand, List.length_cons, Nat.mul_succ]
    omega

theorem mem_foldl_addParts (items : List α) {t : τ} : items.foldl (addParts needs) parts t = true ↔
    parts t = true ∨ ∃ a ∈ items, t ∈ needs a := by
  induction items generalizing parts with
  | nil => simp
  | cons a rest ih => simp only [List.foldl_cons, ih, addParts, Bool.or_eq_true, decide_eq_true_eq, List.mem_cons,
      exists_eq_or_imp, or_assoc]

/-- When served items have their parts, the item that is left out was not
served in any other way. -/
theorem GivesOut.unserved (gives : GivesOut key needs skip s items before last)
    (determined : ∀ a b, key a = key b → needs a = needs b)
    (coherent : ∀ a, s.served (key a) = true → ∀ t ∈ needs a, s.parts t = true) :
    s.served (key last) = false ∧ key last ∉ before.map key := by
  have begun := gives.begun
  have short := gives.short
  rw [demand_concat] at short
  have positive : 0 < missing needs (before.foldl (addParts needs) s.parts) last := by omega
  obtain ⟨t, needed, absent⟩ := List.countP_pos_iff.mp positive
  rw [Bool.not_eq_true', Bool.eq_false_iff, ne_eq, mem_foldl_addParts, not_or] at absent
  refine ⟨Bool.eq_false_iff.mpr fun wasServed => absent.1 (coherent last wasServed t needed), fun member => ?_⟩
  obtain ⟨b, isBefore, same⟩ := List.mem_map.mp member
  exact absent.2 ⟨b, isBefore, determined b last same ▸ needed⟩

/-- The loop comes to its end when there is enough for all items, or when the
supply gives out among the parts of the last one; and it serves what it could
pay for. -/
theorem serve_cases (key : α → κ) (needs : α → List τ) (skip : Bool) (items : List α) (s : Supply κ τ) :
    (demand needs s.parts (takers key skip s.served items) ≤ s.left ∧ (Loop.forEach (serve key needs skip) items s).2 = true ∧
      ∀ k, (Loop.forEach (serve key needs skip) items s).1.served k =
        (s.served k || decide (k ∈ (takers key skip s.served items).map key))) ∨
    (∃ before last, GivesOut key needs skip s items before last ∧ (Loop.forEach (serve key needs skip) items s).2 = true ∧
      ∀ k, (Loop.forEach (serve key needs skip) items s).1.served k = (s.served k || decide (k ∈ before.map key))) ∨
    ((Loop.forEach (serve key needs skip) items s).2 = false ∧
      s.left < demand needs s.parts (takers key skip s.served items) ∧
      ∀ before last, ¬ GivesOut key needs skip s items before last) := by
  induction items generalizing s with
  | nil => exact .inl ⟨Nat.zero_le _, rfl, by simp [takers]⟩
  | cons a rest ih =>
    rw [Loop.forEach_cons, serve, takers]
    by_cases skipped : (skip && s.served (key a)) = true
    · simp only [if_pos skipped, if_true, GivesOut.skipped skipped]
      exact ih s
    · simp only [if_neg skipped]
      by_cases none : s.left = 0
      · simp only [if_pos none, Bool.false_eq_true, if_false]
        refine .inr (.inr ⟨trivial, ?_, fun before last gives => ?_⟩)
        · rw [demand]
          omega
        · have := gives.begun
          omega
      · simp only [if_neg none]
        by_cases short : s.left - 1 < missing needs s.parts a
        · simp only [if_pos short, if_true, exhausted (s := { s with left := 0 }) rfl]
          by_cases all : (rest.all fun b => skip && s.served (key b)) = true
          · refine .inr (.inl ⟨[], a, ⟨?_, ?_, ?_, fun skips => ?_⟩, all, by simp⟩)
            · rw [takers, if_neg skipped, List.nil_append, List.cons.injEq, takers_eq_nil]
              refine ⟨rfl, fun b member => ?_⟩
              have served := List.all_eq_true.mp all b member
              rw [Bool.and_eq_true] at served ⊢
              refine ⟨served.1, ?_⟩
              by_cases same : key b = key a
              · rw [same, Function.update_self]
              · rw [Function.update_of_ne same]
                exact served.2
            · rw [demand]
              omega
            · rw [List.nil_append, demand, demand]
              omega
            · rw [List.map_cons, List.count_cons_self, List.count_eq_zero.mpr]
              intro member
              obtain ⟨b, isLater, same⟩ := List.mem_map.mp member
              have served := List.all_eq_true.mp all b isLater
              rw [same] at served
              exact skipped served
          · refine .inr (.inr ⟨Bool.eq_false_iff.mpr all, ?_, fun before last gives => ?_⟩)
            · rw [demand]
              omega
            · obtain ⟨isLast, begun, _, once⟩ := gives
              rw [takers, if_neg skipped] at isLast
              cases before with
              | nil =>
                rw [List.nil_append, List.cons.injEq, takers_eq_nil] at isLast
                obtain ⟨rfl, others⟩ := isLast
                refine all (List.all_eq_true.mpr fun b member => ?_)
                have served := others b member
                rw [Bool.and_eq_true] at served ⊢
                refine ⟨served.1, ?_⟩
                have apart : key b ≠ key a := by
                  intro same
                  have counted := once served.1
                  rw [List.map_cons, List.count_cons_self, Nat.add_eq_right, List.count_eq_zero] at counted
                  exact counted (same ▸ List.mem_map_of_mem member)
                rw [Function.update_of_ne apart] at served
                exact served.2
              | cons a' before' =>
                rw [List.cons_append, List.cons.injEq] at isLast
                obtain ⟨rfl, _⟩ := isLast
                rw [demand] at begun
                omega
        · have enough : missing needs s.parts a + 1 ≤ s.left := by omega
          simp only [if_neg short, if_true, GivesOut.paid skipped enough, demand]
          have key_cases : ∀ (k : κ) (l : List α), (Function.update s.served (key a) true k || decide (k ∈ l.map key)) =
              (s.served k || decide (k ∈ (a :: l).map key)) := by
            intro k l
            by_cases same : k = key a
            · simp [same]
            · simp [same]
          rcases ih ⟨s.left - 1 - missing needs s.parts a, addParts needs s.parts a, Function.update s.served (key a) true⟩ with
            ⟨paid, ended, result⟩ | ⟨before, last, gives, ended, result⟩ | ⟨stopped, unpaid, never⟩
          · dsimp only at paid
            exact .inl ⟨by omega, ended, fun k => (result k).trans (key_cases k _)⟩
          · exact .inr (.inl ⟨a :: before, last, ⟨before, rfl, gives⟩, ended, fun k => (result k).trans (key_cases k _)⟩)
          · dsimp only at unpaid
            refine .inr (.inr ⟨stopped, by omega, ?_⟩)
            rintro before last ⟨before', _, gives⟩
            exact never before' last gives

theorem takers_false : takers key false served items = items := by
  induction items generalizing served with
  | nil => rfl
  | cons a rest ih => rw [takers, Bool.false_and, if_neg (by simp), ih]

/-- The supply lasts for the last item, but not for all of its parts. -/
def LastShort (needs : α → List τ) (parts : τ → Bool) (left : Nat) (items : List α) : Prop :=
  ∃ before last, items = before ++ [last] ∧ demand needs parts before < left ∧ left < demand needs parts items

/-- When no item is skipped, a loop that comes to its end has served all of them
unless the last one was left without its parts. -/
theorem all_served_iff (key : α → κ) (needs : α → List τ) (items : List α) (s : Supply κ τ) (determined : ∀ a b, key a = key b → needs a = needs b)
    (coherent : ∀ a, s.served (key a) = true → ∀ t ∈ needs a, s.parts t = true) :
    ((Loop.forEach (serve key needs false) items s).2 = true →
      ∀ a ∈ items, (Loop.forEach (serve key needs false) items s).1.served (key a) = true) ↔
    ¬ LastShort needs s.parts s.left items := by
  have gives : LastShort needs s.parts s.left items → ∃ before last, GivesOut key needs false s items before last := by
    rintro ⟨before, last, isLast, begun, short⟩
    exact ⟨before, last, takers_false.trans isLast, begun, isLast ▸ short, nofun⟩
  rcases serve_cases key needs false items s with
    ⟨paid, ended, result⟩ | ⟨before, last, out, ended, result⟩ | ⟨stopped, _, never⟩
  · rw [takers_false] at paid result
    constructor
    · rintro _ ⟨_, _, _, _, short⟩
      omega
    · intro _ _ a member
      rw [result, decide_eq_true (List.mem_map_of_mem member), Bool.or_true]
  · have isLast := out.ends
    have short := out.short
    rw [takers_false] at isLast
    rw [← isLast] at short
    constructor
    · intro all
      have served := all ended last (by simp [isLast])
      obtain ⟨before', others⟩ := out.unserved determined coherent
      rw [result, before', decide_eq_false others] at served
      cases served
    · exact fun enough => absurd ⟨before, last, isLast, out.begun, short⟩ enough
  · rw [stopped]
    constructor
    · intro _ lastShort
      obtain ⟨before, last, out⟩ := gives lastShort
      exact never before last out
    · exact fun _ => nofun

end HobbyKernel.Supplies
