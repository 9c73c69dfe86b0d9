import Mathlib.Data.List.Pairwise
import Mathlib.Data.List.Basic

/-! Memories whose cells are read and written one at a time. A loop that fills
one cell a round leaves in each of them what it would have put there first, as
long as no round changes what a later one is going to store. -/
namespace HobbyKernel.ByteMemory

variable {σ α β ι : Type}

/-- The accesses to a memory: the states, the addresses and what is stored. -/
structure Memory (σ α β : Type) where
  read : σ → α → β
  write : σ → α → β → σ

/-- A write changes its own cell and no other. -/
structure Memory.Lawful [DecidableEq α] (M : Memory σ α β) : Prop where
  read_write : ∀ s a b c, M.read (M.write s a b) c = if c = a then b else M.read s c

/-- Store at `dst i` what the memory then holds for `i`, for each `i` in turn. -/
def Memory.fill (M : Memory σ α β) (dst : ι → α) (value : σ → ι → β) (order : List ι) (s : σ) : σ :=
  order.foldl (fun s i => M.write s (dst i) (value s i)) s

/-- The rounds copy a cell each. -/
def Memory.copy (M : Memory σ α β) (dst src : ι → α) (order : List ι) (s : σ) : σ :=
  M.fill dst (fun s i => M.read s (src i)) order s

variable {M : Memory σ α β} {dst src : ι → α} {value : σ → ι → β} {order : List ι} {s : σ} {i : ι} {a : α}

@[simp] theorem fill_nil : M.fill dst value [] s = s := rfl

theorem fill_cons : M.fill dst value (i :: order) s = M.fill dst value order (M.write s (dst i) (value s i)) := rfl

theorem fill_append (more : List ι) :
    M.fill dst value (order ++ more) s = M.fill dst value more (M.fill dst value order s) := List.foldl_append

/-- What every write of the loop keeps, the loop keeps. -/
theorem fill_keeps (inv : σ → Prop) (start : inv s) (keep : ∀ i ∈ order, ∀ s b, inv s → inv (M.write s (dst i) b)) :
    inv (M.fill dst value order s) := by
  induction order generalizing s with
  | nil => exact start
  | cons i rest ih => exact ih (keep i (by simp) _ _ start) fun j member => keep j (by simp [member])

variable [DecidableEq α]

theorem fill_outside (lawful : M.Lawful) (outside : ∀ i ∈ order, a ≠ dst i) :
    M.read (M.fill dst value order s) a = M.read s a := by
  induction order generalizing s with
  | nil => rfl
  | cons i rest ih =>
    rw [fill_cons, ih fun j member => outside j (by simp [member]), lawful.read_write, if_neg (outside i (by simp))]

/-- A cell that no later round writes to keeps what its round found to store. -/
theorem fill_round (lawful : M.Lawful) (after : List ι) (last : ∀ j ∈ after, dst i ≠ dst j) :
    M.read (M.fill dst value (order ++ i :: after) s) (dst i) = value (M.fill dst value order s) i := by
  rw [fill_append, fill_cons, fill_outside lawful last, lawful.read_write, if_pos rfl]

/-- A round neither overwrites the cell of an earlier one nor reads it. -/
def Apart (M : Memory σ α β) (dst : ι → α) (value : σ → ι → β) (i j : ι) : Prop :=
  dst i ≠ dst j ∧ ∀ s b, value (M.write s (dst i) b) j = value s j

theorem fill_inside (lawful : M.Lawful) (apart : order.Pairwise (Apart M dst value)) (member : i ∈ order) :
    M.read (M.fill dst value order s) (dst i) = value s i := by
  induction order generalizing s with
  | nil => cases member
  | cons first rest ih =>
    obtain ⟨fromFirst, inRest⟩ := List.pairwise_cons.mp apart
    rw [fill_cons]
    rcases List.mem_cons.mp member with rfl | later
    · rw [fill_outside lawful fun j member => (fromFirst j member).1, lawful.read_write, if_pos rfl]
    · rw [ih inRest later, (fromFirst i later).2]

/-- A copy reads its sources as they were, as long as no round overwrites the
source of a later one. -/
theorem copy_inside (lawful : M.Lawful) (member : i ∈ order)
    (apart : order.Pairwise fun i j => dst i ≠ dst j ∧ src j ≠ dst i) :
    M.read (M.copy dst src order s) (dst i) = M.read s (src i) := by
  refine fill_inside lawful (apart.imp ?_) member
  intro i j ⟨cells, sources⟩
  exact ⟨cells, fun s b => (lawful.read_write _ _ _ _).trans (if_neg sources)⟩

end HobbyKernel.ByteMemory
