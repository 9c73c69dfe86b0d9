import Mathlib.Logic.Function.Basic
import Mathlib.Data.List.Nodup

/-! Singly linked lists threaded through a `next` field. A chain is described
by the list of nodes it visits, so that an intrusive free list can be compared
with an ordinary list. A chain that ends never repeats a node. -/
namespace HobbyKernel.Chain

variable {α : Type} {next next' : α → Option α} {head : Option α} {a : α} {nodes other : List α}

/-- Following `next` from `head` visits exactly these nodes and then ends. -/
def Linked (next : α → Option α) : Option α → List α → Prop
  | head, [] => head = none
  | head, a :: rest => head = some a ∧ Linked next (next a) rest

/-- The loop that counts the nodes from `head` on, for at most `fuel` rounds. -/
def count (next : α → Option α) : Nat → Option α → Nat → Option Nat
  | 0, _, _ => none
  | _ + 1, none, n => some n
  | fuel + 1, some a, n => count next fuel (next a) (n + 1)

@[simp] theorem linked_nil : Linked next head [] ↔ head = none := Iff.rfl

@[simp] theorem linked_cons : Linked next head (a :: nodes) ↔
    head = some a ∧ Linked next (next a) nodes := Iff.rfl

theorem linked_none : Linked next none nodes ↔ nodes = [] := by
  cases nodes <;> simp

theorem linked_some (chain : Linked next (some a) nodes) :
    ∃ rest, nodes = a :: rest ∧ Linked next (next a) rest := by
  cases nodes with
  | nil => simp at chain
  | cons b rest =>
    obtain ⟨same, tail⟩ := linked_cons.mp chain
    cases same
    exact ⟨rest, rfl, tail⟩

/-- The head determines every node of a chain. -/
theorem linked_unique (chain : Linked next head nodes) (again : Linked next head other) :
    nodes = other := by
  induction nodes generalizing head other with
  | nil =>
    rw [linked_nil.mp chain, linked_none] at again
    exact again.symm
  | cons a rest ih =>
    obtain ⟨rfl, tail⟩ := linked_cons.mp chain
    obtain ⟨rest', rfl, tail'⟩ := linked_some again
    rw [ih tail tail']

/-- From any node of a chain, its `next` field leads to the rest. -/
theorem linked_suffix {before after : List α} (chain : Linked next head (before ++ a :: after)) :
    Linked next (some a) (a :: after) := by
  induction before generalizing head with
  | nil => exact linked_cons.mpr ⟨rfl, (linked_cons.mp chain).2⟩
  | cons b rest ih => exact ih (linked_cons.mp chain).2

/-- A chain that ends visits no node twice: the two visits would continue with
lists of different lengths. -/
theorem linked_nodup (chain : Linked next head nodes) : nodes.Nodup := by
  induction nodes generalizing head with
  | nil => exact List.nodup_nil
  | cons a rest ih =>
    obtain ⟨_, tail⟩ := linked_cons.mp chain
    refine List.nodup_cons.mpr ⟨fun again => ?_, ih tail⟩
    obtain ⟨before, after, rfl⟩ := List.append_of_mem again
    have later := (linked_cons.mp (linked_suffix tail)).2
    have same := congrArg List.length (linked_unique tail later)
    simp at same
    omega

/-- Only the `next` fields of the chain's own nodes matter. -/
theorem linked_congr (chain : Linked next head nodes)
    (same : ∀ b ∈ nodes, next' b = next b) : Linked next' head nodes := by
  induction nodes generalizing head with
  | nil => exact chain
  | cons a rest ih =>
    obtain ⟨first, tail⟩ := linked_cons.mp chain
    refine linked_cons.mpr ⟨first, ?_⟩
    rw [same a (by simp)]
    exact ih tail (fun b member => same b (by simp [member]))

/-- With enough rounds the counting loop ends at the number of nodes. -/
theorem count_linked {fuel : Nat} (chain : Linked next head nodes) (enough : nodes.length < fuel) (n : Nat) :
    count next fuel head n = some (n + nodes.length) := by
  induction nodes generalizing head fuel n with
  | nil =>
    obtain ⟨fuel, rfl⟩ := Nat.exists_eq_succ_of_ne_zero (Nat.ne_zero_of_lt enough)
    rw [linked_nil.mp chain]
    rfl
  | cons a rest ih =>
    obtain ⟨fuel, rfl⟩ := Nat.exists_eq_succ_of_ne_zero (Nat.ne_zero_of_lt enough)
    obtain ⟨rfl, tail⟩ := linked_cons.mp chain
    have further := ih tail (Nat.lt_of_succ_lt_succ enough) (n + 1)
    rw [List.length_cons, ← Nat.add_assoc, Nat.add_right_comm]
    exact further

/-- The loop only ends with the number of nodes. -/
theorem count_eq_length {fuel n total : Nat} (chain : Linked next head nodes) (counted : count next fuel head n = some total) :
    total = n + nodes.length := by
  induction fuel generalizing head nodes n with
  | zero => cases counted
  | succ fuel ih =>
    cases nodes with
    | nil =>
      rw [linked_nil.mp chain] at counted
      exact (Option.some.inj counted).symm
    | cons a rest =>
      obtain ⟨rfl, tail⟩ := linked_cons.mp chain
      rw [ih tail counted, List.length_cons]
      omega

/-- The last node is the one that has no next. -/
theorem linked_last (chain : Linked next head nodes) (member : a ∈ nodes) : next a = none ↔ nodes.getLast? = some a := by
  obtain ⟨before, after, rfl⟩ := List.append_of_mem member
  have tail := (linked_cons.mp (linked_suffix chain)).2
  rw [List.getLast?_append_cons]
  cases after with
  | nil => simpa using tail
  | cons b rest =>
    rw [(linked_cons.mp tail).1, List.getLast?_cons_cons]
    have distinct := (List.nodup_cons.mp (linked_nodup (linked_suffix chain))).1
    exact ⟨nofun, fun last => absurd (List.mem_of_getLast? last) distinct⟩

/-- A chain through changed fields still follows the nodes whose fields are the
same. -/
theorem linked_follow {before after : List α} (chain : Linked next head (before ++ a :: after))
    (same : ∀ b ∈ before, next' b = next b) (changed : Linked next' head other) :
    ∃ rest, other = before ++ rest ∧ Linked next' (some a) rest := by
  induction before generalizing head other with
  | nil => exact ⟨other, rfl, (linked_cons.mp chain).1 ▸ changed⟩
  | cons b before ih =>
    obtain ⟨rfl, tail⟩ := linked_cons.mp chain
    obtain ⟨rest, rfl, tail'⟩ := linked_some changed
    rw [same b List.mem_cons_self] at tail'
    obtain ⟨rest, rfl, further⟩ := ih tail (fun c member => same c (List.mem_cons_of_mem b member)) tail'
    exact ⟨rest, rfl, further⟩

variable [DecidableEq α]

/-- Putting a node in front of a chain that it ends makes the chain a circle. -/
theorem linked_push_last {before : List α} (chain : Linked next head (before ++ [a])) :
    ¬ Linked (Function.update next a head) (some a) nodes := by
  intro circle
  obtain ⟨rest, rfl, tail⟩ := linked_some circle
  rw [Function.update_self] at tail
  have distinct := (List.nodup_append.mp (linked_nodup chain)).2.2
  have others : ∀ b ∈ before, Function.update next a head b = next b := by
    intro b member
    exact Function.update_of_ne (distinct b member a (List.mem_singleton_self a)) _ _
  obtain ⟨further, split, again⟩ := linked_follow chain others tail
  have same := congrArg List.length (linked_unique circle again)
  rw [split, List.length_cons, List.length_append] at same
  omega

/-- Taking the first node off leaves the rest, whatever is then written to the
`next` field of the removed node. -/
theorem linked_pop (chain : Linked next (some a) nodes) (value : Option α) :
    ∃ rest, nodes = a :: rest ∧ Linked (Function.update next a value) (next a) rest := by
  obtain ⟨rest, rfl, tail⟩ := linked_some chain
  have fresh : a ∉ rest := (List.nodup_cons.mp (linked_nodup chain)).1
  refine ⟨rest, rfl, linked_congr tail (fun b member => ?_)⟩
  exact Function.update_of_ne (ne_of_mem_of_not_mem member fresh) _ _

/-- Putting a node that is not on the chain at its front. -/
theorem linked_push (chain : Linked next head nodes) (fresh : a ∉ nodes) :
    Linked (Function.update next a head) (some a) (a :: nodes) := by
  refine linked_cons.mpr ⟨rfl, ?_⟩
  rw [Function.update_self]
  exact linked_congr chain (fun b member =>
    Function.update_of_ne (ne_of_mem_of_not_mem member fresh) _ _)

end HobbyKernel.Chain
