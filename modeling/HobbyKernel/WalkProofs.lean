import Mathlib.Data.Finset.Card
import HobbyKernel.PageAllocProofs
import HobbyKernel.Lib.Radix

/-! The page-table walker over any number of address spaces that share one
physical memory. Tables form trees without sharing, as long as no frame has two
owners; a walk that creates tables only hangs empty frames of the free list
under absent entries, so it never changes what any address maps to. -/
namespace HobbyKernel.WalkProofs
open AddressBits PageAllocProofs Radix

/-- Page tables as radix trees: an entry is an edge when its present bit is set. -/
def layout (admits : Index → Prop) : Layout Frame Index U64 where
  dec pte := if present pte then some (tableOf pte) else none
  empty := 0
  dec_empty := rfl
  admits := admits

/-- Address spaces that own only the entries below `KERNEL_PML4_START`. -/
def Lower (i : Index) : Prop := i.val < KERNEL_PML4_START

theorem lower_of_small {vaddr : U64} (small : vaddr.toNat < 2 ^ 47) : Lower (subscript (pml4Index vaddr)) := by
  rw [Lower, pml4Index, subscript_indexBits vaddr (by decide), KERNEL_PML4_START]
  omega

theorem layout_dec (admits : Index → Prop) (pte : PageTableEntry) :
    (layout admits).dec pte = if present pte then some (tableOf pte) else none := rfl

/-- Every edge between tables carries the flags the walker gives it. -/
def Walkable (admits : Index → Prop) (mem : PhysMem) (root : κ → Option Frame) : Prop :=
  ∀ k path t i, Node (layout admits) mem root 2 k path t → (layout admits).Admitted (path ++ [i]) →
    present (mem t i) = true → ∃ pp, mem t i = pteMake (page2pa pp) WALK_FLAGS

/-- Writes that spare every table leave the edges alone. -/
theorem Walkable.frame {admits : Index → Prop} {root : κ → Option Frame} {s s' : Phys} (walkable : Walkable admits s.mem root)
    (same : ∀ k path t, Node (layout admits) s.mem root 3 k path t → s'.mem t = s.mem t) : Walkable admits s'.mem root := by
  intro k path t i node admitted isPresent
  have before := (node_frame 3 same).mp (node.mono (by decide : 2 ≤ 3 + 1))
  rw [same k path t ⟨Nat.le_trans node.1 (by decide), before.2⟩] at isPresent ⊢
  exact walkable k path t i ⟨node.1, before.2⟩ admitted isPresent

/-- What the walker may do to memory on behalf of tree `k`: hang frames from
`taken` into that tree, and leave `rest` on the free list. -/
structure Grows (admits : Index → Prop) (root : κ → Option Frame) (others : ι → Frame → Prop) (k : κ)
    (s s' : Phys) (taken rest : List Nat) : Prop where
  list : FreeList s' rest
  exclusive : Exclusive (layout admits) s'.mem root 3 others rest
  kept : ∀ k' path f, Node (layout admits) s.mem root 3 k' path f →
    Node (layout admits) s'.mem root 3 k' path f
  added : ∀ k' path f, Node (layout admits) s'.mem root 3 k' path f →
    Node (layout admits) s.mem root 3 k' path f ∨ (k' = k ∧ f ∈ taken)
  frame : ∀ f i, s'.mem f i ≠ s.mem f i → f ∈ taken ∨
    ∃ path, Node (layout admits) s.mem root 3 k path f ∧ (layout admits).Admitted (path ++ [i])
  walkable : Walkable admits s.mem root → Walkable admits s'.mem root

/-- Every tree has the same leaf entry for every address in both memories. -/
def SameEntries (admits : Index → Prop) (root : κ → Option Frame) (s s' : Phys) : Prop :=
  ∀ k r path i, root k = some r → (layout admits).Admitted path → path.length = 3 →
    entry (layout admits) s'.mem r path i = entry (layout admits) s.mem r path i

variable {κ ι : Type} {admits : Index → Prop} {root : κ → Option Frame} {others : ι → Frame → Prop}
  {k : κ} {s s' s'' : Phys} {free taken taken' rest rest' : List Nat}

theorem Grows.refl (list : FreeList s free)
    (exclusive : Exclusive (layout admits) s.mem root 3 others free) :
    Grows admits root others k s s [] free :=
  ⟨list, exclusive, fun _ _ _ node => node, fun _ _ _ node => .inl node,
    fun _ _ changed => absurd rfl changed, id⟩

theorem Grows.trans (first : Grows admits root others k s s' taken rest)
    (second : Grows admits root others k s' s'' taken' rest') :
    Grows admits root others k s s'' (taken ++ taken') rest' := by
  refine ⟨second.list, second.exclusive, fun k' path f node => second.kept _ _ _ (first.kept _ _ _ node),
    fun k' path f node => ?_, fun f i changed => ?_, fun walkable => second.walkable (first.walkable walkable)⟩
  · rcases second.added k' path f node with old | ⟨same, new⟩
    · rcases first.added k' path f old with older | ⟨same, new⟩
      · exact .inl older
      · exact .inr ⟨same, List.mem_append_left _ new⟩
    · exact .inr ⟨same, List.mem_append_right _ new⟩
  · by_cases later : s''.mem f i = s'.mem f i
    · rw [later] at changed
      rcases first.frame f i changed with new | table
      · exact .inl (List.mem_append_left _ new)
      · exact .inr table
    · rcases second.frame f i later with new | ⟨path, node, admitted⟩
      · exact .inl (List.mem_append_right _ new)
      · rcases first.added k path f node with old | ⟨_, new⟩
        · exact .inr ⟨path, old, admitted⟩
        · exact .inl (List.mem_append_left _ new)

theorem SameEntries.trans (first : SameEntries admits root s s') (second : SameEntries admits root s' s'') :
    SameEntries admits root s s'' :=
  fun k r path i isRoot admitted length =>
    (second k r path i isRoot admitted length).trans (first k r path i isRoot admitted length)

theorem walk_flags_plain : PlainFlags WALK_FLAGS := by decide

theorem dec_walk_entry (admits : Index → Prop) (small : pp < 2 ^ 40) :
    (layout admits).dec (pteMake (page2pa pp) WALK_FLAGS) = some pp := by
  rw [layout_dec, present_make, tableOf_make_page walk_flags_plain small]
  rfl

/-- Hanging a cleared frame under an absent entry is the only way the walker
grows a tree. -/
private theorem graft_grows {t : Frame} {path : List Index} {i : Index} {pp : Nat}
    (list : FreeList s' rest) (small : pp < 2 ^ 40) (fresh : pp ∉ rest)
    (exclusive : Exclusive (layout admits) s.mem root 3 others (pp :: rest))
    (node : Node (layout admits) s.mem root 2 k path t)
    (admitted : (layout admits).Admitted (path ++ [i])) (absent : present (s.mem t i) = false)
    (written : s'.mem = write (clear (layout admits) s.mem pp) t i (pteMake (page2pa pp) WALK_FLAGS)) :
    Grows admits root others k s s' [pp] rest ∧ SameEntries admits root s s' ∧
      Node (layout admits) s'.mem root 3 k (path ++ [i]) pp := by
  have noEdge : (layout admits).dec (s.mem t i) = none := by rw [layout_dec, absent]; rfl
  have edge := dec_walk_entry admits small
  have node3 : Node (layout admits) s.mem root 3 k path t := node.mono (by decide)
  have notFree : ∀ k' q f, Node (layout admits) s.mem root 3 k' q f → f ≠ pp :=
    fun k' q f held same => exclusive.node_unfree held (same ▸ List.mem_cons_self)
  have hung : Node (layout admits) s'.mem root 3 k (path ++ [i]) pp := by
    obtain ⟨short, _, r, isRoot, _⟩ := node
    have length : (path ++ [i]).length ≤ 3 := by simp; omega
    refine ⟨length, admitted, r, isRoot, ?_⟩
    rw [written]
    exact (follow_graft exclusive node3 noEdge edge isRoot admitted (Nat.le_succ_of_le length)).1 ⟨rfl, rfl⟩
  have before : ∀ k' q f, Node (layout admits) s'.mem root 3 k' q f →
      Node (layout admits) s.mem root 3 k' q f ∨ (k' = k ∧ q = path ++ [i] ∧ f = pp) := by
    rintro k' q f ⟨short, qAdmitted, r, isRoot, reached⟩
    obtain ⟨here, elsewhere⟩ := follow_graft exclusive node3 noEdge edge isRoot qAdmitted
      (Nat.le_succ_of_le short)
    rw [written] at reached
    by_cases new : k' = k ∧ q = path ++ [i]
    · rw [here new] at reached
      exact .inr ⟨new.1, new.2, (Option.some.inj reached).symm⟩
    · rw [elsewhere new] at reached
      exact .inl ⟨short, qAdmitted, r, isRoot, reached⟩
  refine ⟨⟨list, ?_, ?_, ?_, ?_, ?_⟩, ?_, hung⟩
  · rw [written]
    exact exclusive_graft exclusive fresh node3 noEdge edge
  · rintro k' q f ⟨short, qAdmitted, r, isRoot, reached⟩
    refine ⟨short, qAdmitted, r, isRoot, ?_⟩
    rw [written, (follow_graft exclusive node3 noEdge edge isRoot qAdmitted (Nat.le_succ_of_le short)).2,
      reached]
    rintro ⟨rfl, rfl⟩
    obtain ⟨_, _, r', isRoot', reached'⟩ := node
    rw [isRoot] at isRoot'
    cases isRoot'
    rw [follow_concat, reached', Option.bind_some, noEdge] at reached
    cases reached
  · intro k' q f held
    rcases before k' q f held with old | ⟨same, _, rfl⟩
    · exact .inl old
    · exact .inr ⟨same, by simp⟩
  · intro f j changed
    by_cases isNew : f = pp
    · exact .inl (by simp [isNew])
    · refine .inr ?_
      by_cases here : f = t ∧ j = i
      · rw [here.1, here.2]
        exact ⟨path, node3, admitted⟩
      · rw [written, write_other here, clear_other isNew] at changed
        exact absurd rfl changed
  · intro walkable k' q f j held jAdmitted isPresent
    have held3 := held.mono (by decide : 2 ≤ 3)
    by_cases here : f = t ∧ j = i
    · rw [written, here.1, here.2, write_same]
      exact ⟨pp, rfl⟩
    · rw [written, write_other here] at isPresent ⊢
      rcases before k' q f held3 with old | ⟨_, _, rfl⟩
      · rw [clear_other (notFree k' q f old)] at isPresent ⊢
        exact walkable k' q f j ⟨held.1, old.2⟩ jAdmitted isPresent
      · rw [clear_same] at isPresent
        exact absurd isPresent (show ¬ present 0#64 = true by decide)
  · intro k' r q j isRoot qAdmitted length
    rw [written]
    exact entry_graft exclusive node3 noEdge edge isRoot qAdmitted (by omega) (by have := node.1; omega)

/-- One level of a creating walk: the table is there, or the free list is empty,
or its first frame is cleared and hung under the entry. -/
theorem nextTable_cases (admits : Index → Prop) (list : FreeList s free) (t : Frame) (i : Index) :
    (present (s.mem t i) = true ∧ nextTable s t i true = (s, some (tableOf (s.mem t i)))) ∨
    (present (s.mem t i) = false ∧ free = [] ∧ nextTable s t i true = (s, none)) ∨
    (present (s.mem t i) = false ∧ ∃ pp rest s', free = pp :: rest ∧ FreeList s' rest ∧
      nextTable s t i true = (s', some pp) ∧
      s'.mem = write (clear (layout admits) s.mem pp) t i (pteMake (page2pa pp) WALK_FLAGS)) := by
  cases isPresent : present (s.mem t i) with
  | true => exact .inl ⟨rfl, by simp [nextTable, isPresent]⟩
  | false =>
    rcases pageAlloc_cases list 1#32 with ⟨empty, failed⟩ | ⟨pp, rest, s₁, split, took, list₁, cleared⟩
    · exact .inr (.inl ⟨rfl, empty, by simp [nextTable, isPresent, failed]⟩)
    · have small : pp < 2 ^ 40 := list.small pp (by simp [split])
      let s₂ := s₁.writeEntry t i (pteMake (page2pa pp) WALK_FLAGS)
      refine .inr (.inr ⟨rfl, pp, rest, s₂, split, list₁.mem_congr _, ?_, ?_⟩)
      · have read : s₂.mem t i = pteMake (page2pa pp) WALK_FLAGS := by simp [s₂, Phys.writeEntry]
        rw [nextTable, isPresent, took]
        show (s₂, some (tableOf (s₂.mem t i))) = _
        rw [read, tableOf_make_page walk_flags_plain small]
      · show (fun g j => if g = t ∧ j = i then _ else s₁.mem g j) = _
        rw [cleared]
        rfl

theorem nextTable_grows {t : Frame} {path : List Index} {i : Index}
    (list : FreeList s free) (exclusive : Exclusive (layout admits) s.mem root 3 others free)
    (node : Node (layout admits) s.mem root 2 k path t) (admitted : (layout admits).Admitted (path ++ [i])) :
    ∃ taken rest, free = taken ++ rest ∧ Grows admits root others k s (nextTable s t i true).1 taken rest ∧
      SameEntries admits root s (nextTable s t i true).1 ∧
      (∀ t', (nextTable s t i true).2 = some t' →
        Node (layout admits) (nextTable s t i true).1.mem root 3 k (path ++ [i]) t') ∧
      ((nextTable s t i true).2 = none → rest = []) := by
  rcases nextTable_cases admits list t i with ⟨isPresent, same⟩ | ⟨_, empty, same⟩ |
    ⟨absent, pp, rest, s', split, list', same, written⟩
  · rw [same]
    refine ⟨[], free, rfl, .refl list exclusive, fun _ _ _ _ _ _ _ => rfl, ?_, by simp⟩
    intro t' found
    cases found
    obtain ⟨short, _, r, isRoot, reached⟩ := node
    refine ⟨by simp; omega, admitted, r, isRoot, ?_⟩
    rw [follow_concat, reached, Option.bind_some, layout_dec, isPresent]
    rfl
  · rw [same]
    exact ⟨[], free, rfl, .refl list exclusive, fun _ _ _ _ _ _ _ => rfl, by simp, fun _ => empty⟩
  · subst split
    obtain ⟨grows, entries, hung⟩ := graft_grows list' (list.small pp (by simp))
      (List.nodup_cons.mp list.nodup).1 exclusive node admitted absent written
    rw [same]
    exact ⟨[pp], rest, rfl, grows, entries, fun t' found => Option.some.inj found ▸ hung, by simp⟩

/-- One level takes a frame exactly when its table is missing, and adds that
table and no other. -/
theorem nextTable_tables {t r : Frame} {path : List Index} {i : Index}
    (list : FreeList s free) (exclusive : Exclusive (layout admits) s.mem root 3 others free)
    (isRoot : root k = some r) (short : path.length ≤ 2) (admitted : (layout admits).Admitted (path ++ [i]))
    (reached : follow (layout admits) s.mem r path = some t) :
    ((nextTable s t i true).2 = none ∧ free = [] ∧ follow (layout admits) s.mem r (path ++ [i]) = none) ∨
    ∃ t' rest, (nextTable s t i true).2 = some t' ∧ FreeList (nextTable s t i true).1 rest ∧
      free.length = rest.length + (if follow (layout admits) s.mem r (path ++ [i]) = none then 1 else 0) ∧
      ∀ q, (layout admits).Admitted q → q.length ≤ 3 →
        follow (layout admits) (nextTable s t i true).1.mem r q =
          if q = path ++ [i] then some t' else follow (layout admits) s.mem r q := by
  have below : follow (layout admits) s.mem r (path ++ [i]) = (layout admits).dec (s.mem t i) := by
    rw [follow_concat, reached, Option.bind_some]
  have node : Node (layout admits) s.mem root 3 k path t :=
    ⟨Nat.le_succ_of_le short, admitted_of_append admitted, r, isRoot, reached⟩
  rw [below, layout_dec]
  rcases nextTable_cases admits list t i with ⟨isPresent, same⟩ | ⟨absent, empty, same⟩ |
    ⟨absent, pp, rest, s', split, list', same, written⟩
  · rw [same, isPresent]
    refine .inr ⟨_, free, rfl, list, by simp, fun q _ _ => ?_⟩
    split
    · rename_i here
      rw [here, below, layout_dec, isPresent]
      rfl
    · rfl
  · rw [same, absent]
    exact .inl ⟨rfl, empty, rfl⟩
  · subst split
    rw [same, absent]
    refine .inr ⟨pp, rest, rfl, list', by simp, fun q qAdmitted qShort => ?_⟩
    obtain ⟨here, elsewhere⟩ := follow_graft exclusive node (by rw [layout_dec, absent]; rfl)
      (dec_walk_entry admits (list.small pp (by simp))) isRoot qAdmitted (Nat.le_succ_of_le qShort)
    rw [written]
    split
    · exact here ⟨rfl, ‹_›⟩
    · exact elsewhere (fun both => ‹¬ _› both.2)

/-- The leaf entry `vmm_walk(.., false)` finds, an absent table counting as 0. -/
def leafEntry (s : Phys) (pml4 : Frame) (vaddr : U64) : PageTableEntry :=
  match (vmmWalk s pml4 vaddr false).2 with
  | none => 0
  | some (pt, idx) => s.mem pt idx

theorem nextTable_read (admits : Index → Prop) (s : Phys) (t : Frame) (i : Index) :
    nextTable s t i false = (s, (layout admits).dec (s.mem t i)) := by
  rw [nextTable, layout_dec]
  cases present (s.mem t i) <;> rfl

/-- A walk that may not create changes nothing and follows the tables. -/
theorem vmmWalk_read (admits : Index → Prop) (s : Phys) (pml4 : Frame) (vaddr : U64) :
    vmmWalk s pml4 vaddr false =
      (s, (follow (layout admits) s.mem pml4 (tablePath vaddr)).map fun pt => (pt, leafIndex vaddr)) := by
  simp only [vmmWalk, nextTable_read admits, tablePath, follow]
  cases (layout admits).dec (s.mem pml4 (subscript (pml4Index vaddr))) with
  | none => rfl
  | some pdpt =>
    dsimp only
    cases (layout admits).dec (s.mem pdpt (subscript (pdptIndex vaddr))) with
    | none => rfl
    | some pd =>
      dsimp only
      cases (layout admits).dec (s.mem pd (subscript (pdIndex vaddr))) <;> rfl

theorem leafEntry_eq (admits : Index → Prop) (s : Phys) (pml4 : Frame) (vaddr : U64) :
    leafEntry s pml4 vaddr = entry (layout admits) s.mem pml4 (tablePath vaddr) (leafIndex vaddr) := by
  rw [leafEntry, vmmWalk_read admits, entry]
  cases follow (layout admits) s.mem pml4 (tablePath vaddr) <;> rfl

theorem admitted_tablePath (lower : admits (subscript (pml4Index vaddr))) :
    (layout admits).Admitted (tablePath vaddr) := by
  intro i first
  cases first
  exact lower

/-- The levels of a creating walk, as a loop over the indices still to go. -/
def walkTables (s : Phys) (t : Frame) : List Index → Phys × Option Frame
  | [] => (s, some t)
  | i :: todo =>
    match nextTable s t i true with
    | (s, none) => (s, none)
    | (s, some t') => walkTables s t' todo

theorem vmmWalk_create (s : Phys) (pml4 : Frame) (vaddr : U64) : vmmWalk s pml4 vaddr true =
    ((walkTables s pml4 (tablePath vaddr)).1,
      (walkTables s pml4 (tablePath vaddr)).2.map fun pt => (pt, leafIndex vaddr)) := by
  simp only [vmmWalk, tablePath, walkTables]
  rcases nextTable s pml4 (subscript (pml4Index vaddr)) true with ⟨s₁, _ | pdpt⟩
  · rfl
  · dsimp only
    rcases nextTable s₁ pdpt (subscript (pdptIndex vaddr)) true with ⟨s₂, _ | pd⟩
    · rfl
    · dsimp only
      rcases nextTable s₂ pd (subscript (pdIndex vaddr)) true with ⟨s₃, _ | pt⟩ <;> rfl

theorem walkTables_grows {t : Frame} {past : List Index} (todo : List Index) (list : FreeList s free)
    (exclusive : Exclusive (layout admits) s.mem root 3 others free)
    (node : Node (layout admits) s.mem root 3 k past t) (room : past.length + todo.length ≤ 3)
    (admitted : (layout admits).Admitted (past ++ todo)) :
    ∃ taken rest, free = taken ++ rest ∧ Grows admits root others k s (walkTables s t todo).1 taken rest ∧
      SameEntries admits root s (walkTables s t todo).1 ∧
      (∀ t', (walkTables s t todo).2 = some t' →
        Node (layout admits) (walkTables s t todo).1.mem root 3 k (past ++ todo) t') ∧
      ((walkTables s t todo).2 = none → rest = []) := by
  induction todo generalizing s t past free with
  | nil =>
    refine ⟨[], free, rfl, .refl list exclusive, fun _ _ _ _ _ _ _ => rfl, fun t' found => ?_, by simp [walkTables]⟩
    rw [List.append_nil]
    exact Option.some.inj found ▸ node
  | cons i todo ih =>
    rw [List.length_cons] at room
    rw [List.append_cons] at admitted
    obtain ⟨taken, rest, split, grows, entries, found, failed⟩ :=
      nextTable_grows (i := i) list exclusive ⟨by omega, node.2⟩ (admitted_of_append admitted)
    rw [walkTables]
    generalize nextTable s t i true = out at *
    obtain ⟨s', _ | t'⟩ := out
    · exact ⟨taken, rest, split, grows, entries, by simp, fun _ => failed rfl⟩
    · obtain ⟨taken', rest', split', grows', entries', found', failed'⟩ :=
        ih grows.list grows.exclusive (found t' rfl) (by simp; omega) admitted
      refine ⟨taken ++ taken', rest', by rw [split, split', List.append_assoc], grows.trans grows',
        entries.trans entries', fun t'' reached => ?_, failed'⟩
      rw [List.append_cons]
      exact found' t'' reached

/-- A creating walk finds the table of its address, or stops because the free
list is empty. -/
theorem vmmWalk_grows {r : Frame} (vaddr : U64) (list : FreeList s free)
    (exclusive : Exclusive (layout admits) s.mem root 3 others free) (isRoot : root k = some r)
    (lower : admits (subscript (pml4Index vaddr))) :
    ∃ taken rest, free = taken ++ rest ∧
      Grows admits root others k s (vmmWalk s r vaddr true).1 taken rest ∧
      SameEntries admits root s (vmmWalk s r vaddr true).1 ∧
      (∀ loc, (vmmWalk s r vaddr true).2 = some loc → loc.2 = leafIndex vaddr ∧
        Node (layout admits) (vmmWalk s r vaddr true).1.mem root 3 k (tablePath vaddr) loc.1) ∧
      ((vmmWalk s r vaddr true).2 = none → rest = []) := by
  have top : Node (layout admits) s.mem root 3 k [] r := ⟨by simp, by simp [Layout.Admitted], r, isRoot, rfl⟩
  obtain ⟨taken, rest, split, grows, entries, found, failed⟩ :=
    walkTables_grows (tablePath vaddr) list exclusive top (by simp [tablePath]) (admitted_tablePath lower)
  rw [vmmWalk_create]
  refine ⟨taken, rest, split, grows, entries, fun loc here => ?_, fun none => failed (by simpa using none)⟩
  obtain ⟨pt, reached, rfl⟩ := Option.map_eq_some_iff.mp here
  exact ⟨rfl, found pt reached⟩

/-- The positions a walk passes through from one path on. -/
def extensions (past : List Index) : List Index → List (List Index)
  | [] => []
  | i :: todo => (past ++ [i]) :: extensions (past ++ [i]) todo

/-- How many of some tables a hierarchy does not have. -/
def missing (mem : PhysMem) (pml4 : Frame) (paths : List (List Index)) : Nat :=
  paths.countP fun path => (follow (layout fun _ => True) mem pml4 path).isNone

/-- Where edges lead does not depend on which indices are admitted. -/
theorem follow_admits (admits admits' : Index → Prop) (mem : PhysMem) (f : Frame) (path : List Index) :
    follow (layout admits) mem f path = follow (layout admits') mem f path := by
  induction path generalizing f with
  | nil => rfl
  | cons i path ih =>
    simp only [follow, layout_dec]
    cases present (mem f i) with
    | false => rfl
    | true => exact ih _

theorem prefix_of_extension {past todo q : List Index} (member : q ∈ extensions past todo) :
    q <+: past ++ todo ∧ past.length < q.length := by
  induction todo generalizing past with
  | nil => simp [extensions] at member
  | cons i todo ih =>
    rw [List.append_cons]
    rcases List.mem_cons.mp member with rfl | later
    · exact ⟨List.prefix_append _ _, by simp⟩
    · obtain ⟨before, longer⟩ := ih later
      rw [List.length_append] at longer
      exact ⟨before, by omega⟩

theorem missing_cons (admits : Index → Prop) (mem : PhysMem) (r : Frame) (past : List Index) (i : Index) (todo : List Index) :
    missing mem r (extensions past (i :: todo)) = missing mem r (extensions (past ++ [i]) todo) +
      (if follow (layout admits) mem r (past ++ [i]) = none then 1 else 0) := by
  simp only [missing, extensions, List.countP_cons, Option.isNone_iff_eq_none, follow_admits (fun _ => True) admits]

theorem missing_eq_card (admits : Index → Prop) (mem : PhysMem) (r : Frame) {paths : List (List Index)} (distinct : paths.Nodup) :
    missing mem r paths = (paths.toFinset.filter fun path => follow (layout admits) mem r path = none).card := by
  rw [missing, List.countP_eq_length_filter, ← List.toFinset_card_of_nodup (distinct.filter _), List.toFinset_filter]
  congr 1
  apply Finset.filter_congr
  intro path _
  rw [Option.isNone_iff_eq_none, follow_admits (fun _ => True) admits]

/-- The tables further down are missing after one level as they were before. -/
theorem missing_later {t' r : Frame} {past todo : List Index} {i : Index}
    (tables : ∀ q, (layout admits).Admitted q → q.length ≤ 3 →
      follow (layout admits) s'.mem r q = if q = past ++ [i] then some t' else follow (layout admits) s.mem r q)
    (admitted : (layout admits).Admitted (past ++ [i] ++ todo)) (room : (past ++ [i] ++ todo).length ≤ 3) :
    missing s'.mem r (extensions (past ++ [i]) todo) = missing s.mem r (extensions (past ++ [i]) todo) := by
  apply List.countP_congr
  intro q member
  obtain ⟨before, longer⟩ := prefix_of_extension member
  obtain ⟨after, whole⟩ := before
  have qAdmitted : (layout admits).Admitted q := admitted_of_append (whole ▸ admitted)
  have qShort : q.length ≤ 3 := by
    have := congrArg List.length whole
    rw [List.length_append] at this
    omega
  rw [follow_admits (fun _ => True) admits, tables q qAdmitted qShort,
    if_neg (fun same => by simp [same] at longer), follow_admits (fun _ => True) admits]

/-- With a frame for every missing table the walk succeeds, takes exactly those
frames, and adds exactly those tables. -/
theorem walkTables_tables {t r : Frame} (past todo : List Index) (list : FreeList s free)
    (exclusive : Exclusive (layout admits) s.mem root 3 others free) (isRoot : root k = some r)
    (reached : follow (layout admits) s.mem r past = some t) (room : past.length + todo.length ≤ 3)
    (admitted : (layout admits).Admitted (past ++ todo))
    (enough : missing s.mem r (extensions past todo) ≤ free.length) :
    (walkTables s t todo).2 ≠ none ∧ ∃ rest, FreeList (walkTables s t todo).1 rest ∧
      free.length = rest.length + missing s.mem r (extensions past todo) ∧
      ∀ q, (layout admits).Admitted q → q.length ≤ 3 →
        (follow (layout admits) (walkTables s t todo).1.mem r q = none ↔
          follow (layout admits) s.mem r q = none ∧ q ∉ extensions past todo) := by
  induction todo generalizing s t past free with
  | nil => exact ⟨by simp [walkTables], free, list, by simp [missing, extensions], by simp [walkTables, extensions]⟩
  | cons i todo ih =>
    rw [List.length_cons] at room
    rw [List.append_cons] at admitted
    have short : past.length ≤ 2 := by omega
    have first := admitted_of_append admitted
    rw [missing_cons admits] at enough ⊢
    obtain ⟨_, _, _, grows, _⟩ := nextTable_grows (i := i) list exclusive
      ⟨short, admitted_of_append (admitted_of_append admitted), r, isRoot, reached⟩ first
    rcases nextTable_tables (i := i) list exclusive isRoot short first reached with
      ⟨_, empty, absent⟩ | ⟨t', rest, found, list', left, tables⟩
    · rw [if_pos absent, empty] at enough
      simp at enough
    · have exclusive' := grows.exclusive
      rw [grows.list.unique list'] at exclusive'
      rw [walkTables]
      generalize nextTable s t i true = out at *
      obtain ⟨s', _⟩ := out
      cases found
      dsimp only at *
      have later := missing_later tables admitted (by simp; omega)
      have hung := tables (past ++ [i]) first (by simp; omega)
      rw [if_pos rfl] at hung
      obtain ⟨succeeds, rest', list'', left', tables'⟩ := ih _ list' exclusive' hung (by simp; omega) admitted
        (by rw [later]; omega)
      refine ⟨succeeds, rest', list'', by rw [later] at left'; omega, fun q qAdmitted qShort => ?_⟩
      rw [tables' q qAdmitted qShort, tables q qAdmitted qShort, extensions, List.mem_cons]
      by_cases here : q = past ++ [i]
      · simp [here]
      · simp [here]

/-- Without a frame for every missing table the walk fails. -/
theorem walkTables_short {t r : Frame} (past todo : List Index) (list : FreeList s free)
    (exclusive : Exclusive (layout admits) s.mem root 3 others free) (isRoot : root k = some r)
    (reached : follow (layout admits) s.mem r past = some t) (room : past.length + todo.length ≤ 3)
    (admitted : (layout admits).Admitted (past ++ todo))
    (short : free.length < missing s.mem r (extensions past todo)) : (walkTables s t todo).2 = none := by
  induction todo generalizing s t past free with
  | nil => simp [missing, extensions] at short
  | cons i todo ih =>
    rw [List.length_cons] at room
    rw [List.append_cons] at admitted
    have first := admitted_of_append admitted
    rw [missing_cons admits] at short
    obtain ⟨_, _, _, grows, _⟩ := nextTable_grows (i := i) list exclusive
      ⟨by omega, admitted_of_append first, r, isRoot, reached⟩ first
    rcases nextTable_tables (i := i) list exclusive isRoot (by omega) first reached with
      ⟨failed, _, _⟩ | ⟨t', rest, found, list', left, tables⟩
    · rw [walkTables]
      generalize nextTable s t i true = out at *
      obtain ⟨s', _⟩ := out
      cases failed
      rfl
    · have exclusive' := grows.exclusive
      rw [grows.list.unique list'] at exclusive'
      rw [walkTables]
      generalize nextTable s t i true = out at *
      obtain ⟨s', _⟩ := out
      cases found
      dsimp only at *
      have later := missing_later tables admitted (by simp; omega)
      have hung := tables (past ++ [i]) first (by simp; omega)
      rw [if_pos rfl] at hung
      exact ih _ list' exclusive' hung (by simp; omega) admitted (by omega)

/-- The paths of the three tables below the top that an address needs. -/
def tablePrefixes (vaddr : U64) : List (List Index) := extensions [] (tablePath vaddr)

theorem tablePrefixes_nodup (vaddr : U64) : (tablePrefixes vaddr).Nodup := by
  simp [tablePrefixes, extensions, tablePath]

/-- With a frame for every missing table the walk to an address succeeds. -/
theorem vmmWalk_tables {r : Frame} {vaddr : U64} (list : FreeList s free)
    (exclusive : Exclusive (layout admits) s.mem root 3 others free) (isRoot : root k = some r)
    (lower : admits (subscript (pml4Index vaddr)))
    (enough : missing s.mem r (tablePrefixes vaddr) ≤ free.length) :
    (vmmWalk s r vaddr true).2 ≠ none ∧ ∃ rest, FreeList (vmmWalk s r vaddr true).1 rest ∧
      free.length = rest.length + missing s.mem r (tablePrefixes vaddr) ∧
      ∀ q, (layout admits).Admitted q → q.length ≤ 3 →
        (follow (layout admits) (vmmWalk s r vaddr true).1.mem r q = none ↔
          follow (layout admits) s.mem r q = none ∧ q ∉ tablePrefixes vaddr) := by
  rw [vmmWalk_create]
  obtain ⟨succeeds, tables⟩ := walkTables_tables [] (tablePath vaddr) list exclusive isRoot rfl
    (by simp [tablePath]) (admitted_tablePath lower) enough
  exact ⟨by simpa using succeeds, tables⟩

theorem vmmWalk_short {r : Frame} {vaddr : U64} (list : FreeList s free)
    (exclusive : Exclusive (layout admits) s.mem root 3 others free) (isRoot : root k = some r)
    (lower : admits (subscript (pml4Index vaddr)))
    (short : free.length < missing s.mem r (tablePrefixes vaddr)) : (vmmWalk s r vaddr true).2 = none := by
  rw [vmmWalk_create, Option.map_eq_none_iff]
  exact walkTables_short [] (tablePath vaddr) list exclusive isRoot rfl (by simp [tablePath]) (admitted_tablePath lower) short

/-- Writing the leaf entry of an address at its table. -/
theorem leaf_write_grows {t : Frame} {path : List Index} {i : Index} (value : PageTableEntry)
    (list : FreeList s free) (exclusive : Exclusive (layout admits) s.mem root 3 others free)
    (node : Node (layout admits) s.mem root 3 k path t) (bottom : path.length = 3) :
    Grows admits root others k s (s.writeEntry t i value) [] free := by
  have follows : ∀ k' r q, root k' = some r → (layout admits).Admitted q → q.length ≤ 3 →
      follow (layout admits) (s.writeEntry t i value).mem r q = follow (layout admits) s.mem r q :=
    fun k' r q isRoot admitted short => follow_write_leaf exclusive node bottom isRoot admitted short
  have nodes : ∀ k' q f, Node (layout admits) (s.writeEntry t i value).mem root 3 k' q f ↔
      Node (layout admits) s.mem root 3 k' q f := by
    intro k' q f
    constructor
    · rintro ⟨short, admitted, r, isRoot, reached⟩
      exact ⟨short, admitted, r, isRoot, by rw [← follows k' r q isRoot admitted short, reached]⟩
    · rintro ⟨short, admitted, r, isRoot, reached⟩
      exact ⟨short, admitted, r, isRoot, by rw [follows k' r q isRoot admitted short, reached]⟩
  have owns : ∀ o f, Owns (layout admits) (s.writeEntry t i value).mem root 3 others o f →
      Owns (layout admits) s.mem root 3 others o f := by
    intro o f held
    cases o with
    | node k' q => exact (nodes k' q f).mp held
    | other x => exact held
  refine ⟨list.mem_congr _, exclusive.of_owns owns, fun k' q f => (nodes k' q f).mpr,
    fun k' q f held => .inl ((nodes k' q f).mp held), ?_, ?_⟩
  · intro f j changed
    refine .inr ⟨path, ?_⟩
    by_cases here : f = t ∧ j = i
    · rw [here.1]
      obtain ⟨first, rest, rfl⟩ : ∃ first rest, path = first :: rest := by
        cases path with
        | nil => simp at bottom
        | cons first rest => exact ⟨first, rest, rfl⟩
      exact ⟨node, node.2.1⟩
    · simp [Phys.writeEntry, here] at changed
  · intro walkable k' q f j held admitted isPresent
    have old := (nodes k' q f).mp (held.mono (by decide))
    have apart : f ≠ t := by
      intro same
      subst same
      have := (exclusive.node_unique old node).2
      have := held.1
      subst path
      omega
    have same : (s.writeEntry t i value).mem f j = s.mem f j := by simp [Phys.writeEntry, apart]
    rw [same] at isPresent ⊢
    exact walkable k' q f j ⟨held.1, old.2⟩ admitted isPresent

/-- The effect of `vmm_map` on every tree: it sets one leaf entry of one tree,
or, when the free list runs out on the way, none. -/
theorem vmmMap_grows {r : Frame} (vaddr physAddr flags : U64) (list : FreeList s free)
    (exclusive : Exclusive (layout admits) s.mem root 3 others free) (isRoot : root k = some r)
    (lower : admits (subscript (pml4Index vaddr))) :
    ∃ taken rest, free = taken ++ rest ∧
      Grows admits root others k s (vmmMap s r vaddr physAddr flags) taken rest ∧
      ((vmmWalk s r vaddr true).2 = none → rest = [] ∧
        SameEntries admits root s (vmmMap s r vaddr physAddr flags)) ∧
      ((vmmWalk s r vaddr true).2 ≠ none →
        ∀ k' r' path i, root k' = some r' → (layout admits).Admitted path → path.length = 3 →
          (k' = k ∧ path = tablePath vaddr ∧ i = leafIndex vaddr →
            entry (layout admits) (vmmMap s r vaddr physAddr flags).mem r' path i = pteMake physAddr flags) ∧
          (¬ (k' = k ∧ path = tablePath vaddr ∧ i = leafIndex vaddr) →
            entry (layout admits) (vmmMap s r vaddr physAddr flags).mem r' path i =
              entry (layout admits) s.mem r' path i)) := by
  obtain ⟨taken, rest, split, grows, entries, found, failed⟩ := vmmWalk_grows vaddr list exclusive isRoot lower
  rw [vmmMap]
  generalize vmmWalk s r vaddr true = out at *
  obtain ⟨s', _ | ⟨pt, idx⟩⟩ := out
  · exact ⟨taken, rest, split, grows, fun _ => ⟨failed rfl, entries⟩, by simp⟩
  · obtain ⟨index, node⟩ := found _ rfl
    dsimp only at index node
    subst index
    have leaf := leaf_write_grows (i := leafIndex vaddr) (pteMake physAddr flags) grows.list grows.exclusive node rfl
    refine ⟨taken ++ [], rest, by simpa using split, grows.trans leaf, by simp, ?_⟩
    intro _ k' r' path i isRoot' admitted length
    obtain ⟨here, elsewhere⟩ := entry_write_leaf (i := leafIndex vaddr) (j := i) (e := pteMake physAddr flags)
      grows.exclusive node rfl isRoot' admitted (Nat.le_of_eq length)
    refine ⟨here, fun different => ?_⟩
    exact (elsewhere different).trans (entries k' r' path i isRoot' admitted length)

/-- `vmm_map` with a frame for every missing table adds exactly those tables. -/
theorem vmmMap_tables {r : Frame} (vaddr physAddr flags : U64) (list : FreeList s free)
    (exclusive : Exclusive (layout admits) s.mem root 3 others free) (isRoot : root k = some r)
    (lower : admits (subscript (pml4Index vaddr)))
    (enough : missing s.mem r (tablePrefixes vaddr) ≤ free.length) :
    (vmmWalk s r vaddr true).2 ≠ none ∧ ∃ rest, FreeList (vmmMap s r vaddr physAddr flags) rest ∧
      free.length = rest.length + missing s.mem r (tablePrefixes vaddr) ∧
      ∀ q, (layout admits).Admitted q → q.length ≤ 3 →
        (follow (layout admits) (vmmMap s r vaddr physAddr flags).mem r q = none ↔
          follow (layout admits) s.mem r q = none ∧ q ∉ tablePrefixes vaddr) := by
  obtain ⟨succeeds, rest, list', left, tables⟩ := vmmWalk_tables list exclusive isRoot lower enough
  obtain ⟨_, _, _, grows, _, found, _⟩ := vmmWalk_grows vaddr list exclusive isRoot lower
  refine ⟨succeeds, rest, ?_⟩
  rw [vmmMap]
  generalize vmmWalk s r vaddr true = out at *
  obtain ⟨s', _ | ⟨pt, idx⟩⟩ := out
  · exact absurd rfl succeeds
  · refine ⟨list'.mem_congr _, left, fun q admitted short => ?_⟩
    rw [← tables q admitted short]
    have kept := follow_write_leaf (i := idx) (e := pteMake physAddr flags) grows.exclusive (found _ rfl).2 rfl
      isRoot admitted short
    exact iff_of_eq (congrArg (· = none) kept)

/-- `vmm_unmap` clears the leaf entry it finds present, at its place in the
table, and otherwise does nothing. -/
theorem vmmUnmap_cases (admits : Index → Prop) (s : Phys) (pml4 : Frame) (vaddr : U64) :
    (present (leafEntry s pml4 vaddr) = false ∧ vmmUnmap s pml4 vaddr = s) ∨
      (present (leafEntry s pml4 vaddr) = true ∧
        ∃ t, follow (layout admits) s.mem pml4 (tablePath vaddr) = some t ∧
          vmmUnmap s pml4 vaddr = s.writeEntry t (leafIndex vaddr) 0) := by
  rw [vmmUnmap, leafEntry, vmmWalk_read admits]
  cases follow (layout admits) s.mem pml4 (tablePath vaddr) with
  | none => exact .inl ⟨show present 0#64 = false by decide, rfl⟩
  | some t =>
    dsimp only [Option.map_some]
    by_cases isPresent : present (s.mem t (leafIndex vaddr)) = true
    · exact .inr ⟨isPresent, t, rfl, if_pos isPresent⟩
    · exact .inl ⟨Bool.eq_false_iff.mpr isPresent, if_neg isPresent⟩

end HobbyKernel.WalkProofs
