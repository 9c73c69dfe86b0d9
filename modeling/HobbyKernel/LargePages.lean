import HobbyKernel.UserAccess

/-! Hierarchies with large pages, as a boot loader builds them. `vmm_walk` looks
at present bits only: where a page directory entry maps a large page, it takes
the memory of that page for a table. -/
namespace HobbyKernel.LargePages
open AddressBits PageAllocProofs WalkProofs UserAccess Radix

/-- An entry names a table when it is present and maps no large page. -/
def paged : Layout Frame Index U64 where
  dec e := if present e && !Cpu.pageSize e then some (tableOf e) else none
  empty := 0
  dec_empty := rfl
  admits := fun _ => True

/-- What the walker goes by. -/
abbrev walked : Layout Frame Index U64 := layout fun _ => True

variable {s s' : Phys} {mem : PhysMem} {free rest : List Nat} {pml4 t f : Frame} {va : U64} {q todo : List Index} {i : Index}
  {known : Frame → Prop}

/-- The page tables of a hierarchy. -/
def PageTable (mem : PhysMem) (pml4 f : Frame) : Prop := ∃ path, path.length ≤ 3 ∧ follow paged mem pml4 path = some f

/-- The frames of the memory that large pages map. -/
def InLargePage (mem : PhysMem) (pml4 f : Frame) : Prop :=
  ∃ path t i, follow paged mem pml4 path = some t ∧ present (mem t i) = true ∧ Cpu.pageSize (mem t i) = true ∧
    (path.length = 1 ∧ f / 2 ^ 18 = tableOf (mem t i) / 2 ^ 18 ∨ path.length = 2 ∧ f / 2 ^ 9 = tableOf (mem t i) / 2 ^ 9)

/-- What a call of `vmm_map` may write: page tables, and frames it takes. -/
def TablesOnly (s : Phys) (pml4 : Frame) (va physAddr flags : U64) (free : List Nat) : Prop :=
  ∃ taken rest, free = taken ++ rest ∧ FreeList (vmmMap s pml4 va physAddr flags) rest ∧
    ∀ f i, (vmmMap s pml4 va physAddr flags).mem f i ≠ s.mem f i → PageTable s.mem pml4 f ∨ f ∈ taken

/-- Where `vmm_walk(.., false)` may point: a direct map covers page tables by
large pages as well, but nothing else in a large page is an entry. -/
def PointsAtTable (s : Phys) (pml4 : Frame) (va : U64) : Prop :=
  ∀ pt idx, (vmmWalk s pml4 va false).2 = some (pt, idx) → InLargePage s.mem pml4 pt → PageTable s.mem pml4 pt

/-- A large page is on the way to the address, and when its memory is read as
page tables they lead to a frame that is none. -/
def Strays (mem : PhysMem) (pml4 : Frame) (va : U64) : Prop :=
  ∃ before i after t, tablePath va = before ++ i :: after ∧ follow paged mem pml4 before = some t ∧
    present (mem t i) = true ∧ Cpu.pageSize (mem t i) = true ∧
      ¬ PageTable mem pml4 (furthest walked mem (tableOf (mem t i)) after)

theorem walked_of_paged (reached : follow paged mem f q = some t) : follow walked mem f q = some t := by
  induction q generalizing f with
  | nil => exact reached
  | cons i q ih =>
    rw [follow] at reached ⊢
    cases isPresent : present (mem f i) && !Cpu.pageSize (mem f i) with
    | false =>
      rw [show paged.dec (mem f i) = none by rw [paged]; dsimp only; rw [isPresent]; rfl] at reached
      cases reached
    | true =>
      have edge : paged.dec (mem f i) = some (tableOf (mem f i)) := by rw [paged]; dsimp only; rw [isPresent]; rfl
      rw [edge] at reached
      rw [Bool.and_eq_true] at isPresent
      rw [layout_dec, isPresent.1]
      exact ih reached

/-- The processor reads no entries but those of the page tables on the path of
the address. -/
theorem translate_congr {mem mem' : PhysMem} {r : Frame}
    (same : ∀ before j after t, tablePath va ++ [leafIndex va] = before ++ j :: after → follow paged mem r before = some t →
      mem' t j = mem t j) : Cpu.translate mem' r va = Cpu.translate mem r va := by
  obtain ⟨path, leaf⟩ := indexAt_path va
  have places : tablePath va ++ [leafIndex va] = [Cpu.indexAt va 3, Cpu.indexAt va 2, Cpu.indexAt va 1, Cpu.indexAt va 0] := by
    rw [← path, ← leaf]
    rfl
  have edge : ∀ e : U64, Cpu.isPresent e = true → Cpu.pageSize e = false → paged.dec e = some (Cpu.addressOf e) := by
    intro e isPresent small
    rw [cpu_present] at isPresent
    rw [paged, cpu_address]
    simp [isPresent, small]
  have e4 := same [] _ _ r places rfl
  unfold Cpu.translate
  dsimp only
  rw [e4]
  by_cases p4 : Cpu.isPresent (mem r (Cpu.indexAt va 3)) = true
  swap
  · simp [Bool.not_eq_true _ ▸ p4]
  by_cases l4 : Cpu.pageSize (mem r (Cpu.indexAt va 3)) = true
  · simp [l4]
  have to3 : follow paged mem r [Cpu.indexAt va 3] = some (Cpu.addressOf (mem r (Cpu.indexAt va 3))) := by
    simp only [follow, edge _ p4 (Bool.not_eq_true _ ▸ l4)]
  rw [same _ _ _ _ places to3]
  generalize Cpu.addressOf (mem r (Cpu.indexAt va 3)) = t3 at *
  by_cases p3 : Cpu.isPresent (mem t3 (Cpu.indexAt va 2)) = true
  swap
  · simp [Bool.not_eq_true _ ▸ p3]
  by_cases l3 : Cpu.pageSize (mem t3 (Cpu.indexAt va 2)) = true
  · simp [p3, l3]
  have to2 : follow paged mem r ([Cpu.indexAt va 3] ++ [Cpu.indexAt va 2]) =
      some (Cpu.addressOf (mem t3 (Cpu.indexAt va 2))) := by
    rw [follow_concat, to3]
    exact edge _ p3 (Bool.not_eq_true _ ▸ l3)
  rw [same _ _ _ _ places to2]
  generalize Cpu.addressOf (mem t3 (Cpu.indexAt va 2)) = t2 at *
  by_cases p2 : Cpu.isPresent (mem t2 (Cpu.indexAt va 1)) = true
  swap
  · simp [Bool.not_eq_true _ ▸ p2]
  by_cases l2 : Cpu.pageSize (mem t2 (Cpu.indexAt va 1)) = true
  · simp [p3, p2, l2]
  have to1 : follow paged mem r ([Cpu.indexAt va 3] ++ [Cpu.indexAt va 2] ++ [Cpu.indexAt va 1]) =
      some (Cpu.addressOf (mem t2 (Cpu.indexAt va 1))) := by
    rw [follow_concat, to2]
    exact edge _ p2 (Bool.not_eq_true _ ▸ l2)
  rw [same _ _ _ _ places to1]

/-- As far as the walk meets no large page it goes through page tables; and
where it meets one, it does not stray if it ends in a table all the same. -/
theorem furthest_table_iff (mem : PhysMem) (pml4 : Frame) (va : U64) :
    PageTable mem pml4 (furthest walked mem pml4 (tablePath va)) ↔ ¬ Strays mem pml4 va := by
  constructor
  · rintro isTable ⟨before, i, after, t, split, reached, isPresent, _, noTable⟩
    apply noTable
    have edge : walked.dec (mem t i) = some (tableOf (mem t i)) := by rw [layout_dec, isPresent]; rfl
    have beyond : follow walked mem pml4 (before ++ [i]) = some (tableOf (mem t i)) := by
      rw [follow_concat, walked_of_paged reached]
      exact edge
    rw [split, List.append_cons, furthest_append beyond] at isTable
    exact isTable
  · intro stays
    rcases furthest_cases paged mem pml4 (tablePath va) with all | ⟨before, i, after, split, reached, stops⟩
    · refine ⟨tablePath va, Nat.le_refl 3, ?_⟩
      have same := furthest_append (q := []) (walked_of_paged all)
      rw [List.append_nil] at same
      rw [same]
      exact all
    · have short : before.length ≤ 3 := by
        have := congrArg List.length split
        rw [List.length_append, show (tablePath va).length = 3 from rfl] at this
        omega
      generalize furthest paged mem pml4 (tablePath va) = t at reached stops
      have onward := furthest_append (q := i :: after) (walked_of_paged reached)
      rw [← split, furthest] at onward
      rw [onward]
      cases isPresent : present (mem t i) with
      | false =>
        rw [layout_dec, isPresent]
        exact ⟨before, short, reached⟩
      | true =>
        rw [layout_dec, isPresent]
        by_contra noTable
        refine stays ⟨before, i, after, t, split, reached, isPresent, ?_, noTable⟩
        by_contra small
        rw [Bool.not_eq_true] at small
        rw [paged] at stops
        simp [isPresent, small] at stops

/-- Where memory changes when a cleared frame is hung up. -/
theorem graft_changed {pp : Frame} {e : U64} {j : Index} (written : s'.mem = write (clear walked s.mem pp) t i e)
    (changed : s'.mem f j ≠ s.mem f j) : f = t ∨ f = pp := by
  by_contra other
  rw [not_or] at other
  rw [written, write_other (fun both => other.1 both.1), clear_other other.2] at changed
  exact changed rfl

/-- The entries there are then. -/
theorem graft_edge {pp : Nat} {j : Index} (small : pp < 2 ^ 40)
    (written : s'.mem = write (clear walked s.mem pp) t i (pteMake (page2pa pp) WALK_FLAGS)) (isPresent : present (s'.mem f j) = true) :
    tableOf (s'.mem f j) = pp ∨ (f ≠ pp ∧ s'.mem f j = s.mem f j) := by
  rw [written] at isPresent ⊢
  by_cases here : f = t ∧ j = i
  · rw [here.1, here.2, write_same]
    exact .inl (tableOf_make_page walk_flags_plain small)
  · rw [write_other here] at isPresent ⊢
    by_cases isPp : f = pp
    · rw [isPp, clear_same] at isPresent
      exact absurd isPresent (show ¬ present 0#64 = true by decide)
    · exact .inr ⟨isPp, clear_other isPp⟩

/-- A walk that has taken a frame only meets frames it has taken. -/
theorem walkTables_taken (todo : List Index) (list : FreeList s free) (isKnown : known t)
    (closed : ∀ f, known f → ∀ j, present (s.mem f j) = true → known (tableOf (s.mem f j))) :
    ∃ taken rest, free = taken ++ rest ∧ FreeList (walkTables s t todo).1 rest ∧
      (∀ f j, (walkTables s t todo).1.mem f j ≠ s.mem f j → known f ∨ f ∈ taken) ∧
      ∀ t', (walkTables s t todo).2 = some t' → known t' ∨ t' ∈ taken := by
  induction todo generalizing s t free known with
  | nil => exact ⟨[], free, rfl, list, fun _ _ changed => absurd rfl changed, fun t' same => .inl (Option.some.inj same ▸ isKnown)⟩
  | cons i todo ih =>
    rw [walkTables]
    rcases nextTable_cases (fun _ => True) list t i with ⟨isPresent, same⟩ | ⟨_, _, same⟩ | ⟨_, pp, rest, s', rfl, list', same, written⟩
    · rw [same]
      exact ih list (closed t isKnown i isPresent) closed
    · rw [same]
      exact ⟨[], free, rfl, list, fun _ _ changed => absurd rfl changed, fun _ stopped => by cases stopped⟩
    · rw [same]
      have isNew : pp ∈ pp :: rest := List.mem_cons_self
      have closed' : ∀ f, known f ∨ f = pp → ∀ j, present (s'.mem f j) = true → known (tableOf (s'.mem f j)) ∨ tableOf (s'.mem f j) = pp := by
        intro f isKnown' j isPresent
        rcases graft_edge (list.small pp isNew) written isPresent with new | ⟨other, old⟩
        · exact .inr new
        · rw [old] at isPresent ⊢
          exact .inl (closed f (isKnown'.resolve_right other) j isPresent)
      obtain ⟨taken, rest', split, list'', changes, result⟩ := ih list' (.inr rfl) closed'
      have assign : ∀ f, (known f ∨ f = pp) ∨ f ∈ taken → known f ∨ f ∈ pp :: taken := fun f place => by
        rw [List.mem_cons, ← or_assoc]
        exact place
      refine ⟨pp :: taken, rest', by rw [split, List.cons_append], list'', fun f j changed => assign f ?_,
        fun t' found => assign t' (result t' found)⟩
      by_cases later : (walkTables s' pp todo).1.mem f j = s'.mem f j
      · rw [later] at changed
        rcases graft_changed written changed with isTable | isPp
        · exact .inl (.inl (isTable ▸ isKnown))
        · exact .inl (.inr isPp)
      · exact changes f j later

/-- Of what was there before, a walk only writes the last frame it reaches. -/
theorem walkTables_furthest (t : Frame) (todo : List Index) (list : FreeList s free) :
    ∃ taken rest, free = taken ++ rest ∧ FreeList (walkTables s t todo).1 rest ∧
      (∀ f j, (walkTables s t todo).1.mem f j ≠ s.mem f j → f = furthest walked s.mem t todo ∨ f ∈ taken) ∧
      ∀ t', (walkTables s t todo).2 = some t' → t' = furthest walked s.mem t todo ∨ t' ∈ taken := by
  induction todo generalizing t with
  | nil => exact ⟨[], free, rfl, list, fun _ _ changed => absurd rfl changed, fun t' same => .inl (Option.some.inj same).symm⟩
  | cons i todo ih =>
    rw [walkTables, furthest, layout_dec]
    rcases nextTable_cases (fun _ => True) list t i with ⟨isPresent, same⟩ | ⟨absent, _, same⟩ | ⟨absent, pp, rest, s', rfl, list', same, written⟩
    · rw [same, isPresent]
      exact ih (tableOf (s.mem t i))
    · rw [same]
      exact ⟨[], free, rfl, list, fun _ _ changed => absurd rfl changed, fun _ stopped => by cases stopped⟩
    · rw [same, absent]
      have closed : ∀ f, f = pp → ∀ j, present (s'.mem f j) = true → tableOf (s'.mem f j) = pp := fun f isPp j isPresent =>
        (graft_edge (list.small pp List.mem_cons_self) written isPresent).resolve_right fun old => old.1 isPp
      obtain ⟨taken, rest', split, list'', changes, result⟩ := walkTables_taken todo list' (by rfl) closed
      refine ⟨pp :: taken, rest', by rw [split, List.cons_append], list'', fun f j changed => ?_,
        fun t' found => .inr (List.mem_cons.mpr (result t' found))⟩
      by_cases later : (walkTables s' pp todo).1.mem f j = s'.mem f j
      · rw [later] at changed
        exact (graft_changed written changed).imp_right fun isPp : f = pp => isPp ▸ List.mem_cons_self
      · exact .inr (List.mem_cons.mpr (changes f j later))

theorem vmmMap_furthest (pml4 : Frame) (va physAddr flags : U64) (list : FreeList s free) :
    ∃ taken rest, free = taken ++ rest ∧ FreeList (vmmMap s pml4 va physAddr flags) rest ∧
      ∀ f j, (vmmMap s pml4 va physAddr flags).mem f j ≠ s.mem f j → f = furthest walked s.mem pml4 (tablePath va) ∨ f ∈ taken := by
  obtain ⟨taken, rest, split, list', changes, result⟩ := walkTables_furthest pml4 (tablePath va) list
  rw [vmmMap, vmmWalk_create]
  generalize walkTables s pml4 (tablePath va) = out at *
  obtain ⟨s', _ | pt⟩ := out
  · exact ⟨taken, rest, split, list', changes⟩
  · refine ⟨taken, rest, split, list'.mem_congr _, fun f j changed => ?_⟩
    by_cases here : f = pt ∧ j = leafIndex va
    · rw [here.1]
      exact result pt rfl
    · refine changes f j fun same => changed ?_
      rw [← same]
      exact write_other here

theorem walkTables_follow (reached : follow walked s.mem f q = some t) : walkTables s f (q ++ todo) = walkTables s t todo := by
  induction q generalizing f with
  | nil =>
    cases reached
    rfl
  | cons i q ih =>
    rw [follow, layout_dec] at reached
    cases isPresent : present (s.mem f i) with
    | false =>
      rw [isPresent] at reached
      cases reached
    | true =>
      rw [isPresent] at reached
      rw [List.cons_append, walkTables, nextTable, if_pos isPresent]
      exact ih reached

/-- There is a free list, of one frame at most, and an entry for which the call
does write that frame. -/
theorem furthest_written (mem : PhysMem) (pml4 : Frame) (va : U64) : ∃ (s : Phys) (free : List Nat) (flags : U64) (j : Index),
    s.mem = mem ∧ FreeList s free ∧ furthest walked mem pml4 (tablePath va) ∉ free ∧
      (vmmMap s pml4 va 0 flags).mem (furthest walked mem pml4 (tablePath va)) j ≠ mem (furthest walked mem pml4 (tablePath va)) j := by
  rcases furthest_cases walked mem pml4 (tablePath va) with all | ⟨before, j, after, split, reached, absent⟩
  · generalize furthest walked mem pml4 (tablePath va) = t at *
    let s : Phys := ⟨mem, fun _ => ⟨none, 0⟩, none⟩
    refine ⟨s, [], mem t (leafIndex va) ^^^ 1, leafIndex va, rfl, ⟨rfl, nofun⟩, nofun, ?_⟩
    have walk : vmmWalk s pml4 va true = (s, some (t, leafIndex va)) := by
      have ends : walkTables s pml4 (tablePath va ++ []) = walkTables s t [] := walkTables_follow all
      rw [List.append_nil] at ends
      rw [vmmWalk_create, ends]
      rfl
    have other : ∀ e : U64, e ^^^ 1 ≠ e := by
      intro e same
      have bit := congrArg (fun e : U64 => e.getLsbD 0) same
      simp at bit
    rw [vmmMap, walk]
    dsimp only
    rw [Phys.writeEntry]
    dsimp only
    rw [if_pos ⟨rfl, rfl⟩, pteMake_eq, show (0 : U64) &&& PTE_ADDR_MASK = 0#64 from rfl, BitVec.zero_or]
    exact other _
  · generalize furthest walked mem pml4 (tablePath va) = t at *
    obtain ⟨pp, apart, small⟩ : ∃ pp : Nat, t ≠ pp ∧ pp < 2 ^ 40 := by
      by_cases zero : t = 0
      · exact ⟨1, by rw [zero]; decide, by decide⟩
      · exact ⟨0, zero, by decide⟩
    let s : Phys := ⟨mem, fun _ => ⟨none, 0⟩, some pp⟩
    have list : FreeList s [pp] := ⟨⟨rfl, rfl⟩, by simpa using small⟩
    refine ⟨s, [pp], 0, j, rfl, list, by simpa using apart, ?_⟩
    have unmapped : present (mem t j) = false := by
      by_contra isPresent
      rw [Bool.not_eq_false] at isPresent
      rw [layout_dec, isPresent] at absent
      cases absent
    suffices written : (vmmMap s pml4 va 0 0).mem t j = pteMake (page2pa pp) WALK_FLAGS by
      intro same
      rw [written] at same
      rw [← same, present_make] at unmapped
      exact absurd unmapped (by decide)
    have walk : walkTables s pml4 (tablePath va) = walkTables s t (j :: after) := by rw [split, walkTables_follow reached]
    rw [vmmMap, vmmWalk_create, walk, walkTables]
    rcases nextTable_cases (fun _ => True) list t j with ⟨isPresent, _⟩ | ⟨_, empty, _⟩ | ⟨_, pp', rest, s', same, list', took, graft⟩
    · exact absurd isPresent (by rw [unmapped]; decide)
    · cases empty
    · cases same
      have closed : ∀ f, f = pp → ∀ j, present (s'.mem f j) = true → tableOf (s'.mem f j) = pp := fun f isPp j isPresent =>
        (graft_edge small graft isPresent).resolve_right fun old => old.1 isPp
      obtain ⟨taken, rest, none, _, changes, result⟩ := walkTables_taken after list' (by rfl) closed
      obtain ⟨rfl, rfl⟩ := List.append_eq_nil_iff.mp none.symm
      have kept : (walkTables s' pp after).1.mem t j = pteMake (page2pa pp) WALK_FLAGS := by
        by_contra changed
        refine (changes t j fun same => changed ?_).elim apart nofun
        rw [same, graft, write_same]
      rw [took]
      dsimp only
      generalize walkTables s' pp after = out at *
      obtain ⟨s'', _ | t'⟩ := out
      · exact kept
      · have isPp : t' = pp := (result t' rfl).resolve_right nofun
        rw [← kept]
        exact write_other fun both => apart (both.1.trans isPp)

/-- `vmm_map` writes page tables and taken frames only, whatever it maps and
whatever is free, and `vmm_walk` does not point into a large page, exactly when
no large page on the way leads the walk astray. -/
theorem map_tables_only_iff (mem : PhysMem) (pml4 : Frame) (va : U64) :
    (∀ s free, s.mem = mem → FreeList s free →
      (∀ physAddr flags, TablesOnly s pml4 va physAddr flags free) ∧ PointsAtTable s pml4 va) ↔ ¬ Strays mem pml4 va := by
  rw [← furthest_table_iff]
  constructor
  · intro all
    obtain ⟨s, free, flags, j, rfl, list, notTaken, written⟩ := furthest_written mem pml4 va
    obtain ⟨taken, rest, split, _, only⟩ := (all s free rfl list).1 0 flags
    refine (only _ j written).resolve_right fun new => notTaken ?_
    rw [split]
    exact List.mem_append_left _ new
  · rintro isTable s free rfl list
    refine ⟨fun physAddr flags => ?_, fun pt idx found _ => ?_⟩
    · obtain ⟨taken, rest, split, list', changes⟩ := vmmMap_furthest pml4 va physAddr flags list
      exact ⟨taken, rest, split, list', fun f j changed => (changes f j changed).imp_left fun last : f = _ => last ▸ isTable⟩
    · rw [vmmWalk_read fun _ => True] at found
      obtain ⟨t, reached, same⟩ := Option.map_eq_some_iff.mp found
      cases same
      have last := furthest_append (q := []) reached
      rw [List.append_nil] at last
      rw [last] at isTable
      exact isTable

/-- Among tables that the walker made there is nothing to stray from. -/
theorem walkable_stays {κ : Type} {root : κ → Option Frame} {k : κ} (walkable : Walkable (fun _ => True) mem root)
    (isRoot : root k = some pml4) (va : U64) : ¬ Strays mem pml4 va := by
  rintro ⟨before, i, after, t, split, reached, isPresent, isLarge, _⟩
  have short : before.length ≤ 2 := by
    have length := congrArg List.length split
    rw [List.length_append, List.length_cons, show (tablePath va).length = 3 from rfl] at length
    omega
  obtain ⟨pp, made⟩ := walkable k before t i ⟨short, fun _ _ => trivial, pml4, isRoot, walked_of_paged reached⟩
    (fun _ _ => trivial) isPresent
  rw [made, (walk_entry_open pp).1] at isLarge
  cases isLarge

/-- Three tables, and a large page at 0x200000 that is mapped at 0. -/
def largePage : Phys where
  mem := fun f i => if i = 0 then (if f = 0 then 0x1003 else if f = 1 then 0x2003 else if f = 2 then 0x200083 else 0) else 0
  pages := fun _ => ⟨none, 0⟩
  pageFreeList := none

theorem largePage_tables (isTable : PageTable largePage.mem 0 f) : f ≤ 2 := by
  have inside : ∀ (g : Frame) i h, paged.dec (largePage.mem g i) = some h → h ≤ 2 := by
    intro g i h edge
    simp only [largePage] at edge
    split at edge
    · split at edge
      · cases (show some 1 = some h from edge)
        decide
      · split at edge
        · cases (show some 2 = some h from edge)
          decide
        · split at edge
          · cases (show none = some h from edge)
          · cases (show none = some h from edge)
    · cases (show none = some h from edge)
  obtain ⟨path, _, reached⟩ := isTable
  rcases List.eq_nil_or_concat path with rfl | ⟨before, i, rfl⟩
  · cases reached
    decide
  · rw [List.concat_eq_append, follow_concat] at reached
    obtain ⟨t, _, edge⟩ := Option.bind_eq_some_iff.mp reached
    exact inside t i f edge

/-- Mapping the page 0x1000 writes an entry into the memory of the large page. -/
theorem map_writes_large_page :
    ¬ (∀ (s : Phys) (pml4 : Frame) (va physAddr flags : U64) (free : List Nat), FreeList s free →
      TablesOnly s pml4 va physAddr flags free) ∧
    ¬ (∀ (s : Phys) (pml4 : Frame) (va : U64), PointsAtTable s pml4 va) ∧
    InLargePage largePage.mem 0 512 ∧ (vmmMap largePage 0 0x1000 0x5000 3).mem 512 1 = 0x5003 := by
  have noTable : ¬ PageTable largePage.mem 0 512 := fun isTable => absurd (largePage_tables isTable) (by decide)
  have inside : InLargePage largePage.mem 0 512 := ⟨[0, 0], 2, 0, rfl, rfl, rfl, .inr ⟨rfl, rfl⟩⟩
  have written : (vmmMap largePage 0 0x1000 0x5000 3).mem 512 1 = 0x5003 := by decide +kernel
  refine ⟨fun all => ?_, fun all => ?_, inside, written⟩
  · obtain ⟨taken, rest, split, _, only⟩ := all largePage 0 0x1000 0x5000 3 [] ⟨rfl, nofun⟩
    have nothing := (List.append_eq_nil_iff.mp split.symm).1
    rcases only 512 1 (by rw [written]; decide) with isTable | new
    · exact noTable isTable
    · rw [nothing] at new
      cases new
  · exact noTable (all largePage 0 0x1000 512 1 (by decide +kernel) inside)

end HobbyKernel.LargePages
