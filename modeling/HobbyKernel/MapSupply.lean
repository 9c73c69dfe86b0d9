import HobbyKernel.CopyProofs
import HobbyKernel.Lib.Supply
import HobbyKernel.MapRefinement

/-! Pages that are mapped out of a supply of frames: a frame for each page, and
one for each table on the way that is missing. `vmm_map` does not say that it
could not get them. -/
namespace HobbyKernel.MapSupply
open AddressBits PageAllocProofs WalkProofs CopyProofs MapRefinement Radix Supplies

/-- Which tables an address space has. -/
def TablesView (admits : Index → Prop) (s : Phys) (r : Frame) (parts : List Index → Bool) : Prop :=
  ∀ q, q ≠ [] → (layout admits).Admitted q → q.length ≤ 3 → parts q = (follow (layout admits) s.mem r q).isSome

/-- Which pages of an address space are mapped. -/
def MappedView (admits : Index → Prop) (s : Phys) (r : Frame) (served : BitVec 36 → Bool) : Prop :=
  ∀ va, admits (subscript (pml4Index va)) → served (pageOf va) = present (leafEntry s r va)

abbrev FrameSupply := Supply (BitVec 36) (List Index)

/-- The supply agrees with memory. Once it has given out, the tables that were
made in vain do not matter any more. -/
structure Supplied (admits : Index → Prop) (s : Phys) (r : Frame) (free : List Nat) (supply : FrameSupply) : Prop where
  left : free.length = supply.left
  parts : supply.left ≠ 0 → TablesView admits s r supply.parts
  served : MappedView admits s r supply.served

variable {κ ι : Type} {admits : Index → Prop} {root : κ → Option Frame} {others : ι → Frame → Prop} {k : κ} {s s' : Phys}
  {free rest : List Nat} {r : Frame} {va : U64} {parts : List Index → Bool} {served : BitVec 36 → Bool} {supply : FrameSupply}

/-- The tables on the way to an address. -/
theorem tablePrefixes_spec {q : List Index} (lower : admits (subscript (pml4Index va))) (member : q ∈ tablePrefixes va) :
    q ≠ [] ∧ (layout admits).Admitted q ∧ q.length ≤ 3 := by
  obtain ⟨⟨after, whole⟩, longer⟩ := prefix_of_extension member
  rw [List.nil_append] at whole
  refine ⟨List.ne_nil_of_length_pos longer, admitted_of_append (whole ▸ admitted_tablePath lower), ?_⟩
  have := congrArg List.length whole
  rw [List.length_append, show (tablePath va).length = 3 from rfl] at this
  omega

theorem missing_view (tables : TablesView admits s r parts) (lower : admits (subscript (pml4Index va))) :
    WalkProofs.missing s.mem r (tablePrefixes va) = Supplies.missing tablePrefixes parts va := by
  apply List.countP_congr
  intro q member
  obtain ⟨nonempty, admitted, short⟩ := tablePrefixes_spec lower member
  rw [tables q nonempty admitted short, follow_admits (fun _ => True) admits]
  cases follow (layout admits) s.mem r q <;> simp

/-- Pages are mapped below tables that are there. -/
theorem coherent_view (tables : TablesView admits s r parts) (mapped : MappedView admits s r served)
    (lower : admits (subscript (pml4Index va))) (isServed : served (pageOf va) = true) :
    ∀ q ∈ tablePrefixes va, parts q = true := by
  intro q member
  obtain ⟨nonempty, admitted, short⟩ := tablePrefixes_spec lower member
  rw [mapped va lower, leafEntry_eq admits, entry] at isServed
  rw [tables q nonempty admitted short]
  obtain ⟨⟨after, whole⟩, _⟩ := prefix_of_extension member
  rw [List.nil_append] at whole
  rw [← whole, follow_append] at isServed
  cases reached : follow (layout admits) s.mem r q with
  | none =>
    rw [reached] at isServed
    exact absurd isServed (show ¬ present 0#64 = true by decide)
  | some t => rfl

/-- Writes that leave the tables alone leave the views alone. -/
theorem TablesView.frame (tables : TablesView admits s r parts) (isRoot : root k = some r)
    (same : ∀ path t, Node (layout admits) s.mem root 3 k path t → s'.mem t = s.mem t) : TablesView admits s' r parts := by
  intro q nonempty admitted short
  rw [tables q nonempty admitted short, follow_frame isRoot admitted (Nat.le_succ_of_le short) same]

theorem MappedView.frame (mapped : MappedView admits s r served) (isRoot : root k = some r)
    (same : ∀ path t, Node (layout admits) s.mem root 3 k path t → s'.mem t = s.mem t) : MappedView admits s' r served := by
  intro va lower
  rw [mapped va lower, leafEntry_eq admits, leafEntry_eq admits,
    entry_frame isRoot (admitted_tablePath lower) (by simp [tablePath]) same]

theorem Supplied.frame (supplied : Supplied admits s r free supply) (isRoot : root k = some r)
    (same : ∀ path t, Node (layout admits) s.mem root 3 k path t → s'.mem t = s.mem t) : Supplied admits s' r free supply :=
  ⟨supplied.left, fun some => (supplied.parts some).frame isRoot same, supplied.served.frame isRoot same⟩

/-- `vmm_map` either gets all its tables and maps the page, or uses up the free
list and maps nothing. -/
theorem vmmMap_views (physAddr : U64) {flags : U64} (isPresent : present flags = true) (list : FreeList s free)
    (exclusive : Exclusive (layout admits) s.mem root 3 others free) (isRoot : root k = some r)
    (lower : admits (subscript (pml4Index va))) (tables : TablesView admits s r parts) (mapped : MappedView admits s r served) :
    (Supplies.missing tablePrefixes parts va ≤ free.length → ∃ rest, FreeList (vmmMap s r va physAddr flags) rest ∧
      free.length = rest.length + Supplies.missing tablePrefixes parts va ∧
      TablesView admits (vmmMap s r va physAddr flags) r (addParts tablePrefixes parts va) ∧
      MappedView admits (vmmMap s r va physAddr flags) r (Function.update served (pageOf va) true)) ∧
    (free.length < Supplies.missing tablePrefixes parts va → FreeList (vmmMap s r va physAddr flags) [] ∧
      MappedView admits (vmmMap s r va physAddr flags) r served) := by
  obtain ⟨taken, rest, _, grows, unmapped, written⟩ := vmmMap_grows va physAddr flags list exclusive isRoot lower
  rw [← missing_view tables lower]
  constructor
  · intro enough
    obtain ⟨succeeds, rest', list', left, added⟩ := vmmMap_tables va physAddr flags list exclusive isRoot lower enough
    refine ⟨rest', list', left, fun q nonempty admitted short => ?_, fun va' lower' => ?_⟩
    · have isThere := added q admitted short
      rw [Bool.eq_iff_iff]
      simp only [addParts, tables q nonempty admitted short, Bool.or_eq_true, decide_eq_true_eq, ← Option.ne_none_iff_isSome,
        ne_eq, isThere, not_and_or, not_not]
    · obtain ⟨here, elsewhere⟩ := written succeeds k r (tablePath va') (leafIndex va') isRoot (admitted_tablePath lower') rfl
      rw [leafEntry_eq admits]
      by_cases same : pageOf va' = pageOf va
      · obtain ⟨path, leaf⟩ := (same_page_iff va' va).mpr same
        rw [here ⟨rfl, path, leaf⟩, present_make, isPresent, same, Function.update_self]
      · rw [elsewhere fun place => same ((same_page_iff va' va).mp place.2), Function.update_of_ne same, mapped va' lower',
          leafEntry_eq admits]
  · intro short
    obtain ⟨empty, entries⟩ := unmapped (vmmWalk_short list exclusive isRoot lower short)
    refine ⟨empty ▸ grows.list, fun va' lower' => ?_⟩
    rw [mapped va' lower', leafEntry_eq admits, leafEntry_eq admits,
      entries k r (tablePath va') (leafIndex va') isRoot (admitted_tablePath lower') rfl]

/-- A frame was taken for a page that is now mapped: one round of the supply. -/
theorem map_supplied (skip : Bool) (physAddr : U64) {flags : U64} (isPresent : present flags = true) (list : FreeList s rest)
    (exclusive : Exclusive (layout admits) s.mem root 3 others rest) (isRoot : root k = some r)
    (lower : admits (subscript (pml4Index va))) (left : rest.length + 1 = supply.left)
    (tables : TablesView admits s r supply.parts) (mapped : MappedView admits s r supply.served)
    (taken : ¬ (skip && supply.served (pageOf va)) = true) :
    (serve pageOf tablePrefixes skip va supply).2 = true ∧ ∃ rest', FreeList (vmmMap s r va physAddr flags) rest' ∧
      Supplied admits (vmmMap s r va physAddr flags) r rest' (serve pageOf tablePrefixes skip va supply).1 := by
  obtain ⟨paid, short⟩ := vmmMap_views physAddr isPresent list exclusive isRoot lower tables mapped
  rw [serve, if_neg taken, if_neg (by omega)]
  by_cases enough : supply.left - 1 < Supplies.missing tablePrefixes supply.parts va
  · rw [if_pos enough]
    obtain ⟨list', mapped'⟩ := short (by omega)
    exact ⟨rfl, [], list', rfl, fun some => absurd rfl some, mapped'⟩
  · rw [if_neg enough]
    obtain ⟨rest', list', count, tables', mapped'⟩ := paid (by omega)
    exact ⟨rfl, rest', list', by dsimp only; omega, fun _ => tables', mapped'⟩

/-- The supply that an address space starts out with. -/
def supplyOf (s : Phys) (r : Frame) (frames : Nat) : FrameSupply :=
  ⟨frames, fun q => (tableAt s r q).isSome, fun page => present (leavesOf s r page)⟩

theorem tablesView_start (s : Phys) (r : Frame) (frames : Nat) : TablesView (fun _ => True) s r (supplyOf s r frames).parts :=
  fun _ _ _ _ => rfl

/-- The tables of a hierarchy below some of its top-level entries: none of them
is at two positions or free. Below the other entries there may be anything, also
large pages. -/
structure WellFormedIn (admits : Index → Prop) (s : Phys) (r : Frame) (free : List Nat) : Prop where
  list : FreeList s free
  noSharing : ∀ path path' f, (layout admits).Admitted path → (layout admits).Admitted path' → path.length ≤ 3 → path'.length ≤ 3 →
    tableAt s r path = some f → tableAt s r path' = some f → path = path'
  notFree : ∀ path f, (layout admits).Admitted path → path.length ≤ 3 → tableAt s r path = some f → f ∉ free

theorem wellFormed_inSlots (wf : WellFormed s r free) (admits : Index → Prop) : WellFormedIn admits s r free :=
  ⟨wf.list, fun path path' f _ _ => wf.noSharing path path' f, fun path f _ => wf.notFree path f⟩

/-- The entries that the walk follows do not depend on which of them are in use. -/
theorem follow_layout (admits : Index → Prop) (s : Phys) (r : Frame) (path : List Index) :
    follow (layout admits) s.mem r path = tableAt s r path :=
  follow_admits admits (fun _ => True) s.mem r path

theorem tableNode_iff (path : List Index) (f : Frame) : Node (layout admits) s.mem (alone r) 3 () path f ↔
    path.length ≤ 3 ∧ (layout admits).Admitted path ∧ tableAt s r path = some f := by
  constructor
  · rintro ⟨short, admitted, _, isRoot, reached⟩
    cases isRoot
    exact ⟨short, admitted, (follow_layout admits s r path).symm.trans reached⟩
  · rintro ⟨short, admitted, reached⟩
    exact ⟨short, admitted, r, rfl, (follow_layout admits s r path).trans reached⟩

theorem WellFormedIn.exclusive (wf : WellFormedIn admits s r free) :
    Exclusive (layout admits) s.mem (alone r) 3 nobodyElse free := by
  constructor
  · intro o o' f owns owns'
    cases o with
    | other x => exact x.elim
    | node k path =>
      cases o' with
      | other x => exact x.elim
      | node k' path' =>
        obtain ⟨short, admitted, reached⟩ := (tableNode_iff path f).mp owns
        obtain ⟨short', admitted', reached'⟩ := (tableNode_iff path' f).mp owns'
        rw [wf.noSharing path path' f admitted admitted' short short' reached reached']
  · intro o f owns
    cases o with
    | other x => exact x.elim
    | node k path =>
      obtain ⟨short, admitted, reached⟩ := (tableNode_iff path f).mp owns
      exact wf.notFree path f admitted short reached

theorem wellFormedIn_of_exclusive (list : FreeList s free) (exclusive : Exclusive (layout admits) s.mem (alone r) 3 nobodyElse free) :
    WellFormedIn admits s r free := by
  refine ⟨list, fun path path' f admitted admitted' short short' reached reached' => ?_, fun path f admitted short reached => ?_⟩
  · exact (exclusive.node_unique ((tableNode_iff path f).mpr ⟨short, admitted, reached⟩)
      ((tableNode_iff path' f).mpr ⟨short', admitted', reached'⟩)).2
  · exact exclusive.node_unfree ((tableNode_iff path f).mpr ⟨short, admitted, reached⟩)

theorem supplied_start (admits : Index → Prop) (s : Phys) (r : Frame) (free : List Nat) :
    Supplied admits s r free (supplyOf s r free.length) :=
  ⟨rfl, fun _ q _ _ _ => congrArg Option.isSome (follow_layout admits s r q).symm, fun va _ => congrArg present (leavesOf_page s r va)⟩

/-- A frame that is neither free nor one of the tables. -/
def Plain (admits : Index → Prop) (s : Phys) (r : Frame) (free : List Nat) (f : Frame) : Prop :=
  f ∉ free ∧ ∀ path, (layout admits).Admitted path → path.length ≤ 3 → tableAt s r path ≠ some f

/-- Where the tables are as they were, so is everything that hangs below them. -/
theorem WellFormedIn.frame (wf : WellFormedIn admits s r free) (list : FreeList s' rest) (fewer : ∀ f ∈ rest, f ∈ free)
    (same : ∀ path t, Node (layout admits) s.mem (alone r) 3 () path t → s'.mem t = s.mem t) :
    WellFormedIn admits s' r rest ∧
      (∀ w, admits (subscript (pml4Index w)) → leafEntry s' r w = leafEntry s r w) ∧
      ∀ f, Plain admits s r free f → Plain admits s' r rest f := by
  have isRoot := alone_self r
  refine ⟨wellFormedIn_of_exclusive list ((wf.exclusive.frame fun _ path t node => same path t (node.mono (by decide))).subset fewer),
    fun w admitted => ?_, fun f plain => ⟨fun member => plain.1 (fewer f member), fun path admitted short reached => ?_⟩⟩
  · rw [leafEntry_eq admits, leafEntry_eq admits]
    exact entry_frame isRoot (admitted_tablePath admitted) (by simp [tablePath]) same
  · have before : tableAt s r path = some f := by
      rw [← reached, ← follow_layout admits, ← follow_layout admits]
      exact (follow_frame isRoot admitted (Nat.le_succ_of_le short) same).symm
    exact plain.2 path admitted short before

/-- What a page costs: `page_alloc`, and then `vmm_map` with what is left. -/
theorem mapPage_supplied (skip : Bool) (va : U64) {flags : U64} (isPresent : present flags = true) (wf : WellFormedIn admits s r free)
    (lower : admits (subscript (pml4Index va))) (supplied : Supplied admits s r free supply)
    (taken : ¬ (skip && supply.served (pageOf va)) = true) :
    (pageAlloc s 1#32 = (s, none) ∧ serve pageOf tablePrefixes skip va supply = (supply, false)) ∨
      ∃ pp s₁, pageAlloc s 1#32 = (s₁, some pp) ∧ (serve pageOf tablePrefixes skip va supply).2 = true ∧
        ∃ rest, WellFormedIn admits (vmmMap s₁ r va (page2pa pp) flags) r rest ∧
          Supplied admits (vmmMap s₁ r va (page2pa pp) flags) r rest (serve pageOf tablePrefixes skip va supply).1 ∧
          pp < 2 ^ 40 ∧ Plain admits (vmmMap s₁ r va (page2pa pp) flags) r rest pp ∧
          (∀ f, Plain admits s r free f → Plain admits (vmmMap s₁ r va (page2pa pp) flags) r rest f) ∧
          ∀ w, admits (subscript (pml4Index w)) → leafEntry (vmmMap s₁ r va (page2pa pp) flags) r w = leafEntry s r w ∨
            leafEntry (vmmMap s₁ r va (page2pa pp) flags) r w = pteMake (page2pa pp) flags := by
  have left := supplied.left
  rcases pageAlloc_cases wf.list 1#32 with ⟨rfl, failed⟩ | ⟨pp, rest, s₁, rfl, took, list, cleared⟩
  · refine .inl ⟨failed, ?_⟩
    have none : supply.left = 0 := left.symm
    rw [serve, if_neg taken, if_pos none]
  · rw [List.length_cons] at left
    have isRoot := alone_self r
    have tables : ∀ path t, Node (layout admits) s.mem (alone r) 3 () path t → s₁.mem t = s.mem t := by
      intro path t node
      refine alloc_elsewhere cleared ?_
      rintro rfl
      exact wf.exclusive.node_unfree node List.mem_cons_self
    obtain ⟨wf₁, same, plains⟩ := wf.frame list (fun f member => List.mem_cons_of_mem pp member) tables
    obtain ⟨served, rest', list', supplied'⟩ := map_supplied skip (page2pa pp) isPresent list wf₁.exclusive isRoot lower left
      ((supplied.parts (by omega)).frame isRoot tables) (supplied.served.frame isRoot tables) taken
    obtain ⟨gone, rest'', split, grows, unmapped, mapped⟩ :=
      vmmMap_grows va (page2pa pp) flags list wf₁.exclusive isRoot lower
    cases grows.list.unique list'
    have fewer : ∀ f, Plain admits s₁ r rest f → Plain admits (vmmMap s₁ r va (page2pa pp) flags) r rest' f := by
      intro f plain
      refine ⟨fun member => plain.1 (by rw [split]; exact List.mem_append_right _ member), fun path admitted short reached => ?_⟩
      rcases grows.added () path f ((tableNode_iff path f).mpr ⟨short, admitted, reached⟩) with old | ⟨_, new⟩
      · exact plain.2 path admitted short ((tableNode_iff path f).mp old).2.2
      · exact plain.1 (by rw [split]; exact List.mem_append_left _ new)
    have isPlain : Plain admits s₁ r rest pp := by
      refine ⟨(List.nodup_cons.mp wf.list.nodup).1, fun path admitted short reached => ?_⟩
      have node := (node_frame 2 fun _ path t node => tables path t (node.mono (by decide))).mp
        ((tableNode_iff path pp).mpr ⟨short, admitted, reached⟩)
      exact wf.exclusive.node_unfree node List.mem_cons_self
    refine .inr ⟨pp, s₁, took, served, rest', wellFormedIn_of_exclusive grows.list grows.exclusive, supplied',
      wf.list.small pp List.mem_cons_self, fewer pp isPlain, fun f plain => fewer f (plains f plain), fun w admitted => ?_⟩
    rw [← same w admitted, leafEntry_eq admits, leafEntry_eq admits]
    by_cases failed : (vmmWalk s₁ r va true).2 = none
    · exact .inl ((unmapped failed).2 () r _ _ isRoot (admitted_tablePath admitted) rfl)
    · obtain ⟨here, elsewhere⟩ := mapped failed () r (tablePath w) (leafIndex w) isRoot (admitted_tablePath admitted) rfl
      by_cases samePlace : () = () ∧ tablePath w = tablePath va ∧ leafIndex w = leafIndex va
      · exact .inr (here samePlace)
      · exact .inl (elsewhere samePlace)

theorem needs_determined (va va' : U64) (same : pageOf va = pageOf va') : tablePrefixes va = tablePrefixes va' := by
  rw [tablePrefixes, tablePrefixes, ((same_page_iff va va').mpr same).1]

end HobbyKernel.MapSupply
