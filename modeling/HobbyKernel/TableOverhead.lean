import HobbyKernel.MapRefinement
import HobbyKernel.Lib.Runs

/-! What the tables cost. A sequence of `vmm_map` and `vmm_unmap` calls takes
one frame for each position in the hierarchy that a mapped address needs and
that had no table before, in whatever order the calls come. Unmapping neither
takes a table nor gives one back. Between the calls other code may take pages,
write to them and give them back. -/
namespace HobbyKernel.TableOverhead
open AddressBits PageAllocProofs WalkProofs MapRefinement Radix Runs

variable {s s' s'' : Phys} {pml4 : Frame} {free rest taken : List Nat} {va : U64}

inductive TableCall where
  | map (vaddr physAddr flags : U64)
  | unmap (vaddr : U64)

def tableCall (pml4 : Frame) (s : Phys) : TableCall → Phys
  | .map vaddr physAddr flags => vmmMap s pml4 vaddr physAddr flags
  | .unmap vaddr => vmmUnmap s pml4 vaddr

/-- The positions of the tables that a call may have to make. -/
def TableCall.positions : TableCall → List (List Index)
  | .map vaddr _ _ => tablePrefixes vaddr
  | .unmap _ => []

/-- The positions that the mapped addresses need. -/
def touched (calls : List TableCall) : List (List Index) := calls.flatMap TableCall.positions

/-- The different ones of them that have no table at the start. -/
def newTables (s : Phys) (pml4 : Frame) (calls : List TableCall) : Finset (List Index) :=
  (touched calls).toFinset.filter fun q => tableAt s pml4 q = none

/-- Exactly the touched positions have tables in addition. -/
def TablesAdded (s s' : Phys) (pml4 : Frame) (calls : List TableCall) : Prop :=
  ∀ q, q.length ≤ 3 → (tableAt s' pml4 q = none ↔ tableAt s pml4 q = none ∧ q ∉ touched calls)

variable {c : TableCall} {calls done todo : List TableCall}

theorem positions_short {q : List Index} (member : q ∈ c.positions) : q.length ≤ 3 := by
  cases c with
  | map vaddr _ _ =>
    obtain ⟨before, _⟩ := prefix_of_extension member
    exact before.length_le
  | unmap => cases member

theorem touched_append : touched (done ++ todo) = touched done ++ touched todo := List.flatMap_append

theorem touched_short {q : List Index} (member : q ∈ touched calls) : q.length ≤ 3 := by
  obtain ⟨c, _, inside⟩ := List.mem_flatMap.mp member
  exact positions_short inside

theorem mem_newTables {q : List Index} : q ∈ newTables s pml4 calls ↔ q ∈ touched calls ∧ tableAt s pml4 q = none := by
  rw [newTables, Finset.mem_filter, List.mem_toFinset]

theorem TablesAdded.refl (s : Phys) (pml4 : Frame) : TablesAdded s s pml4 [] := by
  intro q _
  simp [touched]

theorem TablesAdded.trans (first : TablesAdded s s' pml4 done) (second : TablesAdded s' s'' pml4 todo) :
    TablesAdded s s'' pml4 (done ++ todo) := by
  intro q short
  rw [second q short, first q short, touched_append, List.mem_append, not_or, and_assoc]

/-- The number of tables a call misses is the number of its new ones. -/
theorem missing_eq_newTables (s : Phys) (pml4 : Frame) (c : TableCall) :
    missing s.mem pml4 c.positions = (newTables s pml4 [c]).card := by
  have distinct : c.positions.Nodup := by
    cases c with
    | map vaddr _ _ => exact tablePrefixes_nodup vaddr
    | unmap => exact List.nodup_nil
  rw [missing_eq_card (fun _ => True) s.mem pml4 distinct, newTables, touched, List.flatMap_singleton]
  rfl

/-- What one more call misses is what it adds to the new tables of all. -/
theorem card_newTables (added : TablesAdded s s' pml4 done) (c : TableCall) :
    (newTables s pml4 (done ++ [c])).card = (newTables s pml4 done).card + missing s'.mem pml4 c.positions := by
  have later : ∀ q, q ∈ newTables s' pml4 [c] ↔ q ∈ touched [c] ∧ tableAt s pml4 q = none ∧ q ∉ touched done := by
    intro q
    rw [mem_newTables]
    exact and_congr_right fun member => added q (touched_short member)
  have apart : Disjoint (newTables s pml4 done) (newTables s' pml4 [c]) := by
    rw [Finset.disjoint_left]
    intro q before member
    exact ((later q).mp member).2.2 (mem_newTables.mp before).1
  have union : newTables s pml4 (done ++ [c]) = newTables s pml4 done ∪ newTables s' pml4 [c] := by
    ext q
    rw [Finset.mem_union, later, mem_newTables, mem_newTables, touched_append, List.mem_append]
    tauto
  rw [union, Finset.card_union_of_disjoint apart, missing_eq_newTables]

theorem newTables_mono : newTables s pml4 done ⊆ newTables s pml4 (done ++ todo) := by
  intro q member
  rw [mem_newTables] at member ⊢
  rw [touched_append, List.mem_append]
  exact ⟨.inl member.1, member.2⟩

/-- The allocator touches no page that was not on its list. -/
theorem pageAlloc_spares (list : FreeList s free) (flags : U32) {pp : Nat} (unlisted : pp ∉ free) :
    (pageAlloc s flags).1.pages pp = s.pages pp := by
  have pages := (pageAlloc_pages s flags).2
  cases head : s.pageFreeList with
  | none => simp [pageAlloc, head]
  | some first =>
    have chain := list.linked
    rw [head] at chain
    obtain ⟨rest, rfl, _⟩ := Chain.linked_some chain
    rw [(pages first head).2, Function.update_of_ne]
    rintro rfl
    exact unlisted List.mem_cons_self

theorem walkTables_spares {t : Frame} (todo : List Index) (list : FreeList s free) {pp : Nat} (unlisted : pp ∉ free) :
    (walkTables s t todo).1.pages pp = s.pages pp := by
  induction todo generalizing s t free with
  | nil => rfl
  | cons i todo ih =>
    rw [walkTables, nextTable]
    by_cases isThere : present (s.mem t i) = true
    · rw [if_pos isThere]
      exact ih list unlisted
    · rw [if_neg isThere, if_neg (by decide)]
      have spared := pageAlloc_spares list 1#32 unlisted
      rcases pageAlloc_cases list 1#32 with ⟨_, failed⟩ | ⟨new, rest, s', rfl, took, list', _⟩
      · rw [failed]
      · rw [took] at spared ⊢
        exact (ih (list'.mem_congr _) fun member => unlisted (List.mem_cons_of_mem _ member)).trans spared

/-- What a call does to the free list and the tables, whether or not there are
frames for all it misses. -/
structure Takes (pml4 : Frame) (s : Phys) (c : TableCall) (s' : Phys) (free taken rest : List Nat) : Prop where
  split : free = taken ++ rest
  wellFormed : WellFormed s' pml4 rest
  kept : ∀ q f, q.length ≤ 3 → tableAt s pml4 q = some f → tableAt s' pml4 q = some f
  new : ∀ q f, q.length ≤ 3 → tableAt s' pml4 q = some f → tableAt s pml4 q = some f ∨ f ∈ taken
  few : taken.length ≤ missing s.mem pml4 c.positions
  all : missing s.mem pml4 c.positions ≤ free.length →
    taken.length = missing s.mem pml4 c.positions ∧ TablesAdded s s' pml4 [c]
  spares : ∀ pp, pp ∉ free → s'.pages pp = s.pages pp

/-- A growing tree keeps its tables, and its new ones were taken. -/
theorem tables_of_grows {others : Empty → Frame → Prop}
    (grows : Grows (fun _ => True) (fun _ : Unit => some pml4) others () s s' taken rest) {q : List Index} {f : Frame} (short : q.length ≤ 3) :
    (tableAt s pml4 q = some f → tableAt s' pml4 q = some f) ∧
      (tableAt s' pml4 q = some f → tableAt s pml4 q = some f ∨ f ∈ taken) := by
  constructor
  · intro reached
    exact ((node_iff q f).mp (grows.kept () q f ((node_iff q f).mpr ⟨short, reached⟩))).2
  · intro reached
    rcases grows.added () q f ((node_iff q f).mpr ⟨short, reached⟩) with old | ⟨_, new⟩
    · exact .inl ((node_iff q f).mp old).2
    · exact .inr new

theorem map_takes (wf : WellFormed s pml4 free) (vaddr physAddr flags : U64) :
    ∃ taken rest, Takes pml4 s (.map vaddr physAddr flags) (vmmMap s pml4 vaddr physAddr flags) free taken rest := by
  obtain ⟨taken, rest, split, grows, _, _⟩ := vmmMap_grows (k := ()) vaddr physAddr flags wf.list wf.exclusive rfl trivial
  have exactly (enough : missing s.mem pml4 (tablePrefixes vaddr) ≤ free.length) :
      taken.length = missing s.mem pml4 (tablePrefixes vaddr) ∧
        TablesAdded s (vmmMap s pml4 vaddr physAddr flags) pml4 [.map vaddr physAddr flags] := by
    obtain ⟨_, rest', list', left, tables⟩ := vmmMap_tables (k := ()) vaddr physAddr flags wf.list wf.exclusive rfl trivial enough
    cases grows.list.unique list'
    rw [split, List.length_append] at left
    refine ⟨by omega, fun q short => ?_⟩
    rw [touched, List.flatMap_singleton]
    exact tables q (fun _ _ => trivial) short
  refine ⟨taken, rest, split, wf.grows split grows, fun q f short => (tables_of_grows grows short).1,
    fun q f short => (tables_of_grows grows short).2, ?_, exactly, fun pp unlisted => ?_⟩
  · by_cases enough : missing s.mem pml4 (tablePrefixes vaddr) ≤ free.length
    · exact Nat.le_of_eq (exactly enough).1
    · have := congrArg List.length split
      rw [List.length_append] at this
      show taken.length ≤ missing s.mem pml4 (tablePrefixes vaddr)
      omega
  · have walked := walkTables_spares (t := pml4) (tablePath vaddr) wf.list unlisted
    rw [vmmMap, vmmWalk_create]
    cases (walkTables s pml4 (tablePath vaddr)).2 <;> exact walked

theorem unmap_takes (wf : WellFormed s pml4 free) (vaddr : U64) :
    Takes pml4 s (.unmap vaddr) (vmmUnmap s pml4 vaddr) free [] free := by
  have kept : ∀ q f, q.length ≤ 3 → (tableAt (vmmUnmap s pml4 vaddr) pml4 q = some f ↔ tableAt s pml4 q = some f) := by
    intro q f short
    rcases vmmUnmap_cases (fun _ => True) s pml4 vaddr with ⟨_, same⟩ | ⟨_, t, reached, cleared⟩
    · rw [same]
    · have node : Node (layout fun _ => True) s.mem (fun _ : Unit => some pml4) 3 () (tablePath vaddr) t :=
        (node_iff _ t).mpr ⟨by simp [tablePath], reached⟩
      obtain ⟨old, new⟩ := tables_of_grows (leaf_write_grows 0 wf.list wf.exclusive node rfl) (f := f) short
      rw [cleared]
      exact ⟨fun reached => (new reached).resolve_right List.not_mem_nil, old⟩
  have pages : (vmmUnmap s pml4 vaddr).pages = s.pages := by
    rcases vmmUnmap_cases (fun _ => True) s pml4 vaddr with ⟨_, same⟩ | ⟨_, t, _, cleared⟩
    · rw [same]
    · rw [cleared]
      rfl
  obtain ⟨wf', _⟩ := unmap_refines vaddr wf fun va => (leavesOf_page s pml4 va).symm
  refine ⟨rfl, wf', fun q f short => (kept q f short).mpr, fun q f short reached => .inl ((kept q f short).mp reached),
    Nat.zero_le _, fun _ => ⟨rfl, fun q short => ?_⟩, fun pp _ => congrFun pages pp⟩
  rw [Option.ext fun f => kept q f short]
  simp [touched, TableCall.positions]

theorem tableCall_takes (wf : WellFormed s pml4 free) (c : TableCall) :
    ∃ taken rest, Takes pml4 s c (tableCall pml4 s c) free taken rest := by
  cases c with
  | map vaddr physAddr flags => exact map_takes wf vaddr physAddr flags
  | unmap vaddr => exact ⟨[], free, unmap_takes wf vaddr⟩

def tableCalls (pml4 : Frame) (s : Phys) (calls : List TableCall) : Phys := calls.foldl (tableCall pml4) s

theorem tableCalls_append : tableCalls pml4 s (done ++ [c]) = tableCall pml4 (tableCalls pml4 s done) c := by
  rw [tableCalls, List.foldl_append]
  rfl

/-- Tables are never taken away again. -/
theorem calls_keep_tables (wf : WellFormed s pml4 free) (calls : List TableCall) :
    ∃ taken rest, free = taken ++ rest ∧ WellFormed (tableCalls pml4 s calls) pml4 rest ∧
      ∀ q f, q.length ≤ 3 → tableAt s pml4 q = some f → tableAt (tableCalls pml4 s calls) pml4 q = some f := by
  induction calls using List.reverseRecOn with
  | nil => exact ⟨[], free, rfl, wf, fun _ _ _ => id⟩
  | append_singleton done c ih =>
    obtain ⟨taken, rest, rfl, wf', kept⟩ := ih
    obtain ⟨taken', rest', takes⟩ := tableCall_takes wf' c
    rw [tableCalls_append]
    exact ⟨taken ++ taken', rest', by rw [takes.split, List.append_assoc], takes.wellFormed,
      fun q f short reached => takes.kept q f short (kept q f short reached)⟩

/-- With enough frames the calls take one for each new table. -/
theorem calls_take (wf : WellFormed s pml4 free) (enough : (newTables s pml4 calls).card ≤ free.length) :
    ∃ taken rest, free = taken ++ rest ∧ WellFormed (tableCalls pml4 s calls) pml4 rest ∧
      taken.length = (newTables s pml4 calls).card ∧ TablesAdded s (tableCalls pml4 s calls) pml4 calls := by
  induction calls using List.reverseRecOn with
  | nil => exact ⟨[], free, rfl, wf, rfl, .refl s pml4⟩
  | append_singleton done c ih =>
    obtain ⟨taken, rest, split, wf', count, added⟩ := ih (Nat.le_trans (Finset.card_le_card newTables_mono) enough)
    obtain ⟨taken', rest', takes⟩ := tableCall_takes wf' c
    have more := card_newTables added c
    have total := congrArg List.length split
    rw [List.length_append] at total
    obtain ⟨exactly, added'⟩ := takes.all (by omega)
    rw [tableCalls_append]
    refine ⟨taken ++ taken', rest', by rw [split, takes.split, List.append_assoc], takes.wellFormed, ?_, added.trans added'⟩
    rw [List.length_append, count, exactly, more]

theorem map_takes_few (wf : WellFormed s pml4 free) (vaddr physAddr flags : U64) :
    ∃ taken rest, free = taken ++ rest ∧ FreeList (vmmMap s pml4 vaddr physAddr flags) rest ∧ taken.length ≤ 3 := by
  obtain ⟨taken, rest, takes⟩ := map_takes wf vaddr physAddr flags
  exact ⟨taken, rest, takes.split, takes.wellFormed.list, Nat.le_trans takes.few List.countP_le_length⟩

/-- Where all the tables of an address are there, mapping it takes no frame. -/
theorem map_takes_none (wf : WellFormed s pml4 free) {vaddr : U64}
    (there : ∀ q ∈ tablePrefixes vaddr, tableAt s pml4 q ≠ none) (physAddr flags : U64) :
    FreeList (vmmMap s pml4 vaddr physAddr flags) free := by
  obtain ⟨taken, rest, takes⟩ := map_takes wf vaddr physAddr flags
  have none : missing s.mem pml4 (tablePrefixes vaddr) = 0 := by
    rw [missing, List.countP_eq_zero]
    intro q member
    rw [Option.isNone_iff_eq_none]
    exact there q member
  have empty : taken = [] := List.eq_nil_of_length_eq_zero (Nat.le_zero.mp (none ▸ takes.few))
  rw [takes.split, empty]
  exact takes.wellFormed.list

/-- The pages that other code took and has not given back. -/
structure Session where
  phys : Phys
  held : List Nat

inductive SessionAction where
  | call (c : TableCall)
  | take (flags : U32)
  | store (pp : Nat) (i : Index) (value : U64)
  | setRef (pp : Nat) (ref : U16)
  | give (pp : Nat)

def sessionStep (pml4 : Frame) (s : Session) : SessionAction → Option (Session × List TableCall)
  | .call c => some (⟨tableCall pml4 s.phys c, s.held⟩, [c])
  | .take flags => some (⟨(pageAlloc s.phys flags).1, (pageAlloc s.phys flags).2.toList ++ s.held⟩, [])
  | .store pp i value => some (⟨s.phys.writeEntry pp i value, s.held⟩, [])
  | .setRef pp ref => some (⟨setRef s.phys pp ref, s.held⟩, [])
  | .give pp => some (⟨pageFree s.phys pp, s.held.erase pp⟩, [])

/-- `count_free` is not below the number of tables that a call misses. -/
def HasFrames (pml4 : Frame) (s : Phys) (c : TableCall) : Prop :=
  ∃ fuel frames, countFreeWithin fuel s = some frames ∧ missing s.mem pml4 c.positions ≤ frames

/-- Other code works on the pages it took. `page_free` refuses a page that is
referred to. -/
def SessionAllowed (pml4 : Frame) (s : Session) : SessionAction → Prop
  | .call c => HasFrames pml4 s.phys c
  | .take _ => True
  | .store pp _ _ => pp ∈ s.held
  | .setRef pp _ => pp ∈ s.held
  | .give pp => pp ∈ s.held ∧ (s.phys.pages pp).ppRef = 0

/-- Every frame is free, held, or a table that was added. -/
structure SessionInv (s : Phys) (pml4 : Frame) (free : List Nat) (calls : List TableCall) (session : Session) (rest : List Nat) :
    Prop where
  wellFormed : WellFormed session.phys pml4 rest
  added : TablesAdded s session.phys pml4 calls
  distinct : (rest ++ session.held).Nodup
  held : ∀ pp ∈ session.held, pp < 2 ^ 40 ∧ (session.phys.pages pp).ppLink = none ∧
    ∀ q, q.length ≤ 3 → tableAt session.phys pml4 q ≠ some pp
  spent : free.length = rest.length + session.held.length + (newTables s pml4 calls).card

variable {session session' : Session} {a : SessionAction} {new : List TableCall}

/-- Writes to pages that are held leave the tables alone. -/
theorem SessionInv.frame (inv : SessionInv s pml4 free calls session rest) {phys : Phys} (list : FreeList phys rest)
    (links : ∀ pp, (phys.pages pp).ppLink = (session.phys.pages pp).ppLink)
    (same : ∀ f, f ∉ session.held → phys.mem f = session.phys.mem f) :
    SessionInv s pml4 free calls ⟨phys, session.held⟩ rest := by
  have apart : ∀ path f, path.length ≤ 3 → tableAt session.phys pml4 path = some f →
      phys.mem f = session.phys.mem f ∧ f ∉ rest := by
    intro path f short reached
    exact ⟨same f fun member => (inv.held f member).2.2 path short reached, inv.wellFormed.notFree path f short reached⟩
  have tables := elsewhere_tables fun path f short reached => (apart path f short reached).1
  refine ⟨(elsewhere_refines inv.wellFormed list apart).1, fun q short => ?_, inv.distinct, fun pp member => ?_, inv.spent⟩
  · rw [tables q short]
    exact inv.added q short
  · obtain ⟨small, unlinked, noTable⟩ := inv.held pp member
    refine ⟨small, (links pp).trans unlinked, fun q short => ?_⟩
    rw [tables q short]
    exact noTable q short

theorem SessionInv.call (inv : SessionInv s pml4 free calls session rest) (frames : HasFrames pml4 session.phys c) :
    ∃ rest', SessionInv s pml4 free (calls ++ [c]) ⟨tableCall pml4 session.phys c, session.held⟩ rest' := by
  obtain ⟨fuel, total, counted, enough⟩ := frames
  obtain ⟨taken, rest', takes⟩ := tableCall_takes inv.wellFormed c
  have count := Chain.count_eq_length inv.wellFormed.list.linked counted
  obtain ⟨exactly, added⟩ := takes.all (by omega)
  have more := card_newTables inv.added c
  have length := congrArg List.length takes.split
  rw [List.length_append] at length
  have distinct := inv.distinct
  rw [takes.split, List.append_assoc] at distinct
  have spent := inv.spent
  refine ⟨rest', takes.wellFormed, inv.added.trans added, (List.nodup_append.mp distinct).2.1, fun pp member => ?_,
    by dsimp only; omega⟩
  obtain ⟨small, unlinked, noTable⟩ := inv.held pp member
  have unlisted : pp ∉ rest := fun listed => (List.nodup_append.mp inv.distinct).2.2 pp listed pp member rfl
  refine ⟨small, ?_, fun q short reached => ?_⟩
  · rw [takes.spares pp unlisted]
    exact unlinked
  · rcases takes.new q pp short reached with old | taken
    · exact noTable q short old
    · exact unlisted (takes.split ▸ List.mem_append_left _ taken)

theorem SessionInv.take (inv : SessionInv s pml4 free calls session rest) (flags : U32) : ∃ rest', SessionInv s pml4 free calls
    ⟨(pageAlloc session.phys flags).1, (pageAlloc session.phys flags).2.toList ++ session.held⟩ rest' := by
  obtain ⟨result, pages⟩ := pageAlloc_pages session.phys flags
  rcases pageAlloc_cases inv.wellFormed.list flags with ⟨_, failed⟩ | ⟨pp, rest', s', rfl, took, list, mem⟩
  · rw [failed]
    exact ⟨rest, inv⟩
  · rw [took] at pages result ⊢
    have newPages := (pages pp result.symm).2
    have noTable : ∀ q, q.length ≤ 3 → tableAt session.phys pml4 q ≠ some pp :=
      fun q short reached => inv.wellFormed.notFree q pp short reached List.mem_cons_self
    have apart : ∀ path f, path.length ≤ 3 → tableAt session.phys pml4 path = some f →
        s'.mem f = session.phys.mem f ∧ f ∉ rest' := by
      intro path f short reached
      refine ⟨alloc_elsewhere mem ?_, fun member => inv.wellFormed.notFree path f short reached (List.mem_cons_of_mem _ member)⟩
      rintro rfl
      exact noTable path short reached
    have tables := elsewhere_tables fun path f short reached => (apart path f short reached).1
    have spent := inv.spent
    rw [List.length_cons] at spent
    refine ⟨rest', (elsewhere_refines inv.wellFormed list apart).1, fun q short => ?_, List.perm_middle.nodup_iff.mpr inv.distinct,
      fun q member => ?_, by simp only [Option.toList_some, List.singleton_append, List.length_cons]; omega⟩
    · rw [tables q short]
      exact inv.added q short
    · have facts : q < 2 ^ 40 ∧ (s'.pages q).ppLink = none ∧ ∀ path, path.length ≤ 3 → tableAt session.phys pml4 path ≠ some q := by
        rw [newPages]
        by_cases same : q = pp
        · rw [same, Function.update_self]
          exact ⟨inv.wellFormed.list.small pp List.mem_cons_self, rfl, noTable⟩
        · rw [Function.update_of_ne same]
          exact inv.held q ((List.mem_cons.mp member).resolve_left same)
      refine ⟨facts.1, facts.2.1, fun path short => ?_⟩
      rw [tables path short]
      exact facts.2.2 path short

theorem SessionInv.give (inv : SessionInv s pml4 free calls session rest) {pp : Nat} (member : pp ∈ session.held)
    (unreferenced : (session.phys.pages pp).ppRef = 0) :
    SessionInv s pml4 free calls ⟨pageFree session.phys pp, session.held.erase pp⟩ (pp :: rest) := by
  obtain ⟨small, unlinked, noTable⟩ := inv.held pp member
  have pool : PoolInv (rest ++ session.held) ⟨session.phys, session.held⟩ rest :=
    ⟨inv.wellFormed.list.linked, .refl _, fun q held => (inv.held q held).2.1⟩
  obtain ⟨_, given⟩ := pool.free inv.distinct member unreferenced
  have list : FreeList (pageFree session.phys pp) (pp :: rest) := by
    refine ⟨given.linked, fun q listed => ?_⟩
    rcases List.mem_cons.mp listed with rfl | old
    · exact small
    · exact inv.wellFormed.list.small q old
  have mem : (pageFree session.phys pp).mem = session.phys.mem := by
    rw [pageFree]
    split <;> rfl
  have tables : ∀ q, tableAt (pageFree session.phys pp) pml4 q = tableAt session.phys pml4 q := fun q => by rw [tableAt, mem, tableAt]
  have held := List.length_erase_of_mem member
  have positive := List.length_pos_of_mem member
  have spent := inv.spent
  refine ⟨(elsewhere_refines inv.wellFormed list fun path f short reached => ⟨by rw [mem], fun listed => ?_⟩).1, fun q short => ?_,
    given.conserved.nodup_iff.mpr inv.distinct, fun q kept => ?_, by dsimp only; rw [List.length_cons]; omega⟩
  · rcases List.mem_cons.mp listed with rfl | old
    · exact noTable path short reached
    · exact inv.wellFormed.notFree path f short reached old
  · rw [tables q]
    exact inv.added q short
  · obtain ⟨small', _, noTable'⟩ := inv.held q (List.mem_of_mem_erase kept)
    exact ⟨small', given.unlinked q kept, fun path short => tables path ▸ noTable' path short⟩

theorem sessionStep_inv (inv : SessionInv s pml4 free calls session rest) (may : SessionAllowed pml4 session a)
    (did : sessionStep pml4 session a = some (session', new)) : ∃ rest', SessionInv s pml4 free (calls ++ new) session' rest' := by
  cases a with
  | call c =>
    cases did
    exact inv.call may
  | take flags =>
    cases did
    rw [List.append_nil]
    exact inv.take flags
  | store pp i value =>
    cases did
    rw [List.append_nil]
    refine ⟨rest, inv.frame (inv.wellFormed.list.mem_congr _) (fun _ => rfl) fun f other => ?_⟩
    have apart : f ≠ pp := fun same => other (same ▸ may)
    funext j
    simp [Phys.writeEntry, apart]
  | setRef pp ref =>
    cases did
    rw [List.append_nil]
    have links : ∀ q, ((setRef session.phys pp ref).pages q).ppLink = (session.phys.pages q).ppLink := by
      intro q
      by_cases same : q = pp
      · subst same
        simp [setRef]
      · simp [setRef, same]
    exact ⟨rest, inv.frame ⟨Chain.linked_congr inv.wellFormed.list.linked fun q _ => links q, inv.wellFormed.list.small⟩
      links fun _ _ => rfl⟩
  | give pp =>
    cases did
    rw [List.append_nil]
    exact ⟨pp :: rest, inv.give may.1 may.2⟩

theorem session_inv (wf : WellFormed s pml4 free)
    (run : Run (sessionStep pml4) (SessionAllowed pml4) ⟨s, []⟩ calls session) :
    ∃ rest, SessionInv s pml4 free calls session rest := by
  refine run.invariant (fun calls session => ∃ rest, SessionInv s pml4 free calls session rest) ?_ ?_
  · exact ⟨free, wf, .refl s pml4, by simpa using wf.list.nodup, nofun, rfl⟩
  · rintro calls session a session' new ⟨rest, inv⟩ may did
    exact sessionStep_inv inv may did

/-- **Tables cost what the addresses touch.** Whatever the order of the calls,
they take one frame for each different position that a mapped address needs and
that had no table: never more than three for one call, none for an address whose
tables are there, also after unmapping, and none for unmapping. Once other code has
given back the pages it took for mappings, `count_free` is lower by exactly
that number. -/
theorem overhead_is_new_tables (wf : WellFormed s pml4 free) :
    (∀ calls, (newTables s pml4 calls).card ≤ free.length →
      ∃ taken rest, free = taken ++ rest ∧ FreeList (tableCalls pml4 s calls) rest ∧
        taken.length = (newTables s pml4 calls).card) ∧
    (∀ calls vaddr physAddr flags, ∃ taken rest, FreeList (tableCalls pml4 s calls) (taken ++ rest) ∧
      FreeList (vmmMap (tableCalls pml4 s calls) pml4 vaddr physAddr flags) rest ∧ taken.length ≤ 3) ∧
    (∀ before after vaddr physAddr flags, (∀ q ∈ tablePrefixes vaddr, tableAt (tableCalls pml4 s before) pml4 q ≠ none) →
      ∃ rest, FreeList (tableCalls pml4 s (before ++ after)) rest ∧
        FreeList (vmmMap (tableCalls pml4 s (before ++ after)) pml4 vaddr physAddr flags) rest) ∧
    (∀ calls vaddr, ∃ rest, FreeList (tableCalls pml4 s calls) rest ∧ FreeList (vmmUnmap (tableCalls pml4 s calls) pml4 vaddr) rest) ∧
    (∀ calls session, Run (sessionStep pml4) (SessionAllowed pml4) ⟨s, []⟩ calls session →
      session.held.length + (newTables s pml4 calls).card ≤ free.length ∧
      ∀ fuel, free.length < fuel → countFreeWithin fuel s = some free.length ∧
        countFreeWithin fuel session.phys = some (free.length - session.held.length - (newTables s pml4 calls).card)) := by
  refine ⟨fun calls enough => ?_, fun calls vaddr physAddr flags => ?_, fun before after vaddr physAddr flags there => ?_,
    fun calls vaddr => ?_, fun calls session run => ?_⟩
  · obtain ⟨taken, rest, split, wf', count, _⟩ := calls_take wf enough
    exact ⟨taken, rest, split, wf'.list, count⟩
  · obtain ⟨_, left, _, wf', _⟩ := calls_keep_tables wf calls
    obtain ⟨taken, rest, rfl, list, few⟩ := map_takes_few wf' vaddr physAddr flags
    exact ⟨taken, rest, wf'.list, list, few⟩
  · obtain ⟨_, middle, _, wf', _⟩ := calls_keep_tables wf before
    obtain ⟨_, rest, _, wf'', kept⟩ := calls_keep_tables wf' after
    have later : tableCalls pml4 s (before ++ after) = tableCalls pml4 (tableCalls pml4 s before) after := List.foldl_append
    rw [later]
    refine ⟨rest, wf''.list, map_takes_none wf'' (fun q member => ?_) physAddr flags⟩
    obtain ⟨f, reached⟩ := Option.ne_none_iff_exists'.mp (there q member)
    rw [kept q f (positions_short (c := .map vaddr physAddr flags) member) reached]
    exact Option.some_ne_none f
  · obtain ⟨_, rest, _, wf', _⟩ := calls_keep_tables wf calls
    exact ⟨rest, wf'.list, (unmap_takes wf' vaddr).wellFormed.list⟩
  · obtain ⟨rest, inv⟩ := session_inv wf run
    have spent := inv.spent
    refine ⟨by omega, fun fuel enough => ⟨(Chain.count_linked wf.list.linked enough 0).trans (by rw [Nat.zero_add]), ?_⟩⟩
    refine (Chain.count_linked inv.wellFormed.list.linked (by omega) 0).trans ?_
    exact congrArg some (by omega)

/-- A page is taken, mapped below three new tables, written to, mapped a second time
below them, unmapped and given back: three of eight frames are gone. -/
theorem overhead_is_new_tables_cleared : ∃ calls session,
    Run (sessionStep 0) (SessionAllowed 0) ⟨clearedPhys 1 8, []⟩ calls session ∧ session.held = [] ∧
      countFreeWithin 9 session.phys = some 5 := by
  have run : Run (sessionStep 0) (SessionAllowed 0) ⟨clearedPhys 1 8, []⟩ _ _ :=
    .next (.give 1) (.next (.call (.unmap 0x1000)) (.next (.call (.map 0x2000 (page2pa 1) 3)) (.next (.store 1 0 0xA5A50000)
      (.next (.call (.map 0x1000 (page2pa 1) 3)) (.next (.take 1) .start trivial rfl)
        ⟨9, 7, by decide +kernel, by decide +kernel⟩ rfl) (List.mem_singleton_self 1) rfl)
        ⟨9, 4, by decide +kernel, by decide +kernel⟩ rfl) ⟨9, 4, by decide +kernel, by decide +kernel⟩ rfl)
      ⟨List.mem_singleton_self 1, by decide +kernel⟩ rfl
  have count := ((overhead_is_new_tables (clearedPhys_wellFormed (by decide : 1 + 8 ≤ 2 ^ 40))).2.2.2.2 _ _ run).2 9 (by decide)
  exact ⟨_, _, run, by decide +kernel, count.2.trans (by decide +kernel)⟩

end HobbyKernel.TableOverhead
