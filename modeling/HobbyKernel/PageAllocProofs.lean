import HobbyKernel.AddressBits
import HobbyKernel.Lib.Chain
import HobbyKernel.Lib.Runs

/-! The frame allocator hands out the frames of its free list one after another.
The list is the one threaded through `pp_link`, so being finite already makes it
free of duplicates. -/
namespace HobbyKernel.PageAllocProofs
open AddressBits Runs

/-- `page_free_list` visits exactly these pages, each with an address below 2^52. -/
structure FreeList (s : Phys) (free : List Nat) : Prop where
  linked : Chain.Linked (fun pp => (s.pages pp).ppLink) s.pageFreeList free
  small : ∀ pp ∈ free, pp < 2 ^ 40

theorem FreeList.nodup (list : FreeList s free) : free.Nodup := Chain.linked_nodup list.linked

theorem FreeList.unique (list : FreeList s free) (list' : FreeList s free') : free = free' :=
  Chain.linked_unique list.linked list'.linked

theorem FreeList.mem_congr (list : FreeList s free) (mem : PhysMem) :
    FreeList { s with mem := mem } free := ⟨list.linked, list.small⟩

/-- `page_alloc` fails exactly on an empty list, and otherwise takes the first
page, cleared when that was asked for. -/
theorem pageAlloc_cases (list : FreeList s free) (flags : U32) :
    (free = [] ∧ pageAlloc s flags = (s, none)) ∨
      ∃ pp rest s', free = pp :: rest ∧ pageAlloc s flags = (s', some pp) ∧ FreeList s' rest ∧
        s'.mem = if flags &&& ALLOC_ZERO ≠ 0 then (s.zeroFrame pp).mem else s.mem := by
  cases head : s.pageFreeList with
  | none =>
    have empty := list.linked
    rw [head, Chain.linked_none] at empty
    exact .inl ⟨empty, by simp [pageAlloc, head]⟩
  | some pp =>
    have chain := list.linked
    rw [head] at chain
    obtain ⟨rest, rfl, popped⟩ := Chain.linked_pop chain none
    have small := list.small pp (by simp)
    let unlinked : Phys := { s with
      pageFreeList := (s.pages pp).ppLink
      pages := Function.update s.pages pp { s.pages pp with ppLink := none } }
    have linked : Chain.Linked (fun q => (unlinked.pages q).ppLink) unlinked.pageFreeList rest := by
      refine Chain.linked_congr popped (fun q _ => ?_)
      by_cases same : q = pp
      · subst same
        simp [unlinked]
      · simp [unlinked, same]
    refine .inr ⟨pp, rest, if flags &&& ALLOC_ZERO ≠ 0 then unlinked.zeroFrame pp else unlinked, rfl, ?_, ?_, ?_⟩
    · simp only [pageAlloc, head, frameOf_page2pa small]
      rfl
    · have later : ∀ q ∈ rest, q < 2 ^ 40 := fun q member => list.small q (by simp [member])
      split
      · exact ⟨linked, later⟩
      · exact ⟨linked, later⟩
    · split <;> rfl

/-- `page_alloc` writes to the page it hands out and to no other. -/
theorem alloc_elsewhere {s s' : Phys} {pp : Nat} {flags : U32} {g : Frame}
    (mem : s'.mem = if flags &&& ALLOC_ZERO ≠ 0 then (s.zeroFrame pp).mem else s.mem) (other : g ≠ pp) :
    s'.mem g = s.mem g := by
  funext j
  rw [mem]
  split
  · simp [Phys.zeroFrame, other]
  · rfl

/-- Cleared memory with `count` free frames from `first` on. -/
def clearedPhys (first count : Nat) : Phys where
  mem := fun _ _ => 0
  pages := fun pp => ⟨if pp + 1 < first + count then some (pp + 1) else none, 0⟩
  pageFreeList := if count = 0 then none else some first

theorem clearedPhys_free (bound : first + count ≤ 2 ^ 40) :
    FreeList (clearedPhys first count) (List.range' first count) := by
  refine ⟨?_, fun pp member => ?_⟩
  · have chain : ∀ n start, start + n = first + count → Chain.Linked
        (fun pp => if pp + 1 < first + count then some (pp + 1) else none)
        (if n = 0 then none else some start) (List.range' start n) := by
      intro n
      induction n with
      | zero => intro start _; simp
      | succ n ih =>
        intro start total
        have rest := ih (start + 1) (by omega)
        rw [List.range'_succ]
        refine Chain.linked_cons.mpr ⟨by simp, ?_⟩
        cases n with
        | zero => simp [show ¬ start + 1 < first + count by omega]
        | succ n => simpa [show start + 1 < first + count by omega] using rest
    exact chain count first rfl
  · rw [List.mem_range'_1] at member
    omega

/-- The allocator together with the pages that were handed out and not given
back since. -/
structure Pool where
  phys : Phys
  held : List Nat

/-- What users of the allocator do. Whoever holds a page keeps its reference
count. -/
inductive PoolAction where
  | alloc (flags : U32)
  | free (pp : Nat)
  | setRef (pp : Nat) (ref : U16)

def setRef (s : Phys) (pp : Nat) (ref : U16) : Phys :=
  { s with pages := Function.update s.pages pp { s.pages pp with ppRef := ref } }

def poolStep (p : Pool) : PoolAction → Option (Pool × List Empty)
  | .alloc flags => some (⟨(pageAlloc p.phys flags).1, (pageAlloc p.phys flags).2.toList ++ p.held⟩, [])
  | .free pp => some (⟨pageFree p.phys pp, p.held.erase pp⟩, [])
  | .setRef pp ref => some (⟨setRef p.phys pp ref, p.held⟩, [])

/-- Only a page that is held, and that nobody refers to, is given back. -/
def PoolAllowed (p : Pool) : PoolAction → Prop
  | .alloc _ => True
  | .free pp => pp ∈ p.held ∧ (p.phys.pages pp).ppRef = 0
  | .setRef pp _ => pp ∈ p.held

/-- The free pages and the held ones together are the initial ones. The guard of
`page_free` reads the link of a held page, so that is part of the invariant. -/
structure PoolInv (initial : List Nat) (p : Pool) (rest : List Nat) : Prop where
  linked : Chain.Linked (fun pp => (p.phys.pages pp).ppLink) p.phys.pageFreeList rest
  conserved : (rest ++ p.held).Perm initial
  unlinked : ∀ pp ∈ p.held, (p.phys.pages pp).ppLink = none

theorem pageAlloc_pages (s : Phys) (flags : U32) :
    (pageAlloc s flags).2 = s.pageFreeList ∧ ∀ pp, s.pageFreeList = some pp →
      (pageAlloc s flags).1.pageFreeList = (s.pages pp).ppLink ∧
      (pageAlloc s flags).1.pages = Function.update s.pages pp { s.pages pp with ppLink := none } := by
  unfold pageAlloc
  cases s.pageFreeList with
  | none => exact ⟨rfl, fun pp isHead => nomatch isHead⟩
  | some head =>
    refine ⟨rfl, fun pp isHead => ?_⟩
    cases isHead
    constructor <;> (dsimp only; split <;> rfl)

theorem PoolInv.alloc {p : Pool} (inv : PoolInv initial p rest) (flags : U32) :
    ∃ rest', PoolInv initial ⟨(pageAlloc p.phys flags).1, (pageAlloc p.phys flags).2.toList ++ p.held⟩ rest' := by
  obtain ⟨result, pages⟩ := pageAlloc_pages p.phys flags
  cases head : p.phys.pageFreeList with
  | none =>
    have same : pageAlloc p.phys flags = (p.phys, none) := by simp [pageAlloc, head]
    rw [same]
    exact ⟨rest, inv⟩
  | some pp =>
    obtain ⟨newHead, newPages⟩ := pages pp head
    have chain := inv.linked
    rw [head] at chain
    obtain ⟨rest, rfl, popped⟩ := Chain.linked_pop chain none
    have links : (fun q => ((pageAlloc p.phys flags).1.pages q).ppLink) =
        Function.update (fun q => (p.phys.pages q).ppLink) pp none := by
      funext q
      rw [newPages]
      by_cases same : q = pp
      · subst same
        simp
      · simp [same]
    refine ⟨rest, ?_, ?_, fun q member => ?_⟩
    · rw [newHead, links]
      exact popped
    · rw [result, head]
      exact List.perm_middle.trans inv.conserved
    · rw [congrFun links q]
      by_cases same : q = pp
      · rw [same, Function.update_self]
      · rw [Function.update_of_ne same]
        rw [result, head, Option.toList_some, List.singleton_append, List.mem_cons] at member
        exact inv.unlinked q (member.resolve_left same)

/-- A page that is held is not on the list, and the guard of `page_free` lets it
pass. -/
theorem PoolInv.free {p : Pool} {pp : Nat} (inv : PoolInv initial p rest) (distinct : initial.Nodup)
    (held : pp ∈ p.held) (unreferenced : (p.phys.pages pp).ppRef = 0) :
    badFree p.phys pp = false ∧ PoolInv initial ⟨pageFree p.phys pp, p.held.erase pp⟩ (pp :: rest) := by
  have good : badFree p.phys pp = false := by simp [badFree, unreferenced, inv.unlinked pp held]
  have apart := List.nodup_append.mp (inv.conserved.nodup_iff.mpr distinct)
  have links : (fun q => ((pageFree p.phys pp).pages q).ppLink) =
      Function.update (fun q => (p.phys.pages q).ppLink) pp p.phys.pageFreeList := by
    funext q
    by_cases same : q = pp
    · subst same
      simp [pageFree, good]
    · simp [pageFree, good, same]
  refine ⟨good, ?_, ?_, fun q member => ?_⟩
  · have first : (pageFree p.phys pp).pageFreeList = some pp := by simp [pageFree, good]
    rw [first, links]
    exact Chain.linked_push inv.linked (fun member => apart.2.2 pp member pp held rfl)
  · have moved : (pp :: (rest ++ p.held.erase pp)).Perm (rest ++ p.held) :=
      List.perm_middle.symm.trans ((List.perm_cons_erase held).symm.append_left rest)
    exact moved.trans inv.conserved
  · have other := (List.Nodup.mem_erase_iff apart.2.1).mp member
    rw [congrFun links q, Function.update_of_ne other.1]
    exact inv.unlinked q other.2

theorem PoolInv.setRef {p : Pool} (inv : PoolInv initial p rest) (pp : Nat) (ref : U16) :
    PoolInv initial ⟨setRef p.phys pp ref, p.held⟩ rest := by
  have links : ∀ q, ((PageAllocProofs.setRef p.phys pp ref).pages q).ppLink = (p.phys.pages q).ppLink := by
    intro q
    by_cases same : q = pp
    · subst same
      simp [PageAllocProofs.setRef]
    · simp [PageAllocProofs.setRef, same]
  refine ⟨?_, inv.conserved, fun q member => (links q).trans (inv.unlinked q member)⟩
  exact Chain.linked_congr inv.linked (fun q _ => links q)

/-- The invariant along every run of allocations and legitimate frees. -/
theorem run_poolInv {s : Phys} {p : Pool} {events : List Empty}
    (list : Chain.Linked (fun pp => (s.pages pp).ppLink) s.pageFreeList initial)
    (run : Run poolStep PoolAllowed ⟨s, []⟩ events p) : ∃ rest, PoolInv initial p rest := by
  refine run.invariant (fun _ p => ∃ rest, PoolInv initial p rest) ?_ ?_
  · exact ⟨initial, list, by simp, by simp⟩
  · rintro _ p a p' new ⟨rest, inv⟩ may did
    cases a with
    | alloc flags =>
      cases did
      exact inv.alloc flags
    | free pp =>
      cases did
      exact ⟨pp :: rest, (inv.free (Chain.linked_nodup list) may.1 may.2).2⟩
    | setRef pp ref =>
      cases did
      exact ⟨rest, inv.setRef pp ref⟩

/-- No page is lost and none is handed out twice, whatever the order in which
pages are taken and given back. -/
theorem pages_conserved {s : Phys} {p : Pool} {events : List Empty}
    (list : Chain.Linked (fun pp => (s.pages pp).ppLink) s.pageFreeList initial)
    (run : Run poolStep PoolAllowed ⟨s, []⟩ events p) :
    (∃ rest, Chain.Linked (fun pp => (p.phys.pages pp).ppLink) p.phys.pageFreeList rest ∧ rest.Nodup ∧
      p.held.Nodup ∧ rest.Disjoint p.held ∧ ∀ pp, pp ∈ initial ↔ pp ∈ rest ∨ pp ∈ p.held) ∧
    (∀ pp, PoolAllowed p (.free pp) → badFree p.phys pp = false) ∧
    (∀ flags, (pageAlloc p.phys flags).2 = none ↔ ∀ pp ∈ initial, pp ∈ p.held) ∧
    ∀ fuel, initial.length < fuel → countFreeWithin fuel s = some initial.length ∧
      countFreeWithin fuel p.phys = some (initial.length - p.held.length) := by
  have distinct := Chain.linked_nodup list
  obtain ⟨rest, inv⟩ := run_poolInv list run
  obtain ⟨restDistinct, heldDistinct, apart⟩ := List.nodup_append.mp (inv.conserved.nodup_iff.mpr distinct)
  have union : ∀ pp, pp ∈ initial ↔ pp ∈ rest ∨ pp ∈ p.held := by
    intro pp
    rw [← inv.conserved.mem_iff, List.mem_append]
  refine ⟨⟨rest, inv.linked, restDistinct, heldDistinct, fun pp listed held => apart pp listed pp held rfl, union⟩,
    fun pp may => (inv.free distinct may.1 may.2).1, fun flags => ?_, fun fuel enough => ?_⟩
  · rw [(pageAlloc_pages p.phys flags).1]
    constructor
    · intro exhausted pp member
      have empty : rest = [] := by
        rw [← Chain.linked_none, ← exhausted]
        exact inv.linked
      rw [union, empty] at member
      exact member.resolve_left List.not_mem_nil
    · intro allHeld
      cases head : p.phys.pageFreeList with
      | none => rfl
      | some pp =>
        have chain := inv.linked
        rw [head] at chain
        obtain ⟨tail, rfl, _⟩ := Chain.linked_some chain
        have held := allHeld pp ((union pp).mpr (.inl List.mem_cons_self))
        exact absurd rfl (apart pp List.mem_cons_self pp held)
  · have total := inv.conserved.length_eq
    rw [List.length_append] at total
    refine ⟨(Chain.count_linked list enough 0).trans (by rw [Nat.zero_add]), ?_⟩
    refine (Chain.count_linked inv.linked (by omega) 0).trans ?_
    rw [Nat.zero_add]
    exact congrArg some (by omega)

/-- Two of three pages are taken and the first one is given back. -/
theorem pages_conserved_three : ∃ p events, Run poolStep PoolAllowed ⟨clearedPhys 1 3, []⟩ events p ∧
    p.held = [2] ∧ countFreeWithin 4 p.phys = some 2 := by
  have run : Run poolStep PoolAllowed ⟨clearedPhys 1 3, []⟩ _ _ :=
    .next (.free 1) (.next (.alloc 0) (.next (.alloc 1) .start trivial rfl) trivial rfl) ⟨by decide, rfl⟩ rfl
  have list := (clearedPhys_free (by decide : 1 + 3 ≤ 2 ^ 40)).linked
  exact ⟨_, _, run, rfl, ((pages_conserved list run).2.2.2 4 (by decide)).2⟩

end HobbyKernel.PageAllocProofs
