import HobbyKernel.PageAllocProofs

/-! Giving a page back twice. `page_free` looks for the page on the list by its
link, and the last page of the list has none. Where that page is left alone, the
guard finds every page that is free already. -/
namespace HobbyKernel.DoubleFree
open PageAllocProofs Runs

/-- The links of all pages. -/
def links (s : Phys) (pp : Nat) : Option Nat := (s.pages pp).ppLink

/-- The page is the last one on the free list, and nothing refers to it. -/
def LastListed (s : Phys) (pp : Nat) : Prop :=
  (∃ nodes, Chain.Linked (links s) s.pageFreeList nodes ∧ nodes.getLast? = some pp) ∧ (s.pages pp).ppRef = 0

variable {s : Phys} {rest initial : List Nat} {pp : Nat} {p : Pool} {events : List Empty}

theorem lastListed_iff (chain : Chain.Linked (links s) s.pageFreeList rest) (listed : pp ∈ rest) :
    LastListed s pp ↔ badFree s pp = false := by
  have last := Chain.linked_last chain listed
  simp only [badFree, Bool.or_eq_false_iff, decide_eq_false_iff_not, not_not]
  constructor
  · rintro ⟨⟨nodes, chain', isLast⟩, unreferenced⟩
    rw [Chain.linked_unique chain' chain] at isLast
    exact ⟨unreferenced, last.mpr isLast⟩
  · rintro ⟨unreferenced, unlinked⟩
    exact ⟨⟨rest, chain, last.mp unlinked⟩, unreferenced⟩

theorem pageFree_links (good : badFree s pp = false) :
    (pageFree s pp).pageFreeList = some pp ∧ links (pageFree s pp) = Function.update (links s) pp s.pageFreeList := by
  rw [pageFree, good]
  refine ⟨rfl, ?_⟩
  funext q
  by_cases same : q = pp
  · subst same
    simp [links]
  · simp [links, same]

/-- Exactly the last page is not noticed. -/
theorem free_again_iff (chain : Chain.Linked (links s) s.pageFreeList rest) (listed : pp ∈ rest) :
    pageFree s pp = s ↔ ¬ LastListed s pp := by
  rw [lastListed_iff chain listed]
  constructor
  · intro same good
    obtain ⟨_, pushed⟩ := pageFree_links good
    have unlinked : links s pp = none := by
      simp only [badFree, Bool.or_eq_false_iff, decide_eq_false_iff_not, not_not] at good
      exact good.2
    rw [same] at pushed
    have head := congrFun pushed pp
    rw [Function.update_self, unlinked] at head
    rw [← head, Chain.linked_none] at chain
    rw [chain] at listed
    cases listed
  · intro bad
    rw [pageFree, if_pos (by simpa using bad)]

/-- The last page makes the list a circle. -/
theorem free_again_circle (chain : Chain.Linked (links s) s.pageFreeList rest) (last : LastListed s pp) (nodes : List Nat) :
    ¬ Chain.Linked (links (pageFree s pp)) (pageFree s pp).pageFreeList nodes := by
  obtain ⟨⟨nodes', chain', isLast⟩, _⟩ := last
  obtain rfl := Chain.linked_unique chain chain'
  obtain ⟨before, rfl⟩ := List.getLast?_eq_some_iff.mp isLast
  obtain ⟨first, pushed⟩ := pageFree_links ((lastListed_iff chain (by simp)).mp ⟨⟨_, chain, isLast⟩, by assumption⟩)
  rw [first, pushed]
  exact Chain.linked_push_last chain

/-- Pages of the pool are given back, held ones or free ones, but never the last
one of the list. -/
def FreesAny (initial : List Nat) (p : Pool) : PoolAction → Prop
  | .alloc _ => True
  | .free pp => pp ∈ initial ∧ ¬ LastListed p.phys pp
  | .setRef pp _ => pp ∈ p.held

/-- A page of the pool that is not on the list has no link. -/
structure FreeSound (initial : List Nat) (p : Pool) (rest : List Nat) : Prop where
  linked : Chain.Linked (links p.phys) p.phys.pageFreeList rest
  heldOnce : p.held.Nodup
  apart : ∀ pp ∈ rest, pp ∉ p.held
  unlinked : ∀ pp ∈ initial, pp ∉ rest → links p.phys pp = none

theorem FreeSound.alloc (sound : FreeSound initial p rest) (flags : U32) :
    ∃ rest', FreeSound initial ⟨(pageAlloc p.phys flags).1, (pageAlloc p.phys flags).2.toList ++ p.held⟩ rest' := by
  obtain ⟨result, pages⟩ := pageAlloc_pages p.phys flags
  cases head : p.phys.pageFreeList with
  | none =>
    have same : pageAlloc p.phys flags = (p.phys, none) := by simp [pageAlloc, head]
    rw [same]
    exact ⟨rest, sound⟩
  | some pp =>
    obtain ⟨newHead, newPages⟩ := pages pp head
    have chain := sound.linked
    rw [head] at chain
    obtain ⟨rest, rfl, popped⟩ := Chain.linked_pop chain none
    have distinct := List.nodup_cons.mp (Chain.linked_nodup sound.linked)
    have newLinks : links (pageAlloc p.phys flags).1 = Function.update (links p.phys) pp none := by
      funext q
      rw [links, newPages]
      by_cases same : q = pp
      · subst same
        simp
      · simp [links, same]
    rw [result, head, Option.toList_some, List.singleton_append]
    refine ⟨rest, ?_, List.nodup_cons.mpr ⟨sound.apart pp List.mem_cons_self, sound.heldOnce⟩, fun q listed => ?_, fun q known unlisted => ?_⟩
    · rw [newHead, newLinks]
      exact popped
    · rw [List.mem_cons, not_or]
      exact ⟨ne_of_mem_of_not_mem listed distinct.1, sound.apart q (List.mem_cons_of_mem pp listed)⟩
    · rw [newLinks]
      by_cases same : q = pp
      · rw [same, Function.update_self]
      · rw [Function.update_of_ne same]
        exact sound.unlinked q known (by simp [same, unlisted])

theorem FreeSound.free (sound : FreeSound initial p rest) (known : pp ∈ initial) (notLast : ¬ LastListed p.phys pp) :
    ∃ rest', FreeSound initial ⟨pageFree p.phys pp, p.held.erase pp⟩ rest' := by
  have fewer : ∀ q ∈ rest, q ∉ p.held.erase pp := fun q listed held => sound.apart q listed (List.mem_of_mem_erase held)
  by_cases listed : pp ∈ rest
  · rw [(free_again_iff sound.linked listed).mpr notLast]
    exact ⟨rest, sound.linked, sound.heldOnce.erase pp, fewer, sound.unlinked⟩
  · cases guard : badFree p.phys pp with
    | true =>
      rw [pageFree, if_pos guard]
      exact ⟨rest, sound.linked, sound.heldOnce.erase pp, fewer, sound.unlinked⟩
    | false =>
      obtain ⟨first, pushed⟩ := pageFree_links guard
      refine ⟨pp :: rest, ?_, sound.heldOnce.erase pp, fun q listed' held => ?_, fun q known' unlisted => ?_⟩
      · rw [first, pushed]
        exact Chain.linked_push sound.linked listed
      · rcases List.mem_cons.mp listed' with rfl | before
        · exact sound.heldOnce.not_mem_erase held
        · exact fewer q before held
      · rw [List.mem_cons, not_or] at unlisted
        rw [pushed, Function.update_of_ne unlisted.1]
        exact sound.unlinked q known' unlisted.2

theorem FreeSound.setRef (sound : FreeSound initial p rest) (pp : Nat) (ref : U16) :
    FreeSound initial ⟨PageAllocProofs.setRef p.phys pp ref, p.held⟩ rest := by
  have same : links (PageAllocProofs.setRef p.phys pp ref) = links p.phys := by
    funext q
    by_cases same : q = pp
    · subst same
      simp [links, PageAllocProofs.setRef]
    · simp [links, PageAllocProofs.setRef, same]
  refine ⟨?_, sound.heldOnce, sound.apart, ?_⟩
  · rw [same]
    exact sound.linked
  · rw [same]
    exact sound.unlinked

theorem run_freeSound (list : Chain.Linked (links s) s.pageFreeList initial)
    (run : Run poolStep (FreesAny initial) ⟨s, []⟩ events p) : ∃ rest, FreeSound initial p rest := by
  refine run.invariant (fun _ p => ∃ rest, FreeSound initial p rest) ?_ ?_
  · exact ⟨initial, list, List.nodup_nil, fun _ _ => List.not_mem_nil, fun pp known unlisted => absurd known unlisted⟩
  · rintro _ p a p' new ⟨rest, sound⟩ may did
    cases a with
    | alloc flags =>
      cases did
      exact sound.alloc flags
    | free pp =>
      cases did
      exact sound.free may.1 may.2
    | setRef pp ref =>
      cases did
      exact ⟨rest, sound.setRef pp ref⟩

/-- A page that is free already is noticed exactly if it is not the last one on
the list, which otherwise becomes a circle. In runs that leave the last page
alone, frees of free pages do no harm. -/
theorem double_free_iff {s : Phys} {initial : List Nat} (list : Chain.Linked (links s) s.pageFreeList initial) :
    (∀ pp ∈ initial, (pageFree s pp = s ↔ ¬ LastListed s pp) ∧
      (LastListed s pp → ∀ nodes, ¬ Chain.Linked (links (pageFree s pp)) (pageFree s pp).pageFreeList nodes)) ∧
    ∀ (events : List Empty) (p : Pool), Run poolStep (FreesAny initial) ⟨s, []⟩ events p →
      (∃ rest, Chain.Linked (links p.phys) p.phys.pageFreeList rest ∧ rest.Nodup) ∧
      ∀ flags pp, (pageAlloc p.phys flags).2 = some pp → pp ∉ p.held := by
  refine ⟨fun pp listed => ⟨free_again_iff list listed, free_again_circle list⟩, fun events p run => ?_⟩
  obtain ⟨rest, sound⟩ := run_freeSound list run
  refine ⟨⟨rest, sound.linked, Chain.linked_nodup sound.linked⟩, fun flags pp taken => ?_⟩
  rw [(pageAlloc_pages p.phys flags).1] at taken
  have chain := sound.linked
  rw [taken] at chain
  obtain ⟨_, rfl, _⟩ := Chain.linked_some chain
  exact sound.apart pp List.mem_cons_self

/-- Of three free pages the first is freed again, and two are taken. -/
theorem double_free_first : pageFree (clearedPhys 1 3) 1 = clearedPhys 1 3 ∧
    ∃ p events, Run poolStep (FreesAny [1, 2, 3]) ⟨clearedPhys 1 3, []⟩ events p ∧ p.held = [2, 1] ∧ 3 ∉ p.held := by
  have list : Chain.Linked (links (clearedPhys 1 3)) (clearedPhys 1 3).pageFreeList [1, 2, 3] :=
    (clearedPhys_free (by decide : 1 + 3 ≤ 2 ^ 40)).linked
  have notLast : ¬ LastListed (clearedPhys 1 3) 1 := by
    rw [lastListed_iff list (by simp)]
    exact (by decide : badFree (clearedPhys 1 3) 1 ≠ false)
  have same := ((double_free_iff list).1 1 (by simp)).1.mpr notLast
  have run : Run poolStep (FreesAny [1, 2, 3]) ⟨clearedPhys 1 3, []⟩ _ _ :=
    .next (.alloc 0) (.next (.alloc 0) (.next (.free 1) .start ⟨by simp, notLast⟩ rfl) trivial rfl) trivial rfl
  exact ⟨same, _, _, run, rfl, ((double_free_iff list).2 _ _ run).2 0 3 rfl⟩

/-- The only free page is freed again, and is then handed out twice. -/
theorem double_free_last :
    ¬ (∀ (s : Phys) (rest : List Nat) (pp : Nat), Chain.Linked (links s) s.pageFreeList rest → pp ∈ rest → pageFree s pp = s) ∧
      (pageAlloc (pageFree (clearedPhys 1 1) 1) 0).2 = some 1 ∧
      (pageAlloc (pageAlloc (pageFree (clearedPhys 1 1) 1) 0).1 0).2 = some 1 := by
  refine ⟨fun all => ?_, by decide, by decide⟩
  have list : Chain.Linked (links (clearedPhys 1 1)) (clearedPhys 1 1).pageFreeList [1] :=
    (clearedPhys_free (by decide : 1 + 1 ≤ 2 ^ 40)).linked
  have same := congrArg (fun s => links s 1) (all _ _ 1 list (by simp))
  exact absurd same (by decide)

end HobbyKernel.DoubleFree
