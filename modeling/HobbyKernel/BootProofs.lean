import HobbyKernel.Core.Boot
import HobbyKernel.UaccessProofs
import HobbyKernel.Lib.Chain

/-! Boot hands memory out from the front, and `page_alloc` gets what is behind.
The two allocators share a region and a frontier: everything handed out lies
before it, and every page listed behind it. -/
namespace HobbyKernel.BootProofs
open UaccessProofs

variable {m : Memmap} {p p' : Pmm} {e e' : MemmapEntry} {i j : Nat} {n : U64} {s s' : Phys} {ranges : List (U64 × U64)}
  {total : Nat} {nodes : List Nat}

/-- An address lies in a range. -/
def Within (a : Nat) (start size : U64) : Prop := start.toNat ≤ a ∧ a < start.toNat + size.toNat

/-- No address lies in two usable regions. -/
def UsableApart (m : Memmap) : Prop :=
  ∀ (i j : Nat) (e e' : MemmapEntry), m[i]? = some e → m[j]? = some e' → e.usable = true → e'.usable = true → i ≠ j →
    ∀ a, Within a e.base e.length → ¬ Within a e'.base e'.length

/-- The ranges handed out so far, by the regions they were taken from. -/
structure BootInv (m : Memmap) (p : Pmm) (ranges : List (U64 × U64)) (total : Nat) : Prop where
  memmap : p.memmap = m
  frontier : ∀ e : MemmapEntry, m[p.currentRegion]? = some e → e.usable = true ∧ e.base.toNat ≤ p.nextFree.toNat ∧
    p.nextFree.toNat ≤ e.base.toNat + e.length.toNat ∧ p.nextFree.toNat ≤ e.base.toNat + total
  inside : ∀ r ∈ ranges, ∃ (i : Nat) (e : MemmapEntry), m[i]? = some e ∧ e.usable = true ∧ i ≤ p.currentRegion ∧ e.base.toNat ≤ r.1.toNat ∧
    r.1.toNat + r.2.toNat ≤ e.base.toNat + e.length.toNat ∧
    (i = p.currentRegion → r.1.toNat + r.2.toNat ≤ p.nextFree.toNat)
  apart : ranges.Pairwise fun r r' => ∀ a, Within a r.1 r.2 → ¬ Within a r'.1 r'.2

theorem findNextUsableRegion_cases (m : Memmap) (k : Nat) :
    findNextUsableRegion m k = m.length ∨
      ∃ e, m[findNextUsableRegion m k]? = some e ∧ e.usable = true ∧ k ≤ findNextUsableRegion m k := by
  unfold findNextUsableRegion
  cases found : (List.range' k (m.length - k)).find? fun i => (m[i]?).any MemmapEntry.usable with
  | none => exact .inl rfl
  | some i =>
    right
    have passed := List.find?_some found
    have member := List.mem_of_find?_eq_some found
    rw [List.mem_range'_1] at member
    obtain ⟨e, isEntry, usable⟩ := Option.any_eq_true _ _ |>.mp passed
    exact ⟨e, isEntry, usable, member.1⟩

/-- The allocator moves on to another region. -/
theorem BootInv.advance (inv : BootInv m p ranges total) (current : p.currentRegion < m.length) :
    BootInv m { p with
      currentRegion := findNextUsableRegion p.memmap (p.currentRegion + 1)
      nextFree := p.memmap.baseOr (findNextUsableRegion p.memmap (p.currentRegion + 1)) p.nextFree } ranges total := by
  obtain ⟨rfl, _, inside, apart⟩ := inv
  have later : p.currentRegion < findNextUsableRegion p.memmap (p.currentRegion + 1) := by
    rcases findNextUsableRegion_cases p.memmap (p.currentRegion + 1) with isEnd | ⟨_, _, _, above⟩
    · rw [isEnd]
      exact current
    · exact above
  refine ⟨rfl, fun e isEntry => ?_, fun r member => ?_, apart⟩
  · dsimp only at isEntry ⊢
    rcases findNextUsableRegion_cases p.memmap (p.currentRegion + 1) with isEnd | ⟨e', isEntry', usable, _⟩
    · rw [isEnd, List.getElem?_eq_none (Nat.le_refl _)] at isEntry
      cases isEntry
    · rw [isEntry] at isEntry'
      cases isEntry'
      simp only [Memmap.baseOr, isEntry]
      exact ⟨usable, Nat.le_refl _, Nat.le_add_right .., Nat.le_add_right ..⟩
  · obtain ⟨i, e, isEntry, usable, below, low, high, _⟩ := inside r member
    exact ⟨i, e, isEntry, usable, by dsimp only; omega, low, high, fun same => by dsimp only at same; omega⟩

/-- `boot_alloc` ends, and what it hands out is in order. -/
theorem bootAllocWithin_spec {fuel : Nat} (apart : UsableApart m) (inv : BootInv m p ranges total)
    (room : ∀ e ∈ m, e.usable = true → e.base.toNat + e.length.toNat < 2 ^ 64 ∧ e.base.toNat + (total + n.toNat) < 2 ^ 64)
    (more : m.length - p.currentRegion < fuel) :
    ∃ p' addr, bootAllocWithin fuel p n = some (p', addr) ∧
      BootInv m p' (if addr = 0 then ranges else (addr, n) :: ranges) (total + n.toNat) := by
  induction fuel generalizing p with
  | zero => omega
  | succ fuel ih =>
    rw [bootAllocWithin, inv.memmap]
    cases isEntry : m[p.currentRegion]? with
    | none =>
      refine ⟨p, 0, rfl, ?_⟩
      rw [if_pos rfl]
      refine ⟨inv.memmap, fun e isEntry' => ?_, inv.inside, inv.apart⟩
      rw [isEntry] at isEntry'
      cases isEntry'
    | some e =>
      have current : p.currentRegion < m.length := (List.getElem?_eq_some_iff.mp isEntry).1
      have member : e ∈ m := List.mem_of_getElem? isEntry
      obtain ⟨usable, low, high, bound⟩ := inv.frontier e isEntry
      obtain ⟨whole, fits⟩ := room e member usable
      have regionEnd : (e.base + e.length).toNat = e.base.toNat + e.length.toNat := by
        rw [BitVec.toNat_add, Nat.mod_eq_of_lt whole]
      have sum : (p.nextFree + n).toNat = p.nextFree.toNat + n.toNat := by
        rw [BitVec.toNat_add, Nat.mod_eq_of_lt (by omega)]
      dsimp only
      by_cases enough : p.nextFree + n ≤ e.base + e.length
      · rw [if_pos enough]
        rw [BitVec.le_def, sum, regionEnd] at enough
        refine ⟨_, p.nextFree, rfl, ?_⟩
        have older : ∀ r ∈ ranges, ∃ i e, m[i]? = some e ∧ e.usable = true ∧ i ≤ p.currentRegion ∧ e.base.toNat ≤ r.1.toNat ∧
            r.1.toNat + r.2.toNat ≤ e.base.toNat + e.length.toNat ∧
            (i = p.currentRegion → r.1.toNat + r.2.toNat ≤ (p.nextFree + n).toNat) := by
          intro r old
          obtain ⟨i, e', isEntry', usable', below, low', high', before⟩ := inv.inside r old
          exact ⟨i, e', isEntry', usable', below, low', high', fun same => by rw [sum]; have := before same; omega⟩
        have frontier : ∀ e', m[p.currentRegion]? = some e' → e'.usable = true ∧ e'.base.toNat ≤ (p.nextFree + n).toNat ∧
            (p.nextFree + n).toNat ≤ e'.base.toNat + e'.length.toNat ∧ (p.nextFree + n).toNat ≤ e'.base.toNat + (total + n.toNat) := by
          intro e' isEntry'
          rw [isEntry] at isEntry'
          cases isEntry'
          rw [sum]
          exact ⟨usable, by omega, enough, by omega⟩
        split
        · exact ⟨rfl, frontier, older, inv.apart⟩
        · refine ⟨rfl, frontier, fun r new => ?_, List.pairwise_cons.mpr ⟨fun r old a here there => ?_, inv.apart⟩⟩
          · rcases List.mem_cons.mp new with rfl | old
            · exact ⟨p.currentRegion, e, isEntry, usable, Nat.le_refl _, low, enough, fun _ => by rw [sum]⟩
            · exact older r old
          · obtain ⟨i, e', isEntry', usable', below, low', high', before⟩ := inv.inside r old
            simp only [Within] at here there
            by_cases same : i = p.currentRegion
            · have := before same
              omega
            · exact apart i p.currentRegion e' e isEntry' isEntry usable' usable same a ⟨by omega, by omega⟩ ⟨by omega, by omega⟩
      · rw [if_neg enough]
        have next := inv.advance current
        rw [inv.memmap] at next
        refine ih next ?_
        dsimp only
        rcases findNextUsableRegion_cases m (p.currentRegion + 1) with isEnd | ⟨_, _, _, above⟩
        · rw [isEnd]
          omega
        · omega

theorem bootAlloc_spec (n : U64) (apart : UsableApart m) (inv : BootInv m p ranges total)
    (room : ∀ e ∈ m, e.usable = true → e.base.toNat + e.length.toNat < 2 ^ 64 ∧ e.base.toNat + (total + n.toNat) < 2 ^ 64) :
    ∃ p' addr, bootAlloc p n = some (p', addr) ∧
      BootInv m p' (if addr = 0 then ranges else (addr, n) :: ranges) (total + n.toNat) := by
  have more : m.length - p.currentRegion < p.memmap.length + 1 := by
    rw [inv.memmap]
    omega
  exact bootAllocWithin_spec apart inv room more

/-- Calls of `boot_alloc`, with the ranges that were handed out, newest first. -/
def bootAllocs (p : Pmm) (ranges : List (U64 × U64)) : List U64 → Option (Pmm × List (U64 × U64))
  | [] => some (p, ranges)
  | n :: sizes =>
    match bootAlloc p n with
    | none => none
    | some (p, addr) => bootAllocs p (if addr = 0 then ranges else (addr, n) :: ranges) sizes

theorem bootAllocs_spec (sizes : List U64) (apart : UsableApart m) (inv : BootInv m p ranges total)
    (room : ∀ e ∈ m, e.usable = true → e.base.toNat + e.length.toNat < 2 ^ 64 ∧
      e.base.toNat + (total + (sizes.map BitVec.toNat).sum) < 2 ^ 64) :
    ∃ p' ranges', bootAllocs p ranges sizes = some (p', ranges') ∧
      BootInv m p' ranges' (total + (sizes.map BitVec.toNat).sum) := by
  induction sizes generalizing p ranges total with
  | nil => exact ⟨p, ranges, rfl, inv⟩
  | cons n sizes ih =>
    rw [List.map_cons, List.sum_cons] at room ⊢
    obtain ⟨p', addr, ran, next⟩ := bootAlloc_spec n apart inv
      (fun e member usable => by have := room e member usable; omega)
    obtain ⟨p'', ranges', rest, last⟩ := ih next
      (fun e member usable => by have := room e member usable; omega)
    refine ⟨p'', ranges', ?_, ?_⟩
    · rw [bootAllocs, ran]
      exact rest
    · rw [← Nat.add_assoc]
      exact last

theorem BootInv.init (m : Memmap) : BootInv m (pmmInit m) [] 0 := by
  refine ⟨rfl, fun e isEntry => ?_, fun _ => nofun, List.Pairwise.nil⟩
  simp only [pmmInit] at isEntry ⊢
  rcases findNextUsableRegion_cases m 0 with isEnd | ⟨e', isEntry', usable, _⟩
  · rw [isEnd, List.getElem?_eq_none (Nat.le_refl _)] at isEntry
    cases isEntry
  · rw [isEntry] at isEntry'
    cases isEntry'
    simp only [Memmap.baseOr, isEntry]
    exact ⟨usable, Nat.le_refl _, Nat.le_add_right .., Nat.le_add_right ..⟩

/-- Every usable region ends at or below the highest address. -/
theorem le_maxAddr (member : e ∈ m) (usable : e.usable = true) : (e.base + e.length).toNat ≤ (maxAddr m).toNat := by
  let higher : U64 → MemmapEntry → U64 := fun highest e =>
    if e.usable then
      let stop := e.base + e.length
      if highest < stop then stop else highest
    else highest
  have grows : ∀ (a : U64) (e : MemmapEntry), a.toNat ≤ (higher a e).toNat ∧
      (e.usable = true → (e.base + e.length).toNat ≤ (higher a e).toNat) := by
    intro a e
    simp only [higher]
    by_cases usable : e.usable = true
    · rw [if_pos usable]
      split
      · next below =>
        rw [BitVec.lt_def] at below
        exact ⟨Nat.le_of_lt below, fun _ => Nat.le_refl _⟩
      · next above =>
        rw [BitVec.lt_def] at above
        exact ⟨Nat.le_refl _, fun _ => by omega⟩
    · rw [if_neg usable]
      exact ⟨Nat.le_refl _, fun usable' => absurd usable' usable⟩
  have monotone : ∀ (l : List MemmapEntry) (a : U64), a.toNat ≤ (l.foldl higher a).toNat := by
    intro l
    induction l with
    | nil => exact fun _ => Nat.le_refl _
    | cons e l ih => exact fun a => Nat.le_trans (grows a e).1 (ih _)
  have reaches : ∀ (l : List MemmapEntry) (a : U64), e ∈ l → (e.base + e.length).toNat ≤ (l.foldl higher a).toNat := by
    intro l
    induction l with
    | nil => exact fun _ member => nomatch member
    | cons e' l ih =>
      intro a member
      rcases List.mem_cons.mp member with rfl | later
      · exact Nat.le_trans ((grows a e).2 usable) (monotone l _)
      · exact ih _ later
  exact reaches m 0 member

/-- The links of the free list. -/
def linkOf (s : Phys) (i : Nat) : Option Nat := (s.pages i).ppLink

/-- The pages of a span of addresses go on the list, one after another. -/
theorem listPages_spec (npages va : U64) (count : Nat) (aligned : va.toNat % 4096 = 0)
    (fits : va.toNat + 4096 * count < 2 ^ 64) (chain : Chain.Linked (linkOf s) s.pageFreeList nodes)
    (fresh : ∀ a ∈ nodes, ¬ (va.toNat ≤ a * 4096 ∧ a * 4096 + 4096 ≤ va.toNat + 4096 * count)) :
    ∃ s' nodes', Loop.forEach (listPage npages) (pageAddrs va count) s = (s', true) ∧
      Chain.Linked (linkOf s') s'.pageFreeList nodes' ∧
      ∀ a, a ∈ nodes' ↔ a ∈ nodes ∨
        (va.toNat ≤ a * 4096 ∧ a * 4096 + 4096 ≤ va.toNat + 4096 * count ∧ a < npages.toNat) := by
  induction count generalizing va s nodes with
  | zero => exact ⟨s, nodes, rfl, chain, fun a => ⟨.inl, fun listed => listed.resolve_right (by omega)⟩⟩
  | succ count ih =>
    have next : (va + PGSIZE).toNat = va.toNat + 4096 := by
      rw [BitVec.toNat_add, show PGSIZE.toNat = 4096 from rfl]
      omega
    rw [pageAddrs_succ, Loop.forEach_cons]
    by_cases known : npages.toNat ≤ va.toNat / 4096
    · rw [listPage, if_pos known, if_pos rfl]
      obtain ⟨s', nodes', ran, chain', members⟩ := ih (va + PGSIZE) (by omega) (by omega) chain
        (fun a member => by have := fresh a member; omega)
      refine ⟨s', nodes', ran, chain', fun a => ?_⟩
      rw [members, next]
      refine or_congr_right ⟨fun inside => by omega, fun inside => by omega⟩
    · rw [listPage, if_neg known]
      have new : va.toNat / 4096 ∉ nodes := fun member => fresh _ member (by omega)
      have pushed := Chain.linked_push chain new
      dsimp only
      rw [if_pos rfl]
      obtain ⟨s', nodes', ran, chain', members⟩ := ih (va + PGSIZE)
        (s := { s with
          pages := Function.update s.pages (va.toNat / 4096) { s.pages (va.toNat / 4096) with ppLink := s.pageFreeList }
          pageFreeList := some (va.toNat / 4096) }) (by omega) (by omega)
        (Chain.linked_congr pushed fun b _ => by
          simp only [linkOf, Function.update_apply]
          split <;> rfl)
        (fun a member => by
          rcases List.mem_cons.mp member with rfl | old
          · omega
          · have := fresh a old
            omega)
      refine ⟨s', nodes', ran, chain', fun a => ?_⟩
      rw [members, next, List.mem_cons, or_assoc, or_left_comm]
      refine or_congr_right ⟨fun inside => by omega, fun inside => by omega⟩

/-- Page `a` lies wholly in a usable region and behind the frontier. -/
def Listed (p : Pmm) (i a : Nat) : Prop :=
  ∃ e : MemmapEntry, p.memmap[i]? = some e ∧ e.usable = true ∧ p.currentRegion ≤ i ∧ e.base.toNat ≤ a * 4096 ∧
    a * 4096 + 4096 ≤ e.base.toNat + e.length.toNat ∧ (i = p.currentRegion → p.nextFree.toNat ≤ a * 4096)

/-- What the proof needs of the map and the frontier when the loops start. -/
structure Rounds (p : Pmm) : Prop where
  ends : ∀ e ∈ p.memmap, e.usable = true → e.base.toNat + e.length.toNat ≤ 2 ^ 64 - 4096
  frontier : ∀ e : MemmapEntry, p.memmap[p.currentRegion]? = some e → e.base.toNat ≤ p.nextFree.toNat ∧
    p.nextFree.toNat ≤ e.base.toNat + e.length.toNat

/-- The bounds of a region's loop are page boundaries, and enclose the pages
that lie in the region and behind the frontier. -/
theorem listedRange_spec (rounds : Rounds p) (isEntry : p.memmap[i]? = some e) (usable : e.usable = true)
    (current : p.currentRegion ≤ i) {start stop : U64} (range : listedRange p i e = (start, stop)) :
    start.toNat % 4096 = 0 ∧ stop.toNat % 4096 = 0 ∧
      ∀ a, Listed p i a ↔ start.toNat ≤ a * 4096 ∧ a * 4096 + 4096 ≤ stop.toNat := by
  have ends := rounds.ends e (List.mem_of_getElem? isEntry) usable
  have listed : ∀ a, Listed p i a ↔ e.base.toNat ≤ a * 4096 ∧ a * 4096 + 4096 ≤ e.base.toNat + e.length.toNat ∧
      (i = p.currentRegion → p.nextFree.toNat ≤ a * 4096) := by
    intro a
    refine ⟨fun ⟨e', isEntry', _, _, low, high, behind⟩ => ?_, fun ⟨low, high, behind⟩ => ⟨e, isEntry, usable, current, low, high, behind⟩⟩
    rw [isEntry] at isEntry'
    cases isEntry'
    exact ⟨low, high, behind⟩
  have base := roundup_page e.base (by omega)
  have last : (rounddown (e.base + e.length) PGSIZE).toNat = (e.base.toNat + e.length.toNat) / 4096 * 4096 := by
    rw [rounddown_toNat, BitVec.toNat_add, Nat.mod_eq_of_lt (by omega)]
  simp only [listedRange, Prod.mk.injEq] at range
  obtain ⟨rfl, rfl⟩ := range
  rw [last]
  have whole := Nat.div_mul_le_self (e.base.toNat + e.length.toNat) 4096
  split
  · next shared =>
    obtain ⟨rfl, before⟩ := shared
    obtain ⟨low, high⟩ := rounds.frontier e isEntry
    have frontier := roundup_page p.nextFree (by omega)
    rw [frontier]
    refine ⟨by omega, by omega, fun a => ?_⟩
    rw [listed]
    constructor
    · rintro ⟨_, high, behind⟩
      have := behind rfl
      omega
    · rintro ⟨low', high⟩
      exact ⟨by omega, Nat.le_trans high whole, fun _ => by omega⟩
  · next apart =>
    rw [base]
    refine ⟨by omega, by omega, fun a => ?_⟩
    rw [listed]
    constructor
    · rintro ⟨low, high, _⟩
      omega
    rintro ⟨low, high⟩
    refine ⟨by omega, Nat.le_trans high whole, fun same => ?_⟩
    have below : ¬ roundup e.base PGSIZE < p.nextFree := fun before => apart ⟨same, before⟩
    rw [BitVec.lt_def, base] at below
    omega

/-- One region's pages go on the list. -/
theorem listRegion_spec (npages : U64) (rounds : Rounds p)
    (chain : Chain.Linked (linkOf s) s.pageFreeList nodes) (fresh : ∀ a ∈ nodes, ¬ Listed p i a) :
    ∃ s' nodes', listRegion p npages i s = (s', true) ∧ Chain.Linked (linkOf s') s'.pageFreeList nodes' ∧
      ∀ a, a ∈ nodes' ↔ a ∈ nodes ∨ (Listed p i a ∧ a < npages.toNat) := by
  have skipped (none : ∀ a, ¬ Listed p i a) : ∀ a, a ∈ nodes ↔ a ∈ nodes ∨ (Listed p i a ∧ a < npages.toNat) :=
    fun a => ⟨.inl, fun listed => listed.resolve_right fun new => none a new.1⟩
  rw [listRegion]
  cases isEntry : p.memmap[i]? with
  | none =>
    refine ⟨s, nodes, rfl, chain, skipped ?_⟩
    rintro a ⟨e, isEntry', _⟩
    rw [isEntry] at isEntry'
    cases isEntry'
  | some e =>
    dsimp only
    by_cases usable : e.usable = true
    · rw [if_neg (by simp [usable])]
      by_cases passed : i < p.currentRegion
      · rw [if_pos passed]
        refine ⟨s, nodes, rfl, chain, skipped ?_⟩
        rintro a ⟨_, _, _, current, _⟩
        omega
      · rw [if_neg passed]
        rcases range : listedRange p i e with ⟨start, stop⟩
        obtain ⟨first, last, bounds⟩ := listedRange_spec rounds isEntry usable (Nat.le_of_not_lt passed) range
        have bounded := stop.isLt
        have ran : ∃ count, pageLoop (listPage npages) stop PAGE_LOOP_FUEL start s =
            some (Loop.forEach (listPage npages) (pageAddrs start count) s) ∧
            (start.toNat + 4096 * count = stop.toNat ∨ stop.toNat ≤ start.toNat ∧ count = 0) := by
          by_cases empty : stop.toNat ≤ start.toNat
          · refine ⟨0, ?_, .inr ⟨empty, rfl⟩⟩
            rw [PAGE_LOOP_FUEL, pageLoop, if_neg (by rw [BitVec.lt_def]; omega)]
            rfl
          · have span : start.toNat + 4096 * ((stop.toNat - start.toNat) / 4096) = stop.toNat := by omega
            exact ⟨_, pageLoop_eq _ _ _ _ span (by rw [PAGE_LOOP_FUEL]; omega) s, .inl span⟩
        obtain ⟨count, loop, span⟩ := ran
        obtain ⟨s', nodes', pushed, chain', members⟩ := listPages_spec npages start count first
          (by omega) chain fun a member inside => fresh a member ((bounds a).mpr (by omega))
        refine ⟨s', nodes', ?_, chain', fun a => ?_⟩
        · rw [loop, pushed]
          rfl
        · rw [members, bounds]
          refine or_congr_right ⟨fun inside => by omega, fun inside => by omega⟩
    · rw [if_pos (by simp [usable])]
      refine ⟨s, nodes, rfl, chain, skipped ?_⟩
      rintro a ⟨e', isEntry', usable', _⟩
      rw [isEntry] at isEntry'
      cases isEntry'
      exact usable usable'

/-- No page is listed from two regions. -/
theorem listed_once (apart : UsableApart p.memmap) {a : Nat} (here : Listed p i a) (there : Listed p j a) : i = j := by
  obtain ⟨e, isEntry, usable, _, low, high, _⟩ := here
  obtain ⟨e', isEntry', usable', _, low', high', _⟩ := there
  by_contra different
  exact apart i j e e' isEntry isEntry' usable usable' different (a * 4096) ⟨low, by omega⟩ ⟨low', by omega⟩

/-- The loop over the regions. -/
theorem listRegions_spec (npages : U64) (rounds : Rounds p) (apart : UsableApart p.memmap)
    (empty : s.pageFreeList = none) (k : Nat) :
    ∃ s' nodes, Loop.forEach (listRegion p npages) (List.range k) s = (s', true) ∧
      Chain.Linked (linkOf s') s'.pageFreeList nodes ∧
      ∀ a, a ∈ nodes ↔ (∃ i < k, Listed p i a) ∧ a < npages.toNat := by
  induction k with
  | zero => exact ⟨s, [], rfl, empty, fun a => ⟨nofun, fun ⟨⟨_, below, _⟩, _⟩ => absurd below (Nat.not_lt_zero _)⟩⟩
  | succ k ih =>
    obtain ⟨s₁, nodes, ran, chain, members⟩ := ih
    obtain ⟨s', nodes', last, chain', members'⟩ := listRegion_spec npages (i := k) rounds chain fun a member here => by
      obtain ⟨⟨i, below, there⟩, _⟩ := (members a).mp member
      have := listed_once apart here there
      omega
    refine ⟨s', nodes', ?_, chain', fun a => ?_⟩
    · rw [List.range_succ, Loop.forEach_append, ran, if_pos rfl, Loop.forEach_single, last]
    · rw [members', members]
      constructor
      · rintro (⟨⟨i, below, listed⟩, known⟩ | ⟨listed, known⟩)
        · exact ⟨⟨i, Nat.lt_succ_of_lt below, listed⟩, known⟩
        · exact ⟨⟨k, Nat.lt_succ_self k, listed⟩, known⟩
      · rintro ⟨⟨i, below, listed⟩, known⟩
        rcases Nat.lt_succ_iff_lt_or_eq.mp below with earlier | rfl
        · exact .inl ⟨⟨i, earlier, listed⟩, known⟩
        · exact .inr ⟨listed, known⟩

/-- Every range lies in one usable region, and no two of them meet. -/
def RangesSound (m : Memmap) (ranges : List (U64 × U64)) : Prop :=
  (∀ r ∈ ranges, ∃ e ∈ m, e.usable = true ∧ e.base.toNat ≤ r.1.toNat ∧ r.1.toNat + r.2.toNat ≤ e.base.toNat + e.length.toNat) ∧
    ranges.Pairwise fun r r' => ∀ a, Within a r.1 r.2 → ¬ Within a r'.1 r'.2

/-- The free list after the hand-over: whole pages of usable regions that were
not handed out, and all such pages behind the frontier. -/
structure HandedOver (m : Memmap) (p : Pmm) (ranges : List (U64 × U64)) (npages : U64) (s : Phys) (nodes : List Nat) : Prop where
  linked : Chain.Linked (linkOf s) s.pageFreeList nodes
  nodup : nodes.Nodup
  known : ∀ a ∈ nodes, a < npages.toNat
  usable : ∀ a ∈ nodes, ∃ e ∈ m, e.usable = true ∧ e.base.toNat ≤ a * 4096 ∧
    a * 4096 + 4096 ≤ e.base.toNat + e.length.toNat
  free : ∀ a ∈ nodes, ∀ r ∈ ranges, ∀ x, a * 4096 ≤ x → x < a * 4096 + 4096 → ¬ Within x r.1 r.2
  complete : ∀ (i : Nat) (e : MemmapEntry) (a : Nat), m[i]? = some e → e.usable = true → p.currentRegion ≤ i →
    e.base.toNat ≤ a * 4096 → a * 4096 + 4096 ≤ e.base.toNat + e.length.toNat →
    (i = p.currentRegion → p.nextFree.toNat ≤ a * 4096) → a ∈ nodes

theorem BootInv.sound (inv : BootInv m p ranges total) : RangesSound m ranges := by
  refine ⟨fun r member => ?_, inv.apart⟩
  obtain ⟨i, e, isEntry, usable, _, low, high, _⟩ := inv.inside r member
  exact ⟨e, List.mem_of_getElem? isEntry, usable, low, high⟩

/-- What the region loops leave on the list has the promised shape. -/
theorem handedOver {npages : U64} (apart : UsableApart m) (inv : BootInv m p ranges total)
    (ends : ∀ e ∈ m, e.usable = true → e.base.toNat + e.length.toNat ≤ 2 ^ 64 - 4096)
    (counted : npages = maxAddr m / PGSIZE) (chain : Chain.Linked (linkOf s) s.pageFreeList nodes)
    (members : ∀ a, a ∈ nodes ↔ (∃ i < m.length, Listed p i a) ∧ a < npages.toNat) :
    HandedOver m p ranges npages s nodes := by
  refine ⟨chain, Chain.linked_nodup chain, fun a member => ((members a).mp member).2, fun a member => ?_,
    fun a member r handed x low high within => ?_, fun i e a isEntry usable current low high behind => ?_⟩
  · obtain ⟨⟨i, _, e, isEntry, usable, _, low, high, _⟩, _⟩ := (members a).mp member
    rw [inv.memmap] at isEntry
    exact ⟨e, List.mem_of_getElem? isEntry, usable, low, high⟩
  · obtain ⟨⟨i, _, e, isEntry, usable, current, base, last, behind⟩, _⟩ := (members a).mp member
    rw [inv.memmap] at isEntry
    obtain ⟨j, e', isEntry', usable', before, base', last', front⟩ := inv.inside r handed
    rw [Within] at within
    by_cases same : i = j
    · -- One region: the range ends before the frontier, the page starts behind it.
      have := behind (by omega)
      have := front (by omega)
      omega
    · exact apart i j e e' isEntry isEntry' usable usable' same x ⟨by omega, by omega⟩ ⟨by omega, by omega⟩
  · have member := List.mem_of_getElem? isEntry
    refine (members a).mpr ⟨⟨i, (List.getElem?_eq_some_iff.mp isEntry).1, e, ?_, usable, current, low, high, behind⟩, ?_⟩
    · rw [inv.memmap]
      exact isEntry
    · have top := le_maxAddr member usable
      have := ends e member usable
      rw [BitVec.toNat_add, Nat.mod_eq_of_lt (by omega)] at top
      rw [counted, BitVec.toNat_udiv, show PGSIZE.toNat = 4096 from rfl]
      omega

theorem frameAllocInit_spec (s : Phys) (apart : UsableApart m) (inv : BootInv m p ranges total)
    (ends : ∀ e ∈ m, e.usable = true → e.base.toNat + e.length.toNat ≤ 2 ^ 64 - 4096)
    (room : ∀ e ∈ m, e.usable = true →
      e.base.toNat + (total + (maxAddr m / PGSIZE * SIZEOF_PAGE_INFO).toNat) < 2 ^ 64) :
    ∃ p' s' pagesPhys, frameAllocInit p s = some (p', s', maxAddr m / PGSIZE, pagesPhys) ∧
      (pagesPhys ≠ 0 →
        RangesSound m ((pagesPhys, maxAddr m / PGSIZE * SIZEOF_PAGE_INFO) :: ranges) ∧
        ∃ nodes, HandedOver m p' ((pagesPhys, maxAddr m / PGSIZE * SIZEOF_PAGE_INFO) :: ranges)
          (maxAddr m / PGSIZE) s' nodes) := by
  obtain ⟨p', pagesPhys, ran, inv'⟩ := bootAlloc_spec (maxAddr m / PGSIZE * SIZEOF_PAGE_INFO) apart inv
    (fun e member usable => ⟨by have := ends e member usable; omega, room e member usable⟩)
  simp only [frameAllocInit, inv.memmap, ran]
  by_cases failed : pagesPhys = 0
  · split
    · exact ⟨_, _, _, rfl, fun nonzero => absurd failed nonzero⟩
    · exact ⟨_, _, _, rfl, fun nonzero => absurd failed nonzero⟩
  · rw [if_neg fun both => failed both.1]
    rw [if_neg failed] at inv'
    have rounds : Rounds p' := by
      refine ⟨?_, fun e isEntry => ?_⟩
      · rw [inv'.memmap]
        exact ends
      · rw [inv'.memmap] at isEntry
        obtain ⟨_, low, high, _⟩ := inv'.frontier e isEntry
        exact ⟨low, high⟩
    obtain ⟨s', nodes, listed, chain, members⟩ := listRegions_spec (maxAddr m / PGSIZE)
      (s := { s with
        pages := fun i => if i < (maxAddr m / PGSIZE).toNat then ⟨none, 0⟩ else s.pages i
        pageFreeList := none }) rounds (inv'.memmap ▸ apart) rfl m.length
    refine ⟨p', s', pagesPhys, ?_, fun _ => ⟨inv'.sound, nodes, handedOver apart inv' ends rfl chain members⟩⟩
    rw [inv'.memmap, listed]

/-- From `pmm_init` to the free list: every range handed out lies in one usable
region, no two meet, and exactly the untouched pages behind the frontier are
free. -/
theorem boot_handover (m : Memmap) (sizes : List U64) (s : Phys) (apart : UsableApart m)
    (ends : ∀ e ∈ m, e.usable = true → e.base.toNat + e.length.toNat ≤ 2 ^ 64 - 4096)
    (room : ∀ e ∈ m, e.usable = true → e.base.toNat + ((sizes.map BitVec.toNat).sum +
      (maxAddr m / PGSIZE * SIZEOF_PAGE_INFO).toNat) < 2 ^ 64) :
    ∃ p ranges, bootAllocs (pmmInit m) [] sizes = some (p, ranges) ∧ RangesSound m ranges ∧
      ∃ p' s' pagesPhys, frameAllocInit p s = some (p', s', maxAddr m / PGSIZE, pagesPhys) ∧
        (pagesPhys ≠ 0 →
          RangesSound m ((pagesPhys, maxAddr m / PGSIZE * SIZEOF_PAGE_INFO) :: ranges) ∧
          ∃ nodes, HandedOver m p' ((pagesPhys, maxAddr m / PGSIZE * SIZEOF_PAGE_INFO) :: ranges)
            (maxAddr m / PGSIZE) s' nodes) := by
  obtain ⟨p, ranges, ran, inv⟩ := bootAllocs_spec sizes apart (BootInv.init m) fun e member usable =>
    ⟨by have := ends e member usable; omega, by have := room e member usable; omega⟩
  rw [Nat.zero_add] at inv
  exact ⟨p, ranges, ran, inv.sound, frameAllocInit_spec s apart inv ends room⟩

/-- A map with a region too small for the first request. -/
def smallMap : Memmap := [⟨0, 0x1000, 1⟩, ⟨0x1000, 0x800, LIMINE_MEMMAP_USABLE⟩, ⟨0x2000, 0x8000, LIMINE_MEMMAP_USABLE⟩]

theorem smallMap_apart : UsableApart smallMap := by
  intro i j e e' isEntry isEntry' usable usable' different a here there
  simp only [Within] at here there
  match i, j with
  | 0, _ =>
    cases isEntry
    cases usable
  | _, 0 =>
    cases isEntry'
    cases usable'
  | 1, 1 | 2, 2 => exact different rfl
  | 1, 2 | 2, 1 =>
    cases isEntry
    cases isEntry'
    simp at here there
    omega
  | _ + 3, _ => cases isEntry
  | _, _ + 3 => cases isEntry'

theorem boot_handover_small : ∃ p s nodes, HandedOver smallMap p [(0x2910, 0xa0), (0x2900, 0x10), (0x2000, 0x900)] 10 s nodes := by
  obtain ⟨p, ranges, ran, _, p', s, pagesPhys, init, handed⟩ := boot_handover smallMap [0x900, 0x10]
    ⟨fun _ _ => 0, fun _ => ⟨none, 0⟩, none⟩ smallMap_apart (by decide) (by decide)
  have value : bootAllocs (pmmInit smallMap) [] [0x900, 0x10] =
      some (⟨smallMap, 2, 0x2910⟩, [(0x2900, 0x10), (0x2000, 0x900)]) := rfl
  rw [value] at ran
  cases ran
  have pagesAt : pagesPhys = 0x2910 := by
    have := congrArg (Option.map fun out => out.2.2.2) init
    exact (Option.some.inj this).symm
  subst pagesAt
  obtain ⟨_, nodes, shape⟩ := handed (by decide)
  exact ⟨p', s, nodes, shape⟩

/-- A map of one region, from the second page to the last address but one. -/
def wideMap : Memmap := [⟨0x1000, 0xffffffffffffefff, LIMINE_MEMMAP_USABLE⟩]

/-- A request that leaves just the room `frame_alloc_init` asks for. -/
def wideRequest : U64 := 0xfefffffffffff00f

/-- The frontier is the last address, and rounding it up to a page gives 0: the
first page is listed, which is in no region. -/
theorem page_zero_listed :
    UsableApart wideMap ∧ (∀ e ∈ wideMap, e.usable = true → e.base.toNat + e.length.toNat < 2 ^ 64) ∧
      (∀ e ∈ wideMap, e.usable = true → e.base.toNat + (([wideRequest].map BitVec.toNat).sum +
        (maxAddr wideMap / PGSIZE * SIZEOF_PAGE_INFO).toNat) < 2 ^ 64) ∧
      ∃ p ranges, bootAllocs (pmmInit wideMap) [] [wideRequest] = some (p, ranges) ∧
        ∃ p' s' pagesPhys, frameAllocInit p ⟨fun _ _ => 0, fun _ => ⟨none, 0⟩, none⟩ =
          some (p', s', maxAddr wideMap / PGSIZE, pagesPhys) ∧ pagesPhys ≠ 0 ∧
          ∃ nodes, Chain.Linked (linkOf s') s'.pageFreeList nodes ∧ 0 ∈ nodes ∧
            ∀ e ∈ wideMap, 4096 ≤ e.base.toNat := by
  refine ⟨fun i j e e' isEntry isEntry' _ _ different => ?_, by decide, by decide, ⟨wideMap, 0, 0xff0000000000000f⟩, _, rfl, ?_⟩
  · match i, j with
    | 0, 0 => exact absurd rfl different
    | _ + 1, _ => cases isEntry
    | _, _ + 1 => cases isEntry'
  have moved : bootAlloc ⟨wideMap, 0, 0xff0000000000000f⟩ (maxAddr wideMap / PGSIZE * SIZEOF_PAGE_INFO) =
      some (⟨wideMap, 0, 0xffffffffffffffff⟩, 0xff0000000000000f) := rfl
  have range : listedRange ⟨wideMap, 0, 0xffffffffffffffff⟩ 0 ⟨0x1000, 0xffffffffffffefff, LIMINE_MEMMAP_USABLE⟩ =
      (0, 0xfffffffffffff000) := rfl
  let cleared : Phys :=
    ⟨fun _ _ => 0, fun i => if i < (maxAddr wideMap / PGSIZE).toNat then ⟨none, 0⟩ else ⟨none, 0⟩, none⟩
  obtain ⟨s', nodes, listed, chain, members⟩ := listPages_spec (maxAddr wideMap / PGSIZE) 0 (2 ^ 52 - 1)
    (s := cleared) rfl (by decide) (Chain.linked_nil.mpr rfl) nofun
  have region : listRegion ⟨wideMap, 0, 0xffffffffffffffff⟩ (maxAddr wideMap / PGSIZE) 0 cleared = (s', true) := by
    have loop := pageLoop_eq (listPage (maxAddr wideMap / PGSIZE)) 0 0xfffffffffffff000 (2 ^ 52 - 1) (by decide)
      (by decide : 2 ^ 52 - 1 < PAGE_LOOP_FUEL) cleared
    have body : listRegion ⟨wideMap, 0, 0xffffffffffffffff⟩ (maxAddr wideMap / PGSIZE) 0 cleared =
        (pageLoop (listPage (maxAddr wideMap / PGSIZE)) (listedRange ⟨wideMap, 0, 0xffffffffffffffff⟩ 0
          ⟨0x1000, 0xffffffffffffefff, LIMINE_MEMMAP_USABLE⟩).2 PAGE_LOOP_FUEL (listedRange ⟨wideMap, 0, 0xffffffffffffffff⟩ 0
          ⟨0x1000, 0xffffffffffffefff, LIMINE_MEMMAP_USABLE⟩).1 cleared).getD (cleared, false) := rfl
    rw [body, range, loop, listed]
    rfl
  refine ⟨⟨wideMap, 0, 0xffffffffffffffff⟩, s', 0xff0000000000000f, ?_, by decide, nodes, chain, ?_, by decide⟩
  · have one : List.range wideMap.length = [0] := rfl
    simp only [frameAllocInit, moved]
    rw [if_neg (by decide), one, Loop.forEach_single, region]
  · exact (members 0).mpr (.inr (by decide))

end HobbyKernel.BootProofs
