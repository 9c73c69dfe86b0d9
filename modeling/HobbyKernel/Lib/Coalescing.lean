import HobbyKernel.Lib.Blocks

/-! Merging looks at neighbours on the list. Whether it leaves no two free blocks
that touch in memory depends on how the list is ordered. -/
namespace HobbyKernel.Blocks

variable {header least lo hi size : Nat} {a b c x y : Block} {blocks pre post rest : List Block}

/-- No free block begins where another one ends. -/
def Coalesced (header : Nat) (blocks : List Block) : Prop :=
  ∀ x ∈ blocks, ∀ y ∈ blocks, x.free = true → y.free = true → x.stop header ≠ y.base

/-- Of the free blocks behind it on the list, none ends where this one begins,
and only the next may begin where it ends. -/
def Leads (header : Nat) (a : Block) (rest : List Block) : Prop :=
  a.free = true → ∀ y ∈ rest, y.free = true → (a.stop header = y.base → rest.head? = some y) ∧ y.stop header ≠ a.base

/-- Free blocks that touch in memory follow each other on the list. -/
def InOrder (header : Nat) : List Block → Prop
  | [] => True
  | a :: rest => Leads header a rest ∧ InOrder header rest

/-- The free blocks that touch a block are its neighbours on the list. -/
def Linkable (header : Nat) (pre : List Block) (b : Block) (post : List Block) : Prop :=
  ∀ c ∈ pre ++ post, c.free = true →
    (c.stop header = b.base → pre.getLast? = some c) ∧ (b.stop header = c.base → post.head? = some c)

theorem Packed.head_fresh (positive : 0 < header) (packed : Packed header lo hi (a :: rest)) : a ∉ rest := by
  intro again
  have apart := (List.pairwise_cons.mp packed.apart).1 a again
  simp only [Apart, Block.stop] at apart
  omega

/-- A block is also known by where it ends. -/
theorem Packed.unique_stop (positive : 0 < header) (packed : Packed header lo hi blocks) (first : x ∈ blocks) (second : y ∈ blocks)
    (same : x.stop header = y.stop header) : x = y := by
  by_contra other
  have apart := packed.distinct first second other
  simp only [Apart, Block.stop] at apart same
  omega

theorem coalesced_cons (positive : 0 < header) : Coalesced header (a :: rest) ↔
    (a.free = true → ∀ y ∈ rest, y.free = true → a.stop header ≠ y.base ∧ y.stop header ≠ a.base) ∧ Coalesced header rest := by
  constructor
  · intro coalesced
    refine ⟨fun isFree y member free => ?_, fun x first y second => ?_⟩
    · exact ⟨coalesced a List.mem_cons_self y (List.mem_cons_of_mem _ member) isFree free,
        coalesced y (List.mem_cons_of_mem _ member) a List.mem_cons_self free isFree⟩
    · exact coalesced x (List.mem_cons_of_mem _ first) y (List.mem_cons_of_mem _ second)
  · rintro ⟨head, tail⟩ x first y second freeX freeY
    rcases List.mem_cons.mp first with rfl | later
    · rcases List.mem_cons.mp second with rfl | behind
      · simp only [Block.stop]
        omega
      · exact (head freeX y behind freeY).1
    · rcases List.mem_cons.mp second with rfl | behind
      · exact (head freeY x later freeX).2
      · exact tail x later y behind freeX freeY

theorem Coalesced.subset (coalesced : Coalesced header blocks) (fewer : rest ⊆ blocks) : Coalesced header rest :=
  fun x first y second => coalesced x (fewer first) y (fewer second)

theorem Coalesced.inOrder (positive : 0 < header) (coalesced : Coalesced header blocks) : InOrder header blocks := by
  induction blocks with
  | nil => trivial
  | cons a rest ih =>
    obtain ⟨head, tail⟩ := (coalesced_cons positive).mp coalesced
    exact ⟨fun isFree y member free =>
      ⟨fun touches => absurd touches (head isFree y member free).1, (head isFree y member free).2⟩, ih tail⟩

/-- Where a merged block begins and ends, free blocks began and ended before. -/
theorem merge_ends (member : c ∈ merge header blocks) (isFree : c.free = true) :
    (∃ first ∈ blocks, first.free = true ∧ first.base = c.base) ∧
      ∃ last ∈ blocks, last.free = true ∧ last.stop header = c.stop header := by
  induction blocks using merge.induct header with
  | case1 =>
    rw [merge] at member
    cases member
  | case2 b =>
    rw [merge] at member
    exact ⟨⟨c, member, isFree, rfl⟩, c, member, isFree, rfl⟩
  | case3 a b rest joins ih =>
    rw [merge, if_pos joins] at member
    obtain ⟨⟨first, isFirst, freeFirst, sameBase⟩, last, isLast, freeLast, sameStop⟩ := ih member
    constructor
    · rcases List.mem_cons.mp isFirst with rfl | old
      · exact ⟨a, by simp, joins.1, sameBase⟩
      · exact ⟨first, by simp [old], freeFirst, sameBase⟩
    · rcases List.mem_cons.mp isLast with rfl | old
      · refine ⟨b, by simp, joins.2.1, ?_⟩
        have touches := joins.2.2
        simp only [Block.stop] at *
        omega
      · exact ⟨last, by simp [old], freeLast, sameStop⟩
  | case4 a b rest keeps ih =>
    rw [merge, if_neg keeps] at member
    rcases List.mem_cons.mp member with rfl | later
    · exact ⟨⟨c, by simp, isFree, rfl⟩, c, by simp, isFree, rfl⟩
    · obtain ⟨⟨first, isFirst, fromFirst⟩, last, isLast, fromLast⟩ := ih later
      exact ⟨⟨first, List.mem_cons_of_mem _ isFirst, fromFirst⟩, last, List.mem_cons_of_mem _ isLast, fromLast⟩

/-- A beginning that no block ends at stays one. -/
theorem merge_keeps_base (member : y ∈ blocks) (isFree : y.free = true) (alone : ∀ p ∈ blocks, p.stop header ≠ y.base) :
    ∃ c ∈ merge header blocks, c.free = true ∧ c.base = y.base := by
  induction blocks using merge.induct header generalizing y with
  | case1 => cases member
  | case2 b =>
    rw [merge]
    exact ⟨y, member, isFree, rfl⟩
  | case3 a b rest joins ih =>
    rw [merge, if_pos joins]
    have alone' : ∀ p ∈ (⟨a.base, a.size + (header + b.size), true⟩ : Block) :: rest, p.stop header ≠ y.base := by
      intro p isBlock
      rcases List.mem_cons.mp isBlock with rfl | old
      · have fromB := alone b (by simp)
        have touches := joins.2.2
        simp only [Block.stop] at *
        omega
      · exact alone p (by simp [old])
    rcases List.mem_cons.mp member with rfl | behind
    · exact ih (y := ⟨y.base, y.size + (header + b.size), true⟩) List.mem_cons_self rfl alone'
    · rcases List.mem_cons.mp behind with rfl | old
      · exact absurd joins.2.2 (alone a List.mem_cons_self)
      · exact ih (List.mem_cons_of_mem _ old) isFree alone'
  | case4 a b rest keeps ih =>
    rw [merge, if_neg keeps]
    rcases List.mem_cons.mp member with rfl | behind
    · exact ⟨y, List.mem_cons_self, isFree, rfl⟩
    · obtain ⟨c, isBlock, fromC⟩ := ih behind isFree fun p old => alone p (List.mem_cons_of_mem _ old)
      exact ⟨c, List.mem_cons_of_mem _ isBlock, fromC⟩

/-- An end that no block begins at stays one. -/
theorem merge_keeps_stop (member : x ∈ blocks) (isFree : x.free = true) (alone : ∀ p ∈ blocks, x.stop header ≠ p.base) :
    ∃ c ∈ merge header blocks, c.free = true ∧ c.stop header = x.stop header := by
  induction blocks using merge.induct header generalizing x with
  | case1 => cases member
  | case2 b =>
    rw [merge]
    exact ⟨x, member, isFree, rfl⟩
  | case3 a b rest joins ih =>
    rw [merge, if_pos joins]
    have touches := joins.2.2
    have alone' : ∀ p ∈ (⟨a.base, a.size + (header + b.size), true⟩ : Block) :: rest, x.stop header ≠ p.base := by
      intro p isBlock
      rcases List.mem_cons.mp isBlock with rfl | old
      · exact alone a (by simp)
      · exact alone p (by simp [old])
    rcases List.mem_cons.mp member with rfl | behind
    · exact absurd touches (alone b (by simp))
    · rcases List.mem_cons.mp behind with rfl | old
      · have sameStop : Block.stop header ⟨a.base, a.size + (header + x.size), true⟩ = x.stop header := by
          simp only [Block.stop] at *
          omega
        rw [← sameStop] at alone' ⊢
        exact ih List.mem_cons_self rfl alone'
      · exact ih (List.mem_cons_of_mem _ old) isFree alone'
  | case4 a b rest keeps ih =>
    rw [merge, if_neg keeps]
    rcases List.mem_cons.mp member with rfl | behind
    · exact ⟨x, List.mem_cons_self, isFree, rfl⟩
    · obtain ⟨c, isBlock, fromC⟩ := ih behind isFree fun p old => alone p (List.mem_cons_of_mem _ old)
      exact ⟨c, List.mem_cons_of_mem _ isBlock, fromC⟩

/-- Joining the first two blocks does not change the order. -/
theorem join_inOrder (positive : 0 < header) (packed : Packed header lo hi (a :: b :: rest)) (freeA : a.free = true) (freeB : b.free = true)
    (touches : a.stop header = b.base) :
    InOrder header (⟨a.base, a.size + (header + b.size), true⟩ :: rest) ↔ InOrder header (a :: b :: rest) := by
  have sameStop : Block.stop header ⟨a.base, a.size + (header + b.size), true⟩ = b.stop header := by
    simp only [Block.stop] at *
    omega
  have fresh := packed.head_fresh positive
  have notB : ∀ y ∈ b :: rest, y.stop header ≠ b.base := fun y member same =>
    fresh (packed.unique_stop positive (List.mem_cons_of_mem _ member) List.mem_cons_self (same.trans touches.symm) ▸ member)
  constructor
  · rintro ⟨leads, tail⟩
    refine ⟨fun _ y member free => ⟨fun same => ?_, ?_⟩, fun _ y member free => ⟨fun same => ?_, ?_⟩, tail⟩
    · rw [packed.unique positive (List.mem_cons_of_mem _ member) (by simp : b ∈ a :: b :: rest) (same.symm.trans touches)]
      rfl
    · rcases List.mem_cons.mp member with rfl | old
      · simp only [Block.stop] at *
        omega
      · exact (leads rfl y old free).2
    · exact (leads rfl y member free).1 (sameStop.trans same)
    · exact notB y (List.mem_cons_of_mem _ member)
  · rintro ⟨leadsA, leadsB, tail⟩
    refine ⟨fun _ y member free => ⟨fun same => ?_, ?_⟩, tail⟩
    · exact (leadsB freeB y member free).1 (sameStop.symm.trans same)
    · exact (leadsA freeA y (List.mem_cons_of_mem _ member) free).2

/-- **When merging is enough.** No free blocks touch afterwards exactly if those
that touched before followed each other on the list. -/
theorem merge_coalesced_iff (positive : 0 < header) (packed : Packed header lo hi blocks) :
    Coalesced header (merge header blocks) ↔ InOrder header blocks := by
  induction blocks using merge.induct header with
  | case1 =>
    rw [merge]
    exact iff_of_true (fun x member => absurd member (by simp)) trivial
  | case2 b =>
    rw [merge]
    exact iff_of_true ((coalesced_cons positive).mpr ⟨fun _ y member => absurd member (by simp), fun x member => absurd member (by simp)⟩)
      ⟨fun _ y member => absurd member (by simp), trivial⟩
  | case3 a b rest joins ih =>
    rw [merge, if_pos joins, ih (join_packed positive packed joins.2.2 true)]
    exact join_inOrder positive packed joins.1 joins.2.1 joins.2.2
  | case4 a b rest keeps ih =>
    rw [merge, if_neg keeps, coalesced_cons positive, ih packed.tail, InOrder]
    have fresh := packed.head_fresh positive
    refine and_congr_left fun _ => ?_
    constructor
    · -- What touches the first block would still do so after the merge.
      intro apart freeA y member free
      constructor
      · intro same
        obtain ⟨c, isBlock, isFree, sameBase⟩ := merge_keeps_base member free fun p old stops =>
          fresh (packed.unique_stop positive List.mem_cons_self (List.mem_cons_of_mem _ old) (same.trans stops.symm) ▸ old)
        exact absurd (same.trans sameBase.symm) (apart freeA c isBlock isFree).1
      · intro same
        obtain ⟨c, isBlock, isFree, sameStop⟩ := merge_keeps_stop member free fun p old begins =>
          fresh (packed.unique positive List.mem_cons_self (List.mem_cons_of_mem _ old) (same.symm.trans begins) ▸ old)
        exact absurd (sameStop.trans same) (apart freeA c isBlock isFree).2
    · intro leads freeA y member free
      obtain ⟨⟨first, isFirst, freeFirst, sameBase⟩, last, isLast, freeLast, sameStop⟩ := merge_ends member free
      constructor
      · intro same
        obtain ⟨next, _⟩ := leads freeA first isFirst freeFirst
        cases next (same.trans sameBase.symm)
        exact keeps ⟨freeA, freeFirst, same.trans sameBase.symm⟩
      · intro same
        exact (leads freeA last isLast freeLast).2 (sameStop.trans same)

/-- Marking one block free keeps the order exactly if it can be linked to what
it touches. -/
theorem release_inOrder_iff (positive : 0 < header) (packed : Packed header lo hi (pre ++ b :: post)) (isFree : b.free = true)
    (coalesced : Coalesced header (pre ++ post)) : InOrder header (pre ++ b :: post) ↔ Linkable header pre b post := by
  induction pre with
  | nil =>
    refine ⟨fun ⟨leads, _⟩ c member free => ?_, fun linkable => ⟨fun _ y member free => ?_, coalesced.inOrder positive⟩⟩
    · exact ⟨fun same => absurd same (leads isFree c member free).2, (leads isFree c member free).1⟩
    · exact ⟨(linkable y member free).2, fun same => absurd ((linkable y member free).1 same) (by simp)⟩
  | cons a pre ih =>
    rw [List.cons_append] at packed coalesced ⊢
    obtain ⟨apart, tail⟩ := (coalesced_cons positive).mp coalesced
    have fresh := packed.head_fresh positive
    have notA : b ≠ a := by
      rintro rfl
      exact fresh (by simp)
    rw [InOrder, ih packed.tail tail]
    constructor
    · rintro ⟨leads, linkable⟩ c member free
      rcases List.mem_cons.mp member with rfl | old
      · obtain ⟨next, apartB⟩ := leads free b (by simp) isFree
        refine ⟨fun same => ?_, fun same => absurd same apartB⟩
        -- Nothing is between the two.
        cases pre with
        | nil => rfl
        | cons d pre =>
          cases next same
          exact absurd (packed.tail.head_fresh positive) (by simp)
      · obtain ⟨before, behind⟩ := linkable c old free
        refine ⟨fun same => ?_, behind⟩
        rw [List.getLast?_cons, before same]
        rfl
    · intro linkable
      refine ⟨fun freeA y member free => ?_, fun c member free => ⟨fun same => ?_, (linkable c (List.mem_cons_of_mem _ member) free).2⟩⟩
      · rcases List.mem_append.mp member with old | member
        · obtain ⟨noStop, noBase⟩ := apart freeA y (List.mem_append_left _ old) free
          exact ⟨fun same => absurd same noStop, noBase⟩
        · rcases List.mem_cons.mp member with rfl | old
          · obtain ⟨before, behind⟩ := linkable a List.mem_cons_self freeA
            constructor
            · intro same
              cases pre with
              | nil => rfl
              | cons d pre =>
                have isLast := List.mem_of_getLast? (List.getLast?_cons_cons ▸ before same)
                exact absurd (List.mem_append_left _ isLast) fresh
            · intro same
              have isHead := List.mem_of_head? (behind same)
              exact fresh (by simp [isHead])
          · obtain ⟨noStop, noBase⟩ := apart freeA y (List.mem_append_right _ old) free
            exact ⟨fun same => absurd same noStop, noBase⟩
      · have isLast := (linkable c (List.mem_cons_of_mem _ member) free).1 same
        cases pre with
        | nil =>
          obtain rfl : a = c := Option.some.inj isLast
          exact absurd (List.mem_cons_of_mem b member) fresh
        | cons d pre => rwa [List.getLast?_cons_cons] at isLast

/-- The rest of a block that is cut touches no free block. -/
theorem cut_coalesced (positive : 0 < header) (least : Nat) (packed : Packed header lo hi (pre ++ b :: post)) (isUsed : b.free = false)
    (enough : size ≤ b.size) (coalesced : Coalesced header (pre ++ post))
    (behind : ∀ c ∈ pre ++ post, c.free = true → b.stop header ≠ c.base) :
    Coalesced header (pre ++ (cut header least b size ++ post)) := by
  -- A free block is an old one, or the rest.
  have parts : ∀ c ∈ pre ++ (cut header least b size ++ post), c.free = true → c ∈ pre ++ post ∨
      (b.base < c.base ∧ c.base < b.stop header ∧ c.stop header = b.stop header) := by
    intro c member free
    rcases List.mem_append.mp member with old | member
    · exact .inl (List.mem_append_left _ old)
    · rcases List.mem_append.mp member with part | old
      · unfold cut at part
        split at part
        · rcases List.mem_cons.mp part with rfl | part
          · rw [isUsed] at free
            cases free
          · obtain rfl := List.mem_singleton.mp part
            refine .inr ?_
            simp only [Block.stop]
            omega
        · obtain rfl := List.mem_singleton.mp part
          rw [isUsed] at free
          cases free
      · exact .inl (List.mem_append_right _ old)
  have outside : ∀ c ∈ pre ++ post, c.stop header ≤ b.base ∨ b.stop header ≤ c.base := by
    intro c member
    have isBlock : c ∈ pre ++ b :: post := by
      rcases List.mem_append.mp member with old | old
      · exact List.mem_append_left _ old
      · exact List.mem_append_right _ (List.mem_cons_of_mem _ old)
    refine packed.distinct isBlock (by simp) fun same => ?_
    have nodup := packed.nodup positive
    rw [List.map_append, List.map_cons, List.nodup_middle, ← List.map_append] at nodup
    exact (List.nodup_cons.mp nodup).1 (List.mem_map_of_mem (same ▸ member))
  intro x first y second freeX freeY touches
  rcases parts x first freeX with oldX | ⟨_, _, stopX⟩
  · rcases parts y second freeY with oldY | ⟨baseY, insideY, _⟩
    · exact coalesced x oldX y oldY freeX freeY touches
    · have apart := outside x oldX
      simp only [Block.stop] at *
      omega
  · rcases parts y second freeY with oldY | ⟨_, insideY, _⟩
    · exact behind y oldY freeY (stopX.symm.trans touches)
    · omega

end HobbyKernel.Blocks
