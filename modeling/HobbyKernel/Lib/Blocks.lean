import Mathlib.Data.List.Basic
import Mathlib.Data.List.Nodup
import Mathlib.Data.List.Pairwise
import Mathlib.Data.List.Perm.Subperm

/-! A region cut into blocks, each with a header in front of it. Blocks come in
no order of addresses. First-fit allocation splits a block, and freeing merges
blocks that follow each other both in the list and in memory; neither ever
moves or shrinks a block that is in use. -/
namespace HobbyKernel.Blocks

structure Block where
  base : Nat
  size : Nat
  free : Bool
deriving DecidableEq

variable (header least : Nat) {lo hi hi' size : Nat} {a b c used : Block} {blocks pre post rest : List Block}

/-- The address behind a block. -/
def Block.stop (b : Block) : Nat := b.base + header + b.size

/-- Two blocks share no address. -/
def Apart (a b : Block) : Prop := a.stop header ≤ b.base ∨ b.stop header ≤ a.base

/-- The blocks lie between two addresses, apart from each other. -/
structure Packed (lo hi : Nat) (blocks : List Block) : Prop where
  inside : ∀ b ∈ blocks, lo ≤ b.base ∧ b.stop header ≤ hi
  apart : blocks.Pairwise (Apart header)

/-- Bases and sizes are multiples of a number. -/
def Aligned (unit : Nat) (blocks : List Block) : Prop := ∀ b ∈ blocks, unit ∣ b.base ∧ unit ∣ b.size

/-- A block shrinks to a size, if enough is left behind it for a free block. -/
def cut (b : Block) (size : Nat) : List Block :=
  if size + (header + least) ≤ b.size then
    [⟨b.base, size, b.free⟩, ⟨b.base + header + size, b.size - size - header, true⟩]
  else [b]

/-- Adjacent free blocks become one. -/
def merge : List Block → List Block
  | [] => []
  | [b] => [b]
  | a :: b :: rest =>
    if a.free ∧ b.free ∧ a.stop header = b.base then merge (⟨a.base, a.size + (header + b.size), true⟩ :: rest)
    else a :: merge (b :: rest)
termination_by blocks => blocks.length

variable {header least}

instance : Std.Symm (Apart header) := ⟨fun _ _ apart => Or.symm apart⟩

/-- What lies inside of a block is apart from whatever the block is apart from. -/
theorem Apart.within (apart : Apart header a b) (low : b.base ≤ c.base) (high : c.stop header ≤ b.stop header) :
    Apart header a c := by
  rcases apart with before | behind
  · exact .inl (Nat.le_trans before low)
  · exact .inr (Nat.le_trans high behind)

theorem Packed.tail (packed : Packed header lo hi (b :: blocks)) : Packed header lo hi blocks :=
  ⟨fun c member => packed.inside c (List.mem_cons_of_mem _ member), (List.pairwise_cons.mp packed.apart).2⟩

theorem Packed.widen (packed : Packed header lo hi blocks) (wider : hi ≤ hi') : Packed header lo hi' blocks :=
  ⟨fun b member => ⟨(packed.inside b member).1, Nat.le_trans (packed.inside b member).2 wider⟩, packed.apart⟩

/-- Two different blocks of a region are apart. -/
theorem Packed.distinct (packed : Packed header lo hi blocks) (first : a ∈ blocks) (second : b ∈ blocks)
    (other : a ≠ b) : Apart header a b :=
  packed.apart.forall first second other

/-- A block that has a header is known by its address. -/
theorem Packed.unique (positive : 0 < header) (packed : Packed header lo hi blocks) (first : a ∈ blocks)
    (second : b ∈ blocks) (same : a.base = b.base) : a = b := by
  by_contra other
  rcases packed.distinct first second other with before | behind
  · simp only [Block.stop] at before
    omega
  · simp only [Block.stop] at behind
    omega

theorem Packed.nodup (positive : 0 < header) (packed : Packed header lo hi blocks) : (blocks.map Block.base).Nodup := by
  refine List.Pairwise.map _ (fun a b apart same => ?_) packed.apart
  rcases apart with before | behind
  · simp only [Block.stop] at before
    omega
  · simp only [Block.stop] at behind
    omega

/-- There are no more blocks than addresses. -/
theorem Packed.length_le (positive : 0 < header) (packed : Packed header lo hi blocks) : blocks.length ≤ hi - lo := by
  have within : blocks.map Block.base ⊆ List.range' lo (hi - lo) := by
    intro base member
    obtain ⟨b, isBlock, rfl⟩ := List.mem_map.mp member
    have inside := packed.inside b isBlock
    simp only [Block.stop] at inside
    rw [List.mem_range'_1]
    omega
  have fewer := (List.subperm_of_subset (packed.nodup positive) within).length_le
  rwa [List.length_map, List.length_range'] at fewer

/-- A new block behind all others. -/
theorem Packed.grow (packed : Packed header lo hi blocks) (behind : hi ≤ b.base) (low : lo ≤ b.base)
    (high : b.stop header ≤ hi') (wider : hi ≤ hi') : Packed header lo hi' (b :: blocks) := by
  refine ⟨fun c member => ?_, List.pairwise_cons.mpr ⟨fun c member => ?_, packed.apart⟩⟩
  · rcases List.mem_cons.mp member with rfl | old
    · exact ⟨low, high⟩
    · exact ⟨(packed.inside c old).1, Nat.le_trans (packed.inside c old).2 wider⟩
  · exact .inr (Nat.le_trans (packed.inside c member).2 behind)

/-- Parts of a block may take its place. -/
theorem Packed.replace (parts : List Block) (packed : Packed header lo hi (pre ++ b :: post))
    (inside : ∀ c ∈ parts, b.base ≤ c.base ∧ c.stop header ≤ b.stop header) (apart : parts.Pairwise (Apart header)) :
    Packed header lo hi (pre ++ (parts ++ post)) := by
  have isBlock : b ∈ pre ++ b :: post := by simp
  obtain ⟨before, behind, across⟩ := List.pairwise_append.mp packed.apart
  obtain ⟨fromB, behind⟩ := List.pairwise_cons.mp behind
  refine ⟨fun c member => ?_, List.pairwise_append.mpr ⟨before, List.pairwise_append.mpr ⟨apart, behind, ?_⟩, ?_⟩⟩
  · rcases List.mem_append.mp member with old | member
    · exact packed.inside c (List.mem_append_left _ old)
    · rcases List.mem_append.mp member with part | old
      · have outer := packed.inside b isBlock
        have inner := inside c part
        omega
      · exact packed.inside c (by simp [old])
  · intro c part d old
    exact symm (Apart.within (symm (fromB d old)) (inside c part).1 (inside c part).2)
  · intro d old c member
    rcases List.mem_append.mp member with part | later
    · exact Apart.within (across d old b List.mem_cons_self) (inside c part).1 (inside c part).2
    · exact across d old c (List.mem_cons_of_mem _ later)

theorem cut_packed (least : Nat) (packed : Packed header lo hi (pre ++ b :: post)) (enough : size ≤ b.size) :
    Packed header lo hi (pre ++ (cut header least b size ++ post)) := by
  refine packed.replace _ (fun c part => ?_) ?_
  · unfold cut at part
    split at part
    · rcases List.mem_cons.mp part with rfl | part
      · exact ⟨Nat.le_refl _, by simp only [Block.stop]; omega⟩
      · obtain rfl := List.mem_singleton.mp part
        exact ⟨by dsimp only; omega, by simp only [Block.stop]; omega⟩
    · obtain rfl := List.mem_singleton.mp part
      exact ⟨Nat.le_refl _, Nat.le_refl _⟩
  · unfold cut
    split
    · simp [Apart, Block.stop]
    · exact List.pairwise_singleton ..

theorem cut_aligned {unit : Nat} (least : Nat) (aligned : Aligned unit (pre ++ b :: post)) (byHeader : unit ∣ header) (bySize : unit ∣ size) :
    Aligned unit (pre ++ (cut header least b size ++ post)) := by
  have here := aligned b (by simp)
  intro c member
  rcases List.mem_append.mp member with old | member
  · exact aligned c (by simp [old])
  · rcases List.mem_append.mp member with part | old
    · unfold cut at part
      split at part
      · rcases List.mem_cons.mp part with rfl | part
        · exact ⟨here.1, bySize⟩
        · obtain rfl := List.mem_singleton.mp part
          exact ⟨Nat.dvd_add (Nat.dvd_add here.1 byHeader) bySize, Nat.dvd_sub (Nat.dvd_sub here.2 bySize) byHeader⟩
      · obtain rfl := List.mem_singleton.mp part
        exact here
    · exact aligned c (by simp [old])

theorem flag_aligned {unit : Nat} (aligned : Aligned unit (pre ++ b :: post)) (flag : Bool) :
    Aligned unit (pre ++ { b with free := flag } :: post) := by
  intro c member
  rcases List.mem_append.mp member with old | member
  · exact aligned c (by simp [old])
  · rcases List.mem_cons.mp member with rfl | old
    · exact aligned b (by simp)
    · exact aligned c (by simp [old])

/-- Cutting a used block leaves a used block of at least the size asked for. -/
theorem cut_used (header least : Nat) (pre post : List Block) (enough : size ≤ b.size) (isUsed : b.free = false) : ∃ n, size ≤ n ∧
    ∀ c : Block, c.free = false → (c ∈ pre ++ (cut header least b size ++ post) ↔ c = ⟨b.base, n, false⟩ ∨ c ∈ pre ++ post) := by
  unfold cut
  split
  · refine ⟨size, Nat.le_refl _, fun c used => ?_⟩
    have notRest : c ≠ ⟨b.base + header + size, b.size - size - header, true⟩ := by
      rintro rfl
      cases used
    rw [isUsed]
    simp only [List.mem_append, List.mem_cons, List.not_mem_nil]
    tauto
  · refine ⟨b.size, enough, fun c used => ?_⟩
    rw [← isUsed]
    simp only [List.mem_append, List.mem_cons, List.not_mem_nil]
    tauto

/-- Cutting does not look at the flag of the block. -/
theorem cut_flag (header least : Nat) (b : Block) (size : Nat) (flag : Bool) : ∃ first rest, cut header least b size = first :: rest ∧
    first.base = b.base ∧ cut header least { b with free := flag } size = { first with free := flag } :: rest := by
  unfold cut
  by_cases room : size + (header + least) ≤ b.size
  · exact ⟨_, _, if_pos room, rfl, if_pos room⟩
  · exact ⟨_, _, if_neg room, rfl, if_neg room⟩

theorem flag_packed (packed : Packed header lo hi (pre ++ b :: post)) (flag : Bool) :
    Packed header lo hi (pre ++ { b with free := flag } :: post) := by
  refine packed.replace [{ b with free := flag }] (fun c part => ?_) (List.pairwise_singleton ..)
  obtain rfl := List.mem_singleton.mp part
  exact ⟨Nat.le_refl _, Nat.le_refl _⟩

/-- Giving a block back takes it out of the used ones. -/
theorem release_used (positive : 0 < header) (packed : Packed header lo hi (pre ++ b :: post)) (isUsed : c.free = false) :
    c ∈ pre ++ { b with free := true } :: post ↔ c ∈ pre ++ b :: post ∧ c.base ≠ b.base := by
  have notFreed : c ≠ { b with free := true } := by
    rintro rfl
    cases isUsed
  have others : c ∈ pre ++ post → c.base ≠ b.base := by
    intro member same
    have nodup := packed.nodup positive
    rw [List.map_append, List.map_cons, List.nodup_middle] at nodup
    refine (List.nodup_cons.mp nodup).1 ?_
    rw [← same, ← List.map_append]
    exact List.mem_map_of_mem member
  simp only [List.mem_append, List.mem_cons] at *
  constructor
  · rintro (before | freed | behind)
    · exact ⟨.inl before, others (.inl before)⟩
    · exact absurd freed notFreed
    · exact ⟨.inr (.inr behind), others (.inr behind)⟩
  · rintro ⟨before | rfl | behind, other⟩
    · exact .inl before
    · exact absurd rfl other
    · exact .inr (.inr behind)

/-- Whatever is apart from two blocks that follow each other is apart from
both together. -/
theorem Apart.join (positive : 0 < header) (first : Apart header c a) (second : Apart header c b)
    (adjacent : a.stop header = b.base) (free : Bool) : Apart header c ⟨a.base, a.size + (header + b.size), free⟩ := by
  simp only [Apart, Block.stop] at *
  omega

/-- Two blocks that follow each other may become one. -/
theorem join_packed (positive : 0 < header) (packed : Packed header lo hi (a :: b :: rest)) (adjacent : a.stop header = b.base)
    (free : Bool) : Packed header lo hi (⟨a.base, a.size + (header + b.size), free⟩ :: rest) := by
  obtain ⟨fromA, behind⟩ := List.pairwise_cons.mp packed.apart
  obtain ⟨fromB, _⟩ := List.pairwise_cons.mp behind
  have insideA := packed.inside a (by simp)
  have insideB := packed.inside b (by simp)
  refine ⟨fun c member => ?_, List.pairwise_cons.mpr ⟨fun c member => ?_, packed.tail.tail.apart⟩⟩
  · rcases List.mem_cons.mp member with rfl | old
    · refine ⟨insideA.1, ?_⟩
      simp only [Block.stop] at *
      omega
    · exact packed.inside c (by simp [old])
  · exact symm (Apart.join positive (symm (fromA c (by simp [member]))) (symm (fromB c member)) adjacent free)

theorem merge_packed (positive : 0 < header) (packed : Packed header lo hi blocks) :
    Packed header lo hi (merge header blocks) ∧
      ∀ d, (∀ b ∈ blocks, Apart header d b) → ∀ b ∈ merge header blocks, Apart header d b := by
  induction blocks using merge.induct header with
  | case1 =>
    rw [merge]
    exact ⟨packed, fun d apart => apart⟩
  | case2 b =>
    rw [merge]
    exact ⟨packed, fun d apart => apart⟩
  | case3 a b rest joins ih =>
    rw [merge, if_pos joins]
    have joined := join_packed positive packed joins.2.2 true
    obtain ⟨merged, covers⟩ := ih joined
    refine ⟨merged, fun d apart => covers d fun c member => ?_⟩
    rcases List.mem_cons.mp member with rfl | old
    · exact Apart.join positive (apart a (by simp)) (apart b (by simp)) joins.2.2 true
    · exact apart c (by simp [old])
  | case4 a b rest keeps ih =>
    rw [merge, if_neg keeps]
    obtain ⟨merged, covers⟩ := ih packed.tail
    obtain ⟨fromA, _⟩ := List.pairwise_cons.mp packed.apart
    refine ⟨⟨fun c member => ?_, List.pairwise_cons.mpr ⟨covers a fromA, merged.apart⟩⟩, fun d apart c member => ?_⟩
    · rcases List.mem_cons.mp member with rfl | later
      · exact packed.inside c (by simp)
      · exact merged.inside c later
    · rcases List.mem_cons.mp member with rfl | later
      · exact apart c (by simp)
      · exact covers d (fun b old => apart b (List.mem_cons_of_mem _ old)) c later

theorem merge_aligned {unit : Nat} (byHeader : unit ∣ header) (aligned : Aligned unit blocks) :
    Aligned unit (merge header blocks) := by
  induction blocks using merge.induct header with
  | case1 => rwa [merge]
  | case2 b => rwa [merge]
  | case3 a b rest joins ih =>
    rw [merge, if_pos joins]
    refine ih fun c member => ?_
    rcases List.mem_cons.mp member with rfl | old
    · have first := aligned a (by simp)
      have second := aligned b (by simp)
      exact ⟨first.1, Nat.dvd_add first.2 (Nat.dvd_add byHeader second.2)⟩
    · exact aligned c (by simp [old])
  | case4 a b rest keeps ih =>
    rw [merge, if_neg keeps]
    intro c member
    rcases List.mem_cons.mp member with rfl | later
    · exact aligned c (by simp)
    · exact ih (fun d old => aligned d (List.mem_cons_of_mem _ old)) c later

/-- Merging leaves the blocks in use alone. -/
theorem merge_used (isUsed : c.free = false) : c ∈ merge header blocks ↔ c ∈ blocks := by
  induction blocks using merge.induct header with
  | case1 => rw [merge]
  | case2 b => rw [merge]
  | case3 a b rest joins ih =>
    have notA : c ≠ a := by
      rintro rfl
      simp [joins.1] at isUsed
    have notB : c ≠ b := by
      rintro rfl
      simp [joins.2.1] at isUsed
    have notBoth : c ≠ ⟨a.base, a.size + (header + b.size), true⟩ := by
      rintro rfl
      cases isUsed
    rw [merge, if_pos joins, ih]
    simp [notA, notB, notBoth]
  | case4 a b rest keeps ih => rw [merge, if_neg keeps, List.mem_cons, ih, List.mem_cons (b := a)]

end HobbyKernel.Blocks
