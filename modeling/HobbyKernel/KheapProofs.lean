import HobbyKernel.Core.Kheap
import HobbyKernel.Lib.Blocks
import HobbyKernel.Lib.Runs
import HobbyKernel.UaccessProofs

/-! The kernel heap. The headers that lie in the heap's memory spell out a list
of blocks; every function of `kheap.c` does to the headers what an operation on
blocks does to that list, and writes nowhere into a block that is in use. -/
namespace HobbyKernel.KheapProofs
open Blocks Kheap Runs

variable {h h' : Kheap} {mem mem' : Nat → U64} {head last p size value : U64} {blocks pre post : List Block} {b : Block}
  {lo hi : Nat}

theorem base_toNat : KHEAP_BASE.toNat = 0xffff900000000000 := rfl

theorem top_toNat : (KHEAP_BASE + KHEAP_SIZE).toNat = 0xffff900020000000 := rfl

/-- The `int` in a word is not 0. -/
def isFree (word : U64) : Bool := word.setWidth 32 ≠ 0#32

/-- The headers from one address on spell out the blocks, and lead to another
address. -/
def Chained (mem : Nat → U64) : U64 → List Block → U64 → Prop
  | head, [], last => head = last
  | head, b :: rest, last => head.toNat = b.base ∧ (mem b.base).toNat = b.size ∧ isFree (mem (b.base + 8)) = b.free ∧
      Chained mem (mem (b.base + 16)) rest last

instance decidableChained (mem : Nat → U64) (last : U64) : (head : U64) → (blocks : List Block) → Decidable (Chained mem head blocks last)
  | head, [] => inferInstanceAs (Decidable (head = last))
  | head, b :: rest =>
    have := decidableChained mem last (mem (b.base + 16)) rest
    inferInstanceAs (Decidable (head.toNat = b.base ∧ (mem b.base).toNat = b.size ∧ isFree (mem (b.base + 8)) = b.free ∧
      Chained mem (mem (b.base + 16)) rest last))

theorem chained_append : Chained mem head (pre ++ post) last ↔ ∃ mid, Chained mem head pre mid ∧ Chained mem mid post last := by
  induction pre generalizing head with
  | nil => exact ⟨fun segment => ⟨head, rfl, segment⟩, fun ⟨_, same, segment⟩ => by rw [show head = _ from same]; exact segment⟩
  | cons b pre ih =>
    simp only [List.cons_append, Chained, ih]
    constructor
    · rintro ⟨isHead, isSize, flag, mid, before, behind⟩
      exact ⟨mid, ⟨isHead, isSize, flag, before⟩, behind⟩
    · rintro ⟨mid, ⟨isHead, isSize, flag, before⟩, behind⟩
      exact ⟨isHead, isSize, flag, mid, before, behind⟩

/-- Only the headers of the blocks matter. -/
theorem chained_congr (segment : Chained mem head blocks last)
    (same : ∀ b ∈ blocks, ∀ a, b.base ≤ a → a < b.base + 24 → mem' a = mem a) : Chained mem' head blocks last := by
  induction blocks generalizing head with
  | nil => exact segment
  | cons b rest ih =>
    obtain ⟨isHead, isSize, flag, behind⟩ := segment
    have here := same b List.mem_cons_self
    refine ⟨isHead, ?_, ?_, ?_⟩
    · rw [here _ (Nat.le_refl _) (by omega)]
      exact isSize
    · rw [here _ (by omega) (by omega)]
      exact flag
    · rw [here _ (by omega) (by omega)]
      exact ih behind fun c member => same c (List.mem_cons_of_mem _ member)

theorem sixteen_toNat : (16 : U64).toNat = 16 := rfl

/-- The three fields of a header, as words of memory. -/
theorem header_fields (room : p.toNat + 24 ≤ 2 ^ 64) (h : Kheap) :
    h.size p = h.mem p.toNat ∧ h.free p = isFree (h.mem (p.toNat + 8)) ∧ h.next p = h.mem (p.toNat + 16) := by
  have eight : (p + 8).toNat = p.toNat + 8 := by
    rw [BitVec.toNat_add, show (8 : U64).toNat = 8 from rfl]
    omega
  have sixteen : (p + 16).toNat = p.toNat + 16 := by
    rw [BitVec.toNat_add, sixteen_toNat]
    omega
  refine ⟨rfl, ?_, ?_⟩
  · rw [Kheap.free, Kheap.load, eight]
    rfl
  · rw [Kheap.next, Kheap.load, sixteen]

/-- Storing an `int` keeps the padding behind it. -/
theorem isFree_store (old : U64) (value : U32) :
    isFree ((old &&& ~~~0xFFFFFFFF) ||| value.setWidth 64) = decide (value ≠ 0#32) := by
  have same : ((old &&& ~~~0xFFFFFFFF) ||| value.setWidth 64).setWidth 32 = value := by
    ext i bound
    simp
  rw [isFree, same]

/-- What the three stores to a header do to memory. -/
theorem header_stores (room : p.toNat + 24 ≤ 2 ^ 64) (h : Kheap) :
    (∀ value, (h.setSize p value).mem = Function.update h.mem p.toNat value) ∧
    (∀ value : U32, ∃ word, isFree word = decide (value ≠ 0#32) ∧
      (h.setFree p value).mem = Function.update h.mem (p.toNat + 8) word) ∧
    ∀ value, (h.setNext p value).mem = Function.update h.mem (p.toNat + 16) value := by
  have eight : (p + 8).toNat = p.toNat + 8 := by
    rw [BitVec.toNat_add, show (8 : U64).toNat = 8 from rfl]
    omega
  have sixteen : (p + 16).toNat = p.toNat + 16 := by
    rw [BitVec.toNat_add, sixteen_toNat]
    omega
  refine ⟨fun _ => rfl, fun value => ⟨_, isFree_store (h.load (p + 8)) value, ?_⟩, fun value => ?_⟩
  · rw [Kheap.setFree, Kheap.store, eight]
  · rw [Kheap.setNext, Kheap.store, sixteen]

/-- Writing inside of one block leaves the rest of the list as it was. -/
theorem chained_around (mem' : Nat → U64) (segment : Chained mem head (pre ++ b :: post) last) (packed : Packed 24 lo hi (pre ++ b :: post))
    (within : ∀ a, mem' a ≠ mem a → b.base ≤ a ∧ a < b.stop 24) :
    ∃ mid, mid.toNat = b.base ∧ (mem b.base).toNat = b.size ∧ isFree (mem (b.base + 8)) = b.free ∧
      Chained mem' head pre mid ∧ Chained mem' (mem (b.base + 16)) post last := by
  obtain ⟨mid, before, isMid, isSize, flag, behind⟩ := chained_append.mp segment
  obtain ⟨_, packedB, across⟩ := List.pairwise_append.mp packed.apart
  have fromB := (List.pairwise_cons.mp packedB).1
  refine ⟨mid, isMid, isSize, flag, chained_congr before fun c member a low high => ?_,
    chained_congr behind fun c member a low high => ?_⟩
  · by_contra changed
    have inside := within a changed
    have apart := across c member b List.mem_cons_self
    simp only [Apart, Block.stop] at *
    omega
  · by_contra changed
    have inside := within a changed
    have apart := fromB c member
    simp only [Apart, Block.stop] at *
    omega

theorem setFree_spec (high : hi < 2 ^ 64) (segment : Chained h.mem head (pre ++ b :: post) last)
    (packed : Packed 24 lo hi (pre ++ b :: post)) (isBase : p.toNat = b.base) (value : U32) :
    Chained (h.setFree p value).mem head (pre ++ { b with free := decide (value ≠ 0#32) } :: post) last ∧
      ∀ a, a ≠ b.base + 8 → (h.setFree p value).mem a = h.mem a := by
  have inside := packed.inside b (by simp)
  simp only [Block.stop] at inside
  obtain ⟨word, flag, stored⟩ := (header_stores (p := p) (by omega) h).2.1 value
  rw [isBase] at stored
  rw [stored]
  have elsewhere : ∀ a, a ≠ b.base + 8 → Function.update h.mem (b.base + 8) word a = h.mem a :=
    fun a other => Function.update_of_ne other ..
  obtain ⟨mid, isMid, isSize, _, before, behind⟩ := chained_around (Function.update h.mem (b.base + 8) word)
    segment packed fun a changed => by
      have here : a = b.base + 8 := by
        by_contra other
        exact changed (elsewhere a other)
      simp only [Block.stop]
      omega
  refine ⟨chained_append.mpr ⟨mid, before, isMid, ?_, ?_, ?_⟩, elsewhere⟩
  · rw [elsewhere b.base (by omega)]
    exact isSize
  · rw [Function.update_self]
    exact flag
  · rw [elsewhere (b.base + 16) (by omega)]
    exact behind

/-- The sum of addresses in a block does not wrap. -/
theorem add_toNat {a b : U64} (room : a.toNat + b.toNat < 2 ^ 64) : (a + b).toNat = a.toNat + b.toNat := by
  rw [BitVec.toNat_add, Nat.mod_eq_of_lt room]

theorem sub_toNat {a b : U64} (enough : b.toNat ≤ a.toNat) : (a - b).toNat = a.toNat - b.toNat := by
  rw [BitVec.toNat_sub]
  omega

/-- Writing all of a header, in the order of the source. -/
theorem newHeader_spec (room : p.toNat + 24 ≤ 2 ^ 64) (h : Kheap) (size next : U64) (value : U32) :
    let h' := ((h.setSize p size).setFree p value).setNext p next
    h'.mem p.toNat = size ∧ isFree (h'.mem (p.toNat + 8)) = decide (value ≠ 0#32) ∧ h'.mem (p.toNat + 16) = next ∧
      ∀ a, a < p.toNat ∨ p.toNat + 24 ≤ a → h'.mem a = h.mem a := by
  have first := (header_stores room h).1 size
  obtain ⟨word, flag, second⟩ := (header_stores room (h.setSize p size)).2.1 value
  have third := (header_stores room ((h.setSize p size).setFree p value)).2.2 next
  dsimp only
  rw [third, second, first]
  refine ⟨?_, ?_, Function.update_self .., fun a outside => ?_⟩
  · simp (disch := omega) only [Function.update_of_ne, Function.update_self]
  · simp (disch := omega) only [Function.update_of_ne, Function.update_self]
    exact flag
  · simp (disch := omega) only [Function.update_of_ne]

theorem splitBlock_fields (h : Kheap) (p size : U64) : (h.splitBlock p size).freeList = h.freeList ∧
    (h.splitBlock p size).heapNext = h.heapNext ∧ (h.splitBlock p size).heapEnd = h.heapEnd := by
  unfold splitBlock
  dsimp only
  split <;> exact ⟨rfl, rfl, rfl⟩

/-- `split_block` cuts the block in the list. -/
theorem splitBlock_spec (low : 64 ≤ lo) (high : hi < 2 ^ 64) (segment : Chained h.mem head (pre ++ b :: post) last)
    (packed : Packed 24 lo hi (pre ++ b :: post)) (isBase : p.toNat = b.base) (enough : size.toNat ≤ b.size) :
    Chained (h.splitBlock p size).mem head (pre ++ (cut 24 16 b size.toNat ++ post)) last ∧
      ∀ a, (h.splitBlock p size).mem a ≠ h.mem a → b.base ≤ a ∧ a < b.stop 24 := by
  have inside := packed.inside b (by simp)
  simp only [Block.stop] at inside
  have fields := header_fields (p := p) (by omega) h
  have isSize : (h.size p).toNat = b.size := by
    rw [fields.1, isBase]
    obtain ⟨_, _, _, same, _⟩ := chained_append.mp segment
    exact same
  have least : (SIZEOF_HEADER + ALIGN).toNat = 40 := rfl
  have sum : (size + (SIZEOF_HEADER + ALIGN)).toNat = size.toNat + 40 := by
    rw [add_toNat (by rw [least]; omega), least]
  unfold splitBlock cut
  dsimp only
  by_cases room : size + (SIZEOF_HEADER + ALIGN) ≤ h.size p
  · rw [if_pos room]
    rw [BitVec.le_def, sum, isSize] at room
    rw [if_pos (by omega)]
    have isNew : (p + SIZEOF_HEADER + size).toNat = b.base + 24 + size.toNat := by
      have header : SIZEOF_HEADER.toNat = 24 := rfl
      have first : (p + SIZEOF_HEADER).toNat = p.toNat + 24 := by rw [add_toNat (by rw [header]; omega), header]
      rw [add_toNat (by rw [first]; omega), first, isBase]
    have isRest : (h.size p - size - SIZEOF_HEADER).toNat = b.size - size.toNat - 24 := by
      have header : SIZEOF_HEADER.toNat = 24 := rfl
      have first : (h.size p - size).toNat = b.size - size.toNat := by rw [sub_toNat (by omega), isSize]
      rw [sub_toNat (by rw [header]; omega), first, header]
    generalize p + SIZEOF_HEADER + size = newb at *
    generalize h.size p - size - SIZEOF_HEADER = left at *
    have sameNext : ((h.setSize newb left).setFree newb 1).next p = h.mem (b.base + 16) := by
      have first := (header_stores (p := newb) (by omega) h).1 left
      obtain ⟨word, _, second⟩ := (header_stores (p := newb) (by omega) (h.setSize newb left)).2.1 1
      rw [(header_fields (p := p) (by omega) _).2.2, second, first, isBase]
      simp (disch := omega) only [Function.update_of_ne]
    rw [sameNext]
    obtain ⟨newSize, newFlag, newNext, elsewhere⟩ := newHeader_spec (p := newb) (by omega) h left (h.mem (b.base + 16)) 1
    generalize ((h.setSize newb left).setFree newb 1).setNext newb (h.mem (b.base + 16)) = h₁ at *
    have shrunk := (header_stores (p := p) (by omega) h₁).1 size
    have linked := (header_stores (p := p) (by omega) (h₁.setSize p size)).2.2 newb
    rw [linked, shrunk, isBase]
    rw [isNew] at newSize newFlag newNext elsewhere
    have within : ∀ a, Function.update (Function.update h₁.mem b.base size) (b.base + 16) newb a ≠ h.mem a →
        b.base ≤ a ∧ a < b.stop 24 := by
      intro a changed
      simp only [Block.stop]
      by_contra outside
      refine changed ?_
      rw [Function.update_of_ne (by omega), Function.update_of_ne (by omega), elsewhere a (by omega)]
    obtain ⟨mid, isMid, _, flag, before, behind⟩ := chained_around _ segment packed within
    refine ⟨chained_append.mpr ⟨mid, before, isMid, ?_, ?_, ?_⟩, within⟩ <;> dsimp only
    · rw [Function.update_of_ne (by omega), Function.update_self]
    · rw [Function.update_of_ne (by omega), Function.update_of_ne (by omega), elsewhere _ (by omega)]
      exact flag
    · rw [Function.update_self]
      refine ⟨isNew, ?_, ?_, ?_⟩ <;> dsimp only
      · rw [Function.update_of_ne (by omega), Function.update_of_ne (by omega), newSize]
        exact isRest
      · rw [Function.update_of_ne (by omega), Function.update_of_ne (by omega), newFlag]
        rfl
      · rw [Function.update_of_ne (by omega), Function.update_of_ne (by omega), newNext]
        exact behind
  · rw [if_neg room]
    rw [BitVec.le_def, sum, isSize] at room
    rw [if_neg (by omega)]
    exact ⟨segment, fun a changed => absurd rfl changed⟩

/-- A pointer to a block is not NULL. -/
theorem pointer_ne_zero (low : 64 ≤ lo) (packed : Packed 24 lo hi (b :: blocks)) (isBase : p.toNat = b.base) : p ≠ 0 := by
  rintro rfl
  have inside := packed.inside b List.mem_cons_self
  have zero : (0 : U64).toNat = 0 := rfl
  omega

/-- None of the blocks is free and large enough. -/
def NoneFits (size : Nat) (blocks : List Block) : Prop := ∀ b ∈ blocks, b.free = true → b.size < size

/-- `find_free_block` ends, at the first free block that is large enough. -/
theorem findFreeBlock_spec {fuel : Nat} (size : U64) (low : 64 ≤ lo) (high : hi < 2 ^ 64) (segment : Chained h.mem head blocks 0)
    (packed : Packed 24 lo hi blocks) (more : blocks.length < fuel) :
    (h.findFreeBlock size fuel head = some 0 ∧ NoneFits size.toNat blocks) ∨ ∃ pre b post p, blocks = pre ++ b :: post ∧
      h.findFreeBlock size fuel head = some p ∧ p ≠ 0 ∧ p.toNat = b.base ∧ b.free = true ∧ size.toNat ≤ b.size ∧
      NoneFits size.toNat pre := by
  induction blocks generalizing head fuel with
  | nil =>
    obtain ⟨fuel, rfl⟩ := Nat.exists_eq_succ_of_ne_zero (Nat.ne_zero_of_lt more)
    exact .inl ⟨if_pos segment, nofun⟩
  | cons b rest ih =>
    obtain ⟨fuel, rfl⟩ := Nat.exists_eq_succ_of_ne_zero (Nat.ne_zero_of_lt more)
    obtain ⟨isHead, isSize, flag, behind⟩ := segment
    have inside := packed.inside b List.mem_cons_self
    simp only [Block.stop] at inside
    have notNull := pointer_ne_zero low packed isHead
    obtain ⟨sizeField, freeField, nextField⟩ := header_fields (p := head) (by omega) h
    have test : h.free head = true ∧ size ≤ h.size head ↔ b.free = true ∧ size.toNat ≤ b.size := by
      rw [sizeField, freeField, isHead, flag, BitVec.le_def, isSize]
    rw [findFreeBlock, if_neg notNull]
    by_cases fits : b.free = true ∧ size.toNat ≤ b.size
    · rw [if_pos (test.mpr fits)]
      exact .inr ⟨[], b, rest, head, rfl, rfl, notNull, isHead, fits.1, fits.2, nofun⟩
    · rw [if_neg (fun passed => fits (test.mp passed)), nextField, isHead]
      have skipped : ∀ {others}, NoneFits size.toNat others → NoneFits size.toNat (b :: others) := by
        intro others small c member isFree
        rcases List.mem_cons.mp member with rfl | later
        · by_contra large
          exact fits ⟨isFree, Nat.le_of_not_lt large⟩
        · exact small c later isFree
      rcases ih behind packed.tail (Nat.lt_of_succ_lt_succ more) with ⟨missing, small⟩ | ⟨pre, c, post, p, rfl, found, some, isBase, isFree, large, small⟩
      · exact .inl ⟨missing, skipped small⟩
      · exact .inr ⟨b :: pre, c, post, p, rfl, found, some, isBase, isFree, large, skipped small⟩

/-- Whether the loop of `kfree` joins two blocks. -/
theorem joins_iff {a : Block} {next : U64} (high : hi < 2 ^ 64) (packed : Packed 24 lo hi (a :: b :: blocks)) (isHead : p.toNat = a.base)
    (isSize : size.toNat = a.size) (isNext : next.toNat = b.base) : p + SIZEOF_HEADER + size = next ↔ a.stop 24 = b.base := by
  have inside := packed.inside a List.mem_cons_self
  simp only [Block.stop] at *
  have header : SIZEOF_HEADER.toNat = 24 := rfl
  have first : (p + SIZEOF_HEADER).toNat = p.toNat + 24 := by rw [add_toNat (by rw [header]; omega), header]
  rw [← BitVec.toNat_inj, add_toNat (by rw [first]; omega), first, isHead, isSize, isNext]

/-- `kfree` joins blocks exactly as `merge` does, and ends. -/
theorem coalesce_spec {fuel : Nat} (low : 64 ≤ lo) (high : hi < 2 ^ 64) (segment : Chained h.mem head blocks 0)
    (packed : Packed 24 lo hi blocks) (more : blocks.length < fuel) :
    ∃ mem', coalesce fuel h head = some { h with mem := mem' } ∧ Chained mem' head (merge 24 blocks) 0 ∧
      ∀ a, (∀ b ∈ blocks, a < b.base ∨ b.base + 24 ≤ a) → mem' a = h.mem a := by
  induction blocks using merge.induct 24 generalizing head fuel h with
  | case1 =>
    obtain ⟨fuel, rfl⟩ := Nat.exists_eq_succ_of_ne_zero (Nat.ne_zero_of_lt more)
    rw [merge]
    exact ⟨h.mem, if_pos segment, segment, fun _ _ => rfl⟩
  | case2 b =>
    obtain ⟨fuel, rfl⟩ : ∃ n, fuel = n + 2 := ⟨fuel - 2, by simp only [List.length_cons, List.length_nil] at more; omega⟩
    obtain ⟨isHead, isSize, flag, isLast⟩ := segment
    have inside := packed.inside b List.mem_cons_self
    simp only [Block.stop] at inside
    obtain ⟨_, _, nextField⟩ := header_fields (p := head) (by omega) h
    have isNext : h.next head = 0 := by
      rw [nextField, isHead]
      exact isLast
    rw [merge, coalesce, if_neg (pointer_ne_zero low packed isHead), isNext, if_neg (by simp), coalesce, if_pos rfl]
    exact ⟨h.mem, rfl, ⟨isHead, isSize, flag, isLast⟩, fun _ _ => rfl⟩
  | case3 a b rest joins ih =>
    obtain ⟨fuel, rfl⟩ := Nat.exists_eq_succ_of_ne_zero (Nat.ne_zero_of_lt more)
    obtain ⟨isHead, isSize, flag, isNext, isSizeB, flagB, behind⟩ := segment
    have inside := packed.inside a List.mem_cons_self
    have insideB := packed.inside b (by simp)
    have adjacent := joins.2.2
    simp only [Block.stop] at inside insideB adjacent
    obtain ⟨sizeField, freeField, nextField⟩ := header_fields (p := head) (by omega) h
    rw [isHead] at sizeField freeField nextField
    rw [← nextField] at isNext
    obtain ⟨sizeFieldB, freeFieldB, nextFieldB⟩ := header_fields (p := h.next head) (by omega) h
    rw [isNext] at sizeFieldB freeFieldB nextFieldB
    have passed : h.free head = true ∧ h.next head ≠ 0 ∧ h.free (h.next head) = true ∧
        head + SIZEOF_HEADER + h.size head = h.next head := by
      refine ⟨by rw [freeField, flag, joins.1], pointer_ne_zero low packed.tail isNext, by rw [freeFieldB, flagB, joins.2.1], ?_⟩
      exact (joins_iff high packed isHead (by rw [sizeField, isSize]) isNext).mpr joins.2.2
    rw [merge, if_pos joins, coalesce, if_neg (pointer_ne_zero low packed isHead), if_pos passed]
    -- The two stores to the first header.
    have sum : (h.size head + (SIZEOF_HEADER + h.size (h.next head))).toNat = a.size + (24 + b.size) := by
      have header : SIZEOF_HEADER.toNat = 24 := rfl
      have later : (SIZEOF_HEADER + h.size (h.next head)).toNat = 24 + b.size := by
        rw [add_toNat (by rw [header, sizeFieldB]; omega), header, sizeFieldB, isSizeB]
      rw [add_toNat (by rw [later, sizeField]; omega), later, sizeField, isSize]
    generalize h.size head + (SIZEOF_HEADER + h.size (h.next head)) = total at *
    have grown : h.setSize head total = { h with mem := Function.update h.mem a.base total } := by rw [← isHead]; rfl
    have nextKept : (h.setSize head total).next head = h.next head := by
      rw [(header_fields (p := head) (by omega) _).2.2, grown, isHead, nextField]
      exact Function.update_of_ne (by omega) ..
    have nextKeptB : (h.setSize head total).next (h.next head) = h.mem (b.base + 16) := by
      rw [(header_fields (p := h.next head) (by omega) _).2.2, grown, isNext]
      exact Function.update_of_ne (by omega) ..
    have linked : (h.setSize head total).setNext head (h.mem (b.base + 16)) =
        { h with mem := Function.update (Function.update h.mem a.base total) (a.base + 16) (h.mem (b.base + 16)) } := by
      have sixteen : (head + 16).toNat = a.base + 16 := by
        rw [add_toNat (by rw [sixteen_toNat]; omega), sixteen_toNat, isHead]
      rw [grown, Kheap.setNext, Kheap.store, sixteen]
    dsimp only
    rw [nextKept, nextKeptB, linked]
    have elsewhere : ∀ x, x < a.base ∨ a.base + 24 ≤ x →
        Function.update (Function.update h.mem a.base total) (a.base + 16) (h.mem (b.base + 16)) x = h.mem x := by
      intro x outside
      rw [Function.update_of_ne (by omega), Function.update_of_ne (by omega)]
    have fromA := (List.pairwise_cons.mp packed.apart).1
    have behind' : Chained (Function.update (Function.update h.mem a.base total) (a.base + 16) (h.mem (b.base + 16)))
        (h.mem (b.base + 16)) rest 0 := chained_congr behind fun c member x low' high' => by
        refine elsewhere x ?_
        have apart := fromA c (List.mem_cons_of_mem _ member)
        simp only [Apart, Block.stop] at apart
        omega
    have joined : Packed 24 lo hi (⟨a.base, a.size + (24 + b.size), true⟩ :: rest) := join_packed (by decide) packed joins.2.2 true
    have segment' : Chained (Function.update (Function.update h.mem a.base total) (a.base + 16) (h.mem (b.base + 16))) head
        (⟨a.base, a.size + (24 + b.size), true⟩ :: rest) 0 := by
      refine ⟨isHead, ?_, ?_, ?_⟩ <;> dsimp only
      · rw [Function.update_of_ne (by omega), Function.update_self]
        exact sum
      · rw [Function.update_of_ne (by omega), Function.update_of_ne (by omega), flag, joins.1]
      · rw [Function.update_self]
        exact behind'
    have fewer : (⟨a.base, a.size + (24 + b.size), true⟩ :: rest : List Block).length < fuel := by
      simp only [List.length_cons] at more ⊢
      omega
    obtain ⟨mem', ran, merged, kept⟩ := ih (h := { h with
      mem := Function.update (Function.update h.mem a.base total) (a.base + 16) (h.mem (b.base + 16)) }) segment' joined fewer
    refine ⟨mem', ran, merged, fun x outside => ?_⟩
    have outsideA := outside a List.mem_cons_self
    refine (kept x fun c member => ?_).trans (elsewhere x outsideA)
    rcases List.mem_cons.mp member with rfl | old
    · exact outsideA
    · exact outside c (by simp [old])
  | case4 a b rest keeps ih =>
    obtain ⟨fuel, rfl⟩ := Nat.exists_eq_succ_of_ne_zero (Nat.ne_zero_of_lt more)
    obtain ⟨isHead, isSize, flag, isNext, behind⟩ := segment
    have inside := packed.inside a List.mem_cons_self
    have insideB := packed.inside b (by simp)
    simp only [Block.stop] at inside insideB
    obtain ⟨sizeField, freeField, nextField⟩ := header_fields (p := head) (by omega) h
    rw [isHead] at sizeField freeField nextField
    rw [← nextField] at isNext
    obtain ⟨_, freeFieldB, _⟩ := header_fields (p := h.next head) (by omega) h
    rw [isNext, behind.2.1] at freeFieldB
    have refused : ¬ (h.free head = true ∧ h.next head ≠ 0 ∧ h.free (h.next head) = true ∧
        head + SIZEOF_HEADER + h.size head = h.next head) := by
      rintro ⟨freeA, _, freeB, adjacent⟩
      refine keeps ⟨?_, ?_, (joins_iff high packed isHead (by rw [sizeField, isSize]) isNext).mp adjacent⟩
      · rw [← flag, ← freeField, freeA]
      · rw [← freeFieldB, freeB]
    rw [merge, if_neg keeps, coalesce, if_neg (pointer_ne_zero low packed isHead), if_neg refused]
    have segment : Chained h.mem (h.next head) (b :: rest) 0 := by
      exact ⟨isNext, behind⟩
    obtain ⟨mem', ran, segment', elsewhere⟩ := ih segment packed.tail (Nat.lt_of_succ_lt_succ more)
    have fromA := (List.pairwise_cons.mp packed.apart).1
    have kept : ∀ x, a.base ≤ x → x < a.base + 24 → mem' x = h.mem x := by
      intro x low' high'
      refine elsewhere x fun c member => ?_
      have apart := fromA c member
      simp only [Apart, Block.stop] at apart
      omega
    refine ⟨mem', ran, ⟨isHead, ?_, ?_, ?_⟩, fun x outside => elsewhere x fun c member => outside c (List.mem_cons_of_mem _ member)⟩
    · rw [kept _ (by omega) (by omega)]
      exact isSize
    · rw [kept _ (by omega) (by omega)]
      exact flag
    · rw [kept _ (by omega) (by omega), ← nextField]
      exact segment'

end HobbyKernel.KheapProofs
