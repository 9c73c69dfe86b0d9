import HobbyKernel.Core.Switch
import HobbyKernel.PageWrites

/-! Words on a stack that lies in one frame. Pushing is storing downwards, so
what was pushed is read back upwards in the opposite order; what lies above is
not touched. -/
namespace HobbyKernel.StackWords
open AddressBits PageAllocProofs PageWrites

/-- The words of a frame from an address upwards. -/
structure InFrame (f : Nat) (phys : U64) (n : Nat) : Prop where
  aligned : phys.toNat % 8 = 0
  low : f * 4096 ≤ phys.toNat
  high : phys.toNat + 8 * n ≤ (f + 1) * 4096
  small : f < 2 ^ 40

variable {f : Nat} {s s' : Phys} {a b value : U64} {n m : Nat} {words more : List U64} {p : Processor}

theorem eight_toNat : (8 : U64).toNat = 8 := rfl

theorem InFrame.next (inside : InFrame f a (n + 1)) :
    frameOf a = f ∧ (a + 8).toNat = a.toNat + 8 ∧ InFrame f (a + 8) n := by
  obtain ⟨aligned, low, high, small⟩ := inside
  have sum : (a + 8).toNat = a.toNat + 8 := by
    rw [BitVec.toNat_add, eight_toNat]
    omega
  have quotient : a.toNat / 4096 = f := by omega
  exact ⟨quotient, sum, by omega, by omega, by omega, small⟩

theorem InFrame.mono (inside : InFrame f a n) (fewer : m ≤ n) : InFrame f a m :=
  ⟨inside.aligned, inside.low, Nat.le_trans (by omega) inside.high, inside.small⟩

/-- Two aligned addresses of one word are the same. -/
theorem word_unique (alignedA : a.toNat % 8 = 0) (alignedB : b.toNat % 8 = 0) (frame : frameOf a = frameOf b)
    (word : wordOf a = wordOf b) : a = b := by
  have frames : a.toNat / 4096 = b.toNat / 4096 := frame
  have words := congrArg Fin.val word
  simp only [wordOf, Fin.val_ofNat] at words
  apply BitVec.eq_of_toNat_eq
  omega

@[simp] theorem readWord_writeWord_same (s : Phys) (a value : U64) : (s.writeWord a value).readWord a = value := by
  simp [Phys.readWord, Phys.writeWord, Phys.writeEntry]

theorem readWord_writeWord_other (alignedA : a.toNat % 8 = 0) (alignedB : b.toNat % 8 = 0) (other : b ≠ a) :
    (s.writeWord a value).readWord b = s.readWord b := by
  have apart : ¬ (frameOf b = frameOf a ∧ wordOf b = wordOf a) :=
    fun same => other (word_unique alignedB alignedA same.1 same.2)
  simp [Phys.readWord, Phys.writeWord, Phys.writeEntry, apart]

/-- Words above a store are not changed by it. -/
theorem readWords_writeWord_below (value : U64) (alignedA : a.toNat % 8 = 0) (inside : InFrame f b n) (below : a.toNat < b.toNat) :
    (s.writeWord a value).readWords b n = s.readWords b n := by
  induction n generalizing b with
  | zero => rfl
  | succ n ih =>
    obtain ⟨_, sum, above⟩ := inside.next
    have other : b ≠ a := by
      rintro rfl
      omega
    rw [Phys.readWords, Phys.readWords, readWord_writeWord_other alignedA inside.aligned other, ih above (by omega)]

/-- A stack page is read back as it was when it has not been written. -/
theorem readWords_congr (inside : InFrame f a n) (same : s'.mem f = s.mem f) : s'.readWords a n = s.readWords a n := by
  induction n generalizing a with
  | zero => rfl
  | succ n ih =>
    obtain ⟨frame, _, above⟩ := inside.next
    rw [Phys.readWords, Phys.readWords, ih above, Phys.readWord, Phys.readWord, frame, same]

/-- What is stored upwards is read back. -/
theorem readWords_writeWords (words : List U64) (inside : InFrame f a words.length) :
    (s.writeWords a words).readWords a words.length = words := by
  induction words generalizing s a with
  | nil => rfl
  | cons value words ih =>
    obtain ⟨_, sum, above⟩ := inside.next
    have later : ((s.writeWord a value).writeWords (a + 8) words).readWord a = value := by
      have kept : ∀ (words : List U64) (s : Phys) (b : U64), InFrame f b words.length → a.toNat < b.toNat →
          (s.writeWords b words).readWord a = s.readWord a := by
        intro words
        induction words with
        | nil => intro s b _ _; rfl
        | cons value words ih =>
          intro s b inside' above'
          obtain ⟨_, sum', further⟩ := inside'.next
          rw [Phys.writeWords, ih _ _ further (by omega)]
          refine readWord_writeWord_other inside'.aligned inside.aligned ?_
          rintro rfl
          omega
      rw [kept words _ _ above (by omega), readWord_writeWord_same]
    rw [List.length_cons, Phys.readWords, Phys.writeWords, later, ih above]

/-- Words stored below others leave these alone. -/
theorem readWords_writeWords_below (words : List U64) (inside : InFrame f a words.length) (above : InFrame f b n)
    (below : a.toNat + 8 * words.length ≤ b.toNat) : (s.writeWords a words).readWords b n = s.readWords b n := by
  induction words generalizing s a with
  | nil => rfl
  | cons value words ih =>
    rw [List.length_cons] at below
    obtain ⟨_, sum, further⟩ := inside.next
    rw [Phys.writeWords, ih further (by omega), readWords_writeWord_below _ inside.aligned above (by omega)]

/-- Push values one after the other. -/
def pushAll (p : Processor) (values : List U64) : Processor := values.foldl Processor.pushWord p

/-- A run of pushes stores the registers as they are. -/
theorem exec_pushes (p : Processor) (regs : List Reg) : p.exec (regs.map .push) = pushAll p (regs.map p.reg) := by
  induction regs generalizing p with
  | nil => rfl
  | cons r regs ih => exact ih (p.pushWord (p.reg r))

theorem exec_append (p : Processor) (code rest : List Instr) : p.exec (code ++ rest) = (p.exec code).exec rest :=
  List.foldl_append

/-- Moving up a stack by some words stays in its frame. -/
theorem InFrame.skip (inside : InFrame f a (m + n)) :
    (a + BitVec.ofNat 64 (8 * m)).toNat = a.toNat + 8 * m ∧ InFrame f (a + BitVec.ofNat 64 (8 * m)) n := by
  obtain ⟨aligned, low, high, small⟩ := inside
  have sum : (a + BitVec.ofNat 64 (8 * m)).toNat = a.toNat + 8 * m := by
    rw [BitVec.toNat_add, BitVec.toNat_ofNat]
    omega
  exact ⟨sum, by omega, by omega, by omega, small⟩

/-- One push stores a word right below the old ones. -/
theorem pushWord_words (room : InFrame f (p.rsp - 8) (n + 1)) (value : U64) :
    (p.pushWord value).kernel.phys.readWords (p.rsp - 8) (n + 1) = value :: p.kernel.phys.readWords p.rsp n := by
  obtain ⟨_, sum, above⟩ := room.next
  have back : p.rsp - 8 + 8 = p.rsp := BitVec.sub_add_cancel ..
  rw [back] at above sum
  have kept := readWords_writeWord_below (s := p.kernel.phys) value room.aligned above (by omega)
  rw [Phys.readWords, back]
  simp only [Processor.pushWord, Processor.storeWord, readWord_writeWord_same, kept]

theorem pushWord_confined (room : InFrame f (p.rsp - 8) (n + 1)) (value : U64) :
    Confined f p.kernel.phys (p.pushWord value).kernel.phys := by
  have confined : Confined (frameOf (p.rsp - 8)) p.kernel.phys (p.kernel.phys.writeWord (p.rsp - 8) value) :=
    writeEntry_confined ..
  rwa [room.next.1] at confined

/-- Pushing changes the stack pointer and the words below it. -/
theorem pushAll_spec (values : List U64)
    (room : InFrame f (p.rsp - BitVec.ofNat 64 (8 * values.length)) (values.length + n)) :
    pushAll p values = { p with
      rsp := p.rsp - BitVec.ofNat 64 (8 * values.length)
      kernel := { p.kernel with phys := (pushAll p values).kernel.phys } } ∧
    Confined f p.kernel.phys (pushAll p values).kernel.phys ∧
    (pushAll p values).kernel.phys.readWords (p.rsp - BitVec.ofNat 64 (8 * values.length)) (values.length + n) =
      values.reverse ++ p.kernel.phys.readWords p.rsp n := by
  induction values generalizing p n with
  | nil =>
    have still : p.rsp - BitVec.ofNat 64 (8 * [].length (α := U64)) = p.rsp := by simp
    rw [still]
    refine ⟨rfl, .refl _ _, ?_⟩
    simp [pushAll]
  | cons value values ih =>
    have lower : p.rsp - BitVec.ofNat 64 (8 * (value :: values).length) =
        (p.pushWord value).rsp - BitVec.ofNat 64 (8 * values.length) := by
      rw [List.length_cons]
      show p.rsp - _ = p.rsp - 8 - _
      apply BitVec.eq_of_toNat_eq
      simp only [BitVec.toNat_sub, BitVec.toNat_ofNat, eight_toNat]
      omega
    have count : (value :: values).length + n = values.length + (n + 1) := by
      rw [List.length_cons]
      omega
    rw [lower, count] at room ⊢
    obtain ⟨shape, confined, read⟩ := ih room
    have top : InFrame f (p.rsp - 8) (n + 1) := by
      have above := room.skip.2
      rwa [BitVec.sub_add_cancel] at above
    refine ⟨?_, (pushWord_confined top value).trans confined, ?_⟩
    · exact shape
    · refine read.trans ?_
      rw [List.reverse_cons, List.append_assoc]
      exact congrArg _ (pushWord_words top value)

end HobbyKernel.StackWords
