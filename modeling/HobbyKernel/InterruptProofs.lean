import HobbyKernel.Core.Interrupts
import HobbyKernel.TaskInvariant
import HobbyKernel.StackWords

/-! What the processor makes of the descriptor tables. Reading the fields of a
packed structure back is a matter of bits; what they say together is where an
interrupt goes, on which stack, and which gates ring 3 may use. -/
namespace HobbyKernel.InterruptProofs
open Cpu StackWords PageWrites

variable {m n : Nat} {mask : BitVec m} {idt : Idt} {h : Handlers} {gdt : Gdt} {tss : U64} {vector : Byte}
  {software : Bool} {cpl : BitVec 2} {p : Processor}

section Fields

/-- A masked shift is a field. -/
theorem field_of_shift (w : BitVec m) (k : Nat) (fits : n ≤ m) (isMask : mask = BitVec.ofNat m (2 ^ n - 1)) :
    ((w >>> k) &&& mask).setWidth n = w.extractLsb' k n := by
  subst isMask
  apply BitVec.eq_of_getLsbD_eq
  intro i inside
  simp [inside, BitVec.getLsbD_ofNat, Nat.testBit_two_pow_sub_one, Nat.lt_of_lt_of_le inside fits]

theorem field_of_mask (w : BitVec m) (fits : n ≤ m) (isMask : mask = BitVec.ofNat m (2 ^ n - 1)) :
    (w &&& mask).setWidth n = w.extractLsb' 0 n := by
  subst isMask
  apply BitVec.eq_of_getLsbD_eq
  intro i inside
  simp [inside, BitVec.getLsbD_ofNat, Nat.testBit_two_pow_sub_one, Nat.lt_of_lt_of_le inside fits]

/-- The fields of a gate are where the processor looks for them. -/
theorem gate_word (e : IdtEntry) : gate e.word =
    ⟨e.offsetHigh ++ e.offsetMid ++ e.offsetLow, e.selector, e.ist.extractLsb' 0 3, e.typeAttr.extractLsb' 0 4,
      e.typeAttr.extractLsb' 4 1 = 0, e.typeAttr.extractLsb' 5 2, e.typeAttr.extractLsb' 7 1 = 1⟩ := by
  simp only [gate, IdtEntry.word, Gate.mk.injEq]
  simp (disch := omega) only [BitVec.extractLsb'_append_eq_of_le, BitVec.extractLsb'_append_eq_of_add_le]
  simp

theorem descriptor_word (e : GdtEntry) : descriptor e.word =
    ⟨e.baseHigh ++ e.baseMid ++ e.baseLow, e.granularity.extractLsb' 0 4 ++ e.limitLow, e.access.extractLsb' 0 4,
      e.access.extractLsb' 4 1 = 0, e.access.extractLsb' 5 2, e.access.extractLsb' 7 1 = 1,
      e.granularity.extractLsb' 5 1 = 1, e.granularity.extractLsb' 6 1 = 1⟩ := by
  simp only [descriptor, GdtEntry.word, Descriptor.mk.injEq]
  simp (disch := omega) only [BitVec.extractLsb'_append_eq_of_le, BitVec.extractLsb'_append_eq_of_add_le]
  simp

/-- `idt_dump` prints the offset that the processor uses. -/
theorem gate_offset (e : IdtEntry) : (gate e.word).offset = idtEntryOffset e := by
  rw [gate_word, idtEntryOffset]
  apply BitVec.eq_of_getLsbD_eq
  intro i inside
  simp only [BitVec.getLsbD_append, BitVec.getLsbD_or, BitVec.getLsbD_shiftLeft, BitVec.getLsbD_setWidth]
  rcases (by omega : i < 16 ∨ (16 ≤ i ∧ i < 32) ∨ 32 ≤ i) with low | ⟨above, mid⟩ | high
  · simp [low, inside, show i < 32 by omega]
  · simp [mid, inside, show ¬ i < 16 by omega, show i - 16 < 16 by omega, show i - 16 < 64 by omega,
      BitVec.getLsbD_of_ge e.offsetLow i above]
  · simp [inside, show ¬ i < 16 by omega, show ¬ i < 32 by omega, show ¬ i - 16 < 16 by omega, show i - 16 - 16 = i - 32 by omega,
      show i - 32 < 64 by omega, BitVec.getLsbD_of_ge e.offsetLow i (by omega), BitVec.getLsbD_of_ge e.offsetMid (i - 16) (by omega)]

/-- The pieces of an address make the address. -/
theorem pieces_of_address (a : U64) : a.extractLsb' 32 32 ++ a.extractLsb' 16 16 ++ a.extractLsb' 0 16 = a :=
  (congrArg (· ++ _) (BitVec.extractLsb'_append_extractLsb'_eq_extractLsb' rfl)).trans BitVec.extractLsb'_append_extractLsb'

/-- The processor reads from a gate what `idt_set_gate` was given. -/
theorem gate_idtGate (handler : U64) (selector : U16) (typeAttr : Byte) : gate (idtGate handler selector typeAttr).word =
    ⟨handler, selector, 0, typeAttr.extractLsb' 0 4, typeAttr.extractLsb' 4 1 = 0, typeAttr.extractLsb' 5 2,
      typeAttr.extractLsb' 7 1 = 1⟩ := by
  have low : (handler &&& 0xFFFF).setWidth 16 = handler.extractLsb' 0 16 := field_of_mask handler (by decide) rfl
  have mid : ((handler >>> 16) &&& 0xFFFF).setWidth 16 = handler.extractLsb' 16 16 := field_of_shift handler 16 (by decide) rfl
  have high : ((handler >>> 32) &&& 0xFFFFFFFF).setWidth 32 = handler.extractLsb' 32 32 :=
    field_of_shift handler 32 (by decide) rfl
  rw [gate_word, idtGate]
  dsimp only
  rw [low, mid, high, pieces_of_address]
  rfl

end Fields

section Tables

/-- A loop of `idt_set_gate` over the first vectors. -/
theorem setGates (idt : Idt) (isr : Nat → U64) (selector : U16) (typeAttr : Byte) (few : n ≤ 256) (vector : Byte) :
    (List.range n).foldl (fun idt i => idtSetGate idt (BitVec.ofNat 8 i) (isr i) selector typeAttr) idt vector =
      if vector.toNat < n then idtGate (isr vector.toNat) selector typeAttr else idt vector := by
  induction n with
  | zero => rfl
  | succ n ih =>
    have isVector : vector = BitVec.ofNat 8 n ↔ vector.toNat = n := by
      rw [← BitVec.toNat_inj, BitVec.toNat_ofNat, Nat.mod_eq_of_lt (by omega)]
    rw [List.range_succ, List.foldl_append, List.foldl_cons, List.foldl_nil, idtSetGate, Function.update_apply]
    by_cases last : vector.toNat = n
    · rw [if_pos (isVector.mpr last), last, if_pos (Nat.lt_succ_self n)]
    · rw [if_neg (fun same => last (isVector.mp same)), ih (by omega)]
      exact if_congr (by omega) rfl rfl

/-- The handler of a vector, and what `idt_init` says about its gate. -/
def gateOf (h : Handlers) (vector : Byte) : Option (U64 × Byte) :=
  if vector.toNat < 32 then some (h.isr vector.toNat, IDT_INTERRUPT_GATE)
  else if vector = PIC_IRQ0_VECTOR then some (h.timerIsr, IDT_INTERRUPT_GATE)
  else if vector = SYSCALL_VECTOR_LOCAL then some (h.syscallEntryAsm, IDT_INTERRUPT_GATE_USER)
  else none

/-- Only the gate of the system call is open to ring 3. -/
theorem gateOf_privilege {handler : U64} {typeAttr : Byte} (found : gateOf h vector = some (handler, typeAttr)) :
    (typeAttr = IDT_INTERRUPT_GATE ∧ vector ≠ SYSCALL_VECTOR_LOCAL) ∨
      (typeAttr = IDT_INTERRUPT_GATE_USER ∧ vector = SYSCALL_VECTOR_LOCAL) := by
  unfold gateOf at found
  split at found
  · next exception =>
    cases found
    refine .inl ⟨rfl, ?_⟩
    rintro rfl
    exact absurd exception (by decide)
  · split at found
    · next isTimer =>
      cases found
      exact .inl ⟨rfl, by rw [isTimer]; decide⟩
    · split at found
      · next isCall =>
        cases found
        exact .inr ⟨rfl, isCall⟩
      · cases found

theorem idtInit_gate (h : Handlers) (selector : U16) (vector : Byte) : idtInit emptyIdt h selector vector =
    match gateOf h vector with
    | some (handler, typeAttr) => idtGate handler selector typeAttr
    | none => emptyIdt vector := by
  rw [gateOf, idtInit, idtSetGate, idtSetGate, Function.update_apply, Function.update_apply, setGates _ _ _ _ (by decide)]
  by_cases isTimer : vector = PIC_IRQ0_VECTOR
  · subst isTimer
    rfl
  · by_cases isCall : vector = SYSCALL_VECTOR_LOCAL
    · subst isCall
      rfl
    · simp only [if_neg isTimer, if_neg isCall]
      split <;> rfl

/-- The words that the selectors of the kernel select. -/
theorem selected_words (gdt : Gdt) (tss : U64) :
    selected (gdtInit gdt tss) GDT_KCODE_SEL = some 0x00AF9A000000FFFF ∧
      selected (gdtInit gdt tss) KERNEL_DS = some 0x00CF92000000FFFF ∧
      selected (gdtInit gdt tss) USER_DATA = some 0x00CFF2000000FFFF ∧
      selected (gdtInit gdt tss) (USER_CS.setWidth 16) = some 0x00AFFA000000FFFF := ⟨rfl, rfl, rfl, rfl⟩

/-- Code of ring 0, data of ring 0, data of ring 3, code of ring 3. -/
theorem descriptors : descriptor 0x00AF9A000000FFFF = ⟨0, 0xFFFFF, 0xA, false, 0, true, true, false⟩ ∧
    descriptor 0x00CF92000000FFFF = ⟨0, 0xFFFFF, 0x2, false, 0, true, false, true⟩ ∧
    descriptor 0x00CFF2000000FFFF = ⟨0, 0xFFFFF, 0x2, false, 3, true, false, true⟩ ∧
    descriptor 0x00AFFA000000FFFF = ⟨0, 0xFFFFF, 0xA, false, 3, true, true, false⟩ := by
  decide

theorem positive_level : (0 : BitVec 2) < cpl ↔ cpl ≠ 0 := by
  rw [BitVec.lt_def, ne_eq, ← BitVec.toNat_inj]
  exact Nat.pos_iff_ne_zero

/-- An interrupt through a gate of the kernel, where the gate admits it. -/
theorem deliver_gate {handler : U64} {typeAttr : Byte} (isGate : idt vector = idtGate handler GDT_KCODE_SEL typeAttr)
    (isType : typeAttr.extractLsb' 0 4 = 0xE) (isSystem : typeAttr.extractLsb' 4 1 = 0) (isPresent : typeAttr.extractLsb' 7 1 = 1) :
    deliver (gdtInit gdt tss) idt vector software cpl =
      if software ∧ typeAttr.extractLsb' 5 2 < cpl then none
      else some ⟨handler, GDT_KCODE_SEL, if cpl = 0 then .current else .ofTss, true⟩ := by
  simp only [deliver, isGate, gate_idtGate, isType, isSystem, isPresent, (selected_words gdt tss).1, descriptors.1]
  by_cases barred : software ∧ typeAttr.extractLsb' 5 2 < cpl
  · simp [barred]
  · simp only [barred]
    by_cases inKernel : cpl = 0
    · subst inKernel
      rfl
    · simp [Descriptor.isCode, Descriptor.conforming]
      exact ⟨rfl, (if_pos (positive_level.mpr inKernel)).trans (if_neg inKernel).symm⟩

/-- Without a handler there is no gate. -/
theorem deliver_empty (isEmpty : idt vector = emptyIdt vector) : deliver gdt idt vector software cpl = none := by
  have noType : ¬ ((gate (emptyIdt vector).word).type = 0xE ∨ (gate (emptyIdt vector).word).type = 0xF) := by
    show ¬ ((gate (IdtEntry.word ⟨0, 0, 0, 0, 0, 0, 0⟩)).type = 0xE ∨ (gate (IdtEntry.word ⟨0, 0, 0, 0, 0, 0, 0⟩)).type = 0xF)
    decide
  rw [deliver, isEmpty]
  exact if_pos fun gates => noType gates.2

/-- The handler of a vector. -/
def handlerOf (h : Handlers) (vector : Byte) : Option U64 := (gateOf h vector).map Prod.fst

/-- Where an interrupt goes, if it goes anywhere. -/
def expected (h : Handlers) (vector : Byte) (software : Bool) (cpl : BitVec 2) : Option Delivery :=
  if software ∧ cpl ≠ 0 ∧ vector ≠ SYSCALL_VECTOR_LOCAL then none
  else (handlerOf h vector).map fun rip => ⟨rip, GDT_KCODE_SEL, if cpl = 0 then .current else .ofTss, true⟩

theorem deliver_handlers (gdt : Gdt) (tss : U64) (h : Handlers) (vector : Byte) (software : Bool) (cpl : BitVec 2) :
    deliver (gdtInit gdt tss) (idtInit emptyIdt h GDT_KCODE_SEL) vector software cpl = expected h vector software cpl := by
  have isGate := idtInit_gate h GDT_KCODE_SEL vector
  rw [expected, handlerOf]
  cases found : gateOf h vector with
  | none =>
    rw [found] at isGate
    rw [deliver_empty isGate, Option.map_none, Option.map_none, ite_self]
  | some out =>
    obtain ⟨handler, typeAttr⟩ := out
    rw [found] at isGate
    rcases gateOf_privilege found with ⟨rfl, other⟩ | ⟨rfl, isCall⟩
    · rw [deliver_gate isGate (by decide) (by decide) (by decide)]
      have ofKernel : IDT_INTERRUPT_GATE.extractLsb' 5 2 < cpl ↔ cpl ≠ 0 := positive_level
      exact if_congr (and_congr_right fun _ => by simp only [ofKernel, other, ne_eq, not_false_eq_true, and_true]) rfl rfl
    · have open_ : ¬ (software = true ∧ IDT_INTERRUPT_GATE_USER.extractLsb' 5 2 < cpl) := by
        rintro ⟨_, above⟩
        have top : (IDT_INTERRUPT_GATE_USER.extractLsb' 5 2).toNat = 3 := rfl
        rw [BitVec.lt_def, top] at above
        have := cpl.isLt
        omega
      have admitted : ¬ (software = true ∧ cpl ≠ 0 ∧ vector ≠ SYSCALL_VECTOR_LOCAL) := fun barred => barred.2.2 isCall
      rw [deliver_gate isGate (by decide) (by decide) (by decide), if_neg open_, if_neg admitted]
      rfl

/-- A structure is in memory at an address. -/
def InMemoryAt (mem : U64 → Byte) (a : U64) (bytes : List Byte) : Prop :=
  ∀ i < bytes.length, bytes[i]? = some (mem (a + BitVec.ofNat 64 i))

/-- The bytes of a word make the word. -/
theorem bytes_of_word (w : U64) : w.extractLsb' 56 8 ++ w.extractLsb' 48 8 ++ w.extractLsb' 40 8 ++ w.extractLsb' 32 8 ++
    w.extractLsb' 24 8 ++ w.extractLsb' 16 8 ++ w.extractLsb' 8 8 ++ w.extractLsb' 0 8 = w := by
  simp (disch := rfl) only [BitVec.extractLsb'_append_extractLsb'_eq_extractLsb']
  exact BitVec.extractLsb'_eq_self

theorem wordAt_bytes {mem : U64 → Byte} {a w : U64} {before after : List Byte}
    (held : InMemoryAt mem a (before ++ leBytes 8 w ++ after)) : wordAt mem (a + BitVec.ofNat 64 before.length) = w := by
  have byte : ∀ k < 8, mem (a + BitVec.ofNat 64 before.length + BitVec.ofNat 64 k) = w.extractLsb' (8 * k) 8 := by
    intro k few
    have here := held (before.length + k) (by simp [leBytes]; omega)
    rw [List.append_assoc, List.getElem?_append_right (Nat.le_add_right ..), Nat.add_sub_cancel_left,
      List.getElem?_append_left (by simp [leBytes, few]), leBytes, List.getElem?_map, List.getElem?_range few, Option.map_some,
      Option.some.injEq, BitVec.ofNat_add, ← BitVec.add_assoc] at here
    exact here.symm
  have first := byte 0 (by decide)
  rw [BitVec.add_zero] at first
  rw [← bytes_of_word w, wordAt, first]
  exact congrArg₂ _ (congrArg₂ _ (congrArg₂ _ (congrArg₂ _ (congrArg₂ _ (congrArg₂ _ (congrArg₂ _ (byte 7 (by decide))
    (byte 6 (by decide))) (byte 5 (by decide))) (byte 4 (by decide))) (byte 3 (by decide))) (byte 2 (by decide)))
    (byte 1 (by decide))) rfl

/-- The lower half of the entry of the task state segment. -/
def tssLow (tss : U64) : GdtEntry :=
  ⟨103, tss.extractLsb' 0 16, tss.extractLsb' 16 8, 0x89, 0, tss.extractLsb' 24 8⟩

/-- Both halves of that entry. -/
theorem selected_tss (gdt : Gdt) (tss : U64) :
    selected (gdtInit gdt tss) GDT_TSS_SEL = some (tssLow tss).word ∧
      selected (gdtInit gdt tss) (GDT_TSS_SEL + 8) = some ((0 : U32) ++ tss.extractLsb' 32 32) := by
  have low : (tss &&& 0xFFFF).setWidth 16 = tss.extractLsb' 0 16 := field_of_mask tss (by decide) rfl
  have mid : ((tss >>> 16) &&& 0xFF).setWidth 8 = tss.extractLsb' 16 8 := field_of_shift tss 16 (by decide) rfl
  have high : ((tss >>> 24) &&& 0xFF).setWidth 8 = tss.extractLsb' 24 8 := field_of_shift tss 24 (by decide) rfl
  have upper : ((tss >>> 32) &&& 0xFFFFFFFF).setWidth 32 = tss.extractLsb' 32 32 := field_of_shift tss 32 (by decide) rfl
  rw [tssLow, ← low, ← mid, ← high, ← upper]
  exact ⟨rfl, rfl⟩

/-- The base of that entry. -/
theorem base_of_tss (tss : U64) :
    ((0 : U32) ++ tss.extractLsb' 32 32).setWidth 32 ++ (descriptor (tssLow tss).word).base = tss := by
  have lower : tss.extractLsb' 24 8 ++ tss.extractLsb' 16 8 ++ tss.extractLsb' 0 16 = tss.extractLsb' 0 32 :=
    (congrArg (· ++ _) (BitVec.extractLsb'_append_extractLsb'_eq_extractLsb' rfl)).trans
      (BitVec.extractLsb'_append_extractLsb'_eq_extractLsb' rfl)
  have isBase : (descriptor (tssLow tss).word).base = tss.extractLsb' 0 32 := by
    rw [← lower, descriptor_word]
    rfl
  rw [isBase, BitVec.setWidth_append_eq_right]
  exact BitVec.extractLsb'_append_extractLsb'

/-- The processor finds the stack that was stored last. -/
theorem rsp0_stored {mem : U64 → Byte} {t : Tss} (gdt : Gdt) (held : InMemoryAt mem tss t.bytes) :
    rsp0 (gdtInit gdt tss) GDT_TSS_SEL mem = some t.rsp0 := by
  obtain ⟨low, high⟩ := selected_tss gdt tss
  have stored : wordAt mem (tss + 4) = t.rsp0 := by
    rw [Tss.bytes, List.append_assoc] at held
    have found := wordAt_bytes held
    rwa [List.length_replicate] at found
  have isTss : (descriptor (tssLow tss).word).system ∧ (descriptor (tssLow tss).word).type = 0x9 ∧
      (descriptor (tssLow tss).word).present := by
    have ⟨isSystem, isType, isPresent⟩ : (0x89 : Byte).extractLsb' 4 1 = 0 ∧ (0x89 : Byte).extractLsb' 0 4 = 0x9 ∧
        (0x89 : Byte).extractLsb' 7 1 = 1 := by decide
    rw [descriptor_word]
    exact ⟨decide_eq_true isSystem, isType, decide_eq_true isPresent⟩
  have reaches : ¬ (descriptor (tssLow tss).word).limit < 11 := by
    rw [descriptor_word]
    dsimp only [tssLow]
    decide
  rw [rsp0, low, high]
  dsimp only
  rw [base_of_tss, stored]
  refine if_neg ?_
  rintro (other | short)
  · exact other isTss
  · exact reaches short

/-- `iretq` and the moves to the data segments go through. -/
theorem selectors_load (gdt : Gdt) (tss : U64) :
    iretLevel (gdtInit gdt tss) (USER_CS.setWidth 16) (USER_DS.setWidth 16) = some 3 ∧
      loadsData (gdtInit gdt tss) KERNEL_DS 0 = true ∧ loadsData (gdtInit gdt tss) USER_DATA 0 = true := by
  obtain ⟨_, kernelData, userData, userCode⟩ := selected_words gdt tss
  have stack : selected (gdtInit gdt tss) (USER_DS.setWidth 16) = some 0x00CFF2000000FFFF := rfl
  refine ⟨?_, ?_, ?_⟩
  · rw [iretLevel, userCode, stack]
    decide
  · rw [loadsData, kernelData]
    decide
  · rw [loadsData, userData]
    decide

end Tables

section Frames

/-- The stack that the processor pushes on, from ring 0 or from ring 3. -/
def stackStart (p : Processor) (d : Delivery) : U64 :=
  (match d.stack with
    | .ofTss => p.kernel.rsp0
    | _ => p.rsp) &&& ~~~15

/-- The words that every interrupt pushes. -/
def interrupted (p : Processor) : List U64 := [p.ss, p.rsp, p.rflags, p.cs, p.rip]

/-- The error code of an exception. -/
def errorCode (n : Nat) (error : U64) : Option U64 := if pushesErrorCode (BitVec.ofNat 8 n) then some error else none

theorem interrupt_pushes (p : Processor) (d : Delivery) (error : Option U64) : p.interrupt d error =
    { pushAll { p with rsp := stackStart p d } (interrupted p ++ error.toList) with
      rip := d.rip
      cs := d.cs.setWidth 64
      rflags := p.rflags &&& ~~~(if d.masks then 0x14300 else 0x14100)
      ss := if d.stack = .ofTss then 0 else p.ss } := by
  cases error <;> rfl

/-- The frame behind the error code, where there is one. -/
theorem interrupt_words {f : Nat} {d : Delivery} (error : Option U64)
    (room : InFrame f (stackStart p d - BitVec.ofNat 64 (8 * (5 + error.toList.length))) (5 + error.toList.length)) :
    Confined f p.kernel.phys (p.interrupt d error).kernel.phys ∧
      (p.interrupt d error).kernel.phys.readWords (p.interrupt d error).rsp (5 + error.toList.length) =
        error.toList ++ [p.rip, p.cs, p.rflags, p.rsp, p.ss] := by
  have count : (interrupted p ++ error.toList).length = 5 + error.toList.length := List.length_append
  obtain ⟨shape, confined, words⟩ := pushAll_spec (p := { p with rsp := stackStart p d }) (n := 0) (interrupted p ++ error.toList) (by
    rw [count]
    exact room)
  rw [interrupt_pushes]
  have isRsp := congrArg Processor.rsp shape
  rw [count] at isRsp words
  refine ⟨confined, ?_⟩
  dsimp only at isRsp words ⊢
  rw [isRsp]
  refine words.trans ?_
  cases error <;> rfl

/-- The handlers with a second parameter are those of the exceptions with an error code. -/
theorem isrErr_agrees : ∀ n < 32, isrErr n = pushesErrorCode (BitVec.ofNat 8 n) := by decide

/-- A handler is called with the error code and what was interrupted. -/
theorem handler_arguments {f : Nat} {d : Delivery} (few : n < 32) (error : U64) (room : InFrame f (stackStart p d - 48) 6) :
    Confined f p.kernel.phys (p.interrupt d (errorCode n error)).kernel.phys ∧
      isrArguments n (p.interrupt d (errorCode n error)).kernel.phys (p.interrupt d (errorCode n error)).rsp =
        ((errorCode n error).getD 0, ⟨p.rip, p.cs, p.rflags, p.rsp, p.ss⟩) := by
  have agrees := isrErr_agrees n few
  cases coded : pushesErrorCode (BitVec.ofNat 8 n) with
  | false =>
    have noCode : errorCode n error = none := by simp [errorCode, coded]
    have higher : InFrame f (stackStart p d - 40) 5 := by
      have above := (InFrame.skip (m := 1) (n := 5) room).2
      have same : stackStart p d - 48 + BitVec.ofNat 64 (8 * 1) = stackStart p d - 40 := by
        simp only [BitVec.sub_eq_add_neg, BitVec.add_assoc]
        rfl
      rwa [same] at above
    obtain ⟨confined, words⟩ := interrupt_words (p := p) none higher
    rw [noCode, isrArguments, agrees, coded]
    refine ⟨confined, ?_⟩
    simp [Phys.readWords, BitVec.add_assoc] at words
    simp [words]
  | true =>
    have code : errorCode n error = some error := by simp [errorCode, coded]
    obtain ⟨confined, words⟩ := interrupt_words (p := p) (some error) room
    rw [code, isrArguments, agrees, coded]
    refine ⟨confined, ?_⟩
    simp [Phys.readWords, BitVec.add_assoc] at words
    simp [words]

end Frames

section Arrivals

/-- The system call enters where `int80` says that it does. -/
theorem system_call_enters (gdt : Gdt) (tss : U64) (h : Handlers) (p : Processor) :
    (deliver (gdtInit gdt tss) (idtInit emptyIdt h GDT_KCODE_SEL) SYSCALL_VECTOR_LOCAL true 3).map (fun d => p.interrupt d none) =
      some { p.int80 with rip := h.syscallEntryAsm, cs := 8, rflags := p.rflags &&& ~~~0x14300, ss := 0 } := by
  rw [deliver_handlers]
  rfl

/-- **Where interrupts go.** Whatever was in the descriptor table before, each
exception, the timer and the system call reach their handlers in ring 0, with
interrupts off and, from ring 3, on the stack that `tss_set_rsp0` stored last.
From ring 3 an `int` reaches the system call and nothing else. The selectors
that the assembly loads are good for `iretq` to ring 3 and for its data. -/
theorem interrupts_arrive {mem : U64 → Byte} {t : Tss} {stack : U64} (gdt : Gdt) (h : Handlers)
    (held : InMemoryAt mem tss (tssSetRsp0 t stack).bytes) :
    (∀ vector software cpl, deliver (gdtInit gdt tss) (idtInit emptyIdt h GDT_KCODE_SEL) vector software cpl =
      expected h vector software cpl) ∧
    rsp0 (gdtInit gdt tss) GDT_TSS_SEL mem = some stack ∧
    (∀ p : Processor, (deliver (gdtInit gdt tss) (idtInit emptyIdt h GDT_KCODE_SEL) SYSCALL_VECTOR_LOCAL true 3).map
      (fun d => p.interrupt d none) = some { p.int80 with rip := h.syscallEntryAsm, cs := 8, rflags := p.rflags &&& ~~~0x14300, ss := 0 }) ∧
    iretLevel (gdtInit gdt tss) (USER_CS.setWidth 16) (USER_DS.setWidth 16) = some 3 ∧
    loadsData (gdtInit gdt tss) KERNEL_DS 0 = true ∧ loadsData (gdtInit gdt tss) USER_DATA 0 = true :=
  ⟨deliver_handlers gdt tss h, rsp0_stored gdt held, system_call_enters gdt tss h, selectors_load gdt tss⟩

/-- A structure at the beginning of a memory. -/
theorem inMemoryAt_start {bytes : List Byte} (fits : bytes.length ≤ 2 ^ 64) :
    InMemoryAt (fun a => bytes[a.toNat]?.getD 0) 0 bytes := by
  intro i inside
  have isIndex : ((0 : U64) + BitVec.ofNat 64 i).toNat = i := by
    rw [BitVec.toNat_add, BitVec.toNat_ofNat, Nat.mod_eq_of_lt (by omega : i < 2 ^ 64)]
    exact (congrArg (· % 2 ^ 64) (Nat.zero_add i)).trans (Nat.mod_eq_of_lt (by omega))
  dsimp only
  rw [isIndex, List.getElem?_eq_getElem inside, Option.getD_some]

def sampleHandlers : Handlers := ⟨fun n => 0xFFFFFFFF80001000 + BitVec.ofNat 64 (16 * n), 0xFFFFFFFF80002000, 0xFFFFFFFF80003000⟩

/-- `int 0x80` reaches the system call from ring 3, and `int 14` does not reach the page fault handler. -/
theorem interrupts_arrive_sample :
    deliver (gdtInit (fun _ => 0) 0) (idtInit emptyIdt sampleHandlers GDT_KCODE_SEL) 0x80 true 3 =
      some ⟨0xFFFFFFFF80003000, 8, .ofTss, true⟩ ∧
    deliver (gdtInit (fun _ => 0) 0) (idtInit emptyIdt sampleHandlers GDT_KCODE_SEL) 14 true 3 = none ∧
    rsp0 (gdtInit (fun _ => 0) 0) GDT_TSS_SEL (fun a => (tssSetRsp0 ⟨0, 104⟩ 0x5000).bytes[a.toNat]?.getD 0) = some 0x5000 := by
  have held : InMemoryAt (fun a => (tssSetRsp0 ⟨0, 104⟩ 0x5000).bytes[a.toNat]?.getD 0) 0 (tssSetRsp0 ⟨0, 104⟩ 0x5000).bytes :=
    inMemoryAt_start (by simp [Tss.bytes, leBytes])
  have arrive := interrupts_arrive (fun _ => 0) sampleHandlers held
  exact ⟨(arrive.1 0x80 true 3).trans rfl, (arrive.1 14 true 3).trans rfl, arrive.2.1⟩

/-- **What the exception handlers are told.** In whatever state the processor
takes an exception, its handler begins in ring 0 with interrupts off, and gets
the error code and the interrupted `rip`, `cs`, `rflags`, `rsp` and `ss` as its
arguments, although some exceptions push one word more than others. Memory
changes in one page of the stack only. -/
theorem exceptions_reported {f : Nat} (gdt : Gdt) (tss : U64) (h : Handlers) (p : Processor) (cpl : BitVec 2) (error : U64)
    (few : n < 32) (room : InFrame f (((if cpl = 0 then p.rsp else p.kernel.rsp0) &&& ~~~15) - 48) 6) :
    ∃ q, (deliver (gdtInit gdt tss) (idtInit emptyIdt h GDT_KCODE_SEL) (BitVec.ofNat 8 n) false cpl).map
        (fun d => p.interrupt d (errorCode n error)) = some q ∧
      q.rip = h.isr n ∧ q.cs = 8 ∧ q.rflags = p.rflags &&& ~~~0x14300 ∧
      isrArguments n q.kernel.phys q.rsp = ((errorCode n error).getD 0, ⟨p.rip, p.cs, p.rflags, p.rsp, p.ss⟩) ∧
      Confined f p.kernel.phys q.kernel.phys := by
  let d : Delivery := ⟨h.isr n, GDT_KCODE_SEL, if cpl = 0 then .current else .ofTss, true⟩
  have isVector : (BitVec.ofNat 8 n).toNat = n := by
    rw [BitVec.toNat_ofNat, Nat.mod_eq_of_lt (by omega)]
  have isDelivery : expected h (BitVec.ofNat 8 n) false cpl = some d := by
    have isGate : gateOf h (BitVec.ofNat 8 n) = some (h.isr n, IDT_INTERRUPT_GATE) := by
      rw [gateOf, isVector, if_pos few]
    rw [expected, handlerOf, isGate]
    rfl
  have isStack : stackStart p d = (if cpl = 0 then p.rsp else p.kernel.rsp0) &&& ~~~15 := by
    by_cases inKernel : cpl = 0
    · simp only [stackStart, d, if_pos inKernel]
    · simp only [stackStart, d, if_neg inKernel]
  rw [← isStack] at room
  obtain ⟨confined, arguments⟩ := handler_arguments few error room
  have pushes := interrupt_pushes p d (errorCode n error)
  refine ⟨p.interrupt d (errorCode n error), ?_, congrArg Processor.rip pushes, congrArg Processor.cs pushes,
    congrArg Processor.rflags pushes, arguments, confined⟩
  rw [deliver_handlers, isDelivery]
  rfl

/-- A program in ring 3, at the top of whose kernel stack there is room. -/
def sampleProgram : Processor where
  reg := fun _ => 0
  rsp := 0x7000
  rip := 0x4000
  cs := USER_CS
  rflags := 0x202
  ss := USER_DS
  dataSegments := USER_DATA
  kernel := { TaskInvariant.bootKernel 8 with rsp0 := 0x5000 }

/-- A page fault in ring 3. -/
theorem exceptions_reported_page_fault : ∃ q,
    (deliver (gdtInit (fun _ => 0) 0) (idtInit emptyIdt sampleHandlers GDT_KCODE_SEL) 14 false 3).map
      (fun d => sampleProgram.interrupt d (errorCode 14 7)) = some q ∧
    q.rip = 0xFFFFFFFF800010E0 ∧ isrArguments 14 q.kernel.phys q.rsp = (7, ⟨0x4000, USER_CS, 0x202, 0x7000, USER_DS⟩) := by
  have room : InFrame 4 (((if (3 : BitVec 2) = 0 then sampleProgram.rsp else sampleProgram.kernel.rsp0) &&& ~~~15) - 48) 6 := by
    constructor <;> decide
  obtain ⟨q, delivered, isRip, _, _, arguments, _⟩ :=
    exceptions_reported (fun _ => 0) 0 sampleHandlers sampleProgram 3 7 (by decide : 14 < 32) room
  exact ⟨q, delivered, isRip, arguments⟩

end Arrivals

end HobbyKernel.InterruptProofs
