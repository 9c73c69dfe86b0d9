import HobbyKernel.Core.Kprintf
import HobbyKernel.Lib.Numerals

/-! `kprintf` against a reference. A format is cut into pieces, each of them a
text or a value to convert, and every value is written out by what it means: a
string with its line ends, a character, a signed or a hexadecimal numeral. The
code agrees with it for every format whose arguments fit. -/
namespace HobbyKernel.KprintfProofs
open Numerals

inductive Conversion where
  | string
  | character
  | decimal (isLong : Bool)
  | hexadecimal (isLong : Bool)

inductive Piece where
  | text (bytes : List Byte)
  | value (conversion : Conversion)

/-- A directive: what follows the percent sign and the `l`. -/
def directive (isLong : Bool) (z : Byte) : Piece :=
  if z = ch 's' then .value .string
  else if z = ch 'c' then .value .character
  else if z = ch 'd' then .value (.decimal isLong)
  else if z = ch 'x' then .value (.hexadecimal isLong)
  else if z = ch '%' then .text [ch '%']
  else .text [ch '%', z]

/-- The pieces of a format. At its end a percent sign stands for itself. -/
def pieces : List Byte → List Piece
  | [] => []
  | c :: rest =>
    if c ≠ ch '%' then .text [c] :: pieces rest
    else
      match rest with
      | [] => [.text [ch '%']]
      | z :: rest =>
        if z = ch 'l' then
          match rest with
          | [] => [.text [ch '%']]
          | z :: rest => directive true z :: pieces rest
        else directive false z :: pieces rest

inductive ArgType where
  | pointer
  | int
  | long
  deriving DecidableEq

def argType : Arg → ArgType
  | .pointer _ => .pointer
  | .int _ => .int
  | .long _ => .long

def Conversion.argType : Conversion → ArgType
  | .string => .pointer
  | .character => .int
  | .decimal isLong => if isLong then .long else .int
  | .hexadecimal isLong => if isLong then .long else .int

def Piece.argType : Piece → Option ArgType
  | .text _ => none
  | .value conversion => some conversion.argType

/-- One argument of the right type for every value. -/
def Fits (format : List Piece) (args : List Arg) : Prop := args.map argType = format.filterMap Piece.argType

instance (format : List Piece) (args : List Arg) : Decidable (Fits format args) := inferInstanceAs (Decidable (_ = _))

/-- Every line ends with a carriage return and a line feed. -/
def withReturns (text : List Byte) : List Byte := text.flatMap fun c => if c = NEWLINE then [CARRIAGE_RETURN, NEWLINE] else [c]

/-- The digits 0 to 9 and a to f, and no zero in front. -/
def numeral (base n : Nat) : List Byte := (Nat.toDigits base n).map ch

def signedNumeral (i : Int) : List Byte := (if i < 0 then [ch '-'] else []) ++ numeral 10 i.natAbs

def Conversion.render : Conversion → Arg → List Byte
  | .string, .pointer s => withReturns s.bytes
  | .character, .int v => [v.setWidth 8]
  | .decimal _, .int v => signedNumeral v.toInt
  | .decimal _, .long v => signedNumeral v.toInt
  | .hexadecimal _, .int v => numeral 16 v.toNat
  | .hexadecimal _, .long v => numeral 16 v.toNat
  | _, _ => []

def render : List Piece → List Arg → List Byte
  | [], _ => []
  | .text bytes :: rest, args => bytes ++ render rest args
  | .value conversion :: rest, arg :: args => conversion.render arg ++ render rest args
  | .value _ :: _, [] => []

variable {value : U64} {base : U32} {buf : Cells} {pos : Nat} {text : List Byte}

theorem digits_digitChar {d : Nat} (small : d < 16) : digits[d]? = some (ch (Nat.digitChar d)) := by
  have all : ∀ d : Fin 16, digits[d.val]? = some (ch (Nat.digitChar d.val)) := by decide
  exact all ⟨d, small⟩

/-- A digit is no NUL and no line feed, and only zero looks like zero. -/
theorem digitChar_plain {d : Nat} (small : d < 16) : ch (Nat.digitChar d) ≠ 0 ∧ ch (Nat.digitChar d) ≠ NEWLINE ∧
    (ch (Nat.digitChar d) = ch '0' → d = 0) := by
  have all : ∀ d : Fin 16, ch (Nat.digitChar d.val) ≠ 0 ∧ ch (Nat.digitChar d.val) ≠ NEWLINE ∧
      (ch (Nat.digitChar d.val) = ch '0' → d.val = 0) := by decide
  exact all ⟨d, small⟩

theorem storeCell_inside (inside : pos < buf.length) (c : Byte) : storeCell buf pos c = some (buf.set pos (some c)) :=
  if_pos inside

/-- A stored character is the first of the cells from its position on. -/
theorem drop_stored (inside : pos < buf.length) (c : Byte) :
    (buf.set pos (some c)).drop pos = some c :: buf.drop (pos + 1) := by
  have inside' : pos < (buf.set pos (some c)).length := by rwa [List.length_set]
  rw [List.drop_eq_getElem_cons inside', List.getElem_set_self, List.drop_set_of_lt (Nat.lt_succ_self pos)]

/-- The loop writes the digits of its value below the position where it starts.
It ends because the value is used up, not because the buffer is. -/
theorem digitLoop_writes (value : U64) (buf : Cells) (large : 1 < base.toNat) (small : base.toNat ≤ 16) (fits : value.toNat < base.toNat ^ pos)
    (inside : pos < buf.length) : ∃ left buf', digitLoop base pos value buf = some (left, 0, buf') ∧
      left + (significant base.toNat value.toNat).length = pos ∧
      buf'.drop left = (significant base.toNat value.toNat).map (some ∘ ch) ++ buf.drop pos := by
  induction pos generalizing value buf with
  | zero =>
    have zero : value = 0 := BitVec.eq_of_toNat_eq (by simpa using fits)
    subst zero
    exact ⟨0, buf, rfl, by simp [significant_zero], by simp [significant_zero]⟩
  | succ pos ih =>
    by_cases zero : value = 0
    · subst zero
      exact ⟨pos + 1, buf, by simp [digitLoop], by simp [significant_zero], by simp [significant_zero]⟩
    · have wide : (base.setWidth 64).toNat = base.toNat := by
        rw [BitVec.toNat_setWidth]
        omega
      have positive : 0 < value.toNat := Nat.pos_of_ne_zero fun none => zero (BitVec.eq_of_toNat_eq none)
      have digit : digits[(value % base.setWidth 64).toNat]? = some (ch (Nat.digitChar (value.toNat % base.toNat))) := by
        rw [BitVec.toNat_umod, wide]
        exact digits_digitChar (Nat.lt_of_lt_of_le (Nat.mod_lt _ (by omega)) small)
      have quotient : (value / base.setWidth 64).toNat = value.toNat / base.toNat := by
        rw [BitVec.toNat_udiv, wide]
      have fits' : (value / base.setWidth 64).toNat < base.toNat ^ pos := by
        rw [quotient]
        exact Nat.div_lt_of_lt_mul (by rwa [Nat.pow_succ'] at fits)
      have inside' : pos < (buf.set pos (some (ch (Nat.digitChar (value.toNat % base.toNat))))).length := by
        rw [List.length_set]
        omega
      obtain ⟨left, buf', loop, length, cells⟩ := ih _ _ fits' inside'
      rw [quotient] at length cells
      refine ⟨left, buf', ?_, ?_, ?_⟩
      · rw [digitLoop, if_neg zero, digit]
        simp only [Option.bind_eq_bind, Option.bind_some, storeCell_inside (Nat.lt_of_succ_lt inside)]
        exact loop
      · rw [significant_step large positive, List.length_append, List.length_singleton, ← Nat.add_assoc, length]
      · rw [cells, drop_stored (Nat.lt_of_succ_lt inside), significant_step large positive, List.map_append, List.append_assoc]
        rfl

/-- `uint_to_str` makes the numeral of its value when the buffer has a cell for
each digit and one for the NUL. -/
theorem uintToStr_numeral (value : U64) (base : U32) (buf : Cells) (room : Nat) (large : 1 < base.toNat) (small : base.toNat ≤ 16)
    (size : buf.length = room + 2) (fits : value.toNat < base.toNat ^ (room + 1)) :
    uintToStr value base buf = some ((numeral base.toNat value.toNat).map some ++ [some 0]) := by
  have last : buf.length - 1 = room + 1 := by omega
  have inside : room + 1 < buf.length := by omega
  have ended : (buf.set (room + 1) (some 0)).drop (room + 1) = [some 0] := by
    rw [drop_stored inside, List.drop_of_length_le (by omega)]
  simp only [uintToStr, last, Option.bind_eq_bind, storeCell_inside inside, Option.bind_some]
  by_cases zero : value = 0
  · subst zero
    have inside' : room < (buf.set (room + 1) (some 0)).length := by rw [List.length_set]; omega
    have nothing : (0 : U64).toNat = 0 := rfl
    rw [if_pos rfl, storeCell_inside inside', Option.bind_some, drop_stored inside', ended, numeral, nothing, Nat.toDigits_zero]
    rfl
  · have inside' : room + 1 < (buf.set (room + 1) (some 0)).length := by rwa [List.length_set]
    obtain ⟨left, buf', loop, _, cells⟩ := digitLoop_writes value _ large small fits inside'
    have positive : value.toNat ≠ 0 := fun none => zero (BitVec.eq_of_toNat_eq none)
    rw [if_neg zero, loop, numeral, toDigits_significant (Nat.pos_of_ne_zero positive), Option.bind_some, cells, ended,
      List.map_map]

/-- A string is sent with its line ends. -/
theorem serialWriteString_text (noNul : 0#8 ∉ text) :
    serialWriteString (text.map some ++ [some 0]) = some (withReturns text) := by
  induction text with
  | nil => rfl
  | cons c text ih =>
    rw [List.mem_cons, not_or] at noNul
    have character : c ≠ 0 := Ne.symm noNul.1
    rw [List.map_cons, List.cons_append, serialWriteString, if_neg character, ih noNul.2]
    by_cases newline : c = NEWLINE
    · subst newline
      rfl
    · simp [newline, withReturns]

theorem withReturns_plain (noNewline : NEWLINE ∉ text) : withReturns text = text := by
  induction text with
  | nil => rfl
  | cons c text ih =>
    rw [List.mem_cons, not_or] at noNewline
    rw [withReturns, List.flatMap_cons, if_neg (Ne.symm noNewline.1), ← withReturns, ih noNewline.2]
    rfl

/-- A numeral is sent as it is. -/
theorem serialWriteString_numeral {b : Nat} (large : 1 < b) (small : b ≤ 16) (n : Nat) :
    serialWriteString ((numeral b n).map some ++ [some 0]) = some (numeral b n) := by
  have plain : ∀ c ∈ numeral b n, c ≠ 0 ∧ c ≠ NEWLINE := by
    intro c member
    obtain ⟨digit, inside, rfl⟩ := List.mem_map.mp member
    obtain ⟨d, below, rfl⟩ := mem_toDigits large inside
    exact ⟨(digitChar_plain (Nat.lt_of_lt_of_le below small)).1, (digitChar_plain (Nat.lt_of_lt_of_le below small)).2.1⟩
  rw [serialWriteString_text fun zero => (plain 0 zero).1 rfl, withReturns_plain fun newline => (plain NEWLINE newline).2 rfl]

/-- The two's complement of a negative number is its absolute value, also for the
least number. -/
theorem toNat_neg_of_negative (negative : value.toInt < 0) : (-value).toNat = value.toInt.natAbs := by
  rw [BitVec.toNat_neg]
  rw [BitVec.toInt_eq_toNat_cond] at negative ⊢
  split at negative <;> split <;> omega

theorem kprintfPutint_signed (value : U64) : kprintfPutint value = some (signedNumeral value.toInt) := by
  have sent (sign : List Byte) (uval : U64) : (do
      let s ← uintToStr uval 10 (uninitialised 21)
      let out ← serialWriteString s
      some (sign ++ out)) = some (sign ++ numeral 10 uval.toNat) := by
    rw [uintToStr_numeral uval 10 (uninitialised 21) 19 (by decide) (by decide) rfl (Nat.lt_trans uval.isLt (by decide)),
      Option.bind_eq_bind, Option.bind_some, serialWriteString_numeral (by decide) (by decide)]
    rfl
  rw [kprintfPutint, signedNumeral]
  by_cases negative : value.toInt < 0
  · rw [if_pos negative, if_pos negative, ← toNat_neg_of_negative negative]
    exact sent [ch '-'] (-value)
  · have same : value.toNat = value.toInt.natAbs := by
      rw [BitVec.toInt_eq_toNat_cond] at negative ⊢
      split at negative <;> omega
    rw [if_neg negative, if_neg negative, ← same]
    exact sent [] value

theorem kprintfPuthex_numeral (value : U64) : kprintfPuthex value = some (numeral 16 value.toNat) := by
  rw [kprintfPuthex,
    uintToStr_numeral value 16 (uninitialised 17) 15 (by decide) (by decide) rfl (Nat.lt_of_lt_of_le value.isLt (by decide))]
  exact serialWriteString_numeral (by decide) (by decide) value.toNat

variable {isLong : Bool} {z : Byte} {bytes : List Byte} {format rest : List Piece} {args extra : List Arg}
  {conversion : Conversion} {next : List Arg → Option (List Byte × List Arg)}

theorem fits_value (fits : Fits (.value conversion :: rest) args) :
    ∃ arg left, args = arg :: left ∧ argType arg = conversion.argType ∧ Fits rest left := by
  cases args with
  | nil => cases fits
  | cons arg left => exact ⟨arg, left, rfl, List.head_eq_of_cons_eq fits, List.tail_eq_of_cons_eq fits⟩

theorem fits_pointer (fits : Fits (.value .string :: rest) args) : ∃ s left, args = .pointer s :: left ∧ Fits rest left := by
  obtain ⟨arg, left, rfl, same, later⟩ := fits_value fits
  cases arg with
  | pointer s => exact ⟨s, left, rfl, later⟩
  | int v => cases same
  | long v => cases same

/-- An argument of the type `int`, or of the long type after an `l`. -/
theorem fits_number (isLong : Bool) (fits : Fits (.value conversion :: rest) args)
    (isNumber : conversion.argType = if isLong then .long else .int) :
    ∃ left, Fits rest left ∧ if isLong then ∃ v, args = .long v :: left else ∃ v, args = .int v :: left := by
  obtain ⟨arg, left, rfl, same, later⟩ := fits_value fits
  rw [isNumber] at same
  refine ⟨left, later, ?_⟩
  cases isLong with
  | true =>
    cases arg with
    | long v => exact ⟨v, rfl⟩
    | pointer s => cases same
    | int v => cases same
  | false =>
    cases arg with
    | int v => exact ⟨v, rfl⟩
    | pointer s => cases same
    | long v => cases same

/-- One directive: its argument is taken, its rendering is sent, and the loop
goes on. -/
theorem switch_renders (notEnd : z ≠ 0) (fits : Fits (directive isLong z :: rest) args)
    (later : ∀ args, Fits rest args → next (args ++ extra) = some (render rest args, extra)) :
    kprintfSwitch isLong z (args ++ extra) next = some (render (directive isLong z :: rest) args, extra) := by
  rw [kprintfSwitch, if_neg notEnd]
  rw [directive] at fits ⊢
  by_cases isS : z = ch 's'
  · rw [if_pos isS] at fits ⊢
    obtain ⟨s, left, rfl, fits'⟩ := fits_pointer fits
    have sent := serialWriteString_text s.text
    rw [← CString.cells] at sent
    simp only [if_pos isS, List.cons_append, vaPointer, Option.bind_eq_bind, Option.bind_some, sent, later left fits']
    rfl
  rw [if_neg isS] at fits ⊢
  by_cases isC : z = ch 'c'
  · rw [if_pos isC] at fits ⊢
    obtain ⟨left, fits', v, rfl⟩ := fits_number false fits rfl
    simp only [if_neg isS, if_pos isC, List.cons_append, vaInt, Option.bind_eq_bind, Option.bind_some, later left fits']
    rfl
  rw [if_neg isC] at fits ⊢
  by_cases isD : z = ch 'd'
  · rw [if_pos isD] at fits ⊢
    obtain ⟨left, fits', number⟩ := fits_number isLong fits rfl
    simp only [if_neg isS, if_neg isC, if_pos isD, Option.bind_eq_bind]
    cases isLong with
    | true =>
      obtain ⟨v, rfl⟩ := number
      simp only [if_true, List.cons_append, vaLong, Option.bind_some, kprintfPutint_signed, later left fits']
      rfl
    | false =>
      obtain ⟨v, rfl⟩ := number
      have same : (v.signExtend 64).toInt = v.toInt := BitVec.toInt_signExtend_of_le (by decide)
      simp only [Bool.false_eq_true, if_false, List.cons_append, vaInt, Option.map_some, Option.bind_some, kprintfPutint_signed,
        same, later left fits']
      rfl
  rw [if_neg isD] at fits ⊢
  by_cases isX : z = ch 'x'
  · rw [if_pos isX] at fits ⊢
    obtain ⟨left, fits', number⟩ := fits_number isLong fits rfl
    simp only [if_neg isS, if_neg isC, if_neg isD, if_pos isX, Option.bind_eq_bind]
    cases isLong with
    | true =>
      obtain ⟨v, rfl⟩ := number
      simp only [if_true, List.cons_append, vaLong, Option.bind_some, kprintfPuthex_numeral, later left fits']
      rfl
    | false =>
      obtain ⟨v, rfl⟩ := number
      have same : (v.setWidth 64).toNat = v.toNat := BitVec.toNat_setWidth_of_le (by decide)
      simp only [Bool.false_eq_true, if_false, List.cons_append, vaInt, Option.map_some, Option.bind_some, kprintfPuthex_numeral,
        same, later left fits']
      rfl
  rw [if_neg isX] at fits ⊢
  simp only [if_neg isS, if_neg isC, if_neg isD, if_neg isX, Option.bind_eq_bind]
  by_cases isPercent : z = ch '%'
  · rw [if_pos isPercent] at fits ⊢
    simp only [if_pos isPercent, Option.bind_some, later args fits]
    rfl
  · rw [if_neg isPercent] at fits ⊢
    simp only [if_neg isPercent, Option.bind_some, later args fits]
    rfl

theorem pieces_literal {c : Byte} (literal : c ≠ ch '%') : pieces (c :: text) = .text [c] :: pieces text := by
  rw [pieces.eq_def]
  exact if_pos literal

theorem pieces_directive (short : z ≠ ch 'l') : pieces (ch '%' :: z :: text) = directive false z :: pieces text := by
  rw [pieces.eq_def]
  exact if_neg short

theorem pieces_long (z : Byte) (text : List Byte) : pieces (ch '%' :: ch 'l' :: z :: text) = directive true z :: pieces text := by
  rw [pieces.eq_def]
  rfl

theorem kprintfLoop_literal {c : Byte} {p : Cells} (character : c ≠ 0) (literal : c ≠ ch '%') :
    kprintfLoop (some c :: p) args = (kprintfLoop p args).map fun (out, left) => (c :: out, left) := by
  rw [kprintfLoop.eq_def]
  simp only [if_neg character, if_pos literal]
  cases kprintfLoop p args <;> rfl

theorem kprintfLoop_directive {p : Cells} (short : z ≠ ch 'l') :
    kprintfLoop (some (ch '%') :: some z :: p) args = kprintfSwitch false z args (kprintfLoop p) := by
  rw [kprintfLoop.eq_def]
  exact if_neg short

theorem kprintfLoop_long {p : Cells} :
    kprintfLoop (some (ch '%') :: some (ch 'l') :: some z :: p) args = kprintfSwitch true z args (kprintfLoop p) := by
  rw [kprintfLoop.eq_def]
  rfl

/-- Behind the percent sign, or behind the `l`, the NUL ends the loop. -/
theorem kprintfSwitch_end : kprintfSwitch isLong 0 args next = some ([ch '%'], args) := rfl

/-- From any place in the format on, the loop sends the rendering of the rest. It
stops at the NUL, and takes the arguments of the rest and no others. -/
theorem kprintfLoop_renders (noNul : 0#8 ∉ bytes) (fits : Fits (pieces bytes) args) :
    kprintfLoop (bytes.map some ++ [some 0]) (args ++ extra) = some (render (pieces bytes) args, extra) := by
  induction bytes using pieces.induct generalizing args with
  | case1 =>
    cases List.map_eq_nil_iff.mp fits
    rfl
  | case2 c rest literal ih =>
    rw [List.mem_cons, not_or] at noNul
    have character : c ≠ 0 := Ne.symm noNul.1
    rw [pieces_literal literal] at fits ⊢
    rw [List.map_cons, List.cons_append, kprintfLoop_literal character literal, ih noNul.2 fits]
    rfl
  | case3 c percent =>
    cases not_not.mp percent
    cases List.map_eq_nil_iff.mp fits
    exact (kprintfLoop_directive (by decide)).trans kprintfSwitch_end
  | case4 c percent =>
    cases not_not.mp percent
    cases List.map_eq_nil_iff.mp fits
    exact kprintfLoop_long.trans kprintfSwitch_end
  | case5 c percent z rest ih =>
    cases not_not.mp percent
    simp only [List.mem_cons, not_or] at noNul
    obtain ⟨_, _, notEnd, noNul⟩ := noNul
    rw [pieces_long] at fits ⊢
    simp only [List.map_cons, List.cons_append, kprintfLoop_long]
    exact switch_renders (Ne.symm notEnd) fits fun args fits => ih noNul fits
  | case6 c percent z rest short ih =>
    cases not_not.mp percent
    simp only [List.mem_cons, not_or] at noNul
    obtain ⟨_, notEnd, noNul⟩ := noNul
    rw [pieces_directive short] at fits ⊢
    simp only [List.map_cons, List.cons_append, kprintfLoop_directive short]
    exact switch_renders (Ne.symm notEnd) fits fun args fits => ih noNul fits

/-- **`kprintf` renders its format.** For every format and one argument of the right
type for each of its values, the bytes sent are the reference rendering, and
what is left of the arguments is what was given beyond them. There is a result, so
nothing is read behind a NUL and no cell that was not written to. The digit loop
leaves its buffer of 21 or of 17 cells with the value used up, and only the numeral
of zero begins with a zero. -/
theorem kprintf_renders (fmt : CString) (args extra : List Arg) (fits : Fits (pieces fmt.bytes) args) :
    kprintf fmt (args ++ extra) = some (render (pieces fmt.bytes) args, extra) ∧
    (∀ (value : U64) (buf : Cells), buf.length = 21 → ∃ left buf', digitLoop 10 20 value buf = some (left, 0, buf') ∧
      left + (significant 10 value.toNat).length = 20) ∧
    (∀ (value : U64) (buf : Cells), buf.length = 17 → ∃ left buf', digitLoop 16 16 value buf = some (left, 0, buf') ∧
      left + (significant 16 value.toNat).length = 16) ∧
    ∀ base n, 1 < base → base ≤ 16 → 0 < n → (numeral base n).head? ≠ some (ch '0') := by
  refine ⟨kprintfLoop_renders fmt.text fits, fun value buf size => ?_, fun value buf size => ?_, fun base n large small positive => ?_⟩
  · have fits : value.toNat < (10 : U32).toNat ^ 20 := Nat.lt_trans value.isLt (by decide)
    obtain ⟨left, buf', loop, length, _⟩ := digitLoop_writes value buf (by decide) (by decide) fits (by omega)
    exact ⟨left, buf', loop, length⟩
  · have fits : value.toNat < (16 : U32).toNat ^ 16 := Nat.lt_of_lt_of_le value.isLt (by decide)
    obtain ⟨left, buf', loop, length, _⟩ := digitLoop_writes value buf (by decide) (by decide) fits (by omega)
    exact ⟨left, buf', loop, length⟩
  · obtain ⟨d, nonzero, below, head⟩ := significant_head large positive
    rw [numeral, toDigits_significant positive, List.head?_map, head, Option.map_some]
    intro zero
    have := (digitChar_plain (Nat.lt_of_lt_of_le below small)).2.2 (Option.some.inj zero)
    omega

/-- A string of two lines, the least number, a directive that is none, and a lone
percent sign behind an argument too many. -/
theorem kprintf_renders_some :
    kprintf ⟨"%s%c=%ld %x%%%q%l".toList.map ch, by decide +kernel⟩
      [.pointer ⟨"a\nb".toList.map ch, by decide +kernel⟩, .int 65, .long 0x8000000000000000, .int 0xBEEF, .int 7] =
      some ("a\r\nbA=-9223372036854775808 beef%%q%".toList.map ch, [.int 7]) := by
  refine (kprintf_renders _ [.pointer ⟨"a\nb".toList.map ch, by decide +kernel⟩, .int 65, .long 0x8000000000000000, .int 0xBEEF]
    [.int 7] (by decide +kernel)).1.trans (congrArg (fun out => some (out, [Arg.int 7])) ?_)
  decide +kernel

end HobbyKernel.KprintfProofs
