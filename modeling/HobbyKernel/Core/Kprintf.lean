import HobbyKernel.Core.PageAlloc

/-! `kprintf.c`, and the string output of `serial.c`. A pointer into a string or
a buffer is the list of the cells from there to the end of the object, so that
there is nothing to read behind the end. A cell that was not written to has no
value, and a call that would read one has no result. What is sent to the serial
port is returned as the list of its bytes. -/
namespace HobbyKernel

/-- A character constant. -/
def ch (c : Char) : Byte := BitVec.ofNat 8 c.toNat

def NEWLINE : Byte := 0x0A
def CARRIAGE_RETURN : Byte := 0x0D

abbrev Cells := List (Option Byte)

/-- A string; its NUL comes after these bytes. -/
structure CString where
  bytes : List Byte
  text : 0#8 ∉ bytes

def CString.cells (s : CString) : Cells := s.bytes.map some ++ [some 0]

/-- `serial_write_string`. -/
def serialWriteString : Cells → Option (List Byte)
  | some c :: str =>
    if c = 0 then some []
    else do
      let rest ← serialWriteString str
      some ((if c = NEWLINE then [CARRIAGE_RETURN] else []) ++ c :: rest)
  | _ => none

def digits : List Byte := "0123456789abcdef".toList.map ch

/-- The store `buf[pos] = c`. -/
def storeCell (buf : Cells) (pos : Nat) (c : Byte) : Option Cells :=
  if pos < buf.length then some (buf.set pos (some c)) else none

/-- The loop `while (value != 0 && pos > 0)` of `uint_to_str`. -/
def digitLoop (base : U32) : Nat → U64 → Cells → Option (Nat × U64 × Cells)
  | 0, value, buf => some (0, value, buf)
  | pos + 1, value, buf =>
    if value = 0 then some (pos + 1, value, buf)
    else do
      let digit ← digits[(value % base.setWidth 64).toNat]?
      let buf ← storeCell buf pos digit
      digitLoop base pos (value / base.setWidth 64) buf

/-- `uint_to_str`; `buf_size` is the number of cells of the buffer, and
the result is the pointer `&buf[pos]`. -/
def uintToStr (value : U64) (base : U32) (buf : Cells) : Option Cells := do
  let pos := buf.length - 1
  let buf ← storeCell buf pos 0
  if value = 0 then
    match pos with
    | 0 => none
    | pos + 1 =>
      let buf ← storeCell buf pos (ch '0')
      some (buf.drop pos)
  else
    let (pos, _, buf) ← digitLoop base pos value buf
    some (buf.drop pos)

/-- An array on the stack before anything is stored in it. -/
def uninitialised (size : Nat) : Cells := List.replicate size none

/-- `kprintf_putint`. -/
def kprintfPutint (value : U64) : Option (List Byte) := do
  let (sign, uval) := if value.toInt < 0 then ([ch '-'], -value) else ([], value)
  let s ← uintToStr uval 10 (uninitialised 21)
  let out ← serialWriteString s
  some (sign ++ out)

/-- `kprintf_puthex`. -/
def kprintfPuthex (value : U64) : Option (List Byte) := do
  let s ← uintToStr value 16 (uninitialised 17)
  serialWriteString s

/-- An argument as it is passed: narrower integers are promoted to `int`. -/
inductive Arg where
  | pointer (s : CString)
  | int (v : U32)
  | long (v : U64)

/-- `va_arg(args, const char *)`. -/
def vaPointer : List Arg → Option (CString × List Arg)
  | .pointer s :: args => some (s, args)
  | _ => none

/-- `va_arg(args, int)` and `va_arg(args, unsigned int)`. -/
def vaInt : List Arg → Option (U32 × List Arg)
  | .int v :: args => some (v, args)
  | _ => none

/-- `va_arg(args, int64_t)` and `va_arg(args, uint64_t)`. -/
def vaLong : List Arg → Option (U64 × List Arg)
  | .long v :: args => some (v, args)
  | _ => none

/-- The `switch` of `kprintf` on the character after the percent sign and the `l`;
`next` is the rest of the loop. -/
def kprintfSwitch (isLong : Bool) (z : Byte) (args : List Arg) (next : List Arg → Option (List Byte × List Arg)) :
    Option (List Byte × List Arg) := do
  -- `goto done`
  if z = 0 then some ([ch '%'], args)
  else
    let (out, args) ←
      if z = ch 's' then do
        let (s, args) ← vaPointer args
        let out ← serialWriteString s.cells
        some (out, args)
      else if z = ch 'c' then do
        let (c, args) ← vaInt args
        some ([c.setWidth 8], args)
      else if z = ch 'd' then do
        let (val, args) ← if isLong then vaLong args else (vaInt args).map fun (v, args) => (v.signExtend 64, args)
        let out ← kprintfPutint val
        some (out, args)
      else if z = ch 'x' then do
        let (val, args) ← if isLong then vaLong args else (vaInt args).map fun (v, args) => (v.setWidth 64, args)
        let out ← kprintfPuthex val
        some (out, args)
      else if z = ch '%' then some ([ch '%'], args)
      else some ([ch '%', z], args)
    let (more, args) ← next args
    some (out ++ more, args)

/-- The loop of `kprintf`: what is sent, and the arguments that are left. -/
def kprintfLoop : Cells → List Arg → Option (List Byte × List Arg)
  | some c :: p, args =>
    if c = 0 then some ([], args)
    else if c ≠ ch '%' then do
      let (out, args) ← kprintfLoop p args
      some (c :: out, args)
    else
      match p with
      | some z :: p =>
        if z = ch 'l' then
          match p with
          | some z :: p => kprintfSwitch true z args (fun args => kprintfLoop p args)
          | _ => none
        else kprintfSwitch false z args (fun args => kprintfLoop p args)
      | _ => none
  | _, _ => none

/-- `kprintf`, inside its lock. -/
def kprintf (fmt : CString) (args : List Arg) : Option (List Byte × List Arg) := kprintfLoop fmt.cells args

end HobbyKernel
