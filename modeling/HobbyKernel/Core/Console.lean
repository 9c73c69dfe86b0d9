import HobbyKernel.Core.Kprintf

/-! The console: `kprintf` with its lock, `spinlock.c`, and the port accesses of
`serial.c`. Any number of contexts may be in `kprintf` at once, whether they are
tasks, interrupt handlers or processors; each one goes on when it likes, one
access to shared memory or to the UART at a time. -/
namespace HobbyKernel.Console

def LSR_TX_EMPTY : Byte := 0x20

/-- The transmitter of the UART. A character that is stored over one that has
not left yet replaces it. -/
structure Uart where
  holding : Option Byte
  line : List Byte

/-- `inb(UART_LINE_STATUS)`, as far as the transmitter goes. -/
def Uart.lineStatus (u : Uart) : Byte := if u.holding.isNone then LSR_TX_EMPTY else 0

/-- `outb(UART_DATA, c)`. -/
def Uart.data (u : Uart) (c : Byte) : Uart := { u with holding := some c }

/-- The hardware sends the character it holds. -/
def Uart.send (u : Uart) : Uart := ⟨none, u.line ++ u.holding.toList⟩

/-- `serial_tx_empty`. -/
def serialTxEmpty (u : Uart) : Bool := u.lineStatus &&& LSR_TX_EMPTY ≠ 0

/-- Where a context is in `kprintf`. `flags` is the interrupt flag of what
`spinlock_acquire` has returned; without a lock it is that of 0. -/
inductive Place where
  | outside
  /-- In `spinlock_acquire`, before `pushfq; pop; cli`. -/
  | saves (fmt : CString) (args : List Arg)
  /-- In the loop of `spinlock_acquire`. -/
  | spins (flags : Bool) (fmt : CString) (args : List Arg)
  /-- In the loop of `serial_write_char`, or at the end of the message. -/
  | polls (flags : Bool) (rest : List Byte)
  /-- Behind the loop of `serial_write_char`. -/
  | writes (flags : Bool) (c : Byte) (rest : List Byte)
  /-- In `spinlock_release`, before `push; popfq`. -/
  | restores (flags : Bool)

structure State (Context : Type) where
  ready : Bool
  locked : Bool
  interrupts : Context → Bool
  place : Context → Place
  uart : Uart

/-- A context calls `kprintf`, goes on in it, or switches interrupts on or off
outside of it; or the hardware sends a character. -/
inductive Move (Context : Type) where
  | call (n : Context) (fmt : CString) (args : List Arg)
  | run (n : Context)
  | interrupts (n : Context) (on : Bool)
  | send

inductive Event (Context : Type) where
  | calls (n : Context) (interrupts : Bool)
  | prints (n : Context) (fmt : CString) (args : List Arg)
  | writes (n : Context) (c : Byte)
  | unlocks (n : Context)
  | returns (n : Context) (interrupts : Bool)

variable {Context : Type}

/-- `kprintf_lock_init`. -/
def State.kprintfLockInit (s : State Context) : State Context := { s with locked := false, ready := true }

variable [DecidableEq Context]

def State.goto (s : State Context) (n : Context) (place : Place) : State Context :=
  { s with place := Function.update s.place n place }

def State.setInterrupts (s : State Context) (n : Context) (on : Bool) : State Context :=
  { s with interrupts := Function.update s.interrupts n on }

/-- What is in the message is settled under the lock, where `kprintf` goes
through its format. -/
def State.format (s : State Context) (n : Context) (flags : Bool) (fmt : CString) (args : List Arg) :
    Option (State Context × List (Event Context)) :=
  (kprintf fmt args).map fun out => (s.goto n (.polls flags out.1), [.prints n fmt args])

/-- One access of a context in `kprintf`. -/
def State.run (s : State Context) (n : Context) : Option (State Context × List (Event Context)) :=
  match s.place n with
  | .outside => none
  | .saves fmt args => some ((s.setInterrupts n false).goto n (.spins (s.interrupts n) fmt args), [])
  | .spins flags fmt args => if s.locked then some (s, []) else { s with locked := true }.format n flags fmt args
  | .polls flags [] =>
    if s.ready then some ({ s with locked := false }.goto n (.restores flags), [.unlocks n])
    else some (s.goto n .outside, [.returns n (s.interrupts n)])
  | .polls flags (c :: rest) => some (if serialTxEmpty s.uart then s.goto n (.writes flags c rest) else s, [])
  | .writes flags c rest => some ({ s with uart := s.uart.data c }.goto n (.polls flags rest), [.writes n c])
  | .restores flags => some ((s.setInterrupts n flags).goto n .outside, [.returns n flags])

def step (s : State Context) : Move Context → Option (State Context × List (Event Context))
  | .call n fmt args =>
    match s.place n with
    | .outside =>
      if s.ready then some (s.goto n (.saves fmt args), [.calls n (s.interrupts n)])
      else (s.format n false fmt args).map fun out => (out.1, .calls n (s.interrupts n) :: out.2)
    | _ => none
  | .run n => s.run n
  | .interrupts n on =>
    match s.place n with
    | .outside => some (s.setInterrupts n on, [])
    | _ => none
  | .send => some ({ s with uart := s.uart.send }, [])

end HobbyKernel.Console
