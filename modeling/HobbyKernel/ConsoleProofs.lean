import HobbyKernel.Core.Console
import HobbyKernel.KprintfProofs
import HobbyKernel.Lib.Runs
import HobbyKernel.Lib.SpinLock

/-! What the console prints. Contexts that print at the same time implement jobs
under a spin lock, and polling keeps the UART from losing a character, so that
messages come out whole and one after the other. -/
namespace HobbyKernel.ConsoleProofs
open Console KprintfProofs Runs SpinLock

variable {Context : Type} {s s' s₀ : Console.State Context} {n m : Context} {fmt : CString} {args : List Arg}
  {events new : List (Console.Event Context)} {flags on : Bool} {rest : List Byte} {move : Move Context}

/-- What a call of `kprintf` prints. -/
def message (fmt : CString) (args : List Arg) : List Byte := render (pieces fmt.bytes) args

/-- What a context still has to write while it holds the lock. -/
def unsent : Console.Place → Option (List Byte)
  | .polls _ rest => some rest
  | .writes _ c rest => some (c :: rest)
  | _ => none

/-- The same context as a party of the spin lock. -/
def partyOf : Console.Place → SpinLock.Place Byte
  | .spins _ fmt args => .spinning (message fmt args)
  | .polls _ rest => .inside rest
  | .writes _ c rest => .inside (c :: rest)
  | _ => .outside

def parties (s : Console.State Context) : SpinLock.State Context Byte := ⟨s.locked, fun n => partyOf (s.place n)⟩

def labels : List (Console.Event Context) → List (Label Context Byte)
  | [] => []
  | .prints n fmt args :: events => .acquires n (message fmt args) :: labels events
  | .writes n c :: events => .acts n c :: labels events
  | .unlocks n :: events => .releases n :: labels events
  | _ :: events => labels events

/-- The text of all messages that were printed, in the order in which the lock
was taken for them. -/
def printed : List (Console.Event Context) → List Byte
  | [] => []
  | .prints _ fmt args :: events => message fmt args ++ printed events
  | _ :: events => printed events

theorem labels_append (events new : List (Console.Event Context)) : labels (events ++ new) = labels events ++ labels new := by
  induction events with
  | nil => rfl
  | cons event events ih => cases event <;> simp [labels, ih]

theorem printed_jobs (events : List (Console.Event Context)) : printed events = (jobs (labels events)).flatten := by
  induction events with
  | nil => rfl
  | cons event events ih => cases event <;> simp [labels, printed, jobs, ih]

/-- The calls of `kprintf` have the arguments their formats ask for. -/
def Formatted (_ : Console.State Context) : Move Context → Prop
  | .call _ fmt args => Fits (pieces fmt.bytes) args
  | _ => True

instance (s : Console.State Context) (move : Move Context) : Decidable (Formatted s move) :=
  match move with
  | .call _ fmt args => inferInstanceAs (Decidable (Fits (pieces fmt.bytes) args))
  | .run _ | .interrupts _ _ | .send => isTrue trivial

/-- A context that is about to print has what its format asks for. -/
def Asks : Console.Place → Prop
  | .saves fmt args | .spins _ fmt args => Fits (pieces fmt.bytes) args
  | _ => True

theorem unsent_inside {place : Console.Place} : unsent place = some rest ↔ partyOf place = .inside rest := by
  cases place <;> simp [unsent, partyOf]

/-- Interrupts are off from the `cli` of `spinlock_acquire` to the `popfq` of
`spinlock_release`. -/
def Masked : Console.Place → Prop
  | .outside | .saves _ _ => False
  | _ => True

/-- What `kprintf` has saved of the interrupt flag, or is going to save. -/
def saved (interrupts : Bool) : Console.Place → Option Bool
  | .outside => none
  | .saves _ _ => some interrupts
  | .spins flags _ _ | .polls flags _ | .writes flags _ _ | .restores flags => some flags

def CallOf (n : Context) (event : Console.Event Context) : Prop := ∃ on, event = .calls n on

/-- `kprintf` leaves interrupts as it found them. -/
def GivesBack (before : List (Console.Event Context)) : Console.Event Context → Prop
  | .returns n on => Since (CallOf n) (.calls n on) before
  | _ => True

/-- What the UART was given. -/
def Uart.given (u : Uart) : List Byte := u.line ++ u.holding.toList

@[simp] theorem given_send (u : Uart) : Uart.given u.send = Uart.given u := by simp [Uart.given, Uart.send]

/-- A character is not lost if it is written after the last one has left. -/
theorem given_data {u : Uart} (clear : u.holding = none) (c : Byte) : Uart.given (u.data c) = Uart.given u ++ [c] := by
  simp [Uart.given, Uart.data, clear]

theorem serialTxEmpty_iff (u : Uart) : serialTxEmpty u = true ↔ u.holding = none := by
  cases holding : u.holding <;> simp [serialTxEmpty, Uart.lineStatus, holding, LSR_TX_EMPTY]

variable [DecidableEq Context]

@[simp] theorem goto_place_same {place : Console.Place} : (s.goto n place).place n = place := Function.update_self ..

theorem goto_place_other {place : Console.Place} (other : m ≠ n) : (s.goto n place).place m = s.place m :=
  Function.update_of_ne other ..

theorem parties_goto (s : Console.State Context) (n : Context) (place : Console.Place) :
    parties (s.goto n place) = (parties s).put n (partyOf place) := by
  have places : (fun m => partyOf ((s.goto n place).place m)) = ((parties s).put n (partyOf place)).place := by
    funext m
    by_cases isN : m = n
    · subst isN
      rw [goto_place_same, put_same]
    · rw [goto_place_other isN, put_other isN]
      rfl
  rw [parties, places]
  rfl

/-- Moving a party to where it is does nothing. -/
theorem put_still {place : SpinLock.Place Byte} {P : SpinLock.State Context Byte} (here : P.place n = place) : P.put n place = P := by
  have places : Function.update P.place n place = P.place := by rw [← here, Function.update_eq_self]
  rw [SpinLock.State.put, places]

/-- What a context in `kprintf` can do next. -/
inductive Ran (s : Console.State Context) (n : Context) : Console.State Context → List (Console.Event Context) → Prop where
  | saves {fmt : CString} {args : List Arg} (place : s.place n = .saves fmt args) :
      Ran s n ((s.setInterrupts n false).goto n (.spins (s.interrupts n) fmt args)) []
  | spins {flags : Bool} {fmt : CString} {args : List Arg} (place : s.place n = .spins flags fmt args) : Ran s n s []
  | prints {flags : Bool} {fmt : CString} {args : List Arg} (place : s.place n = .spins flags fmt args) (free : s.locked = false) :
      Ran s n ({ s with locked := true }.goto n (.polls flags (message fmt args))) [.prints n fmt args]
  | waits {flags : Bool} {rest : List Byte} (place : s.place n = .polls flags rest) : Ran s n s []
  | clear {flags : Bool} {c : Byte} {rest : List Byte} (place : s.place n = .polls flags (c :: rest)) (clear : s.uart.holding = none) :
      Ran s n (s.goto n (.writes flags c rest)) []
  | writes {flags : Bool} {c : Byte} {rest : List Byte} (place : s.place n = .writes flags c rest) :
      Ran s n ({ s with uart := s.uart.data c }.goto n (.polls flags rest)) [.writes n c]
  | unlocks {flags : Bool} (place : s.place n = .polls flags []) :
      Ran s n ({ s with locked := false }.goto n (.restores flags)) [.unlocks n]
  | restores {flags : Bool} (place : s.place n = .restores flags) :
      Ran s n ((s.setInterrupts n flags).goto n .outside) [.returns n flags]

theorem run_ran (ready : s.ready = true) (asks : Asks (s.place n)) (did : s.run n = some (s', new)) : Ran s n s' new := by
  unfold State.run at did
  cases place : s.place n with
  | outside => simp [place] at did
  | saves fmt args =>
    simp only [place, Option.some.injEq, Prod.mk.injEq] at did
    obtain ⟨rfl, rfl⟩ := did
    exact .saves place
  | spins flags fmt args =>
    rw [place] at asks
    simp only [place] at did
    split at did
    · cases did
      exact .spins place
    · rename_i free
      have renders : kprintf fmt (args ++ []) = some (render (pieces fmt.bytes) args, []) := kprintfLoop_renders fmt.text asks
      rw [List.append_nil] at renders
      simp only [State.format, renders, Option.map_some, Option.some.injEq, Prod.mk.injEq] at did
      obtain ⟨rfl, rfl⟩ := did
      exact .prints place (by simpa using free)
  | polls flags rest =>
    cases rest with
    | nil =>
      simp only [place] at did
      rw [if_pos ready] at did
      cases did
      exact .unlocks place
    | cons c rest =>
      simp only [place, Option.some.injEq, Prod.mk.injEq] at did
      obtain ⟨rfl, rfl⟩ := did
      split
      · rename_i empty
        exact .clear place ((serialTxEmpty_iff _).mp empty)
      · exact .waits place
  | writes flags c rest =>
    simp only [place, Option.some.injEq, Prod.mk.injEq] at did
    obtain ⟨rfl, rfl⟩ := did
    exact .writes place
  | restores flags =>
    simp only [place, Option.some.injEq, Prod.mk.injEq] at did
    obtain ⟨rfl, rfl⟩ := did
    exact .restores place

/-- A step of a context is at most one step of its party. -/
theorem Ran.refines (ran : Ran s n s' new) : SpinLock.Step (parties s) (labels new) (parties s') := by
  have party : ∀ {place}, s.place n = place → (parties s).place n = partyOf place := fun same => congrArg partyOf same
  cases ran with
  | saves place =>
    rw [parties_goto]
    exact .calls _ (party place)
  | spins => exact .idles
  | prints place free =>
    rw [parties_goto]
    exact .acquires (party place) free
  | waits => exact .idles
  | @clear flags c rest place =>
    have here := party place
    have still : (parties s).put n (partyOf (.writes flags c rest)) = parties s := put_still here
    rw [parties_goto, still]
    exact .idles
  | writes place =>
    rw [parties_goto]
    exact .acts (party place)
  | unlocks place =>
    rw [parties_goto]
    exact .releases (party place)
  | @restores flags place =>
    have here := party place
    have still : (parties (s.setInterrupts n flags)).put n (partyOf .outside) = parties s := put_still here
    rw [parties_goto, still]
    exact .idles

/-- A context moves alone. -/
theorem Ran.others (ran : Ran s n s' new) (other : m ≠ n) : s'.place m = s.place m ∧ s'.interrupts m = s.interrupts m := by
  cases ran with
  | spins | waits => exact ⟨rfl, rfl⟩
  | saves | restores => exact ⟨goto_place_other other, Function.update_of_ne other ..⟩
  | prints | clear | writes | unlocks => exact ⟨goto_place_other other, rfl⟩

theorem Ran.calls (ran : Ran s n s' new) (event : Console.Event Context) (member : event ∈ new) : ¬ CallOf m event := by
  rintro ⟨on, rfl⟩
  cases ran <;> simp at member

structure ConsoleInv (s₀ : Console.State Context) (events : List (Console.Event Context)) (s : Console.State Context) : Prop where
  ready : s.ready = true
  asks : ∀ n, Asks (s.place n)
  steps : Steps (parties s₀) (labels events) (parties s)
  given : Uart.given s.uart = Uart.given s₀.uart ++ ops (labels events)
  clear : ∀ n flags c rest, s.place n = .writes flags c rest → s.uart.holding = none
  masked : ∀ n, Masked (s.place n) → s.interrupts n = false
  saved : ∀ n on, saved (s.interrupts n) (s.place n) = some on → Since (CallOf n) (.calls n on) events
  gives : Each GivesBack events

/-- All contexts are outside of `kprintf`, and the lock is not taken. -/
structure AtRest (s : Console.State Context) : Prop where
  ready : s.ready = true
  free : s.locked = false
  outside : ∀ n, s.place n = .outside

theorem AtRest.inv (rest : AtRest s₀) : ConsoleInv s₀ [] s₀ where
  ready := rest.ready
  asks n := by simp [rest.outside n, Asks]
  steps := .nil _
  given := by simp [labels, ops]
  clear n flags c left place := by simp [rest.outside n] at place
  masked n inside := by simp [rest.outside n, Masked] at inside
  saved n on isSaved := by simp [rest.outside n, ConsoleProofs.saved] at isSaved
  gives := Each.nil

theorem ConsoleInv.serial (inv : ConsoleInv s₀ events s) (rest : AtRest s₀) : Serial (labels events) (parties s) :=
  serial_of_steps inv.steps rest.free fun n left inside => by simp [parties, rest.outside n, partyOf] at inside

theorem Ran.inv (ran : Ran s n s' new) (inv : ConsoleInv s₀ events s) (rest : AtRest s₀) :
    ConsoleInv s₀ (events ++ new) s' := by
  have serial := inv.serial rest
  have inside : ∀ {flags c left}, s.place n = .writes flags c left → (parties s).place n = .inside (c :: left) :=
    fun place => congrArg partyOf place
  -- Nobody else is about to write.
  have alone : ∀ {m flags c left}, s.place m = .writes flags c left → m ≠ n →
      ∀ flags' c' left', s.place n ≠ .writes flags' c' left' := by
    intro m flags c left place other flags' c' left' place'
    have there : (parties s).place m = .inside (c :: left) := congrArg partyOf place
    exact other (serial.exclusive there (inside place')).1
  have kept : ∀ m, m ≠ n → s'.place m = s.place m ∧ s'.interrupts m = s.interrupts m := fun m other => ran.others other
  refine ⟨?_, fun m => ?_, ?_, ?_, fun m flags c left place => ?_, fun m masked => ?_, fun m on isSaved => ?_, ?_⟩
  · cases ran <;> exact inv.ready
  · by_cases isN : m = n
    · subst isN
      cases ran with
      | saves place =>
        have asks := inv.asks m
        rw [place] at asks
        rw [goto_place_same]
        exact asks
      | spins | waits => exact inv.asks m
      | prints | clear | writes | unlocks | restores =>
        rw [goto_place_same]
        trivial
    · rw [(kept m isN).1]
      exact inv.asks m
  · rw [labels_append]
    exact .snoc inv.steps ran.refines
  · rw [labels_append, ops_append, ← List.append_assoc, ← inv.given]
    cases ran with
    | writes place =>
      have clear := inv.clear n _ _ _ place
      exact given_data clear _
    | saves | spins | prints | waits | clear | unlocks | restores => exact (List.append_nil _).symm
  · by_cases isN : m = n
    · subst isN
      cases ran with
      | clear _ clear => exact clear
      | spins | waits => exact inv.clear m flags c left place
      | saves | prints | writes | unlocks | restores =>
        rw [goto_place_same] at place
        cases place
    · rw [(kept m isN).1] at place
      have clear := inv.clear m flags c left place
      cases ran with
      | writes mine => exact absurd mine (alone place isN _ _ _)
      | saves | spins | prints | waits | clear | unlocks | restores => exact clear
  · by_cases isN : m = n
    · subst isN
      cases ran with
      | saves => exact Function.update_self ..
      | spins | waits => exact inv.masked m masked
      | prints place | clear place | writes place | unlocks place =>
        exact inv.masked m (by rw [place]; trivial)
      | restores =>
        rw [goto_place_same] at masked
        exact masked.elim
    · rw [(kept m isN).1] at masked
      rw [(kept m isN).2]
      exact inv.masked m masked
  · refine Since.append ?_ ran.calls
    by_cases isN : m = n
    · subst isN
      have before := inv.saved m on
      cases ran with
      | spins | waits => exact before isSaved
      | saves place | prints place | clear place | writes place | unlocks place =>
        rw [place] at before
        rw [goto_place_same] at isSaved
        exact before isSaved
      | restores =>
        rw [goto_place_same] at isSaved
        cases isSaved
    · rw [(kept m isN).1, (kept m isN).2] at isSaved
      exact inv.saved m on isSaved
  · refine inv.gives.append fun before e after split => ?_
    cases ran with
    | restores place =>
      have last := inv.saved n _ (by rw [place]; rfl)
      cases before with
      | nil =>
        obtain ⟨rfl, _⟩ := List.cons.inj split
        rw [List.append_nil]
        exact last
      | cons => simp at split
    | saves | spins | waits | clear => simp at split
    | prints | writes | unlocks =>
      cases before with
      | nil =>
        obtain ⟨rfl, _⟩ := List.cons.inj split
        trivial
      | cons => simp at split

theorem step_inv (inv : ConsoleInv s₀ events s) (rest : AtRest s₀) (may : Formatted s move) (did : Console.step s move = some (s', new)) :
    ConsoleInv s₀ (events ++ new) s' := by
  cases move with
  | run n => exact (run_ran inv.ready (inv.asks n) did).inv inv rest
  | call n fmt args =>
    simp only [Console.step, inv.ready, if_true] at did
    split at did
    · rename_i outside
      cases did
      have here : (parties s).place n = .outside := congrArg partyOf outside
      have still : (parties s).put n (partyOf (.saves fmt args)) = parties s := put_still here
      refine ⟨inv.ready, fun m => ?_, ?_, ?_, fun m flags c left place => ?_, fun m masked => ?_, fun m on isSaved => ?_, ?_⟩
      · by_cases isN : m = n
        · subst isN
          rw [goto_place_same]
          exact may
        · rw [goto_place_other isN]
          exact inv.asks m
      · rw [labels_append, parties_goto, still]
        exact .snoc inv.steps .idles
      · rw [labels_append, ops_append]
        exact inv.given.trans (by simp [labels, ops])
      · by_cases isN : m = n
        · subst isN
          rw [goto_place_same] at place
          cases place
        · rw [goto_place_other isN] at place
          exact inv.clear m flags c left place
      · by_cases isN : m = n
        · subst isN
          rw [goto_place_same] at masked
          exact masked.elim
        · rw [goto_place_other isN] at masked
          exact inv.masked m masked
      · by_cases isN : m = n
        · subst isN
          rw [goto_place_same] at isSaved
          obtain rfl := Option.some.inj isSaved
          exact ⟨events, [], rfl, by simp⟩
        · rw [goto_place_other isN] at isSaved
          refine (inv.saved m on isSaved).append fun later member => ?_
          rintro ⟨on', same⟩
          rw [List.mem_singleton.mp member] at same
          cases same
          exact isN rfl
      · refine inv.gives.append fun before e after split => ?_
        cases before with
        | nil =>
          obtain ⟨rfl, _⟩ := List.cons.inj split
          trivial
        | cons => simp at split
    · cases did
  | interrupts n on =>
    simp only [Console.step] at did
    split at did
    · rename_i outside
      cases did
      rw [List.append_nil]
      have kept : ∀ m, m ≠ n → (s.setInterrupts n on).interrupts m = s.interrupts m := fun m other => Function.update_of_ne other ..
      refine ⟨inv.ready, inv.asks, inv.steps, inv.given, inv.clear, fun m masked => ?_, fun m on' isSaved => ?_, inv.gives⟩
      · by_cases isN : m = n
        · subst isN
          have here : Masked (s.place m) := masked
          rw [outside] at here
          exact here.elim
        · rw [kept m isN]
          exact inv.masked m masked
      · by_cases isN : m = n
        · subst isN
          have there : saved ((s.setInterrupts m on).interrupts m) (s.place m) = some on' := isSaved
          rw [outside] at there
          cases there
        · rw [kept m isN] at isSaved
          exact inv.saved m on' isSaved
    · cases did
  | send =>
    cases did
    rw [List.append_nil]
    exact ⟨inv.ready, inv.asks, inv.steps, (given_send _).trans inv.given, fun _ _ _ _ _ => rfl, inv.masked, inv.saved, inv.gives⟩

/-- **Messages come out whole.** Whoever prints at the same time, the UART is
given the messages one after the other, in the order in which the lock was
taken, up to what its holder has still to write; there is one holder at most, and
interrupts are off where he is. `kprintf` leaves interrupts as it found them. -/
theorem messages_whole (outside : ∀ n, s₀.place n = .outside) (run : Run Console.step Formatted s₀.kprintfLockInit events s) :
    (∀ n rest, unsent (s.place n) = some rest →
      Uart.given s.uart ++ rest = Uart.given s₀.uart ++ printed events ∧ s.interrupts n = false ∧
        ∀ m, unsent (s.place m) ≠ none → m = n) ∧
    ((∀ n, unsent (s.place n) = none) → Uart.given s.uart = Uart.given s₀.uart ++ printed events) ∧
    Each GivesBack events := by
  have atRest : AtRest s₀.kprintfLockInit := ⟨rfl, rfl, outside⟩
  have inv := run.invariant (ConsoleInv s₀.kprintfLockInit) atRest.inv
    fun _ _ _ _ _ inv may did => step_inv inv atRest may did
  have serial := inv.serial atRest
  have given : Uart.given s.uart = Uart.given s₀.uart ++ ops (labels events) := inv.given
  refine ⟨fun n rest unsentN => ?_, fun nobody => ?_, inv.gives⟩
  · have inside : (parties s).place n = .inside rest := unsent_inside.mp unsentN
    have progress := (serial.progress inside).2
    refine ⟨?_, inv.masked n ?_, fun m unsentM => ?_⟩
    · rw [given, List.append_assoc, progress, printed_jobs]
    · cases place : s.place n <;> simp [place, unsent] at unsentN <;> trivial
    · obtain ⟨left, isLeft⟩ := Option.ne_none_iff_exists'.mp unsentM
      exact (serial.exclusive (unsent_inside.mp isLeft) inside).1
  · cases serial with
    | free _ _ done => rw [given, done, printed_jobs]
    | held n rest _ inside =>
      have holder : unsent (s.place n) = some rest := unsent_inside.mpr inside
      rw [nobody n] at holder
      cases holder

/-- Two contexts, with interrupts on. -/
def twoContexts : Console.State Bool where
  ready := false
  locked := true
  interrupts := fun _ => true
  place := fun _ => .outside
  uart := ⟨none, []⟩

/-- Both print; the second one takes the lock first. -/
def bothPrint : List (Move Bool) :=
  [.call false ⟨"a%d".toList.map ch, by decide +kernel⟩ [.int 1], .call true ⟨"b%d".toList.map ch, by decide +kernel⟩ [.int 2],
    .run false, .run true, .run true, .run false, .run true, .run true, .run false, .run true, .send] ++
  List.replicate 4 (.run true) ++ List.replicate 3 (.run false) ++ [.send] ++ List.replicate 3 (.run false) ++ [.send] ++
  List.replicate 4 (.run false)

theorem messages_whole_both : ∃ s events, Run Console.step Formatted twoContexts.kprintfLockInit events s ∧
    Uart.given s.uart = "b2a1".toList.map ch := by
  have ran : (exec (fun s move => decide (Formatted s move)) Console.step twoContexts.kprintfLockInit bothPrint).map (fun out =>
      (printed out.2, unsent (out.1.place false), unsent (out.1.place true))) = some ("b2a1".toList.map ch, none, none) := by
    decide +kernel
  obtain ⟨⟨s, events⟩, did, now⟩ := Option.map_eq_some_iff.mp ran
  simp only [Prod.mk.injEq] at now
  obtain ⟨text, first, second⟩ := now
  have run : Run Console.step Formatted twoContexts.kprintfLockInit events s := run_of_exec (fun _ _ _ checked => of_decide_eq_true checked) did
  refine ⟨s, events, run, ?_⟩
  have whole := (messages_whole (fun _ => rfl) run).2.1 (by rintro (_ | _) <;> assumption)
  rw [whole, text]
  rfl

end HobbyKernel.ConsoleProofs
