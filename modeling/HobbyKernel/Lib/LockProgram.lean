import HobbyKernel.Lib.Runs

/-! Programs that take a spin lock, on one processor. Taking the lock turns
interrupts off and notes how they were; whoever gives it back passes that on. An
interrupt may come between any two operations of a program, if it may come at
all, and one thread may be left for another in the middle of a program. -/
namespace HobbyKernel.LockProgram

/-- A program over data `σ` for threads `τ`. A `call` goes on with one of the
routines `ρ`, which may be a loop and answer with a `ν` or never. -/
inductive Prog (σ τ ρ ν β : Type) where
  | done (result : β)
  | fault
  | act (effect : σ → σ) (next : σ → Prog σ τ ρ ν β)
  | acquire (next : Bool → Prog σ τ ρ ν β)
  | release (flags : Bool) (next : Prog σ τ ρ ν β)
  | switch (old : Option τ) (new : τ) (next : Prog σ τ ρ ν β)
  | spawn (thread : τ) (start : Option Bool) (next : Prog σ τ ρ ν β)
  | sti (next : Prog σ τ ρ ν β)
  | call (routine : ρ) (next : ν → Prog σ τ ρ ν β)

namespace Prog

variable {σ τ ρ ν β γ : Type}

def bind : Prog σ τ ρ ν β → (β → Prog σ τ ρ ν γ) → Prog σ τ ρ ν γ
  | done result, k => k result
  | fault, _ => fault
  | act effect next, k => act effect fun s => (next s).bind k
  | acquire next, k => acquire fun flags => (next flags).bind k
  | release flags next, k => release flags (next.bind k)
  | switch old new next, k => switch old new (next.bind k)
  | spawn thread start next, k => spawn thread start (next.bind k)
  | sti next, k => sti (next.bind k)
  | call routine next, k => call routine fun v => (next v).bind k

instance : Monad (Prog σ τ ρ ν) where
  pure := done
  bind := bind

/-- Read the data. -/
def look (read : σ → γ) : Prog σ τ ρ ν γ := act id fun s => done (read s)

/-- Change the data. -/
def modify (effect : σ → σ) : Prog σ τ ρ ν Unit := act effect fun _ => done ()

/-- Change the data and answer. -/
def answer (effect : σ → σ × γ) : Prog σ τ ρ ν γ := act (fun s => (effect s).1) fun s => done (effect s).2

/-- Change the data and answer, or fault. -/
def perform (effect : σ → Option (σ × γ)) : Prog σ τ ρ ν γ :=
  act (fun s => ((effect s).map Prod.fst).getD s) fun s => (effect s).elim fault fun (_, result) => done result

/-- `spinlock_acquire`: how interrupts were before. -/
def lock : Prog σ τ ρ ν Bool := acquire done

/-- `spinlock_release`. -/
def unlock (flags : Bool) : Prog σ τ ρ ν Unit := release flags (done ())

/-- The program takes and gives back the lock in turn on each of its branches,
from `held` to `out`: `some flags` says that the lock is held and how interrupts
were before. It only leaves its thread or turns interrupts on without it. -/
def Moves (out : Option Bool) : Option Bool → Prog σ τ ρ ν β → Prop
  | held, done _ => held = out
  | _, fault => True
  | held, act _ next => ∀ s, Moves out held (next s)
  | held, acquire next => held = none ∧ ∀ flags, Moves out (some flags) (next flags)
  | held, release flags next => held = some flags ∧ Moves out none next
  | held, switch _ _ next => held = none ∧ Moves out none next
  | held, spawn _ _ next => Moves out held next
  | held, sti next => held = none ∧ Moves out none next
  | held, call _ next => held = none ∧ ∀ v, Moves out none (next v)

/-- From nothing held to nothing held. -/
abbrev Balanced (p : Prog σ τ ρ ν β) : Prop := Moves none none p

variable {out middle held : Option Bool} {p : Prog σ τ ρ ν β} {k : β → Prog σ τ ρ ν γ} {flags : Bool}

theorem Moves.bind (first : Moves middle held p) (then_ : ∀ v, Moves out middle (k v)) : Moves out held (p >>= k) := by
  show Moves out held (p.bind k)
  induction p generalizing held with
  | done result =>
    cases first
    exact then_ result
  | fault => trivial
  | act effect next ih => exact fun s => ih s (first s)
  | acquire next ih => exact ⟨first.1, fun flags => ih flags (first.2 flags)⟩
  | release flags next ih => exact ⟨first.1, ih first.2⟩
  | switch old new next ih => exact ⟨first.1, ih first.2⟩
  | spawn thread start next ih => exact ih first
  | sti next ih => exact ⟨first.1, ih first.2⟩
  | call routine next ih => exact ⟨first.1, fun v => ih v (first.2 v)⟩

theorem Moves.pure (result : β) : Moves (ρ := ρ) (τ := τ) (σ := σ) (ν := ν) held held (Pure.pure result) := rfl

theorem Moves.look {read : σ → β} (then_ : ∀ v, Moves out held (k v)) : Moves out held (look read >>= k) :=
  fun s => then_ (read s)

theorem Moves.modify {effect : σ → σ} {k : Unit → Prog σ τ ρ ν γ} (then_ : Moves out held (k ())) :
    Moves out held (modify effect >>= k) :=
  fun _ => then_

theorem Moves.answer {effect : σ → σ × β} (then_ : ∀ v, Moves out held (k v)) : Moves out held (answer effect >>= k) :=
  fun s => then_ (effect s).2

theorem Moves.perform {effect : σ → Option (σ × β)} (then_ : ∀ v, Moves out held (k v)) : Moves out held (perform effect >>= k) := by
  intro s
  show Moves out held (Prog.bind ((effect s).elim fault fun (_, result) => done result) k)
  cases effect s with
  | none => trivial
  | some answer => exact then_ answer.2

theorem Moves.lock {k : Bool → Prog σ τ ρ ν γ} (then_ : ∀ flags, Moves out (some flags) (k flags)) : Moves out none (lock >>= k) :=
  ⟨rfl, then_⟩

theorem Moves.unlock {k : Unit → Prog σ τ ρ ν γ} (then_ : Moves out none (k ())) : Moves out (some flags) (unlock flags >>= k) :=
  ⟨rfl, then_⟩

/-- What a program does when nothing comes in between: the data, whether
interrupts are on, and its answer unless it leaves its thread or goes on in a
routine. -/
def alone : Prog σ τ ρ ν β → Bool → σ → Option (σ × Bool × Option β)
  | done result, i, s => some (s, i, some result)
  | fault, _, _ => none
  | act effect next, i, s => (next s).alone i (effect s)
  | acquire next, i, s => (next i).alone false s
  | release flags next, _, s => next.alone flags s
  | switch _ _ _, i, s => some (s, i, none)
  | spawn _ _ next, i, s => next.alone i s
  | sti next, _, s => next.alone true s
  | call _ _, i, s => some (s, i, none)

/-- The answer of one program is handed on to the next. -/
theorem alone_bind (p : Prog σ τ ρ ν β) (k : β → Prog σ τ ρ ν γ) (i : Bool) (s : σ) : (p >>= k).alone i s =
    match p.alone i s with
    | none => none
    | some (s, i, none) => some (s, i, none)
    | some (s, i, some v) => (k v).alone i s := by
  show (p.bind k).alone i s = _
  induction p generalizing i s with
  | done result => rfl
  | fault => rfl
  | act effect next ih => exact ih s i (effect s)
  | acquire next ih => exact ih i false s
  | release flags next ih => exact ih flags s
  | switch old new next => rfl
  | spawn thread start next ih => exact ih i s
  | sti next ih => exact ih true s
  | call routine next => rfl

@[simp]
theorem alone_pure (v : β) (i : Bool) (s : σ) : (pure v : Prog σ τ ρ ν β).alone i s = some (s, i, some v) := rfl

@[simp]
theorem alone_look (read : σ → β) (k : β → Prog σ τ ρ ν γ) (i : Bool) (s : σ) : (look read >>= k).alone i s = (k (read s)).alone i s := rfl

@[simp]
theorem alone_modify (effect : σ → σ) (k : Unit → Prog σ τ ρ ν γ) (i : Bool) (s : σ) :
    (modify effect >>= k).alone i s = (k ()).alone i (effect s) := rfl

@[simp]
theorem alone_answer (effect : σ → σ × β) (k : β → Prog σ τ ρ ν γ) (i : Bool) (s : σ) :
    (answer effect >>= k).alone i s = (k (effect s).2).alone i (effect s).1 := rfl

@[simp]
theorem alone_lock (k : Bool → Prog σ τ ρ ν γ) (i : Bool) (s : σ) : (lock >>= k).alone i s = (k i).alone false s := rfl

@[simp]
theorem alone_unlock (flags : Bool) (k : Unit → Prog σ τ ρ ν γ) (i : Bool) (s : σ) :
    (unlock flags >>= k).alone i s = (k ()).alone flags s := rfl

theorem alone_perform (effect : σ → Option (σ × β)) (k : β → Prog σ τ ρ ν γ) (i : Bool) (s : σ) :
    (perform effect >>= k).alone i s = (effect s).elim none fun (s, result) => (k result).alone i s := by
  rw [alone_bind]
  show (match ((effect s).elim fault fun (_, result) => done result : Prog σ τ ρ ν β).alone i (((effect s).map Prod.fst).getD s) with
    | none => none
    | some (s, i, none) => some (s, i, none)
    | some (s, i, some v) => (k v).alone i s) = _
  cases effect s <;> rfl

/-- The program leaves its thread, or goes on in a routine. -/
def leaves : Prog σ τ ρ ν β → Bool
  | switch _ _ _ => true
  | call _ _ => true
  | _ => false

end Prog

section Machine
variable {σ τ ρ ν ι κ : Type} [DecidableEq τ]

/-- What runs: the routines, the handler of the timer, what a gate leads to and
what may be called from where no program runs. -/
structure Code (σ τ ρ ν ι κ : Type) where
  body : ρ → Prog σ τ ρ ν ν
  tick : Prog σ τ ρ ν Unit
  gate : ι → Prog σ τ ρ ν Unit
  direct : κ → Prog σ τ ρ ν Unit

/-- A program in progress, and what its return makes of the interrupt flag if it
was entered through a gate. -/
structure Activation (σ τ ρ ν : Type) where
  prog : Prog σ τ ρ ν Unit
  saved : Option Bool

/-- One processor. The stack is that of the running thread; below it lies code
that takes no locks, such as a user program. -/
structure Machine (σ τ ρ ν : Type) where
  data : σ
  locked : Bool
  interrupts : Bool
  stack : List (Activation σ τ ρ ν)
  parked : τ → Option (List (Activation σ τ ρ ν))

inductive LockEvent where
  | acquire (before : Bool)
  | release (after : Bool)
  | spin
  | contextSwitch
  | enter
  | leave
deriving DecidableEq

/-- What happens next: the running program goes on, the timer fires, a gate is
taken or a program is called, or code below the programs changes data. -/
inductive Choice (σ ι κ : Type) where
  | run
  | tick
  | gate (i : ι)
  | direct (c : κ)
  | work (effect : σ → σ)

variable (code : Code σ τ ρ ν ι κ)

/-- A gate turns interrupts off and notes how they were. -/
def Machine.enter (m : Machine σ τ ρ ν) (prog : Prog σ τ ρ ν Unit) : Machine σ τ ρ ν :=
  { m with stack := ⟨prog, some m.interrupts⟩ :: m.stack, interrupts := false }

/-- One operation of the program on top of the stack. -/
def Machine.run (m : Machine σ τ ρ ν) (saved : Option Bool) (below : List (Activation σ τ ρ ν)) :
    Prog σ τ ρ ν Unit → Option (Machine σ τ ρ ν × List LockEvent)
  | .done _ => some ({ m with stack := below, interrupts := saved.getD m.interrupts }, [.leave])
  | .fault => none
  | .act effect next => some ({ m with data := effect m.data, stack := ⟨next m.data, saved⟩ :: below }, [])
  | .acquire next =>
    if m.locked then some (m, [.spin])
    else some ({ m with locked := true, interrupts := false, stack := ⟨next m.interrupts, saved⟩ :: below },
      [.acquire m.interrupts])
  | .release flags next =>
    some ({ m with locked := false, interrupts := flags, stack := ⟨next, saved⟩ :: below }, [.release flags])
  | .switch old new next =>
    let parked := match old with
      | none => m.parked
      | some t => Function.update m.parked t (some (⟨next, saved⟩ :: below))
    (parked new).map fun stack => ({ m with stack := stack, parked := parked }, [.contextSwitch])
  | .spawn thread start next =>
    some ({ m with
      stack := ⟨next, saved⟩ :: below
      parked := Function.update m.parked thread (start.map fun flags => [⟨.done (), some flags⟩]) }, [])
  | .sti next => some ({ m with interrupts := true, stack := ⟨next, saved⟩ :: below }, [])
  | .call routine next => some ({ m with stack := ⟨code.body routine >>= next, saved⟩ :: below }, [])

def advance (m : Machine σ τ ρ ν) : Choice σ ι κ → Option (Machine σ τ ρ ν × List LockEvent)
  | .run =>
    match m.stack with
    | [] => none
    | a :: below => m.run code a.saved below a.prog
  | .tick => if m.interrupts then some (m.enter code.tick, [.enter]) else none
  | .gate i => if m.stack.isEmpty then some (m.enter (code.gate i), [.enter]) else none
  | .direct c => if m.stack.isEmpty then some ({ m with stack := [⟨code.direct c, none⟩] }, []) else none
  | .work effect => if m.stack.isEmpty then some ({ m with data := effect m.data }, []) else none

/-- The lock is taken when it is free and given back with interrupts as they
were; all else happens while it is free. `none` says that this is not so. -/
def watch : Option Bool → LockEvent → Option (Option Bool)
  | none, .acquire before => some (some before)
  | some before, .release after => if after = before then some none else none
  | none, .contextSwitch => some none
  | none, .enter => some none
  | none, .leave => some none
  | _, _ => none

variable {code}

/-- Everything in progress takes and gives back the lock in turn, and interrupts
are off while it is held. -/
structure Sound (m : Machine σ τ ρ ν) (held : Option Bool) : Prop where
  flag : m.locked = held.isSome
  masked : held ≠ none → m.interrupts = false
  running : match m.stack with
    | [] => held = none
    | a :: below => Prog.Moves none held a.prog ∧ ∀ b ∈ below, b.prog.Balanced
  parked : ∀ t stack, m.parked t = some stack → ∀ a ∈ stack, a.prog.Balanced

/-- All the code takes and gives back the lock in turn. -/
structure Code.Balanced (code : Code σ τ ρ ν ι κ) : Prop where
  body : ∀ r, (code.body r).Balanced
  tick : code.tick.Balanced
  gate : ∀ i, (code.gate i).Balanced
  direct : ∀ c, (code.direct c).Balanced

variable {m m' : Machine σ τ ρ ν} {held : Option Bool} {saved : Option Bool} {below : List (Activation σ τ ρ ν)}
  {prog : Prog σ τ ρ ν Unit} {events : List LockEvent}

omit [DecidableEq τ] in
/-- A stack whose programs hold nothing. -/
theorem Sound.of_stack {stack : List (Activation σ τ ρ ν)} (isFree : m.locked = false) (isStack : m.stack = stack)
    (balanced : ∀ a ∈ stack, a.prog.Balanced) (parked : ∀ t stack, m.parked t = some stack → ∀ a ∈ stack, a.prog.Balanced) :
    Sound m none := by
  refine ⟨isFree, fun some => absurd rfl some, ?_, parked⟩
  rw [isStack]
  cases stack with
  | nil => rfl
  | cons a below => exact ⟨balanced a List.mem_cons_self, fun b member => balanced b (List.mem_cons_of_mem _ member)⟩

omit [DecidableEq τ] in
theorem Sound.stack (sound : Sound m none) : ∀ a ∈ m.stack, a.prog.Balanced := by
  have running := sound.running
  cases isStack : m.stack with
  | nil => nofun
  | cons a below =>
    rw [isStack] at running
    intro b member
    rcases List.mem_cons.mp member with rfl | lower
    · exact running.1
    · exact running.2 b lower

omit [DecidableEq τ] in
theorem Sound.enter (sound : Sound m none) (balanced : prog.Balanced) : Sound (m.enter prog) none :=
  ⟨sound.flag, fun _ => rfl, ⟨balanced, sound.stack⟩, sound.parked⟩

omit [DecidableEq τ] in
/-- The program on top goes on from where it is. -/
theorem Sound.goes_on {held' : Option Bool} (sound : Sound m held) (flag : m'.locked = held'.isSome)
    (masked : held' ≠ none → m'.interrupts = false) (isStack : m'.stack = ⟨prog, saved⟩ :: below)
    (moves : Prog.Moves none held' prog) (balanced : ∀ b ∈ below, b.prog.Balanced) (same : m'.parked = m.parked) :
    Sound m' held' := by
  refine ⟨flag, masked, ?_, fun t stack isParked => sound.parked t stack (same ▸ isParked)⟩
  rw [isStack]
  exact ⟨moves, balanced⟩

/-- One operation is in order and keeps everything so. -/
theorem Sound.run (all : code.Balanced) (sound : Sound m held) (moves : Prog.Moves none held prog)
    (balanced : ∀ b ∈ below, b.prog.Balanced) (ran : m.run code saved below prog = some (m', events)) :
    ∃ held', events.foldlM watch held = some held' ∧ Sound m' held' := by
  cases prog with
  | done result =>
    cases ran
    cases moves
    exact ⟨none, rfl, .of_stack sound.flag rfl balanced sound.parked⟩
  | fault => cases ran
  | act effect next =>
    cases ran
    exact ⟨held, rfl, sound.goes_on sound.flag sound.masked rfl (moves m.data) balanced rfl⟩
  | acquire next =>
    obtain ⟨rfl, moves⟩ := moves
    have isFree : m.locked = false := sound.flag
    rw [Machine.run, isFree] at ran
    cases ran
    exact ⟨some m.interrupts, rfl, sound.goes_on rfl (fun _ => rfl) rfl (moves m.interrupts) balanced rfl⟩
  | release flags next =>
    obtain ⟨rfl, moves⟩ := moves
    cases ran
    exact ⟨none, by simp [watch], sound.goes_on rfl (fun some => absurd rfl some) rfl moves balanced rfl⟩
  | switch old new next =>
    obtain ⟨rfl, moves⟩ := moves
    obtain ⟨stack, isParked, same⟩ := Option.map_eq_some_iff.mp ran
    cases same
    have parked : ∀ t stack, (match old with
        | none => m.parked
        | some t => Function.update m.parked t (some (⟨next, saved⟩ :: below))) t = some stack →
        ∀ a ∈ stack, a.prog.Balanced := by
      intro t stack isParked a member
      cases old with
      | none => exact sound.parked t stack isParked a member
      | some left =>
        by_cases same : t = left
        · rw [same] at isParked
          dsimp only at isParked
          rw [Function.update_self, Option.some.injEq] at isParked
          subst isParked
          rcases List.mem_cons.mp member with rfl | lower
          · exact moves
          · exact balanced a lower
        · dsimp only at isParked
          rw [Function.update_of_ne same] at isParked
          exact sound.parked t stack isParked a member
    exact ⟨none, rfl, .of_stack sound.flag rfl (parked new stack isParked) parked⟩
  | spawn thread start next =>
    cases ran
    refine ⟨held, rfl, sound.flag, sound.masked, ⟨moves, balanced⟩, fun t stack isParked a member => ?_⟩
    dsimp only at isParked
    by_cases same : t = thread
    · rw [same, Function.update_self] at isParked
      obtain ⟨flags, _, rfl⟩ := Option.map_eq_some_iff.mp isParked
      rw [List.mem_singleton] at member
      rw [member]
      rfl
    · rw [Function.update_of_ne same] at isParked
      exact sound.parked t stack isParked a member
  | sti next =>
    obtain ⟨rfl, moves⟩ := moves
    cases ran
    exact ⟨none, rfl, sound.goes_on sound.flag (fun some => absurd rfl some) rfl moves balanced rfl⟩
  | call routine next =>
    obtain ⟨rfl, moves⟩ := moves
    cases ran
    exact ⟨none, rfl, sound.goes_on sound.flag sound.masked rfl ((all.body routine).bind moves) balanced rfl⟩

/-- One step is in order and keeps everything so. -/
theorem Sound.step {choice : Choice σ ι κ} (all : code.Balanced) (sound : Sound m held) (did : advance code m choice = some (m', events)) :
    ∃ held', events.foldlM watch held = some held' ∧ Sound m' held' := by
  have atRest : m.stack.isEmpty = true → held = none := by
    intro empty
    have running := sound.running
    rw [List.isEmpty_iff.mp empty] at running
    exact running
  cases choice with
  | run =>
    rw [advance] at did
    have running := sound.running
    cases isStack : m.stack with
    | nil =>
      rw [isStack] at did
      cases did
    | cons a below =>
      rw [isStack] at did running
      exact sound.run all running.1 running.2 did
  | tick =>
    rw [advance] at did
    split at did
    · next on =>
      cases did
      cases held with
      | none => exact ⟨none, rfl, sound.enter all.tick⟩
      | some flags =>
        have off := sound.masked (by simp)
        rw [off] at on
        cases on
    · cases did
  | gate i =>
    rw [advance] at did
    split at did
    · next empty =>
      cases did
      cases atRest empty
      exact ⟨none, rfl, sound.enter (all.gate i)⟩
    · cases did
  | direct c =>
    rw [advance] at did
    split at did
    · next empty =>
      cases did
      cases atRest empty
      exact ⟨none, rfl, sound.flag, sound.masked, ⟨all.direct c, nofun⟩, sound.parked⟩
    · cases did
  | work effect =>
    rw [advance] at did
    split at did
    · cases did
      exact ⟨held, rfl, sound.flag, sound.masked, sound.running, sound.parked⟩
    · cases did

/-- Whatever happens in which order is in order, and everything stays so. -/
theorem disciplined (all : code.Balanced) (start : Sound m none)
    (run : Runs.Run (advance code) (fun _ _ => True) m events m') :
    ∃ held, events.foldlM watch none = some held ∧ Sound m' held := by
  refine run.invariant (fun events m => ∃ held, events.foldlM watch none = some held ∧ Sound m held) ⟨none, rfl, start⟩ ?_
  rintro events m choice m' new ⟨held, inOrder, sound⟩ _ did
  obtain ⟨held', still, sound'⟩ := sound.step all did
  refine ⟨held', ?_, sound'⟩
  rw [List.foldlM_append, inOrder]
  exact still

/-- What is in order never finds the lock taken. -/
theorem never_spins {held held' : Option Bool} (inOrder : events.foldlM watch held = some held') : LockEvent.spin ∉ events := by
  induction events generalizing held with
  | nil => simp
  | cons e rest ih =>
    rw [List.foldlM_cons, Option.bind_eq_bind, Option.bind_eq_some_iff] at inOrder
    obtain ⟨next, first, later⟩ := inOrder
    rw [List.mem_cons, not_or]
    refine ⟨?_, ih later⟩
    rintro rfl
    cases held <;> cases first

/-- An operation on top of the stack is a run. -/
theorem run_once (code : Code σ τ ρ ν ι κ) (isStack : m.stack = ⟨prog, saved⟩ :: below) (ran : m.run code saved below prog = some (m', events)) :
    Runs.Run (advance code) (fun _ c => c = .run) m events m' := by
  refine Runs.Run.next .run .start rfl ?_
  rw [advance, isStack]
  exact ran

/-- The machine does what the program does alone, if nothing comes in between. -/
theorem runs_alone {β : Type} (code : Code σ τ ρ ν ι κ) (p : Prog σ τ ρ ν β) (k : β → Prog σ τ ρ ν Unit) {out : Option Bool} {s : σ} {i : Bool} {v : Option β}
    (isStack : m.stack = ⟨p >>= k, saved⟩ :: below) (moves : Prog.Moves out held p) (flag : m.locked = held.isSome)
    (ran : p.alone m.interrupts m.data = some (s, i, v)) : ∃ events m', Runs.Run (advance code) (fun _ c => c = .run) m events m' ∧
      m'.data = s ∧ m'.interrupts = i ∧ ∃ prog, m'.stack = ⟨prog, saved⟩ :: below ∧
        v.elim (prog.leaves = true) fun v => prog = k v := by
  induction p generalizing m held with
  | done result =>
    cases ran
    exact ⟨[], m, .start, rfl, rfl, k result, isStack, rfl⟩
  | fault => cases ran
  | act effect next ih =>
    have first := run_once code isStack rfl
    obtain ⟨events, m', later, rest⟩ := ih m.data (m := { m with data := effect m.data, stack := ⟨next m.data >>= k, saved⟩ :: below })
      rfl (moves m.data) flag ran
    exact ⟨_, m', first.trans later, rest⟩
  | acquire next ih =>
    obtain ⟨rfl, moves⟩ := moves
    have isFree : m.locked = false := flag
    have took : m.run code saved below (Prog.acquire next >>= k) =
        some ({ m with locked := true, interrupts := false, stack := ⟨next m.interrupts >>= k, saved⟩ :: below },
          [.acquire m.interrupts]) := by
      rw [show (Prog.acquire next >>= k) = Prog.acquire fun flags => (next flags).bind k from rfl, Machine.run, isFree]
      rfl
    have first := run_once code isStack took
    obtain ⟨events, m', later, rest⟩ := ih m.interrupts
      (m := { m with locked := true, interrupts := false, stack := ⟨next m.interrupts >>= k, saved⟩ :: below })
      rfl (moves m.interrupts) rfl ran
    exact ⟨_, m', first.trans later, rest⟩
  | release flags next ih =>
    obtain ⟨rfl, moves⟩ := moves
    have first := run_once code isStack rfl
    obtain ⟨events, m', later, rest⟩ := ih (m := { m with locked := false, interrupts := flags, stack := ⟨next >>= k, saved⟩ :: below })
      rfl moves rfl ran
    exact ⟨_, m', first.trans later, rest⟩
  | switch old new next =>
    cases ran
    exact ⟨[], m, .start, rfl, rfl, _, isStack, rfl⟩
  | spawn thread start next ih =>
    have first := run_once code isStack rfl
    obtain ⟨events, m', later, rest⟩ := ih
      (m := { m with
        stack := ⟨next >>= k, saved⟩ :: below
        parked := Function.update m.parked thread (start.map fun flags => [⟨.done (), some flags⟩]) })
      rfl moves flag ran
    exact ⟨_, m', first.trans later, rest⟩
  | sti next ih =>
    obtain ⟨rfl, moves⟩ := moves
    have first := run_once code isStack rfl
    obtain ⟨events, m', later, rest⟩ := ih (m := { m with interrupts := true, stack := ⟨next >>= k, saved⟩ :: below })
      rfl moves flag ran
    exact ⟨_, m', first.trans later, rest⟩
  | call routine next =>
    cases ran
    exact ⟨[], m, .start, rfl, rfl, _, isStack, rfl⟩

end Machine

end HobbyKernel.LockProgram
