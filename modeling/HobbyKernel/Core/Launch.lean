import HobbyKernel.Core.Switch

/-! Bringing the first program into ring 3: the calls that take a task from
`task_create` to its first instruction, one directly after the other. These are
the ones that `kmain` makes for `wait_test.elf`, but not its block: there the
set-up of the devices comes in between, and `lapic_enable` maps a page through
the boot page tables, neither of which is part of what follows. -/
namespace HobbyKernel

def USER_STACK_TOP : U64 := 0x6000000

/-- `scheduler_init`. -/
def TaskTable.schedulerInit (T : TaskTable) : TaskTable := { T with idleTask := none }

/-- `task_create`, `elf_load`, `page_alloc` and `vmm_map` for a page of stack,
`scheduler_init`, `task_prepare_user_entry`. `none` where one of the first three
calls fails. -/
def loadFirst (k : Kernel) (image : Image) : Option (Kernel × Slot) :=
  match taskCreate k with
  | (_, none) => none
  | (k, some t) =>
    match (k.tasks.slot t).pml4 with
    | none => none
    | some pml4 =>
      match elfLoad k.phys pml4 image with
      | (_, none) => none
      | (s, some entry) =>
        match pageAlloc s 1#32 with
        | (_, none) => none
        | (s, some stackPp) =>
          let s := vmmMap s pml4 (USER_STACK_TOP - PGSIZE) (page2pa stackPp) USER_FLAGS
          let k := { k with phys := s, tasks := k.tasks.schedulerInit }
          some (taskPrepareUserEntry k t entry USER_STACK_TOP, t)

/-- `current_task = t` and `scheduler_switch_to(NULL, t)`, which does not come back. -/
def Processor.enterFirst (p : Processor) (t : Slot) : Processor :=
  let k := schedulerSwitchTo { p.kernel with tasks := { p.kernel.tasks with currentTask := some t } } t
  { p with kernel := k }.exec (contextSwitch none t)

/-- All the calls. -/
def launch (p : Processor) (image : Image) : Option Processor :=
  (loadFirst p.kernel image).map fun out => { p with kernel := out.1 }.enterFirst out.2

end HobbyKernel
