import HobbyKernel.IsolationSteps

/-! Address spaces stay apart over whole runs: whatever tasks do, and whenever
frames run out, a frame that a lower-half entry maps has no second use. -/
namespace HobbyKernel.IsolationProofs
open TaskTable TaskEffects TaskInvariant AddressBits PageAllocProofs WalkProofs AddressSpaces UserAccess PageWrites
open Isolation IsolationSteps Runs Radix

variable {mem₀ : PhysMem} {boot f : Frame} {k₀ k : Kernel} {free : List Nat} {events : List Event} {t u : Slot}
  {va : U64} {r : Frame} {level : Nat}

/-- The kernel has booted with a list of free frames, none of which is a table
of the kernel. -/
structure BootedWith (k : Kernel) (free : List Nat) : Prop where
  booted : Booted k
  list : FreeList k.phys free
  apart : ∀ level f, Table k.phys.mem (getCurrentPml4 k.cr3) level f → f ∉ free

theorem BootedWith.isolated (boot : BootedWith k free) : Isolated k.phys.mem (getCurrentPml4 k.cr3) k free := by
  obtain ⟨⟨T, nobody, _, isInit⟩, list, apart⟩ := boot
  obtain ⟨all, _, current, _⟩ := taskTableInit_slots T
  have empty : ∀ t, (k.tasks.slot t).pml4 = none ∧ (k.tasks.slot t).kstack = none ∧
      (k.tasks.slot t).state = .unused := by
    intro t
    obtain ⟨link, init⟩ := all t
    rw [isInit, init]
    exact ⟨rfl, rfl, rfl⟩
  have noNode : ∀ {depth t path f}, ¬ Node (layout Lower) k.phys.mem (spaces k.tasks) depth t path f := by
    rintro depth t path f ⟨_, _, r, isRoot, _⟩
    rw [spaces, (empty t).1] at isRoot
    cases isRoot
  have isKernel : ∀ o f, Owns (layout Lower) k.phys.mem (spaces k.tasks) 4
      (holds k.phys.mem (getCurrentPml4 k.cr3) k.tasks) o f →
      o = .other .kernel ∧ ∃ level, Table k.phys.mem (getCurrentPml4 k.cr3) level f := by
    intro o f owns
    cases o with
    | node t path => exact absurd owns noNode
    | other holder =>
      cases holder with
      | kernel => exact ⟨rfl, owns⟩
      | kstack t =>
        obtain ⟨base, isBase, _⟩ := owns
        rw [(empty t).2.1] at isBase
        cases isBase
  refine ⟨⟨list, ⟨fun o o' f owns owns' => ?_, fun o f owns => ?_⟩, fun t path g i node => absurd node noNode⟩,
    fun t => ?_, fun _ _ _ => rfl, fun t r j isSpace => ?_, .inl ⟨?_, rfl⟩⟩
  · rw [(isKernel o f owns).1, (isKernel o' f owns').1]
  · obtain ⟨_, level, table⟩ := isKernel o f owns
    exact apart level f table
  · exact ⟨fun _ => ⟨(empty t).1, (empty t).2.1⟩, fun used => absurd (empty t).2.2 used⟩
  · rw [(empty t).1] at isSpace
    cases isSpace
  · rw [isInit, current, nobody]

theorem run_isolated (boot : BootedWith k₀ free) (run : Run step KeepsLower k₀ events k) :
    ∃ rest, Isolated k₀.phys.mem (getCurrentPml4 k₀.cr3) k rest := by
  have both := run.invariant
    (fun _ k => TableInv k.tasks ∧ ∃ rest, Isolated k₀.phys.mem (getCurrentPml4 k₀.cr3) k rest) ⟨?_, ?_⟩ ?_
  · exact both.2
  · exact run_tableInv boot.booted (.start : Run step KeepsLower k₀ [] k₀)
  · exact ⟨free, boot.isolated⟩
  · rintro _ k a k' new ⟨table, rest, iso⟩ may did
    exact ⟨step_tableInv table did, (step_secure table iso may did).isolated⟩

/-- A table the processor meets below a task's root is a table of the task or
of the kernel. -/
theorem table_owned (iso : Isolated mem₀ boot k free) (isSpace : (k.tasks.slot u).pml4 = some r)
    (table : Table k.phys.mem r level f) :
    (∃ path, path.length + level = 3 ∧ Node (layout Lower) k.phys.mem (spaces k.tasks) 4 u path f) ∨
      Table mem₀ boot level f := by
  induction table with
  | top => exact .inl ⟨[], rfl, by simp, by simp [Layout.Admitted], r, isSpace, rfl⟩
  | @entry level t _ i isPresent small ih =>
    rcases ih with ⟨path, length, node⟩ | kernelTable
    · by_cases admitted : (layout Lower).Admitted (path ++ [i])
      · refine .inl ⟨path ++ [i], by simp; omega, by simp; omega, admitted, r, isSpace, ?_⟩
        obtain ⟨_, _, r', isRoot, reached⟩ := node
        rw [spaces, isSpace] at isRoot
        cases isRoot
        rw [follow_concat, reached, Option.bind_some, layout_dec, ← cpu_present, isPresent, cpu_address]
        rfl
      · -- The upper half of the root belongs to the kernel.
        cases path with
        | cons j path => exact absurd node.2.1 admitted
        | nil =>
          obtain ⟨_, _, r', isRoot, reached⟩ := node
          rw [spaces, isSpace] at isRoot
          cases isRoot
          cases reached
          have notLower : ¬ Lower i := fun lower => admitted (by intro j first; cases first; exact lower)
          have isTop : level + 1 = 3 := by simpa using length
          rw [iso.upper u r i isSpace notLower] at isPresent small ⊢
          exact .inr (.entry (isTop ▸ .top) i isPresent small)
    · rw [iso.kernel _ _ kernelTable] at isPresent small ⊢
      exact .inr (.entry kernelTable i isPresent small)

/-- The kernel's tables are those it booted with. -/
theorem kernel_tables (iso : Isolated mem₀ boot k free) (table : Table k.phys.mem boot level f) :
    Table mem₀ boot level f := by
  induction table with
  | top => exact .top
  | entry _ i isPresent small ih =>
    rw [iso.kernel _ _ ih] at isPresent small ⊢
    exact .entry ih i isPresent small

/-- A lower-half address of a task is mapped to a frame. -/
def MapsTo (k : Kernel) (t : Slot) (va : U64) (f : Frame) : Prop :=
  (k.tasks.slot t).state ≠ .unused ∧ va.toNat < 2 ^ 47 ∧ ∃ r, (k.tasks.slot t).pml4 = some r ∧
    present (leafEntry k.phys r va) = true ∧ tableOf (leafEntry k.phys r va) = f

theorem MapsTo.node (maps : MapsTo k t va f) :
    Node (layout Lower) k.phys.mem (spaces k.tasks) 4 t (tablePath va ++ [leafIndex va]) f := by
  obtain ⟨_, small, r, isSpace, isPresent, rfl⟩ := maps
  exact leaf_node isSpace (lower_of_small small) isPresent

/-- **Address spaces are isolated.** In every state a system reaches, a frame
that is mapped by a lower-half entry of a task is mapped by no other such entry
of any task, and is neither a page table, nor a kernel stack, nor free. -/
theorem frames_isolated (boot : BootedWith k₀ free) (run : Run step KeepsLower k₀ events k) :
    ∃ rest, FreeList k.phys rest ∧
      (∀ t u va va' f, MapsTo k t va f → MapsTo k u va' f → t = u ∧ va.toNat / 4096 = va'.toNat / 4096) ∧
      ∀ t va f, MapsTo k t va f → f ∉ rest ∧
        (∀ u base, (k.tasks.slot u).state ≠ .unused → (k.tasks.slot u).kstack = some base → f ≠ frameOf base) ∧
        (∀ u r level, (k.tasks.slot u).state ≠ .unused → (k.tasks.slot u).pml4 = some r →
          ¬ Table k.phys.mem r level f) ∧
        ∀ level, ¬ Table k.phys.mem (getCurrentPml4 k₀.cr3) level f := by
  obtain ⟨rest, iso⟩ := run_isolated boot run
  have exclusive := iso.forest.exclusive
  refine ⟨rest, iso.forest.list, fun t u va va' f maps maps' => ?_, fun t va f maps => ⟨?_, ?_, ?_, ?_⟩⟩
  · obtain ⟨same, samePath⟩ := exclusive.node_unique maps.node maps'.node
    obtain ⟨path, index⟩ := List.append_inj' samePath rfl
    have page := (same_page_iff va va').mp ⟨path, by simpa using index⟩
    rw [← BitVec.toNat_inj, pageOf_toNat, pageOf_toNat] at page
    have small := maps.2.1
    have small' := maps'.2.1
    exact ⟨same, by omega⟩
  · exact exclusive.node_unfree maps.node
  · rintro u base _ isBase rfl
    have same := exclusive.unique (.node t (tablePath va ++ [leafIndex va])) (.other (.kstack u)) _ maps.node ⟨base, isBase, rfl⟩
    cases same
  · intro u r level _ isSpace table
    rcases table_owned iso isSpace table with ⟨path, length, node⟩ | kernelTable
    · have samePath := (exclusive.node_unique maps.node node).2
      have four : (tablePath va ++ [leafIndex va]).length = 4 := rfl
      rw [← samePath, four] at length
      omega
    · exact (iso.kernel_apart kernelTable).2 t _ maps.node
  · intro level table
    exact (iso.kernel_apart (kernel_tables iso table)).2 t _ maps.node

theorem bootKernel_bootedWith {frames : Nat} (bound : 1 + frames ≤ 2 ^ 40) :
    BootedWith (bootKernel frames) (List.range' 1 frames) := by
  refine ⟨bootKernel_booted frames, clearedPhys_free bound, fun level f table => ?_⟩
  -- Cleared memory has no present entry, so the only table is the root.
  cases table with
  | top => simp [bootKernel, getCurrentPml4, frameOf]
  | entry _ i isPresent _ =>
    have absent : Cpu.isPresent 0 = false := by decide
    exact absurd (absent.symm.trans isPresent) (by decide)

/-- A task with one stack page forks: the child's page is another frame. -/
theorem frames_isolated_forked : ∃ k events f g, Run step KeepsLower (bootKernel 20) events k ∧
    MapsTo k 1 0x5000 f ∧ MapsTo k 2 0x5000 g ∧ f ≠ g := by
  let actions := [.create, .mapStack 1 0x5000, .prepare 1 0 0, .start 1, call SYS_FORK 0]
  have lower : (pml4Index 0x5000).toNat < KERNEL_PML4_START := by decide
  have kept : ∀ k, ∀ a ∈ actions, KeepsLower k a := by
    intro k
    simp only [actions, call, List.forall_mem_cons, KeepsLower]
    simpa using lower
  have ran : (exec (fun _ _ => true) step (bootKernel 20) actions).map (fun out =>
      ([1, 2].map fun t => ((out.1.tasks.slot t).state, (out.1.tasks.slot t).pml4),
        [1, 7].map fun r => (present (leafEntry out.1.phys r 0x5000), tableOf (leafEntry out.1.phys r 0x5000)))) =
      some ([(.runnable, some 1), (.runnable, some 7)], [(true, 3), (true, 8)]) := by
    decide +kernel
  obtain ⟨⟨k, events⟩, did, now⟩ := Option.map_eq_some_iff.mp ran
  have run : Run step KeepsLower (bootKernel 20) events k := run_of_exec (fun k a member _ => kept k a member) did
  simp only [List.map_cons, List.map_nil, Prod.mk.injEq, List.cons.injEq, and_true] at now
  obtain ⟨⟨⟨state₁, space₁⟩, state₂, space₂⟩, ⟨present₁, page₁⟩, present₂, page₂⟩ := now
  have first : MapsTo k 1 0x5000 3 := ⟨by rw [state₁]; decide, by decide, 1, space₁, present₁, page₁⟩
  have second : MapsTo k 2 0x5000 8 := ⟨by rw [state₂]; decide, by decide, 7, space₂, present₂, page₂⟩
  obtain ⟨_, _, unique, _⟩ := frames_isolated (bootKernel_bootedWith (by decide)) run
  refine ⟨k, events, 3, 8, run, first, second, fun same => ?_⟩
  rw [← same] at second
  exact absurd (unique 1 2 _ _ _ first second).1 (by decide)

end HobbyKernel.IsolationProofs
