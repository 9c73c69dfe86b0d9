import HobbyKernel.Core.Kheap
import HobbyKernel.Core.Machine

/-! The kernel with its heap. Kernel code allocates on behalf of whoever runs:
the pages of the heap are mapped through the PML4 in use. -/
namespace HobbyKernel

structure System where
  kernel : Kernel
  heap : Kheap

inductive SystemAction where
  | run (a : Action)
  | kmalloc (size : U64)
  | kfree (ptr : U64)

end HobbyKernel
