import HobbyKernel.AddressBits
import HobbyKernel.AddressRoundTrip
import HobbyKernel.AddressSpaces
import HobbyKernel.BlockProofs
import HobbyKernel.BootProofs
import HobbyKernel.CacheProofs
import HobbyKernel.CallsReturn
import HobbyKernel.ConsoleProofs
import HobbyKernel.ContextInvariant
import HobbyKernel.ContextProofs
import HobbyKernel.CopyExact
import HobbyKernel.CopyProofs
import HobbyKernel.Core.Boot
import HobbyKernel.Core.Cache
import HobbyKernel.Core.Console
import HobbyKernel.Core.Cpu
import HobbyKernel.Core.Elf
import HobbyKernel.Core.Interrupts
import HobbyKernel.Core.Kheap
import HobbyKernel.Core.Kprintf
import HobbyKernel.Core.Launch
import HobbyKernel.Core.Locked
import HobbyKernel.Core.Machine
import HobbyKernel.Core.Memory
import HobbyKernel.Core.PageAlloc
import HobbyKernel.Core.Paging
import HobbyKernel.Core.StressTest
import HobbyKernel.Core.Switch
import HobbyKernel.Core.Syscall
import HobbyKernel.Core.System
import HobbyKernel.Core.Task
import HobbyKernel.Core.Uaccess
import HobbyKernel.DoubleFree
import HobbyKernel.ElfConfinement
import HobbyKernel.ElfImage
import HobbyKernel.ElfProofs
import HobbyKernel.ForkProofs
import HobbyKernel.FrameAccounts
import HobbyKernel.FrameLosses
import HobbyKernel.FrameSupply
import HobbyKernel.HeapFrames
import HobbyKernel.InterruptProofs
import HobbyKernel.Isolation
import HobbyKernel.IsolationProofs
import HobbyKernel.IsolationSteps
import HobbyKernel.KernelHalf
import HobbyKernel.KheapCoalescing
import HobbyKernel.KheapProofs
import HobbyKernel.KheapRequests
import HobbyKernel.KheapRuns
import HobbyKernel.KprintfProofs
import HobbyKernel.LargePages
import HobbyKernel.Launch
import HobbyKernel.Lib.Blocks
import HobbyKernel.Lib.ByteMemory
import HobbyKernel.Lib.Chain
import HobbyKernel.Lib.Coalescing
import HobbyKernel.Lib.LockProgram
import HobbyKernel.Lib.Loop
import HobbyKernel.Lib.Numerals
import HobbyKernel.Lib.Radix
import HobbyKernel.Lib.Rendezvous
import HobbyKernel.Lib.RoundRobin
import HobbyKernel.Lib.Runs
import HobbyKernel.Lib.Sorts
import HobbyKernel.Lib.SpinLock
import HobbyKernel.Lib.Supply
import HobbyKernel.LiveFrames
import HobbyKernel.LockDiscipline
import HobbyKernel.LockRefinement
import HobbyKernel.MapRefinement
import HobbyKernel.MapSupply
import HobbyKernel.MemoryLoops
import HobbyKernel.MemoryWriters
import HobbyKernel.MessageCopies
import HobbyKernel.PageAllocProofs
import HobbyKernel.PageOwnership
import HobbyKernel.PageWrites
import HobbyKernel.PartnerProofs
import HobbyKernel.PickProofs
import HobbyKernel.ReapProofs
import HobbyKernel.RendezvousOrder
import HobbyKernel.RendezvousProofs
import HobbyKernel.RendezvousProtocol
import HobbyKernel.ReportedSuccess
import HobbyKernel.ScratchPages
import HobbyKernel.SpaceEvolution
import HobbyKernel.StackWords
import HobbyKernel.StressProofs
import HobbyKernel.SwitchProofs
import HobbyKernel.TableOverhead
import HobbyKernel.TaskEffects
import HobbyKernel.TaskInvariant
import HobbyKernel.TimeSlices
import HobbyKernel.UaccessProofs
import HobbyKernel.UserAccess
import HobbyKernel.UserBytes
import HobbyKernel.UserRegisters
import HobbyKernel.WaitProofs
import HobbyKernel.WalkProofs
