import MikroKernel.Machine.Basic
import MikroKernel.Machine.Spinlock
import MikroKernel.Lib.Run
import MikroKernel.Alloc.Buddy
import MikroKernel.Proof.TicketLock
import MikroKernel.Proof.TicketFair
import MikroKernel.Alloc.PhysAlloc
import MikroKernel.Alloc.Slab
import MikroKernel.Lib.Bits
import MikroKernel.Lib.Chain
import MikroKernel.Lib.Ring
import MikroKernel.Lib.Tiling
import MikroKernel.Machine.Effect
import MikroKernel.Proof.Buddy.Bits
import MikroKernel.Proof.Buddy.Race
import MikroKernel.Proof.Buddy.Runs
import MikroKernel.Proof.Buddy.Steps
import MikroKernel.Proof.Buddy.Ragged
import MikroKernel.Proof.Buddy.Metadata
import MikroKernel.Proof.Buddy.Many
import MikroKernel.Proof.Buddy.Early
import MikroKernel.Proof.Buddy.Orders
import MikroKernel.Proof.Buddy.Positions
import MikroKernel.Proof.Slab.Cache
import MikroKernel.Proof.Slab.Calls
import MikroKernel.Proof.Slab.Create
import MikroKernel.Proof.Slab.Choice
import MikroKernel.Proof.Slab.Race
import MikroKernel.Proof.Alloc.Locks
import MikroKernel.Proof.Alloc.Mapped
import MikroKernel.Proof.Alloc.GiveBack
import MikroKernel.Proof.Alloc.Whole
import MikroKernel.Proof.Mmu.Runs
import MikroKernel.Proof.Mmu.Rights
import MikroKernel.Proof.Mmu.Cached
import MikroKernel.Proof.Mmu.Single
import MikroKernel.Proof.Mmu.Overlap
import MikroKernel.Proof.Mmu.Rounding
import MikroKernel.Proof.RbTree.Delete
import MikroKernel.Proof.RbTree.Runs
import MikroKernel.Proof.RbTree.Validate
import MikroKernel.Proof.Slab.Runs
import MikroKernel.Proof.Slab.Sizes
import MikroKernel.Proof.Vm.Agree
import MikroKernel.Proof.Vm.Race
import MikroKernel.Proof.Vm.Switch
import MikroKernel.Proof.Vm.Batch
import MikroKernel.Proof.Vm.DirectMap
import MikroKernel.Proof.Vm.Frames
import MikroKernel.Proof.Vm.Booted
import MikroKernel.Proof.Boot.MemoryMap
import MikroKernel.Proof.Boot.Pmap
import MikroKernel.Proof.Boot.StartKernel
import MikroKernel.Proof.Interrupt.Report
