import OptimistOS.Foundation.Run
import OptimistOS.Foundation.Masks
import OptimistOS.Foundation.RadixTree
import OptimistOS.Acpi.Madt
import OptimistOS.Interrupts.IsrStub
import OptimistOS.Paging.FrameFree
import OptimistOS.Paging.MapRuns
import OptimistOS.Scheduler.Preemption
import OptimistOS.Smp.Smp
import OptimistOS.Scheduler.Locks
import OptimistOS.Foundation.Chain
import OptimistOS.Paging.CopiedWalks
import OptimistOS.Process.HeapBlocks
import OptimistOS.Process.StackWindows
import OptimistOS.Process.ThreadNodes
import OptimistOS.Process.CreatedThreads
import OptimistOS.Acpi.MadtBounds
import OptimistOS.Paging.LiveSlots
import OptimistOS.Foundation.BestFit
import OptimistOS.Paging.AllocationStores
import OptimistOS.Heap.LockDiscipline
import OptimistOS.Heap.LiveHeaders
import OptimistOS.Scheduler.NextThread
import OptimistOS.Paging.Reservations
import OptimistOS.Paging.Counters
import OptimistOS.Foundation.Neighbours
import OptimistOS.Paging.Coalescing
import OptimistOS.Foundation.Smear
import OptimistOS.Heap.RecordedSizes
import OptimistOS.Paging.TableWrites
import OptimistOS.Paging.LeafFlags
import OptimistOS.Heap.FreedBlocks
import OptimistOS.Scheduler.PrioritySort
import OptimistOS.Process.ListWalks
import OptimistOS.Process.CreationExits
import OptimistOS.Process.FirstDispatch
import OptimistOS.Acpi.TableSearch
import OptimistOS.Acpi.IoApic
import OptimistOS.Heap.MergedPages
import OptimistOS.Heap.HeapBytes
import OptimistOS.Heap.Loans
import OptimistOS.Heap.SearchEnds
import OptimistOS.Heap.PoolAnswers
import OptimistOS.Heap.Reallocation
import OptimistOS.Paging.WindowMappings
import OptimistOS.Heap.NextPower
import OptimistOS.Paging.EntryFlags
import OptimistOS.Foundation.CStrings
import OptimistOS.Printutils.E9Printf
import OptimistOS.Boot.StringEnds
import OptimistOS.Renderer.Print
import OptimistOS.Renderer.PrintInt
import OptimistOS.Acpi.Lapic
import OptimistOS.Acpi.Redirect
import OptimistOS.Heap.RepeatedRequests
import OptimistOS.Smp.StartsAll
import OptimistOS.Smp.OwnTables
import OptimistOS.Scheduler.TickDispatch
import OptimistOS.Interrupts.IsrHandler
import OptimistOS.Acpi.RedirectRuns
import OptimistOS.Renderer.Screen
import OptimistOS.Boot.Start
import OptimistOS.Paging.KernelTables
import OptimistOS.Process.KernelBlocks
