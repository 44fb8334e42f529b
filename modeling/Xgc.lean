import Xgc.Lib.Reach
import Xgc.Lib.Blocks
import Xgc.Lib.Runs
import Xgc.Lib.Keyed
import Xgc.Lib.Tracing
import Xgc.Core.Types
import Xgc.Core.Memory
import Xgc.Core.Worklist
import Xgc.Core.Bitmap
import Xgc.Core.CardTable
import Xgc.Core.CardSpec
import Xgc.Core.CardMap
import Xgc.Core.Runtime
import Xgc.Heap.Managed
import Xgc.Heap.Collected
import Xgc.Heap.Client
import Xgc.Heap.Manager
import Xgc.Heap.Program
import Xgc.Heap.Refinement
import Xgc.Heap.Sparing
import Xgc.Heap.Finalizer
import Xgc.Algo.Mark
import Xgc.Algo.MarkSpec
import Xgc.Algo.MarkRun
import Xgc.Algo.Sweep
import Xgc.Algo.MarkSweep
import Xgc.Algo.MarkSweepSpec
import Xgc.Algo.MarkSweepFinalizer
import Xgc.Algo.GenCopy
import Xgc.Algo.GenLayout
import Xgc.Algo.GenPromote
import Xgc.Algo.GenMinor
import Xgc.Algo.GenWays
import Xgc.Algo.GenPhases
import Xgc.Algo.MinorRun
import Xgc.Algo.GenCollect
import Xgc.Algo.GenSweep
import Xgc.Algo.GenSpec
import Xgc.Algo.GenNursery
import Xgc.Algo.GenClient
import Xgc.Algo.GenFinalizer
import Xgc.Algo.Spared
import Xgc.Algo.Unbound
import Xgc.Algo.Footprint
import Xgc.Algo.GenFootprint
import Xgc.Algo.BaconRajan
import Xgc.Guarantees.Generational
import Xgc.Guarantees.MarkSweep
import Xgc.Guarantees.Accounting
import Xgc.Guarantees.Checker
import Xgc.Guarantees.Handles
import Xgc.Guarantees.Cards
import Xgc.Guarantees.DirtyCards
import Xgc.Guarantees.Bitmaps
import Xgc.Guarantees.Worklists
import Xgc.Guarantees.Pinning
import Xgc.Guarantees.Teardown
import Xgc.Guarantees.Allocation
import Xgc.Guarantees.NurseryWalk
import Xgc.Guarantees.Termination
import Xgc.Guarantees.SweepFinalizers
import Xgc.Guarantees.NurseryFinalizers
import Xgc.Guarantees.MinorLosses
import Xgc.Guarantees.MarkLosses
import Xgc.Guarantees.Registration
import Xgc.Guarantees.Agreement
import Xgc.Guarantees.Leaks
import Xgc.Guarantees.Tenants
import Xgc.Guarantees.Retention
import Xgc.Guarantees.Garbage
import Xgc.Guarantees.Motion
import Xgc.Guarantees.Remembered
import Xgc.Guarantees.Availability
import Xgc.Guarantees.Order
import Xgc.Guarantees.Settled
import Xgc.Guarantees.Pressure
import Xgc.Guarantees.Safety
import Xgc.Guarantees.Behaved
