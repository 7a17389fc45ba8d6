import VmkitCore.Lib.Machine
import VmkitCore.Lib.ByteMemory
import VmkitCore.ObjectModel.Header
import VmkitCore.ObjectModel.Object
import VmkitCore.ObjectModel.Move
import VmkitCore.ObjectModel.Hashing
import VmkitCore.Sync.Monitor
import VmkitCore.Sync.MonitorInvariant
import VmkitCore.Sync.Exclusion
import VmkitCore.Sync.WaitHandshake
import VmkitCore.Threading.Thread
import VmkitCore.Threading.Blocking
import VmkitCore.Threading.BlockingInvariant
import VmkitCore.Threading.BlockingSafety
import VmkitCore.Threading.Evolution
import VmkitCore.Threading.ThreadManager
import VmkitCore.Threading.ThreadManagerInvariant
import VmkitCore.Threading.StopTheWorld
import VmkitCore.Threading.ThreadTable
import VmkitCore.Threading.ParkedScope
import VmkitCore.Threading.Registration
import VmkitCore.ObjectModel.Finalization
import VmkitCore.ObjectModel.PendingFinalizers
import VmkitCore.Threading.Suspension
import VmkitCore.Threading.SuspensionInvariant
import VmkitCore.Threading.SuspensionBalance
import VmkitCore.Threading.SignalCollection
import VmkitCore.Threading.Wakeup
import VmkitCore.Bdwgc.CollectionLocks
import VmkitCore.Bdwgc.SuspendedHolders
import VmkitCore.Mm.Tlab
import VmkitCore.Mm.TlabSignals
import VmkitCore.Mm.Allocation
import VmkitCore.Mm.BlocksDisjoint
import VmkitCore.Mm.CollectionSwitch
import VmkitCore.ObjectModel.Copy
import VmkitCore.ObjectModel.CopySizes
import VmkitCore.ObjectModel.Compression
import VmkitCore.Lib.Loop
import VmkitCore.Bdwgc.Descriptors
import VmkitCore.Bdwgc.DescriptorCoverage
import VmkitCore.Threading.MainThread
import VmkitCore.Threading.Sleeping
import VmkitCore.Threading.YieldpointCollection
import VmkitCore.Threading.YieldpointWakeup
import VmkitCore.Threading.Settled
import VmkitCore.Threading.ManualRegistration
import VmkitCore.Threading.Moves
import VmkitCore.Threading.Resuming
import VmkitCore.ObjectModel.Tracing
import VmkitCore.ObjectModel.FinalizerCustody
import VmkitCore.Lib.LockOrder
import VmkitCore.Threading.Pairing
import VmkitCore.Threading.SoftHandshake
import VmkitCore.Threading.HandshakeThreads
import VmkitCore.Threading.HandshakeCounter
import VmkitCore.Threading.SavedContext
import VmkitCore.ObjectModel.Scanning
import VmkitCore.Threading.InnerMonitor
import VmkitCore.Threading.CriticalSections
import VmkitCore.Threading.ThreadCleanup
import VmkitCore.Threading.Joining
import VmkitCore.Mm.ObjectReferences
import VmkitCore.Bdwgc.ObjectSizes
import VmkitCore.Threading.LockHandshake
import VmkitCore.Bdwgc.SizeQueries
import VmkitCore.Bdwgc.Realloc
import VmkitCore.Lib.Utf8Lossy
import VmkitCore.Bdwgc.Strings
import VmkitCore.Bdwgc.PthreadCreate
import VmkitCore.ObjectModel.DropFinalizers
import VmkitCore.Mm.InternalPointers
import VmkitCore.Mm.ConservativeRoots
import VmkitCore.Sync.Unwinding
import VmkitCore.Lib.ReentrantLock
import VmkitCore.Sync.LockRefinement
import VmkitCore.Lib.NestedMeta
import VmkitCore.Proc.ArrayLike
import VmkitCore.Proc.DerivedObjects
import VmkitCore.Proc.GcMetadata
import VmkitCore.ObjectModel.FieldAccess
import VmkitCore.Mm.Align
import VmkitCore.Bdwgc.HeaderFields
import VmkitCore.Bdwgc.Kinds
import VmkitCore.Lib.BitTable
import VmkitCore.Mm.SideMetadata
import VmkitCore.Lib.Simulation
import VmkitCore.Lib.Store
import VmkitCore.ObjectModel.Fields
import VmkitCore.ObjectModel.Records
import VmkitCore.Mm.WriteBarrier
import VmkitCore.Bdwgc.DisappearingLinks
import VmkitCore.Bdwgc.Roots
import VmkitCore.Mm.ObjectInit
import VmkitCore.Mm.ObjectBits
import VmkitCore.Mm.StoppedMutators
