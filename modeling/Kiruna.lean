import Kiruna.BlockParty.Delivery
import Kiruna.BlockParty.Mailbox
import Kiruna.BlockParty.Outputs
import Kiruna.BlockParty.Pool
import Kiruna.BlockParty.Relaunch
import Kiruna.BlockParty.SideChannel
import Kiruna.Futures.PanicFuture
import Kiruna.Join.FailFast
import Kiruna.Join.Fused
import Kiruna.Join.Join2
import Kiruna.Join.Nested
import Kiruna.Join.NestedRefinement
import Kiruna.Primitive.AtomicWaker
import Kiruna.Primitive.Continuation
import Kiruna.Primitive.Fifo
import Kiruna.Primitive.Parts
import Kiruna.Primitive.Vec
import Kiruna.Seek.FixPath
import Kiruna.Seek.ObjectNames
import Kiruna.Seek.PathForms
import Kiruna.Seek.WindowsPath
import Kiruna.Stream.MacosRead
import Kiruna.Stream.MacosReadProgress
import Kiruna.Stream.Operations
import Kiruna.Stream.OperationsDelivery
import Kiruna.Stream.OperationsIsolation
import Kiruna.Stream.OperationsParts
import Kiruna.Stream.Overlapped
import Kiruna.Stream.OverlappedDelivery
import Kiruna.Stream.OverlappedRefinement
import Kiruna.Stream.OverlappedRule
import Kiruna.Stream.Read
import Kiruna.Stream.ReadBuffer
import Kiruna.Stream.Threadpool
import Kiruna.Stream.Write
import Kiruna.Sync.Executor
import Kiruna.Sync.LateWakes
import Kiruna.Sync.Scheduling
import Kiruna.Test.AwaitedSet
import Kiruna.Test.AwaitedSetProgress
import Kiruna.Test.AwaitedSetReturn
import Kiruna.Test.SparseAwait
import Kiruna.Tpc.Assembly
import Kiruna.Tpc.AssemblyProgress
import Kiruna.Tpc.AssemblyRefinement
import Kiruna.Tpc.AssemblyRest
import Kiruna.Tpc.Bin
import Kiruna.Tpc.BinPolling
import Kiruna.Tpc.BinStep
import Kiruna.Tpc.BinWaking
import Kiruna.Tpc.BorrowedPermits
import Kiruna.Tpc.Channel
import Kiruna.Tpc.ChannelDelivery
import Kiruna.Tpc.ChannelInvariant
import Kiruna.Tpc.ChannelOrder
import Kiruna.Tpc.ChildPlanner
import Kiruna.Tpc.Conservation
import Kiruna.Tpc.Enqueueing
import Kiruna.Tpc.EvenPlans
import Kiruna.Tpc.GlobalState
import Kiruna.Tpc.GuardDropping
import Kiruna.Tpc.GuardWaking
import Kiruna.Tpc.InvalidState
import Kiruna.Tpc.LevelQueues
import Kiruna.Tpc.OnlyJobs
import Kiruna.Tpc.PhysicalCpus
import Kiruna.Tpc.CpuSets
import Kiruna.Tpc.ReferenceCounting
import Kiruna.Tpc.ScopedSet
import Kiruna.Tpc.ScopedSetCompletion
import Kiruna.Tpc.ScopedSetDropping
import Kiruna.Tpc.ScopedSetWaking
import Kiruna.Tpc.SetSync
import Kiruna.Tpc.SimpleGuard
import Kiruna.Tpc.SimpleGuardJobs
import Kiruna.Tpc.Spawning
import Kiruna.Tpc.SpinDown
import Kiruna.Tpc.ThreadAccounting
import Kiruna.Transition.Lts
import Kiruna.Transition.Loop
import Kiruna.Transition.Population
import Kiruna.Transition.Reactive
import Kiruna.Transition.Simulation
