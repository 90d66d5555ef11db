import SpackPlayground.BurstBuffer.FlushContract
import SpackPlayground.BurstBuffer.HeapInvariant
import SpackPlayground.Striped.Disjointness
import SpackPlayground.LinkedQueue.Fifo
import SpackPlayground.Pmem2Bench.MappedMemory
import SpackPlayground.KeyValue.Restart
import SpackPlayground.KeyValue.FiniteMap
import SpackPlayground.PhiAccrual.Server
import SpackPlayground.Timing.Benchmarks
import SpackPlayground.VersionedArray.CrashConsistency
import SpackPlayground.PmemObjBench.LostFailure
import SpackPlayground.PrettyBytes.PrettyTo
import SpackPlayground.PmemObjBench.Leaks
import SpackPlayground.SynchronizedValue.Serializable
import SpackPlayground.PhiAccrual.Heartbeats
import SpackPlayground.PhiAccrual.Fresh
import SpackPlayground.PhiAccrual.Variance
import SpackPlayground.PhiAccrual.Suspicion
import SpackPlayground.AtomicOps.References
import SpackPlayground.DistributedCounter.Sum
import SpackPlayground.BurstBuffer.RoundTrip
import SpackPlayground.Psync.Callers
import SpackPlayground.PmemBlkBench.Shutdown
import SpackPlayground.TransactionCounter.Isolation
import SpackPlayground.OutOfOrder.CrashImages
import SpackPlayground.LinkedQueue.Typed
import SpackPlayground.BurstBuffer.ForEach
import SpackPlayground.KeyValue.Typed
import SpackPlayground.WriterReader.TornWrites
import SpackPlayground.Accounts.Atomicity
import SpackPlayground.KeyValue.Invocations
import SpackPlayground.Pmem2Bench.Contents
import SpackPlayground.SynchronizedValue.Waiting
import SpackPlayground.Paintball.Chambers
