import Ubq.Mpmc.Arithmetic
import Ubq.Mpmc.Batches
import Ubq.Mpmc.Completion
import Ubq.Mpmc.Ownership
import Ubq.Mpmc.Skips
import Ubq.Mpmc.Transition
import Ubq.Mpmc.Unwind
import Ubq.Spmc.Iterator
import Ubq.V8.BlockList
import Ubq.V8.Boundary
import Ubq.V8.Progress
import Ubq.V8.Reclaim
import Ubq.V8.Storage
import Ubq.V8.Teardown
import Ubq.FreeList.Conservation
import Ubq.Lubq.RoundRobin
import Ubq.MsQueue.Safety
import Ubq.Block.BlockChain
import Ubq.Block.Cache
import Ubq.Block.Codec
import Ubq.Bench.Adaptive
import Ubq.Bench.Barrier
import Ubq.Bench.Handoff
import Ubq.Bench.Probe.Exact
import Ubq.Mpmc.Unwind
