import Rdb.Lib.Machine
import Rdb.Lib.LittleEndian
import Rdb.Lib.StreamParser
import Rdb.Transport.FrameStream
import Rdb.Concurrency.QueueThreads
import Rdb.Concurrency.Wakeups
import Rdb.Concurrency.HighWater
import Rdb.Concurrency.Closing
import Rdb.Concurrency.TimedWaits
import Rdb.Concurrency.PoolShutdown
import Rdb.Concurrency.PoolQuiescence
import Rdb.Concurrency.SpscRefinement
import Rdb.Concurrency.SpscSize
import Rdb.Concurrency.RingCapacity
import Rdb.Lib.AssocMap
import Rdb.Msg.Header
import Rdb.Msg.SchemaHash
import Rdb.Msg.BufferOwnership
import Rdb.Bus.Ledger
import Rdb.Bus.QosGate
import Rdb.Bus.QosOrder
import Rdb.Bus.LateJoiner
import Rdb.Bus.Delivery
import Rdb.Bus.Isolation
import Rdb.Bus.TypeSafety
import Rdb.Bus.Registration
import Rdb.Bus.PublisherOrder
import Rdb.Bus.Unsubscribe
import Rdb.Bus.DeliveryLoop
import Rdb.Bus.Retention
import Rdb.Bus.MismatchReport
import Rdb.Bus.Backlog
import Rdb.Transport.Ambiguity
import Rdb.Transport.DecoderMemory
import Rdb.Metrics.Percentile
import Rdb.Lib.Fairness
import Rdb.Bench.RingProgress
import Rdb.Bench.QueueProgress
import Rdb.Bus.Settling
import Rdb.Concurrency.PoolProgress
import Rdb.Concurrency.PoolTasks
import Rdb.Concurrency.SpscReserve
import Rdb.Bus.Observations
import Rdb.Common.Ticker
