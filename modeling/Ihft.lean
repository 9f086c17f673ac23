import Ihft.Lib.Machine
import Ihft.Lib.Counter
import Ihft.Lib.Broadcast
import Ihft.Lib.GuardedBroadcast
import Ihft.Lib.Endings
import Ihft.Lib.Counting
import Ihft.Lib.Search
import Ihft.Lib.Exceptional
import Ihft.Channel.One2One.Pod
import Ihft.Channel.One2Each.Pod
import Ihft.Channel.One2One.Object
import Ihft.Channel.One2Each.ReaderLimit
import Ihft.Channel.Lifetime
import Ihft.Channel.Agreement
import Ihft.Channel.Measure
import Ihft.Memory.StreamFixedPoolAllocator
import Ihft.Logger.LoggerClient
import Ihft.Logger.SlabProtocol
import Ihft.Logger.Dispatch
import Ihft.Logger.Delivery
import Ihft.Logger.PrintTuple
import Ihft.Lib.Bytes
import Ihft.Logger.LoggerExtraData
import Ihft.Logger.StreamReset
import Ihft.Logger.Backlog
import Ihft.Logger.LoggerSystem
import Ihft.Engine.EngineMain
import Ihft.Platform.ProcessCpuList
import Ihft.Platform.CpuListLaws
import Ihft.Platform.Cmdline
import Ihft.Logger.SoloThread
import Ihft.Logger.SynchMode
import Ihft.Engine.Shutdown
import Ihft.Lib.Rounding
import Ihft.Memory.ArenaAllocator
import Ihft.Memory.MmapPageAllocator
import Ihft.Lib.OrderedMap
import Ihft.Lib.Decimal
import Ihft.Logger.TimePoint
import Ihft.Lib.Rotation
import Ihft.Logger.Rotation
import Ihft.Engine.LogicalCpu
import Ihft.Misc.ConfigHelper
import Ihft.Engine.CpusConfig
import Ihft.Engine.Create
import Ihft.Channel.Construction
import Ihft.Lib.Placement
import Ihft.Logger.Flush
import Ihft.Logger.PackOrder
import Ihft.Logger.Retry
import Ihft.Lib.HandOver
import Ihft.Channel.One2One.RingMemory
import Ihft.Channel.One2One.PodMemory
import Ihft.Channel.One2One.ObjectMemory
import Ihft.Lib.CountDown
import Ihft.Channel.One2Each.PodMemory
import Ihft.Lib.Silence
import Ihft.Channel.One2Each.ObjectMemory
import Ihft.Channel.One2Each.ObjectRaces
import Ihft.Channel.PodQueue
import Ihft.Channel.PingPong
import Ihft.Channel.MeasureThreads
import Ihft.Lib.Lines
import Ihft.Platform.Trait
import Ihft.Platform.CoreLatency
import Ihft.Engine.Startup
