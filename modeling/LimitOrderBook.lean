import LimitOrderBook.Types
import LimitOrderBook.Transition
import LimitOrderBook.KeyedQueue
import LimitOrderBook.OrdMap
import LimitOrderBook.Chain
import LimitOrderBook.Probing
import LimitOrderBook.Loop
import LimitOrderBook.IdMap
import LimitOrderBook.Store
import LimitOrderBook.Pool
import LimitOrderBook.PoolSafety
import LimitOrderBook.Bitmap
import LimitOrderBook.WordScan
import LimitOrderBook.FlatLadder
import LimitOrderBook.StdParts
import LimitOrderBook.Engine
import LimitOrderBook.Flat
import LimitOrderBook.FlatInv
import LimitOrderBook.Repr
import LimitOrderBook.Refine
import LimitOrderBook.RefineCalls
import LimitOrderBook.RefineV1
import LimitOrderBook.OrderBook
import LimitOrderBook.Sized
import LimitOrderBook.Tape
import LimitOrderBook.Matching
import LimitOrderBook.Versions
import LimitOrderBook.Frames
import LimitOrderBook.FrameBuffer
import LimitOrderBook.Protocol
import LimitOrderBook.Codec
import LimitOrderBook.Decoders
import LimitOrderBook.RawFrameBuffer
import LimitOrderBook.OrderIds
import LimitOrderBook.Snapshot
import LimitOrderBook.Gateway
import LimitOrderBook.GatewaySim
import LimitOrderBook.InStep
import LimitOrderBook.Naive
import LimitOrderBook.RefineNaive
import LimitOrderBook.Reference
import LimitOrderBook.Bookkeeper
import LimitOrderBook.Priority
import LimitOrderBook.SelfTrade
import LimitOrderBook.FillOrKill
import LimitOrderBook.Refused
import LimitOrderBook.FiniteMap
import LimitOrderBook.MapPointers
import LimitOrderBook.Mirror
import LimitOrderBook.Reports
import LimitOrderBook.Truthful
import LimitOrderBook.PollLoop
import LimitOrderBook.Delivery
import LimitOrderBook.Orphans
import LimitOrderBook.Requests
import LimitOrderBook.Stream
import LimitOrderBook.Burst
import LimitOrderBook.Feed
import LimitOrderBook.Isolation
import LimitOrderBook.Amend
import LimitOrderBook.Protection
import LimitOrderBook.Inert
import LimitOrderBook.Invisible
import LimitOrderBook.Sentinel
import LimitOrderBook.Audit
import LimitOrderBook.AuditSound
import LimitOrderBook.AuditLater
import LimitOrderBook.Scan
import LimitOrderBook.Numbering
import LimitOrderBook.FeedClient
import LimitOrderBook.Workload
import LimitOrderBook.Differential
import LimitOrderBook.OrderClient
import LimitOrderBook.Session
import LimitOrderBook.ClosedLoop
import LimitOrderBook.EngineAudits
import LimitOrderBook.Traffic
import LimitOrderBook.Slices
import LimitOrderBook.Restore
import LimitOrderBook.Checks
import LimitOrderBook.PropertyTest
import LimitOrderBook.PropertyTape
import LimitOrderBook.PropertySteps
import LimitOrderBook.PropertyPasses
import LimitOrderBook.Growth
import LimitOrderBook.Barrier
import LimitOrderBook.Sharded
