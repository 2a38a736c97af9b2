import HftProject.Lib.Run
import HftProject.Lib.Chunk
import HftProject.Lib.Multimap
import HftProject.Lib.Clearing
import HftProject.Lib.Levels
import HftProject.Lib.Probing
import HftProject.Lib.EventLog
import HftProject.Lib.BoundedFifo
import HftProject.Lib.Atomic
import HftProject.Lib.Conservation
import HftProject.Lib.Loop
import HftProject.Lib.Counting
import HftProject.Lib.RowMajor
import HftProject.Lib.Lines
import HftProject.Lib.Segments
import HftProject.Lib.Unwinding
import HftProject.Lib.Heap
import HftProject.Lib.Rounding
import HftProject.Lib.Decimal
import HftProject.Lib.Text
import HftProject.Week1.MatrixOps
import HftProject.Week1.MatrixProducts
import HftProject.Week1.MatrixBlocks
import HftProject.Week1.MatrixSum
import HftProject.Week1.TransposeCheck
import HftProject.Week2.TradeEngine
import HftProject.Lib.Tally
import HftProject.Week2.TradeOrders
import HftProject.Week2.TradeReport
import HftProject.Week2.Phase2
import HftProject.Week2.PriceHits
import HftProject.Week2.PriceNetwork
import HftProject.Week2.PriceMarket
import HftProject.Week3.OrderManager
import HftProject.Week3.MarketSnapshot
import HftProject.Week3.Strategy
import HftProject.Week3.Mirror
import HftProject.Week3.Lifecycle
import HftProject.Phase4.MemoryPool
import HftProject.Phase4.OrderBook
import HftProject.Phase4.MatchingEngine
import HftProject.Phase4.Invariant
import HftProject.Phase4.Operations
import HftProject.Phase4.Matching
import HftProject.Phase4.Runs
import HftProject.Phase4.Inversion
import HftProject.Phase4.Undo
import HftProject.Phase4.Blocks
import HftProject.Phase4.Execution
import HftProject.Phase4.Quantities
import HftProject.Phase4.Index
import HftProject.Phase4.Engine
import HftProject.Phase4.Ticks
import HftProject.Phase4.Tracking
import HftProject.Phase4.OrderStates
import HftProject.Phase4.Fills
import HftProject.Week5.ObjectPool
import HftProject.Week5.ObjectLifetimes
import HftProject.Week5.ActiveOrders
import HftProject.Week5.UnoptimizedOrderBook
import HftProject.Week5.OptimizedOrderBook
import HftProject.Week5.Representation
import HftProject.Week5.OrderBook
import HftProject.Week5.Agreement
import HftProject.Week5.BestLevels
import HftProject.Week5.Exhaustion
import HftProject.Week5.Phase5Agreement
import HftProject.Week5.RobinHoodHashTable
import HftProject.Week5.RobinHoodInsertion
import HftProject.Week5.RobinHoodFiniteMap
import HftProject.Week5.RobinHoodRuns
import HftProject.Week5.RobinHoodLoops
import HftProject.Week5.RobinHoodDistances
import HftProject.Week5.OrderPriorityQueue
import HftProject.Week5.TimeSeriesProcessor
import HftProject.Week7.ConcurrentQueue
import HftProject.Week7.QueueInvariant
import HftProject.Week7.QueueFifo
import HftProject.Week7.QueueSize
import HftProject.Week7.QueueLinearizable
import HftProject.Week7.LockFreedom
import HftProject.Week7.OrderProcessing
import HftProject.Week7.OrderConservation
import HftProject.Week7.OrderIds
import HftProject.Week7.RingProcessing
import HftProject.Challenge.Server
import HftProject.Challenge.Broadcast
import HftProject.Challenge.Client
import HftProject.Challenge.Reading
import HftProject.Challenge.Fragments
import HftProject.Challenge.Fragmentation
import HftProject.Challenge.Sessions
import HftProject.Challenge.Workers
import HftProject.Challenge.Quotes
import HftProject.Challenge.OrderLines
import HftProject.Challenge.TcpSessions
import HftProject.Challenge.SecLines
import HftProject.Challenge.Loggers
import HftProject.Challenge.LossyNetwork
import HftProject.Challenge.Answers
import HftProject.Challenge.Exchange
import HftProject.Challenge.Pipeline
import HftProject.Week7.Analytics
import HftProject.Week7.Completion
import HftProject.Week7.RingCompletion
import HftProject.Week7.Benchmark
import HftProject.Phase4.Simulation
import HftProject.Week3.FeedParser
import HftProject.Week4.OrderBookBuffer
