import NebulaXTrader.Lib.Chain
import NebulaXTrader.Lib.Deframer
import NebulaXTrader.Lib.Doorbell
import NebulaXTrader.Lib.Probe
import NebulaXTrader.Lib.Run
import NebulaXTrader.Lib.SparseArray
import NebulaXTrader.Lib.Tally
import NebulaXTrader.Lib.Wrap
import NebulaXTrader.Lib.Window
import NebulaXTrader.Lib.Cells
import NebulaXTrader.Lib.Positional
import NebulaXTrader.Lib.RunningAverage
import NebulaXTrader.Lib.WeightedMean
import NebulaXTrader.Lib.CheckedRead
import NebulaXTrader.Lib.Segments
import NebulaXTrader.Core.Types
import NebulaXTrader.Book.OrderPool
import NebulaXTrader.Book.OrderMap
import NebulaXTrader.Book.PriceLevelTable
import NebulaXTrader.Book.OrderBook
import NebulaXTrader.Book.Ledger
import NebulaXTrader.Book.Reference
import NebulaXTrader.Book.Lemmas.OrderMap
import NebulaXTrader.Book.Lemmas.PriceLevelTable
import NebulaXTrader.Book.Lemmas.Ledger
import NebulaXTrader.Book.Lemmas.Store
import NebulaXTrader.Book.Lemmas.Simulation
import NebulaXTrader.Book.Lemmas.Reference
import NebulaXTrader.Book.Refinement
import NebulaXTrader.Book.FiniteMap
import NebulaXTrader.Book.LevelMap
import NebulaXTrader.Book.SharedPool
import NebulaXTrader.Book.Lemmas.SharedPool
import NebulaXTrader.Book.Ownership
import NebulaXTrader.Book.SharedMap
import NebulaXTrader.Book.Lemmas.SharedMap
import NebulaXTrader.Book.Lemmas.SharedMapMoves
import NebulaXTrader.Book.Lemmas.SharedMapSteps
import NebulaXTrader.Book.DisjointOwners
import NebulaXTrader.Queue.SPSCByteRing
import NebulaXTrader.Queue.Lemmas.SPSCByteRing
import NebulaXTrader.Queue.SPSCEventRing
import NebulaXTrader.Queue.Lemmas.SPSCEventRing
import NebulaXTrader.Queue.SPMCEventQueue
import NebulaXTrader.Queue.Lemmas.SPMCEventQueue
import NebulaXTrader.Queue.Lemmas.SPMCDelivery
import NebulaXTrader.Queue.BroadcastExact
import NebulaXTrader.Queue.BroadcastWakeup
import NebulaXTrader.Market.MarketEvent
import NebulaXTrader.Market.OrderBookConsumer
import NebulaXTrader.Market.MarketLedger
import NebulaXTrader.Market.Lemmas.MarketLedger
import NebulaXTrader.Market.Lemmas.OrderBookConsumer
import NebulaXTrader.Market.Sharding
import NebulaXTrader.Market.Lemmas.OrderStore
import NebulaXTrader.Market.Frame
import NebulaXTrader.Market.SlotBijection
import NebulaXTrader.Strategy.Signal
import NebulaXTrader.Strategy.Tick
import NebulaXTrader.Market.BookWorker
import NebulaXTrader.Market.SideContext
import NebulaXTrader.Market.OrderFlow
import NebulaXTrader.Market.Isolation
import NebulaXTrader.Market.Message
import NebulaXTrader.Market.MoldUdpUnpacker
import NebulaXTrader.Market.ItchLayout
import NebulaXTrader.Market.ByteRingParser
import NebulaXTrader.Market.Lemmas.ByteRingParser
import NebulaXTrader.Market.Delivery
import NebulaXTrader.Execution.OrderManager
import NebulaXTrader.Execution.RiskManager
import NebulaXTrader.Execution.ExecutionEngine
import NebulaXTrader.Execution.Lemmas.OrderManager
import NebulaXTrader.Execution.Lemmas.RiskManager
import NebulaXTrader.Execution.Lemmas.ExecutionEngine
import NebulaXTrader.Execution.Agreement
import NebulaXTrader.Execution.Session
import NebulaXTrader.Execution.Lemmas.Session
import NebulaXTrader.Execution.CancelRace
import NebulaXTrader.Execution.Exposure
import NebulaXTrader.Execution.Lifecycle
import NebulaXTrader.Execution.Drawdown
import NebulaXTrader.Execution.EquityPeak
import NebulaXTrader.Execution.Flatten
import NebulaXTrader.Execution.CostBasis
import NebulaXTrader.Execution.AveragePrice
import NebulaXTrader.Execution.ProfitAndLoss
import NebulaXTrader.Execution.FailedCancel
import NebulaXTrader.Execution.OrderCodec
import NebulaXTrader.Execution.Lemmas.OrderCodec
import NebulaXTrader.Execution.CodecSwap
import NebulaXTrader.Execution.Reports
import NebulaXTrader.Execution.OrderFrames
import NebulaXTrader.Execution.ReportStream
import NebulaXTrader.Execution.BookQuery
import NebulaXTrader.Lib.Buffer
import NebulaXTrader.Execution.OuchBuffer
import NebulaXTrader.Execution.OuchLayout
import NebulaXTrader.Execution.Corruption
import NebulaXTrader.Market.MalformedPackets
import NebulaXTrader.Queue.UnreadBytes
import NebulaXTrader.Queue.ByteRingPop
import NebulaXTrader.Market.Drain
import NebulaXTrader.Queue.EventFifo
import NebulaXTrader.Execution.MarketOrder
import NebulaXTrader.Net.IoUringSender
import NebulaXTrader.Net.OrderStream
import NebulaXTrader.Net.Residue
import NebulaXTrader.Net.ZeroCopySend
import NebulaXTrader.Net.Lemmas.ZeroCopySend
import NebulaXTrader.Net.Truthful
import NebulaXTrader.Runtime.Threads
import NebulaXTrader.Runtime.Shutdown
import NebulaXTrader.Runtime.Reception
import NebulaXTrader.Runtime.Replay
import NebulaXTrader.Runtime.Dispatcher
import NebulaXTrader.Runtime.Dispatch
import NebulaXTrader.Runtime.Wakeup
import NebulaXTrader.Runtime.Sleep
import NebulaXTrader.Runtime.ChannelRings
import NebulaXTrader.Lib.Balance
import NebulaXTrader.Runtime.Registry
import NebulaXTrader.Strategy.FlowWindow
import NebulaXTrader.Strategy.Arbitration
import NebulaXTrader.Market.Pacing
import NebulaXTrader.Strategy.TickTrades
import NebulaXTrader.Strategy.SignalContract
import NebulaXTrader.Market.TickPrice
import NebulaXTrader.Market.ItchBounds
import NebulaXTrader.Strategy.KLine
import NebulaXTrader.Strategy.Bars
import NebulaXTrader.Strategy.MixedBars
import NebulaXTrader.Net.FrameUtil
import NebulaXTrader.Lib.Blocks
import NebulaXTrader.Net.FrameReceiver
import NebulaXTrader.Net.CopiedPayload
import NebulaXTrader.Lib.CircularQueue
import NebulaXTrader.Net.IoUringPoller
import NebulaXTrader.Net.BatchReceive
import NebulaXTrader.Net.Lemmas.BatchReceive
import NebulaXTrader.Net.BatchDelivery
import NebulaXTrader.Lib.Rank
import NebulaXTrader.Benchmark.PackingLoop
import NebulaXTrader.Benchmark.FileWalk
import NebulaXTrader.Benchmark.Termination
import NebulaXTrader.Lib.Links
import NebulaXTrader.Book.TableLevels
import NebulaXTrader.Market.CheckedBook
import NebulaXTrader.Market.SharedBooks
import NebulaXTrader.Market.Lemmas.SharedBooks
import NebulaXTrader.Market.SlotLinks
import NebulaXTrader.Net.BatchPath
import NebulaXTrader.Net.BufferConservation
import NebulaXTrader.Lib.Linearization
import NebulaXTrader.Book.PoolLinearization
import NebulaXTrader.Runtime.FlowControl
import NebulaXTrader.Runtime.ReplaySession
import NebulaXTrader.Runtime.ReplayEnd
import NebulaXTrader.Execution.SimExchange
import NebulaXTrader.Execution.WireMessages
import NebulaXTrader.Execution.WireRefinement
import NebulaXTrader.Execution.Reconciliation
import NebulaXTrader.Runtime.Machine
import NebulaXTrader.Runtime.MachineBooks
import NebulaXTrader.Runtime.MachineAnswers
import NebulaXTrader.Runtime.MachineDecisions
import NebulaXTrader.Runtime.Programs
import NebulaXTrader.Runtime.ProgramsBooks
import NebulaXTrader.Net.SingleReceive
import NebulaXTrader.Net.SingleDelivery
import NebulaXTrader.Execution.Placement
import NebulaXTrader.Runtime.Trading
import NebulaXTrader.Runtime.TradingOrders
