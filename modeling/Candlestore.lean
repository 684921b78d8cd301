import Candlestore.Candle
import Candlestore.Lib.Bisect
import Candlestore.Lib.KeyedList
import Candlestore.Lib.Text
import Candlestore.Lib.Utf8
import Candlestore.RingBuffer
import Candlestore.RingOrder
import Candlestore.RawRing
import Candlestore.Parquet
import Candlestore.ColdNames
import Candlestore.RoundTrip
import Candlestore.Store.Basic
import Candlestore.Store.Merge
import Candlestore.Store.History
import Candlestore.Lib.WeakMemory
import Candlestore.Lib.Window
import Candlestore.Store.Queries
import Candlestore.Store.Restart
import Candlestore.Store.Rejected
import Candlestore.Lib.Recency
import Candlestore.Store.Recency
import Candlestore.Store.Counters
import Candlestore.Lib.System
import Candlestore.Lib.Trace
import Candlestore.Lib.Threads
import Candlestore.Lib.Simulation
import Candlestore.Lib.RwLock
import Candlestore.Lib.Fair
import Candlestore.Lib.Pacer
import Candlestore.Lib.Sparse
import Candlestore.Store.Concurrent
import Candlestore.Store.Memory
import Candlestore.Store.Assertions
import Candlestore.Store.Interleaving
import Candlestore.Store.Sequential
import Candlestore.Store.Conservation
import Candlestore.Store.Progress
import Candlestore.Store.RangeRace
import Candlestore.Store.Wakeup
import Candlestore.Store.Snapshot
import Candlestore.Store.Locks
import Candlestore.Store.Reads
import Candlestore.Store.Accounts
import Candlestore.Store.Atomicity
import Candlestore.Store.LockOrder
import Candlestore.Lib.SortedMap
import Candlestore.Matching.Order
import Candlestore.Matching.Book
import Candlestore.Matching.Sweep
import Candlestore.Matching.Priority
import Candlestore.Matching.BookInv
import Candlestore.Matching.Submit
import Candlestore.Matching.Reference
import Candlestore.Matching.Ledger
import Candlestore.Matching.Portfolio
import Candlestore.Matching.Positions
import Candlestore.Matching.Paper
import Candlestore.Matching.AnyOrder
import Candlestore.Matching.Confined
import Candlestore.Matching.TradePrice
import Candlestore.Matching.FillOrKill
import Candlestore.Lib.Wrapping
import Candlestore.Spsc.Ring
import Candlestore.Spsc.Moves
import Candlestore.Spsc.Fifo
import Candlestore.Spsc.Depth
import Candlestore.Spsc.Orderings
import Candlestore.Spsc.Processes
import Candlestore.Spsc.Attach
import Candlestore.Spsc.Levels
import Candlestore.Spsc.Transfer
import Candlestore.Spsc.Ingest
import Candlestore.Spsc.Segment
import Candlestore.Hub.Executor
import Candlestore.Hub.Wire
import Candlestore.Hub.RateGate
import Candlestore.Hub.Shutdown
import Candlestore.Hub.Exits
import Candlestore.Hub.Lifecycle
import Candlestore.Hub.Sma
import Candlestore.Hub.Strategy
import Candlestore.Hub.Crossover
import Candlestore.Feed.Generator
import Candlestore.Feed.Handler
import Candlestore.Feed.Delivery
