import Lobook.Lib.Checked
import Lobook.Lib.Loop
import Lobook.Lib.BitSets
import Lobook.Lib.Transition
import Lobook.Lib.Links
import Lobook.Lib.Related
import Lobook.Queue.NaiveQueue
import Lobook.Queue.SpscQueue
import Lobook.Queue.Counters
import Lobook.Queue.Fifo
import Lobook.Queue.Modes
import Lobook.Book.PriceTime
import Lobook.Book.PriceBitset
import Lobook.Book.Ladder
import Lobook.Book.NaiveBook
import Lobook.Book.NaiveRefines
import Lobook.Book.NaiveLookup
import Lobook.Book.FastBook
import Lobook.Book.FastBitsetBook
import Lobook.Book.Blocks
import Lobook.Book.Index
import Lobook.Book.Lockstep
import Lobook.Book.Uncrossed
import Lobook.Book.Linked
import Lobook.Book.Pool
import Lobook.Book.Trades
import Lobook.Book.Steps
import Lobook.Book.Refinement
import Lobook.Book.Sweep
import Lobook.Book.Representation
import Lobook.Book.Rested
import Lobook.Book.Liquidity
import Lobook.Book.Execution
import Lobook.Book.Undo
import Lobook.Book.Regular
import Lobook.Book.Equivalence
import Lobook.Book.Exhaustion
import Lobook.Book.Chained
import Lobook.Book.Scan
import Lobook.Engine.MatchingEngine
import Lobook.Book.Replace
import Lobook.Engine.Bounds
import Lobook.Book.Rejection
import Lobook.Book.Termination
import Lobook.Book.Alike
import Lobook.Book.Idle
import Lobook.Book.Twins
import Lobook.Book.Leftover
import Lobook.Book.Observation
import Lobook.Book.Converse
import Lobook.Book.Staging
import Lobook.Book.Exposure
import Lobook.Book.Forgetting
import Lobook.Lib.Fairness
import Lobook.Queue.Capacity
import Lobook.Queue.Monitor
import Lobook.Queue.Delivery
import Lobook.Queue.Handoff
import Lobook.Engine.Server
import Lobook.Engine.Liveness
import Lobook.Engine.Latency
import Lobook.Engine.Workload
import Lobook.Book.Amendment
import Lobook.Book.Priority
import Lobook.Book.Ledger
import Lobook.Book.Tape
import Lobook.Book.Rounds
import Lobook.Engine.EndToEnd
import Lobook.Lib.Decimal
import Lobook.Engine.CommandLine
import Lobook.Book.Trio
import Lobook.Book.Footprint
import Lobook.Book.Calm
import Lobook.Book.BenchmarkReplace
import Lobook.Book.Mirror
import Lobook.Lib.ReleaseAcquire
import Lobook.Queue.MemoryOrder
import Lobook.Queue.Handover
import Lobook.Queue.RaceFree
import Lobook.Queue.Interleaving
