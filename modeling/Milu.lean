import Milu.Hash
import Milu.Hashtbl.Basic
import Milu.Hashtbl.Placement
import Milu.Hashtbl.Resize
import Milu.Hashtbl.Refinement
import Milu.Hashtbl.Duplicates
import Milu.Hashtbl.Concurrent
import Milu.Hashtbl.PointerKeys
import Milu.Pool.Basic
import Milu.Pool.Slots
import Milu.Pool.Conservation
import Milu.Lib.Keyed
import Milu.Tracker.Basic
import Milu.Tracker.World
import Milu.Tracker.Accounting
import Milu.Lib.Shares
import Milu.Tracker.Reuse
import Milu.Tracker.Init
import Milu.Hashtbl.Locks
import Milu.Lib.Ends
import Milu.Tracker.Process
import Milu.Tracker.Operations
import Milu.Tracker.Reentrancy
import Milu.Pool.Outstanding
import Milu.Tracker.Ownership
import Milu.Hashtbl.Agreement
import Milu.Hashtbl.Lossless
import Milu.Hashtbl.Rehash
import Milu.Hashtbl.Runs
import Milu.Hashtbl.Counter
import Milu.Hashtbl.Growth
import Milu.Hashtbl.Cleanup
import Milu.Tracker.Report
import Milu.Tracker.Equivalents
import Milu.Tracker.Traversals
import Milu.Tracker.Untracked
import Milu.Tracker.Exhaustion
import Milu.Lib.Holdings
import Milu.Tracker.Interposed
import Milu.Tracker.Transparency
import Milu.Pool.Layout
import Milu.Lib.Fifo
import Milu.Pool.Fifo
import Milu.Pool.Counter
import Milu.Pool.Returns
import Milu.Lib.Ledger
import Milu.Pool.Routing
import Milu.Pool.Storage
import Milu.Pool.Construction
import Milu.Pool.Count
import Milu.Hashtbl.Thread
import Milu.Hashtbl.Balance
import Milu.Hashtbl.Storage
import Milu.Hashtbl.FailedInit
import Milu.Lib.Links
import Milu.Pool.Queue
import Milu.Hashtbl.Chains
import Milu.Hashtbl.InMemoryOps
import Milu.Hashtbl.InMemoryResize
import Milu.Hashtbl.InMemoryRuns
import Milu.Pool.InMemory
import Milu.Pool.InMemoryOps
import Milu.Pool.InMemoryRuns
import Milu.Lib.Atomicity
import Milu.Pool.QueueAtomicity
import Milu.Pool.SharedBank
import Milu.Pool.SharedBankRuns
import Milu.Pool.SharedBankService
import Milu.Lib.Segments
import Milu.Lists.Calls
import Milu.Lists.Runs
import Milu.Lib.Scatter
import Milu.HashSpread
