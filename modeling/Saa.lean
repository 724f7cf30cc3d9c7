import Saa.Word
import Saa.Opcode
import Saa.Config
import Saa.Step
import Saa.Lib.Trace
import Saa.Lib.Linked
import Saa.View
import Saa.Invariant
import Saa.Moves
import Saa.Calls
import Saa.Entries
import Saa.Release
import Saa.Passes
import Saa.Queue
import Saa.Effects
import Saa.Frame
import Saa.Flow
import Saa.Transitions
import Saa.Resolution
import Saa.Memory
import Saa.Waiters
import Saa.Ledger
import Saa.Credit
import Saa.Balance
import Saa.Owners
import Saa.Permits
import Saa.Fifo
import Saa.Solo
import Saa.Verdict
import Saa.Poison
import Saa.WaitModes
import Saa.Gates
import Saa.Tally
import Saa.Pager
import Saa.Handoff
import Saa.LifeCycle
import Saa.Batch
import Saa.Removal
import Saa.Drops
import Saa.Barrier
import Saa.Rounds
import Saa.Addressing
import Saa.Walks
import Saa.Releasing
import Saa.Adapters
import Saa.Lib.Greedy
import Saa.Outcome
import Saa.Commute
import Saa.Lib.Refine
import Saa.Lib.Allocator
import Saa.Allocator
import Saa.Progress
import Saa.Lib.Sweep
import Saa.Deadlock
import Saa.Commands
import Saa.Draining
import Saa.Assertions
import Saa.Contract
import Saa.Trying
import Saa.Blocking
import Saa.Queries
import Saa.Gathering
import Saa.Composition
import Saa.Polling
