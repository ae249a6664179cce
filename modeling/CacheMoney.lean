import CacheMoney.Found.Outcome
import CacheMoney.Found.FiniteMap
import CacheMoney.Found.Ranked
import CacheMoney.Found.RobinHood
import CacheMoney.Found.Canonical
import CacheMoney.Found.Crowding
import CacheMoney.Found.Prog
import CacheMoney.Found.Script
import CacheMoney.Found.Fuel
import CacheMoney.Found.Pool
import CacheMoney.Found.Apart
import CacheMoney.Found.History
import CacheMoney.Found.Charges
import CacheMoney.Found.Layers
import CacheMoney.Found.Locking
import CacheMoney.Found.Stateful
import CacheMoney.Found.Stepwise
import CacheMoney.Found.Decimal
import CacheMoney.Found.Scanner
import CacheMoney.Found.Bits
import CacheMoney.Found.Nibbles
import CacheMoney.Found.CountMin
import CacheMoney.Shardmap.Table
import CacheMoney.Shardmap.Layout
import CacheMoney.Shardmap.Insert
import CacheMoney.Shardmap.Delete
import CacheMoney.Shardmap.Reachable
import CacheMoney.Shardmap.History
import CacheMoney.Shardmap.Hysteresis
import CacheMoney.Shardmap.Map
import CacheMoney.Shardmap.Refinement
import CacheMoney.Shardmap.Termination
import CacheMoney.Shardmap.Sample
import CacheMoney.Shardmap.Draws
import CacheMoney.Shardmap.Locks
import CacheMoney.Shardmap.Linearizable
import CacheMoney.Shardmap.Snapshots
import CacheMoney.Shardmap.Clock
import CacheMoney.Engine.Cache
import CacheMoney.Engine.Actions
import CacheMoney.Engine.Eviction
import CacheMoney.Engine.Methods
import CacheMoney.Engine.Reference
import CacheMoney.Engine.Accounting
import CacheMoney.Engine.Ceiling
import CacheMoney.Engine.Rounds
import CacheMoney.Engine.Lifetime
import CacheMoney.Engine.Refusal
import CacheMoney.Engine.Tuning
import CacheMoney.Engine.Admission
import CacheMoney.Engine.Paths
import CacheMoney.Engine.Histories
import CacheMoney.Engine.Statistics
import CacheMoney.Engine.Clock
import CacheMoney.Engine.AtRest
import CacheMoney.Resp.Grammar
import CacheMoney.Resp.Reader
import CacheMoney.Resp.Buffered
import CacheMoney.Resp.Canonical
import CacheMoney.Resp.Writer
import CacheMoney.Resp.RoundTrip
import CacheMoney.Resp.Truncation
import CacheMoney.Resp.Value
import CacheMoney.Resp.Scratch
import CacheMoney.Resp.Reply
import CacheMoney.Server.Eventloop
import CacheMoney.Server.Agreement
import CacheMoney.Server.Traffic
import CacheMoney.Server.Commands
import CacheMoney.Server.Replies
import CacheMoney.Server.Dialect
import CacheMoney.Server.Inversion
import CacheMoney.Server.Serving
import CacheMoney.Server.Pipeline
import CacheMoney.Server.Expiry
import CacheMoney.Server.Frame
import CacheMoney.Server.Deadlines
import CacheMoney.Server.Sessions
import CacheMoney.Server.Keyspace
import CacheMoney.Server.Concurrent
import CacheMoney.Server.Counting
import CacheMoney.Server.Lifecycle
import CacheMoney.Server.Shutdown
import CacheMoney.Server.Slots
import CacheMoney.Server.Draining
import CacheMoney.Tinylfu.Sketch
import CacheMoney.Tinylfu.Unpacked
import CacheMoney.Tinylfu.Doorkeeper
import CacheMoney.Tinylfu.Policy
import CacheMoney.Tinylfu.Buffer
import CacheMoney.Tinylfu.Drainer
import CacheMoney.Tinylfu.Serial
import CacheMoney.Tinylfu.Aging
import CacheMoney.Tinylfu.Conservation
import CacheMoney.Tinylfu.Wakeup
import CacheMoney.Tinylfu.Closing
import CacheMoney.Tinylfu.Words
import CacheMoney.Tinylfu.Torn
