import Keva.Lib.Bytes
import Keva.Lib.Expiry
import Keva.Lib.RangeOrder
import Keva.Wal.Record
import Keva.Wal.Replay
import Keva.Eviction.Policy
import Keva.Wal.Writer
import Keva.Store.KVStore
import Keva.Store.Content
import Keva.Store.Recover
import Keva.Store.Run
import Keva.Store.Restart
import Keva.Store.Reject
import Keva.Lib.Outcome
import Keva.Protocol.Message
import Keva.Protocol.Decode
import Keva.Lib.Reach
import Keva.Store.Concurrent
import Keva.Store.Settled
import Keva.Store.LogOrder
import Keva.Protocol.Frame
import Keva.Cluster.Raft
import Keva.Cluster.Leader
import Keva.Cluster.Sync
import Keva.Cluster.Replication
import Keva.Cluster.Converge
import Keva.Lib.Quorum
import Keva.Cluster.Election
import Keva.Cluster.ElectionSafety
import Keva.Wal.Flusher
import Keva.Wal.ShortWrite
import Keva.Store.Torn
import Keva.Store.Interval
import Keva.Cluster.Callbacks
import Keva.Cluster.Heartbeats
import Keva.Cluster.Restarts
import Keva.Cluster.Network
import Keva.Cluster.Following
import Keva.Cluster.Join
import Keva.Cluster.Peers
import Keva.Cluster.Acks
import Keva.Cluster.Rejoin
import Keva.Eviction.Room
import Keva.Store.Accounts
import Keva.Store.Evicted
import Keva.Protocol.RoundTrip
import Keva.Store.Compacting
import Keva.Cluster.Terms
import Keva.Store.MakingRoom
import Keva.Protocol.Topology
import Keva.Cluster.Deadline
import Keva.Store.Sweeps
import Keva.Lib.Text
import Keva.Utils.MemoryBytes
import Keva.Store.Sections
import Keva.Lib.Recency
import Keva.Store.Recency
import Keva.Cluster.Fleet
import Keva.Lib.Linearizable
import Keva.Store.Linear
import Keva.Server.Engine
import Keva.Server.Session
import Keva.Server.Answers
import Keva.Store.Budgeted
import Keva.Store.Durable
import Keva.Cluster.Progress
import Keva.Cluster.Reign
import Keva.Store.Sampling
import Keva.Store.PowerLoss
import Keva.Store.Shrinks
import Keva.Cli.Client
import Keva.Cli.Routing
import Keva.Utils.FormatBytes
import Keva.Config.Boot
