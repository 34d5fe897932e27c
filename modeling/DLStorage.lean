import DLStorage.Base.Dict
import DLStorage.Base.Fanout
import DLStorage.Base.Frame
import DLStorage.Base.Linearizable
import DLStorage.Base.Locked
import DLStorage.Base.Newest
import DLStorage.Base.Ranking
import DLStorage.Base.Recency
import DLStorage.Base.Run
import DLStorage.Types
import DLStorage.Store.Lww
import DLStorage.Store.Run
import DLStorage.Store.Writes
import DLStorage.Store.ClosedForm
import DLStorage.Store.Liveness
import DLStorage.Store.Basic
import DLStorage.Store.Locked
import DLStorage.Store.Refinement
import DLStorage.Store.Standing
import DLStorage.Ring
import DLStorage.Ring.Routing
import DLStorage.Dispatcher
import DLStorage.ConnectionPool
import DLStorage.Node.Handle
import DLStorage.Node.Wire
import DLStorage.Consistency
import DLStorage.Node.Sync
import DLStorage.Node.Async
import DLStorage.Node.Reads
import DLStorage.Consistency.Fhw
import DLStorage.Node.Delivery
import DLStorage.Node.Views
import DLStorage.Node.Acks
import DLStorage.Node.Agreement
import DLStorage.Node.Deletes
import DLStorage.Cluster.Register
import DLStorage.Cluster.FirstHit
import DLStorage.Discovery
import DLStorage.PeerComm.Gossip
import DLStorage.Node.Identity
import DLStorage.Cluster.Expiry
import DLStorage.Cluster.Membership
import DLStorage.Cluster.Removal
import DLStorage.Cluster.Departure
import DLStorage.Cluster.OwnRing
import DLStorage.PeerComm.Probing
import DLStorage.PeerComm.Statements
import DLStorage.PeerComm.Rounds
import DLStorage.Cluster.Exchange
import DLStorage.Cluster.Quiescence
import DLStorage.Cluster.Convergence
import DLStorage.Node.Threads
import DLStorage.Node.Tasks
import DLStorage.Node.Shutdown
import DLStorage.ConnectionPool.Wire
import DLStorage.ConnectionPool.Retry
import DLStorage.Base.Slots
import DLStorage.ConnectionPool.Queues
import DLStorage.ConnectionPool.Pairing
import DLStorage.ConnectionPool.Closing
import DLStorage.ConnectionPool.Stale
import DLStorage.ConnectionPool.Mux
import DLStorage.ConnectionPool.Places
import DLStorage.ConnectionPool.Streams
import DLStorage.ConnectionPool.Leaks
import DLStorage.ConnectionPool.Once
import DLStorage.ConnectionPool.Bounds
import DLStorage.ConnectionPool.Warmest
import DLStorage.ConnectionPool.Lifo
import DLStorage.ConnectionPool.DropIn
import DLStorage.ConnectionPool.Reader
import DLStorage.ConnectionPool.Wakeup
import DLStorage.Cluster.Concurrent
import DLStorage.Cluster.Alone
import DLStorage.Cluster.Knowledge
import DLStorage.Cluster.Linearizable
import DLStorage.Cluster.Freshness
import DLStorage.Cluster.Provenance
import DLStorage.Node.Server
import DLStorage.Cluster.Rpc
