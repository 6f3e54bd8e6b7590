import KvStore.Rbtree.Model
import KvStore.Lib.Fuel
import KvStore.Rbtree.Repr
import KvStore.Rbtree.Rotate
import KvStore.Rbtree.Insert
import KvStore.Rbtree.Delete
import KvStore.Rbtree.Unlink
import KvStore.Rbtree.Invariant
import KvStore.Lib.KeyValue
import KvStore.Rbtree.Pool
import KvStore.Lib.Alike
import KvStore.Rbtree.Growing
import KvStore.Rbtree.Map
import KvStore.Hash.Model
import KvStore.Hash.Map
import KvStore.Skip.Model
import KvStore.Lib.Levels
import KvStore.Skip.Repr
import KvStore.Skip.Relink
import KvStore.Skip.Spec
import KvStore.Skip.Blocks
import KvStore.Skip.Invariant
import KvStore.Skip.Members
import KvStore.Lib.Endian
import KvStore.Lib.Memory
import KvStore.Mempool.Model
import KvStore.Mempool.Sound
import KvStore.Cache.Central
import KvStore.Cache.Thread
import KvStore.Cache.Placed
import KvStore.Cache.Orderly
import KvStore.Cache.Exclusive
import KvStore.Array.Model
import KvStore.Lib.Guarded
import KvStore.Array.Slots
import KvStore.Array.Returns
import KvStore.Array.Invariant
import KvStore.Array.Map
import KvStore.Rdb.Crc
import KvStore.Rdb.Model
import KvStore.Rdb.Format
import KvStore.Rdb.Save
import KvStore.Rdb.Failure
import KvStore.Rdb.Load
import KvStore.Protocol.Header
import KvStore.Skip.Range
import KvStore.Protocol.Model
import KvStore.Protocol.Payload
import KvStore.Protocol.Mutex
import KvStore.Protocol.Serve
import KvStore.Array.Dense
import KvStore.Protocol.Replies
import KvStore.Protocol.Interchange
import KvStore.Rdb.Restore
import KvStore.Rdb.Records
import KvStore.Rdb.Durable
import KvStore.Protocol.Puts
import KvStore.Server.Reader
import KvStore.Server.Pipeline
import KvStore.Server.Proactor
import KvStore.Server.Turns
import KvStore.Protocol.Clients
import KvStore.Server.Bounds
import KvStore.Server.Footprint
import KvStore.Rbtree.Reach
import KvStore.Protocol.Doors
import KvStore.Lib.Linked
import KvStore.Lib.Tiling
import KvStore.Cache.Pages
import KvStore.Cache.Conserve
import KvStore.Cache.Heads
import KvStore.Cache.Delayed
import KvStore.Protocol.Refused
import KvStore.Skip.Agree
import KvStore.Protocol.Growing
import KvStore.Array.Fills
import KvStore.Protocol.Unwritten
import KvStore.Hash.Range
import KvStore.Rdb.Traverse
import KvStore.Rbtree.Absent
import KvStore.Skip.Place
import KvStore.Skip.Select
import KvStore.Server.Ready
import KvStore.Server.Progress
import KvStore.Lib.Double
import KvStore.Skip.Doubles
import KvStore.Rdb.Codec
import KvStore.Rdb.Reload
import KvStore.Protocol.Lines
import KvStore.Rdb.Backup
import KvStore.Server.Reactor
import KvStore.Lib.Holdings
import KvStore.Ledger.Model
import KvStore.Ledger.Settled
import KvStore.Ledger.Stock
import KvStore.Ledger.Slots
import KvStore.Ledger.Chains
import KvStore.Ledger.Nodes
import KvStore.Ledger.Account
import KvStore.Ledger.Engines
import KvStore.Ledger.Shutdown
import KvStore.Array.Capacity
import KvStore.Rbtree.Destroy
import KvStore.Rdb.Truthful
import KvStore.Lib.LineReader
import KvStore.Lib.Decimal
import KvStore.Rdb.Config
import KvStore.Rdb.ConfigTrip
import KvStore.Rdb.Startup
import KvStore.Cache.Drop
import KvStore.Cache.Merge
import KvStore.Cache.Carve
import KvStore.Cache.Trim
import KvStore.Cache.Frame
import KvStore.Cache.Counts
import KvStore.Cache.Provided
import KvStore.Cache.Track
import KvStore.Protocol.Inverse
import KvStore.Mempool.Chunks
import KvStore.Lib.Bits
import KvStore.Mempool.Bitmap
import KvStore.Lib.History
import KvStore.Network.Model
import KvStore.Network.Linear
import KvStore.Network.Progress
import KvStore.Network.Reading
import KvStore.Network.Maps
import KvStore.Lib.Height
import KvStore.Rbtree.Cost
import KvStore.Rbtree.Order
import KvStore.Lib.Checkpoint
import KvStore.Lifetime.Model
import KvStore.Lifetime.Snapshot
import KvStore.Lifetime.Saves
import KvStore.Lifetime.Steps
import KvStore.Lifetime.Refines
import KvStore.Lifetime.Durability
import KvStore.Lib.OrderedMap
import KvStore.Skip.Destroy
import KvStore.Skip.SortedSet
import KvStore.Protocol.SortedSet
import KvStore.Network.SortedSet
import KvStore.Network.Bench
import KvStore.Network.Leak
import KvStore.Lifetime.Backups
import KvStore.Protocol.Shelf
import KvStore.Network.Shelf
