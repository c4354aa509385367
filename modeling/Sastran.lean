import Sastran.Library.Program
import Sastran.Library.SortedMap
import Sastran.Library.Bytes
import Sastran.Library.PrefixCode
import Sastran.Library.Heap
import Sastran.Library.SortById
import Sastran.Library.Fault
import Sastran.Base
import Sastran.FileNames
import Sastran.Io
import Sastran.Wal.Record
import Sastran.Wal.Log
import Sastran.Wal.Replay
import Sastran.Memtable
import Sastran.SsTable.Bloom
import Sastran.SsTable.Format
import Sastran.SsTable.Writer
import Sastran.SsTable.Reader
import Sastran.SsTable.AnyFile
import Sastran.SsTable.Merge
import Sastran.SsTable.ListMerge
import Sastran.SsTable.RoundTrip
import Sastran.Library.Partial
import Sastran.Hnsw.Metric
import Sastran.Hnsw.Index
import Sastran.Hnsw.Graph
import Sastran.Hnsw.Links
import Sastran.Hnsw.Arena
import Sastran.Hnsw.Snapshot
import Sastran.Hnsw.Reachable
import Sastran.Hnsw.Navigable
import Sastran.Hnsw.Validation
import Sastran.Hnsw.Search
import Sastran.Hnsw.Beam
import Sastran.Hnsw.Selection
import Sastran.Hnsw.Connected
import Sastran.Hnsw.Greedy
import Sastran.Hnsw.Repair
import Sastran.Hnsw.Distinct
import Sastran.Quantize
import Sastran.Hnsw.RoundTrip
import Sastran.Hnsw.Slots
import Sastran.Store.Lsm
import Sastran.Engine.State
import Sastran.Engine.Lsm
import Sastran.Engine.Recovery
import Sastran.Engine.Api
import Sastran.Store.Directory
import Sastran.Engine.Discovery
import Sastran.Engine.Maps
import Sastran.Engine.Matched
import Sastran.Engine.Flush
import Sastran.Engine.Compact
import Sastran.Engine.Open
import Sastran.Engine.Snapshots
import Sastran.Engine.Steps
import Sastran.Engine.Calls
import Sastran.Engine.Runs
import Sastran.Engine.Ids
import Sastran.Engine.Server
import Sastran.Engine.Serving
import Sastran.Engine.Orphans
import Sastran.Engine.Views
import Sastran.Engine.Rebuild
import Sastran.Engine.Recovered
import Sastran.Engine.Mirror
import Sastran.Engine.Agreement
import Sastran.Engine.Dimension
import Sastran.Engine.Filtered
import Sastran.Engine.History
import Sastran.Engine.Anytime
import Sastran.Engine.Interrupted
import Sastran.Engine.HalfCompacted
import Sastran.Engine.TornLog
import Sastran.Engine.Faults
import Sastran.Engine.FailedFlush
import Sastran.Engine.Split
import Sastran.Library.Simulation
import Sastran.Engine.Durable
import Sastran.Library.Crc
import Sastran.Checksum
import Sastran.SsTable.Corruption
import Sastran.Wal.Corruption
import Sastran.Engine.Corruption
import Sastran.Engine.Progress
import Sastran.Engine.Rejected
import Sastran.Engine.Retry
import Sastran.Engine.Volatile
import Sastran.Engine.Bounds
import Sastran.Engine.Answers
