import Micius.Lib.LittleEndian
import Micius.Lib.Bincode
import Micius.Lib.Crc
import Micius.Lib.Protobuf
import Micius.Lib.TreeMap
import Micius.Lib.Runs
import Micius.Lib.Measures
import Micius.Lib.Numerals
import Micius.Lib.Bags
import Micius.Lib.LastWrites
import Micius.Lib.ReplaceFile
import Micius.Lib.Grouping
import Micius.Lib.Bisect
import Micius.Lib.Machine
import Micius.Lib.GreedyRuns
import Micius.Types
import Micius.FileWrites
import Micius.KeyCodec
import Micius.Crates
import Micius.Reference.Instance
import Micius.Wal.Truncation
import Micius.Wal.Refinement
import Micius.Wal.Failures
import Micius.Wal.Rotation
import Micius.Wal.TornTail
import Micius.Wal.Corruption
import Micius.Wal.FileNames
import Micius.Wal.Damage
import Micius.Wal.Safety
import Micius.Chunk.RoundTrip
import Micius.Chunk.Bloom
import Micius.Chunk.Deltas
import Micius.Chunk.Consistency
import Micius.Chunk.Safety
import Micius.Chunk.Corruption
import Micius.Memtable
import Micius.Memtable.LastWriteWins
import Micius.Index.Exact
import Micius.Index.Visibility
import Micius.Index.Persistence
import Micius.Reference.Bincode
import Micius.Index.SnapshotFile
import Micius.Index.Reachable
import Micius.Index.Pruning
import Micius.Index.Select
import Micius.Compaction
import Micius.Compaction.Groups
import Micius.Compaction.Newest
import Micius.Compaction.Tiers
import Micius.Compaction.Cycle
import Micius.Compaction.Outcomes
import Micius.Compaction.Convergence
import Micius.Server.Query
import Micius.Server.Exactness
import Micius.Server.SnapshotGating
import Micius.Server.CompactionSafety
import Micius.Server.Isolation
import Micius.Server.Overwrites
import Micius.Server.QueryComplete
import Micius.Server.QueryOnce
import Micius.Server.LiveReplay
import Micius.Server.Atomicity
import Micius.Server.Resume
import Micius.Server.OpenTwice
import Micius.Server.References
import Micius.Server.Routing
import Micius.Server.Resharding
import Micius.Server.Sessions
import Micius.Server.FailedFlush
import Micius.Server.Progress
import Micius.Server.Retention
import Micius.Server.OpenSafety
import Micius.Server.Accounts
