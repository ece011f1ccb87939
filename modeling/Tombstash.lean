import Tombstash.Base.Bytes
import Tombstash.Base.OrdMap
import Tombstash.Base.Runs
import Tombstash.Record
import Tombstash.Wal
import Tombstash.Base.Versions
import Tombstash.Memtable
import Tombstash.BloomFilter
import Tombstash.SSTable
import Tombstash.SSTableFormat
import Tombstash.SSTableRead
import Tombstash.Compaction
import Tombstash.Base.Disk
import Tombstash.ValueLog
import Tombstash.Names
import Tombstash.Manifest
import Tombstash.DB
import Tombstash.Leveled
import Tombstash.Step
import Tombstash.Reads
import Tombstash.Scan
import Tombstash.Flush
import Tombstash.Work
import Tombstash.Moves
import Tombstash.Sound
import Tombstash.Merge
import Tombstash.Picks
import Tombstash.Invariant
import Tombstash.Contents
import Tombstash.Placement
import Tombstash.Install
import Tombstash.Refine
import Tombstash.Numbers
import Tombstash.Levels
import Tombstash.Arrange
import Tombstash.Store
import Tombstash.Interleave
import Tombstash.Open
import Tombstash.Commit
import Tombstash.Backed
import Tombstash.Phases
import Tombstash.DiskMoves
import Tombstash.DiskCommits
import Tombstash.Recover
import Tombstash.Opening
import Tombstash.Garbage
import Tombstash.Touches
import Tombstash.Session
import Tombstash.SessionInvariant
import Tombstash.SessionRuns
import Tombstash.ClosedStore
import Tombstash.DeepLevels
import Tombstash.Failures
import Tombstash.Pointers
import Tombstash.Reopen
import Tombstash.Collect
import Tombstash.Aborted
import Tombstash.Reload
import Tombstash.Histories
import Tombstash.Journal
import Tombstash.Sessions
import Tombstash.Strategies
import Tombstash.Promises
import Tombstash.Durability
import Tombstash.Ledger
import Tombstash.Tiered
import Tombstash.SSTableOpen
import Tombstash.Selection
import Tombstash.Quiescence
import Tombstash.CompactorRounds
import Tombstash.FileNames
import Tombstash.NameRuns
import Tombstash.Loading
import Tombstash.Restart
import Tombstash.Bootstrap
import Tombstash.Idempotence
import Tombstash.Settling
import Tombstash.Classification
import Tombstash.Rotation
import Tombstash.RotationRuns
import Tombstash.RotationRecovery
import Tombstash.Base.PowerLoss
import Tombstash.Base.Volume
import Tombstash.Power
import Tombstash.PowerMoves
import Tombstash.PowerRuns
import Tombstash.Snapshots
import Tombstash.Base.Pinning
import Tombstash.Readers
import Tombstash.Salvage
import Tombstash.Crashes
import Tombstash.Progress
import Tombstash.ReadCost
import Tombstash.Backpressure
import Tombstash.Directory
import Tombstash.Cli
