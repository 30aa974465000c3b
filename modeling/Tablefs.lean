import Tablefs.Lib.Bytes
import Tablefs.Lib.SortedMap
import Tablefs.Lib.LruCache
import Tablefs.Lib.Run
import Tablefs.Lib.Forest
import Tablefs.Inode
import Tablefs.Hash
import Tablefs.DentryCache
import Tablefs.World
import Tablefs.InodeCache
import Tablefs.Lookup
import Tablefs.FileOps
import Tablefs.NamespaceOps
import Tablefs.Step
import Tablefs.Frame
import Tablefs.Effect
import Tablefs.Log
import Tablefs.Accounts
import Tablefs.Records
import Tablefs.Reachable
import Tablefs.InodeNumbers
import Tablefs.Coherence
import Tablefs.Table
import Tablefs.DentryCoherence
import Tablefs.Quiet
import Tablefs.Rename
import Tablefs.Names
import Tablefs.Removal
import Tablefs.Orphans
import Tablefs.Wrapper
import Tablefs.SysCalls
import Tablefs.FileData
import Tablefs.CurrentRecord
import Tablefs.FileCalls
import Tablefs.BlobFlag
import Tablefs.SharedFile
import Tablefs.Inlining
import Tablefs.OpenHandles
import Tablefs.Unmount
import Tablefs.Fsync
import Tablefs.StoreFailures
import Tablefs.IoFailures
import Tablefs.History
import Tablefs.DentryRuns
import Tablefs.Paths
import Tablefs.Listing
import Tablefs.Monitor
import Tablefs.Attributes
import Tablefs.Symlinks
import Tablefs.SelfRename
import Tablefs.Tree
import Tablefs.Answers
import Tablefs.Aliasing
import Tablefs.BlobPaths
import Tablefs.Descriptors
import Tablefs.Scan
import Tablefs.Locks
import Tablefs.Allocator
import Tablefs.Properties
import Tablefs.DataArea
import Tablefs.Missing
import Tablefs.Lib.Ledger
import Tablefs.FdUses
import Tablefs.OwnedFds
import Tablefs.Lib.Words
import Tablefs.HashBlocks
import Tablefs.RecordNames
import Tablefs.CPort
import Tablefs.Adaptor
import Tablefs.Benchmark
import Tablefs.ScanFiles
import Tablefs.TraceLoader
import Tablefs.Backing
import Tablefs.BackingData
import Tablefs.Crashes
import Tablefs.CrashWindows
import Tablefs.Lib.Crc
import Tablefs.Lib.Updates
import Tablefs.LevelDb.Coding
import Tablefs.LevelDb.WriteBatch
import Tablefs.LevelDb.Crc32c
import Tablefs.LevelDb.LogFile
import Tablefs.LevelDb.TornLog
import Tablefs.LevelDb.SkipList
import Tablefs.LevelDb.Format
import Tablefs.LevelDb.MemTable
import Tablefs.LevelDb.WriteQueue
import Tablefs.LevelDb.Recovery
import Tablefs.Lib.Cursor
import Tablefs.LevelDb.Merger
import Tablefs.LevelDb.DbIter
import Tablefs.LevelDb.DbIterRuns
import Tablefs.LevelDb.MemIter
import Tablefs.LevelDb.NewIterator
