import TinyLsm.Sstable.Lookup
import TinyLsm.Sstable.IndexBounds
import TinyLsm.Sstable.AcceptedBlocks
import TinyLsm.Sstable.CacheIndex
import TinyLsm.Sstable.Damage
import TinyLsm.Sstable.TableIterator
import TinyLsm.Sstable.RoundTrip
import TinyLsm.Sstable.Version1
import TinyLsm.Wal.Damage
import TinyLsm.Wal.Bounds
import TinyLsm.Memtable.Batches
import TinyLsm.Memtable.Representation
import TinyLsm.Manifest.Codec
import TinyLsm.Iterator.MergeExact
import TinyLsm.Iterator.VisibilityIterator
import TinyLsm.Iterator.VisibilityExact
import TinyLsm.Lab.StorageInspector
import TinyLsm.Db.GroupLimits
import TinyLsm.Db.PendingFlush
import TinyLsm.Db.Backpressure
import TinyLsm.Db.Layers
import TinyLsm.Db.IteratorSeek
import TinyLsm.Db.RangeReads
import TinyLsm.Db.Compaction
import TinyLsm.Db.TableVersions
import TinyLsm.Db.Unlinks
import TinyLsm.Db.NumberLedger
import TinyLsm.Db.CacheCoherence
import TinyLsm.Db.Publication
import TinyLsm.Db.CreationRetry
import TinyLsm.Db.WriteMemory
import TinyLsm.Db.PublishedFiles
import TinyLsm.Db.PublishedManifests
import TinyLsm.Db.CommitSimulation
import TinyLsm.Db.StickyErrors
import TinyLsm.Db.Refinement
import TinyLsm.Db.Lives
import TinyLsm.Db.Openable
import TinyLsm.Db.SnapshotRegistry
import TinyLsm.Io.PosixFile
import TinyLsm.Db.Quiescence
import TinyLsm.Db.Linearizability
import TinyLsm.Db.Closing
import TinyLsm.Db.SingleClient
