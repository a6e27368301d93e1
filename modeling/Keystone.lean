import Keystone.Kv.Effects
import Keystone.Kv.Moving
import Keystone.Kv.Sessions
import Keystone.Kv.StateMachine
import Keystone.Kv.Transparency
import Keystone.Lib.BigEndian
import Keystone.Lib.Crash
import Keystone.Lib.Cursors
import Keystone.Lib.Decimal
import Keystone.Lib.HeapOrder
import Keystone.Lib.Hoare
import Keystone.Lib.LittleEndian
import Keystone.Lib.Majority
import Keystone.Lib.Pointers
import Keystone.Lib.RefCount
import Keystone.Lib.Search
import Keystone.Lib.Slices
import Keystone.Lib.TermLog
import Keystone.Lib.TermLogSafety
import Keystone.Lib.TermLogStep
import Keystone.Lib.Tiers
import Keystone.Lib.Transition
import Keystone.Lib.Uvarint
import Keystone.Raft.Conditions
import Keystone.Raft.DiskRecovery
import Keystone.Raft.Handles
import Keystone.Raft.LocalCommit
import Keystone.Raft.LogStores
import Keystone.Raft.MessageShape
import Keystone.Raft.ProbeExchange
import Keystone.Raft.SnapshotIntegrity
import Keystone.Shard.Copy
import Keystone.Shard.MapUpdates
import Keystone.Shard.Router
import Keystone.Shard.ScanDuringMove
import Keystone.Shard.Transfer
import Keystone.Shard.TransferGroups
import Keystone.Shard.TransferSafety
import Keystone.Storage.Batch
import Keystone.Storage.Block
import Keystone.Storage.BlockFormat
import Keystone.Storage.BlockReads
import Keystone.Storage.Bloom
import Keystone.Storage.Compaction
import Keystone.Storage.Engine
import Keystone.Storage.EngineLog
import Keystone.Storage.EngineReads
import Keystone.Storage.KVMap
import Keystone.Storage.Keys
import Keystone.Storage.ManifestCodec
import Keystone.Storage.LastSeq
import Keystone.Storage.MemDB
import Keystone.Storage.MergeIter
import Keystone.Storage.SSTable
import Keystone.Storage.Skiplist
import Keystone.Storage.TableCounts
import Keystone.Storage.TableFaults
import Keystone.Storage.TableFiles
import Keystone.Storage.TableFormat
import Keystone.Storage.TableLifetime
import Keystone.Storage.TableReads
import Keystone.Storage.TableRefs
import Keystone.Storage.TableRoundTrip
import Keystone.Storage.Wal
import Keystone.Storage.WalDurability
import Keystone.Storage.WalSync
