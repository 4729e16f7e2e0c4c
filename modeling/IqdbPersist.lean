import IqdbPersist.LittleEndian
import IqdbPersist.BitFlip
import IqdbPersist.CrashLogic
import IqdbPersist.FileSystem
import IqdbPersist.ByteReader
import IqdbPersist.Types
import IqdbPersist.RecordCodec
import IqdbPersist.RecordGrammar
import IqdbPersist.CheckedOps
import IqdbPersist.FieldReaders
import IqdbPersist.RecordSpelling
import IqdbPersist.RecordRoundTrip
import IqdbPersist.LenientDecoding
import IqdbPersist.FramedLog
import IqdbPersist.Journal
import IqdbPersist.WalParse
import IqdbPersist.SampleIndex
import IqdbPersist.DamagedLog
import IqdbPersist.FlippedLog
import IqdbPersist.Compression
import IqdbPersist.CodecCall
import IqdbPersist.Format
import IqdbPersist.HeaderInverse
import IqdbPersist.Snapshot
import IqdbPersist.CheckedParser
import IqdbPersist.HostileBytes
import IqdbPersist.HostWidth
import IqdbPersist.FileRules
import IqdbPersist.Disk
import IqdbPersist.Durability
import IqdbPersist.UnsyncedFile
import IqdbPersist.Storage
import IqdbPersist.Wal
import IqdbPersist.WalLifecycle
import IqdbPersist.SyncWindow
import IqdbPersist.AppendReplay
import IqdbPersist.AtomicWrite
import IqdbPersist.UsablePath
import IqdbPersist.FailedWrite
import IqdbPersist.CrashedWrite
import IqdbPersist.Recovery
import IqdbPersist.Persisted
import IqdbPersist.Mutation
import IqdbPersist.Checkpoint
import IqdbPersist.Loading
import IqdbPersist.Session
import IqdbPersist.SessionLog
import IqdbPersist.SessionJournal
import IqdbPersist.RecoveryContract
import IqdbPersist.TornTail
import IqdbPersist.ShortLog
import IqdbPersist.Reopening
import IqdbPersist.InterruptedCheckpoint
import IqdbPersist.Lockstep
import IqdbPersist.TwinLogs
import IqdbPersist.TwinSessions
import IqdbPersist.RefusedMutation
import IqdbPersist.MutationCrash
import IqdbPersist.UnsyncedLog
import IqdbPersist.DurableSession
import IqdbPersist.AcknowledgedMutation
import IqdbPersist.FailedAppend
import IqdbPersist.SnapshotRoundTrip
import IqdbPersist.LegacySnapshot
import IqdbPersist.DamagedSnapshot
import IqdbPersist.TruncatedSnapshot
import IqdbPersist.Confinement
import IqdbPersist.Emissions
import IqdbPersist.Lifetime
import IqdbPersist.Footprint
import IqdbPersist.Bystanders
import IqdbPersist.DiskRegister
import IqdbPersist.DurableSnapshot
import IqdbPersist.Interleaving
import IqdbPersist.StorageThreads
import IqdbPersist.ConcurrentSaves
import IqdbPersist.DurableObject
import IqdbPersist.Restarting
import IqdbPersist.DurableHistory
import IqdbPersist.UncertainObject
import IqdbPersist.PowerCycles
import IqdbPersist.EnduringIndex
import IqdbPersist.PowerHistory
import IqdbPersist.SharedState
import IqdbPersist.SeveralIndexes
import IqdbPersist.Bursts
import IqdbPersist.UnloggedIndex
import IqdbPersist.CutOpening
import IqdbPersist.Outline
import IqdbPersist.OutlinedCalls
import IqdbPersist.OutlinedLife
import IqdbPersist.InterruptedOpening
import IqdbPersist.BurstDamage
