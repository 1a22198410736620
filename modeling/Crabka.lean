import Crabka.Kraft.Core.Election
import Crabka.Metadata.Authorization
import Crabka.Metadata.Indexes
import Crabka.Broker.Replica.Isr
import Crabka.Broker.Replica.HighWatermark
import Crabka.Broker.Controller.PartitionChanges
import Crabka.Broker.Produce.SessionSequences
import Crabka.Broker.Txn.Coordinator
import Crabka.Broker.Txn.Identities
import Crabka.Log.CompactionSwap
import Crabka.Log.Truncation
import Crabka.Log.CommittedView
import Crabka.Kraft.Log.ControlRuns
import Crabka.Kraft.Engine.ServeFetch
import Crabka.Kraft.Engine.SnapshotFetch
import Crabka.Log.RawLog
import Crabka.Broker.Produce.ProducerIdRuns
import Crabka.Broker.Share.AcquisitionRuns
import Crabka.Broker.Wal.QuorumRuns
import Crabka.Broker.Group.ClassicRuns
import Crabka.Broker.Group.OffsetRuns
import Crabka.Broker.Wal.FollowerRuns
import Crabka.Gres.Tso.HybridClock
import Crabka.Broker.Share.PersisterRuns
import Crabka.Broker.Share.StateMerge
import Crabka.Gres.Substrate.Recovery
import Crabka.Pgexec.Autocommit
import Crabka.Pgexec.TsGc
import Crabka.Pgexec.HorizonCache
import Crabka.Log.StableOffset
import Crabka.Broker.Remote.TierRetention
import Crabka.Gres.Ranges.EmptySplit
import Crabka.Broker.Replica.Reconciliation
import Crabka.Broker.Remote.AbortedReads
import Crabka.Broker.Remote.FetchBatch
import Crabka.Broker.Remote.MetadataCache
import Crabka.Broker.Group.Assignors
