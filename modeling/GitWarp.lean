import GitWarp.Writing.LamportOrder
import GitWarp.Provenance.Slices
import GitWarp.History.RefLayout
import GitWarp.History.Wormhole
import GitWarp.Sync.TrustGate
import GitWarp.Sync.SyncResponsePaging
import GitWarp.Sync.CanonicalPayload
import GitWarp.Sync.SyncRateLimiter
import GitWarp.Sync.HonestClient
import GitWarp.Trust.ChainOfCustody
import GitWarp.Trust.StateBuilding
import GitWarp.Index.MaterializedViewVerifier
import GitWarp.Index.PropertyFidelity
import GitWarp.Runtime.View
import GitWarp.Runtime.BisectService
import GitWarp.Optic.ResumedTraversal
import GitWarp.Optic.CheckpointFactResolver
import GitWarp.Trie.FailedCalls
import GitWarp.Session.Budgets
import GitWarp.Session.Projection
import GitWarp.Temporal.Showing
import GitWarp.Audit.ChainVerification
import GitWarp.Audit.Completeness
import GitWarp.State.CheckpointLoad
import GitWarp.State.CheckpointSerializer
import GitWarp.State.StateDiff
import GitWarp.Provenance.OpCodecs
import GitWarp.Provenance.CascadeDelete
import GitWarp.Query.CycleWitness
import GitWarp.Query.ShortestPath
import GitWarp.Query.WeightedLongestPath
import GitWarp.Query.BothEnds
import GitWarp.Query.QueryRunner
import GitWarp.Query.QueryNodePatternIndex
import GitWarp.Query.HeapRuns
import GitWarp.Crdt.DotCodec
import GitWarp.Codec.SortedKeys
import GitWarp.State.TtdMergeInspector
