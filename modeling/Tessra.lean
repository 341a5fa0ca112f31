import Tessra.Oplog.ViewRuns
import Tessra.Oplog.Conflicts
import Tessra.Oplog.Reopen
import Tessra.Oplog.Containment
import Tessra.Oplog.Lane
import Tessra.Oplog.Authentic
import Tessra.Oplog.Landed
import Tessra.Oplog.Immutable
import Tessra.Oplog.Owners
import Tessra.Oplog.Chains
import Tessra.Oplog.OwnChanges
import Tessra.Oplog.Inheritance
import Tessra.Oplog.CitationOrder
import Tessra.Oplog.Replicas
import Tessra.Oplog.Signed
import Tessra.Oplog.Availability
import Tessra.Daemon.Renames
import Tessra.Oplog.Transfer
import Tessra.Oplog.Undoing
import Tessra.Daemon.Rollbacks
import Tessra.Daemon.Snapshots
import Tessra.Daemon.Recording
import Tessra.Daemon.Exports
import Tessra.Core.TrieMap
import Tessra.Redb.Reads
import Tessra.Daemon.TreeMerge
import Tessra.Oplog.GlobContained
import Tessra.Semantic.Identity
import Tessra.Semantic.Regions
import Tessra.Semantic.UnitChanges
import Tessra.Cbor.Malleability
import Tessra.Cbor.Deterministic
import Tessra.Daemon.ConflictTerms
import Tessra.Daemon.Reconciling
import Tessra.Semantic.Reindexing
import Tessra.Daemon.CarriedRenames
import Tessra.Daemon.ChangedPaths
import Tessra.Semantic.LandingOrder
import Tessra.Semantic.Gaps
import Tessra.Semantic.Unchanged
import Tessra.Oplog.PredicateRoundTrip
import Tessra.Oplog.Restacked
import Tessra.Oplog.Required
import Tessra.Semantic.WholeWords
import Tessra.Semantic.Chunks
import Tessra.Pack.Layout
import Tessra.Daemon.Swarm
import Tessra.Oplog.PartialRuns
import Tessra.Semantic.UseTrees
import Tessra.Daemon.Reverting
import Tessra.Daemon.Bisect
import Tessra.Daemon.LineEndings
import Tessra.Oplog.LatestAncestor
import Tessra.Semantic.KeyOrder
import Tessra.Oplog.LandedCache
import Tessra.Oplog.StandardEdit
import Tessra.Daemon.Principals
import Tessra.Daemon.WorkspacePaths
import Tessra.Daemon.Paging
import Tessra.Daemon.Ignores
import Tessra.Daemon.Committing
import Tessra.Daemon.OpsSince
import Tessra.Daemon.Memories
import Tessra.Daemon.StandardStatus
import Tessra.Daemon.StandardMemo
import Tessra.Daemon.Blame
import Tessra.Daemon.Releases
import Tessra.Daemon.Anomalies
import Tessra.Daemon.Claims
import Tessra.Daemon.OverlayTests
