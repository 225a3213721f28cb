import KeysCore.Lib.Table
import KeysCore.Lib.Except
import KeysCore.Lib.Forest
import KeysCore.Lib.CycleBreak
import KeysCore.Lib.Offers
import KeysCore.Basic
import KeysCore.Vault
import KeysCore.Mirror
import KeysCore.Mutations
import KeysCore.Projection
import KeysCore.PeerGroups
import KeysCore.Ingest
import KeysCore.PeerIngest
import KeysCore.ConflictRows
import KeysCore.Verify.StructuralRuns
import KeysCore.Verify.BreakCycles
import KeysCore.Verify.GroupConvergence
import KeysCore.Verify.GroupRelocation
import KeysCore.Verify.ConflictSettling
import KeysCore.Verify.EntryLocation
import KeysCore.Verify.MoveRuns
import KeysCore.Verify.DeleteRuns
import KeysCore.Verify.MutationSeq
import KeysCore.ProjectionReads
import KeysCore.Verify.ProjectionReads
import KeysCore.Persistence
import KeysCore.Verify.Persistence
import KeysCore.EntryMutations
import KeysCore.Verify.EngineOps
import KeysCore.Verify.Cascade
import KeysCore.Verify.LiveTombstones
import KeysCore.Settling
import KeysCore.Verify.EngineRuns
import KeysCore.Verify.VaultIngest
import KeysCore.Verify.WholeSeconds
import KeysCore.Reconcile
import KeysCore.Verify.NoChange
import KeysCore.Verify.EntryRows
import KeysCore.Verify.RoundTrip
import KeysCore.Attachments
import KeysCore.Verify.BlobReach
import KeysCore.Verify.PullSucceeds
import KeysCore.Lib.Run
import KeysCore.Lib.Since
import KeysCore.Redial
import KeysCore.Tags
import KeysCore.Verify.EntryBodies
import KeysCore.Verify.IngestSucceeds
import KeysCore.Verify.MergeStamps
import KeysCore.Verify.Redial
import KeysCore.Verify.Tags
import KeysCore.DerivedColumns
import KeysCore.Verify.DerivedColumns
import KeysCore.HistoryRows
import KeysCore.Lib.Like
import KeysCore.ServiceSearch
import KeysCore.Verify.HistoryRows
import KeysCore.Verify.ServiceSearch
import KeysCore.KdfCost
import KeysCore.Verify.KdfCost
import KeysCore.Verify.Completeness
import KeysCore.Verify.HostileTree
import KeysCore.Lib.Greedy
import KeysCore.QuotaPrune
import KeysCore.Verify.QuotaPrune
import KeysCore.Verify.HeldConflict
import KeysCore.EntryReads
import KeysCore.Verify.RowRules
import KeysCore.Verify.SaveAsRead
import KeysCore.Verify.RestoreEdit
import KeysCore.Lib.Committed
import KeysCore.Portable
import KeysCore.Verify.Portable
import KeysCore.Pools
import KeysCore.Verify.HistoryShortcut
import KeysCore.Lib.Intern
import KeysCore.ParkedEntries
import KeysCore.Verify.ParkedEntries
import KeysCore.Verify.Connections
import KeysCore.Verify.LostUpdates
import KeysCore.Lib.Conditions
import KeysCore.Predicates
import KeysCore.Verify.PredicateCase
import KeysCore.Verify.CascadeOutcome
import KeysCore.Verify.Search
import KeysCore.Verify.Subtrees
import KeysCore.DeleteHistory
import KeysCore.GroupReads
import KeysCore.TagRows
import KeysCore.Verify.DeleteHistory
import KeysCore.Verify.IdleEdits
import KeysCore.Verify.RecycleRestore
import KeysCore.Verify.Reorder
import KeysCore.HexCodec
import KeysCore.Lib.Bits
import KeysCore.Lib.Descend
import KeysCore.PredicateJson
import KeysCore.SmartFolders
import KeysCore.Totp
import KeysCore.Verify.Base32
import KeysCore.Verify.HexReaders
import KeysCore.Verify.PredicateJson
import KeysCore.Verify.SettledFile
import KeysCore.Verify.SettledRows
import KeysCore.Verify.SmartFolders
import KeysCore.Verify.Totp
import KeysCore.Verify.UrlMatcher
import KeysCore.Lib.Gossip
import KeysCore.Verify.Exchange
import KeysCore.Verify.IconPools
import KeysCore.Verify.Quarantine
import KeysCore.EngineCalls
import KeysCore.Lib.Notices
import KeysCore.Verify.Announcements
import KeysCore.BlobFetch
import KeysCore.Lib.Columns
import KeysCore.Lib.LittleEndian
import KeysCore.Lib.Polling
import KeysCore.MetaRows
import KeysCore.Verify.BlobFetch
import KeysCore.Verify.MetaRows
