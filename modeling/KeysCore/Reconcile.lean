import KeysCore.Settling

/-!
# Reconciling with a KDBX of the vault

`ingest_kdbx_as_owner`, behind the disk reconcile and the peer transport: gate the replica, pull it
under `owner`, sweep the parked rows, and tell the client whether there is anything to save. The disk
reconcile settles the watermark on that. The vault is taken as unlocked from the file and carrying its
identity. The content digest of
keepass-merge is not part of the repository: it is the parameter `digest`.
-/

namespace KeysCore

/-- `Engine::ingest_peer`: the pull, then the sweep; an entry the sweep landed a merge for counts as
merged. -/
def engineIngestPeer (M : MergeLib) (L : VaultMergeLib) (ord : HashOrder) (owner : String)
    (peer : Vault) (now : DateTime) (m : Mirror) : Except EngineError (Mirror × IngestPeerOutcome) := do
  ensureSameReplica peer m
  let v ← m.project
  let (m, outcome) ← ingestPeer M ord ⟨owner, v, peer, now⟩ m
  let (m, adopted) ← reconcileAllConflictRows L m
  return (m, { outcome with
    autoMerged := adopted.foldl (fun us u => if u ∈ us then us else us ++ [u]) outcome.autoMerged })

/-- `MergeStats`: the sizes of the buckets. -/
structure MergeStats where
  entriesAdded : Nat
  entriesUpdated : Nat
  entriesDeleted : Nat
  entriesMoved : Nat
  groupsAdded : Nat
  groupsUpdated : Nat
  groupsMoved : Nat
  groupsDeleted : Nat
  historyPruned : Nat
deriving DecidableEq

/-- `ParkConflictsResult`. Of the summary, the entries held in conflict; its other lists stay empty. -/
inductive ParkConflictsResult where
  | noChange
  | applied (applied : MergeStats) (entriesWithParkedConflict : List Uuid) (needsWriteBack : Bool)
deriving DecidableEq

namespace IngestPeerOutcome

variable (o : IngestPeerOutcome)

/-- The discriminator: no bucket of local changes holds anything. A held conflict is not one. -/
def isNoChange : Bool :=
  o.autoMerged.isEmpty && o.added.isEmpty && o.deleted.isEmpty && o.moved.isEmpty &&
    o.groupsAdded.isEmpty && o.groupsUpdated.isEmpty && o.groupsMoved.isEmpty &&
    o.groupsDeleted.isEmpty && o.historyPruned.isEmpty

def stats : MergeStats where
  entriesAdded := o.added.length
  entriesUpdated := o.autoMerged.length
  entriesDeleted := o.deleted.length
  entriesMoved := o.moved.length
  groupsAdded := o.groupsAdded.length
  groupsUpdated := o.groupsUpdated.length
  groupsMoved := o.groupsMoved.length
  groupsDeleted := o.groupsDeleted.length
  historyPruned := o.historyPruned.length

end IngestPeerOutcome

/-- `ingest_kdbx_as_owner`. -/
def ingestKdbxAsOwner {D : Type} [DecidableEq D] (M : MergeLib) (L : VaultMergeLib)
    (digest : Vault → D) (ord : HashOrder) (owner : String) (peer : Vault) (now : DateTime)
    (m : Mirror) : Except EngineError (Mirror × ParkConflictsResult) := do
  let (m, outcome) ← engineIngestPeer M L ord owner peer now m
  if outcome.isNoChange then return (m, .noChange)
  else
    let merged ← m.project
    return (m, .applied outcome.stats outcome.conflicted (digest peer ≠ digest merged))

/-- `FILE_OWNER`. -/
def fileOwner : String := "file"

/-- An `Applied` that leaves nothing to write back. -/
def ParkConflictsResult.isWritten : ParkConflictsResult → Bool
  | .noChange => false
  | .applied _ _ needsWriteBack => !needsWriteBack

/-- `reconcile_with_disk_kdf_policy`, past the KDF gate and without the outer-header facts: a mirror
that was clean is settled by an `Applied` that leaves nothing to write back. -/
def reconcileWithDiskKdfPolicy {D : Type} [DecidableEq D] (M : MergeLib) (L : VaultMergeLib)
    (digest : Vault → D) (ord : HashOrder) (disk : Vault) (now : DateTime) (m : Mirror) :
    Except EngineError (Mirror × ParkConflictsResult) := do
  let wasDirty := m.isDirty
  let (m, result) ← ingestKdbxAsOwner M L digest ord fileOwner disk now m
  if !wasDirty && result.isWritten then
    return ({ m with persistedSeq := m.mutationSeq }, result)
  else return (m, result)

end KeysCore
