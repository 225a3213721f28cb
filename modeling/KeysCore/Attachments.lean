import KeysCore.Ingest

/-!
# The attachment pool

Attachment bytes are stored once, in `attachment_blob`, under their SHA-256. Three kinds of rows
refer to them. A live link (`entry_attachment`) has the digest as a foreign key. A history record
(`entry_history.snapshot_json`) has it in hex. A parked conflict has it in hex in the record of its
live version and of each history version, and a row of `conflict_entry_blob_ref` for every digest.

The store below holds these tables and nothing else of the mirror: what a record says beside its
attachments is its `body`, and the functions are those parts of the source that write the tables.
The vaults here refer to attachment bytes as KDBX does, by an index into the vault's binary pool,
which may dangle. What keepass-merge makes of an entry, and the pool it refers to, are inputs of
`ingestPeer` and of the settling; SHA-256 is the parameter `sha256`.
-/

namespace KeysCore

open Lib

/-- A SHA-256 digest. -/
def Sha : Type := { bytes : List UInt8 // bytes.length = 32 }

instance : DecidableEq Sha := inferInstanceAs (DecidableEq { bytes : List UInt8 // bytes.length = 32 })

/-! ## Hex -/

/-- `bytes_to_hex`. -/
def bytesToHex (bytes : List UInt8) : String :=
  String.ofList (bytes.flatMap fun b => [Nat.digitChar (b.toNat / 16), Nat.digitChar (b.toNat % 16)])

/-- `hex_nibble`, of either case. -/
def hexNibble (c : Char) : Option Nat :=
  if '0' ≤ c ∧ c ≤ '9' then some (c.toNat - '0'.toNat)
  else if 'a' ≤ c ∧ c ≤ 'f' then some (c.toNat - 'a'.toNat + 10)
  else if 'A' ≤ c ∧ c ≤ 'F' then some (c.toNat - 'A'.toNat + 10)
  else none

/-- Two characters as a byte, as `hex_to_bytes` reads them. -/
def hexByte (hi lo : Char) : Option UInt8 := do
  let hi ← hexNibble hi
  let lo ← hexNibble lo
  return UInt8.ofNat (16 * hi + lo)

/-- `u8::from_str_radix(_, 16)` on two characters: a leading plus sign is passed over. -/
def fromStrRadix (hi lo : Char) : Option UInt8 :=
  if hi = '+' then (hexNibble lo).map UInt8.ofNat else hexByte hi lo

/-- A byte for each two characters. -/
def decodePairs (byte : Char → Char → Option UInt8) : List Char → Option (List UInt8)
  | [] => some []
  | [_] => none
  | hi :: lo :: rest => do
    let b ← byte hi lo
    let bs ← decodePairs byte rest
    return b :: bs

/-- `hex_to_bytes`. -/
def hexToBytes (s : String) : Option (List UInt8) := decodePairs hexByte s.toList

/-- Thirty-two bytes as a digest. -/
def toSha (bytes : List UInt8) : Option Sha :=
  if h : bytes.length = 32 then some ⟨bytes, h⟩ else none

/-- `hex_decode32`. A text with a character outside ASCII is refused whether its length is counted
in bytes or in characters. -/
def hexDecode32 (hex : String) : Option Sha :=
  if hex.toList.length = 64 then (decodePairs fromStrRadix hex.toList).bind toSha else none

/-! ## Tables -/

/-- A row of `attachment_blob`. -/
structure AttachmentBlob where
  sha : Sha
  bytes : List UInt8
deriving DecidableEq

structure HistoryAttachmentIo where
  name : String
  size : Nat
  sha256Hex : String
deriving DecidableEq

/-- `HistorySnapshotIo`, the record of `entry_history.snapshot_json`. -/
structure HistorySnapshotIo where
  attachments : List HistoryAttachmentIo
  body : String
deriving DecidableEq

/-- The digests the collection reads off a record. -/
def HistorySnapshotIo.roots (snap : HistorySnapshotIo) : List Sha :=
  snap.attachments.filterMap fun a => hexDecode32 a.sha256Hex

/-- A row of `entry` with its rows of `entry_attachment` and `entry_history`, which cascade with
it. -/
structure PooledEntry where
  uuid : Uuid
  links : List (String × Sha) := []
  history : List HistorySnapshotIo := []
deriving DecidableEq

/-- A row of `conflict_entry`, with its `PeerEntryIo` record. -/
structure ParkedEntry where
  owner : String
  uuid : Uuid
  entry : HistorySnapshotIo
  history : List HistorySnapshotIo
deriving DecidableEq

/-- The records of a parked entry. -/
def ParkedEntry.records (r : ParkedEntry) : List HistorySnapshotIo := r.entry :: r.history

/-- A row of `conflict_entry_blob_ref`. -/
structure BlobRef where
  owner : String
  uuid : Uuid
  sha : Sha
deriving DecidableEq

structure AttachmentStore where
  entries : Table PooledEntry.uuid
  blobs : Table AttachmentBlob.sha
  conflicts : Table fun r : ParkedEntry => (r.owner, r.uuid)
  blobRefs : Table (id : BlobRef → BlobRef)
deriving DecidableEq

/-- The tables of a new mirror. -/
def AttachmentStore.empty : AttachmentStore := ⟨.empty, .empty, .empty, .empty⟩

/-! ## Vaults by reference -/

/-- The binary pool of a vault. -/
abbrev Binaries := List (List UInt8)

/-- An attachment of an entry, by its index into the binary pool. -/
structure AttachmentRef where
  name : String
  refId : Nat
deriving DecidableEq

structure PoolVersion where
  attachments : List AttachmentRef := []
  body : String := ""
deriving DecidableEq

structure PoolEntry extends PoolVersion where
  id : Uuid
  history : List PoolVersion := []
deriving DecidableEq

/-- The entries of a vault in the order of `walk_entries`, with its binary pool. -/
structure PoolVault where
  entries : List PoolEntry
  binaries : Binaries
deriving DecidableEq

/-- The bytes of the references that do not dangle. -/
def resolveRefs (attachments : List AttachmentRef) (binaries : Binaries) : Binaries :=
  attachments.filterMap fun a => binaries[a.refId]?

namespace AttachmentStore

section Writes

variable (sha256 : List UInt8 → Sha)

/-- `HistorySnapshotIo::from_entry`. A dangling reference is skipped. -/
def fromEntry (v : PoolVersion) (binaries : Binaries) : HistorySnapshotIo where
  attachments := v.attachments.filterMap fun a =>
    binaries[a.refId]?.map fun bytes => ⟨a.name, bytes.length, bytesToHex (sha256 bytes).1⟩
  body := v.body

/-- `upsert_attachment_blob`. -/
def upsertAttachmentBlob (s : AttachmentStore) (bytes : List UInt8) : AttachmentStore :=
  { s with blobs := s.blobs.insertOrIgnore ⟨sha256 bytes, bytes⟩ }

/-- `store_attachment_blobs`, with the digests it returns. -/
def storeAttachmentBlobs (s : AttachmentStore) (attachments : List AttachmentRef)
    (binaries : Binaries) : AttachmentStore × List Sha :=
  ((resolveRefs attachments binaries).foldl (upsertAttachmentBlob sha256) s,
    (resolveRefs attachments binaries).map sha256)

/-- An update of the side rows of an entry. -/
def updateEntry (s : AttachmentStore) (u : Uuid) (f : PooledEntry → PooledEntry)
    (hf : ∀ e, (f e).uuid = e.uuid) : AttachmentStore :=
  { s with entries := s.entries.modify u f hf }

/-- `insert_attachment`. -/
def insertAttachment (s : AttachmentStore) (u : Uuid) (name : String) (bytes : List UInt8) :
    AttachmentStore :=
  (s.upsertAttachmentBlob sha256 bytes).updateEntry u
    (fun e => { e with links := insertOrIgnore e.links (name, sha256 bytes) }) (fun _ => rfl)

/-- The upsert of a link row. -/
def upsertLink (links : List (String × Sha)) (name : String) (sha : Sha) : List (String × Sha) :=
  if name ∈ links.map (·.1) then links.map fun l => if l.1 = name then (name, sha) else l
  else links ++ [(name, sha)]

/-- `insert_attachment_link_upsert`. -/
def insertAttachmentLinkUpsert (s : AttachmentStore) (u : Uuid) (name : String)
    (bytes : List UInt8) : AttachmentStore :=
  (s.upsertAttachmentBlob sha256 bytes).updateEntry u
    (fun e => { e with links := upsertLink e.links name (sha256 bytes) }) (fun _ => rfl)

/-- `insert_history_snapshot`, after the rows already written for the entry. -/
def insertHistorySnapshot (s : AttachmentStore) (u : Uuid) (hist : PoolVersion)
    (binaries : Binaries) : AttachmentStore :=
  let s := s.updateEntry u
    (fun e => { e with history := e.history ++ [fromEntry sha256 hist binaries] }) (fun _ => rfl)
  (s.storeAttachmentBlobs sha256 hist.attachments binaries).1

/-- `insert_entry`. -/
def insertEntry (s : AttachmentStore) (e : PoolEntry) (binaries : Binaries) :
    Except EngineError AttachmentStore :=
  match s.entries.insert? ⟨e.id, [], []⟩ with
  | none => .error (.sqlite .constraintPrimaryKey)
  | some entries =>
    let s := e.attachments.foldl
      (fun s a => match binaries[a.refId]? with
        | none => s
        | some bytes => s.insertAttachment sha256 e.id a.name bytes)
      { s with entries := entries }
    .ok (e.history.foldl (fun s h => s.insertHistorySnapshot sha256 e.id h binaries) s)

/-- `DELETE FROM entry`, which cascades to the entry's links and history. -/
def deleteEntry (s : AttachmentStore) (u : Uuid) : AttachmentStore :=
  { s with entries := s.entries.erase u }

/-- `rewrite_entry_history`. Without the entry the first record breaks its foreign key. -/
def rewriteEntryHistory (s : AttachmentStore) (u : Uuid) (history : List PoolVersion)
    (binaries : Binaries) : Except EngineError AttachmentStore :=
  if u ∉ s.entries.keys ∧ history ≠ [] then .error (.sqlite .constraintForeignKey)
  else
    let s := s.updateEntry u (fun e => { e with history := [] }) (fun _ => rfl)
    .ok (history.foldl (fun s h => s.insertHistorySnapshot sha256 u h binaries) s)

/-- `advance_local_entry`. -/
def advanceLocalEntry (s : AttachmentStore) (merged : PoolEntry) (binaries : Binaries) :
    Except EngineError AttachmentStore :=
  if merged.id ∈ s.entries.keys then (s.deleteEntry merged.id).insertEntry sha256 merged binaries
  else .error (.sqlite .noRows)

/-! ## Parked conflicts -/

/-- `write_peer_entry`. -/
def writePeerEntry (s : AttachmentStore) (owner : String) (e : PoolEntry) (binaries : Binaries) :
    Except EngineError AttachmentStore :=
  let record : ParkedEntry :=
    ⟨owner, e.id, fromEntry sha256 e.toPoolVersion binaries,
      e.history.map fun h => fromEntry sha256 h binaries⟩
  match s.conflicts.insert? record with
  | none => .error (.sqlite .constraintPrimaryKey)
  | some conflicts =>
    let stored := storeAttachmentBlobs sha256 { s with conflicts := conflicts }
      (e.attachments ++ e.history.flatMap PoolVersion.attachments) binaries
    .ok { stored.1 with
      blobRefs := stored.2.foldl (fun T sha => T.insertOrIgnore ⟨owner, e.id, sha⟩)
        stored.1.blobRefs }

/-- `drop_conflict_rows`. -/
def dropConflictRows (s : AttachmentStore) (u : Uuid) : AttachmentStore :=
  { s with
    blobRefs := s.blobRefs.delete fun r => r.uuid = u
    conflicts := s.conflicts.delete fun r => r.uuid = u }

/-- `drop_conflict_rows_for_owner`. -/
def dropConflictRowsForOwner (s : AttachmentStore) (owner : String) (u : Uuid) : AttachmentStore :=
  { s with
    blobRefs := s.blobRefs.delete fun r => r.owner = owner ∧ r.uuid = u
    conflicts := s.conflicts.delete fun r => r.owner = owner ∧ r.uuid = u }

/-! ## Ingest -/

/-- `clear_vault_tables`: the blobs a parked conflict refers to survive. -/
def clearVaultTables (s : AttachmentStore) : AttachmentStore :=
  { s with
    entries := .empty
    blobs := s.blobs.delete fun b => b.sha ∉ s.blobRefs.rows.map (·.sha) }

/-- `ingest_vault_with_header`, of a file or of a vault in memory. -/
def ingestVault (s : AttachmentStore) (v : PoolVault) : Except EngineError AttachmentStore :=
  v.entries.foldlM (fun s e => s.insertEntry sha256 e v.binaries) s.clearVaultTables

/-- An attachment change the classifier adopts. -/
inductive PoolChange where
  | take (name : String) (bytes : List UInt8)
  | drop (name : String)
deriving DecidableEq

def applyChange (u : Uuid) (s : AttachmentStore) : PoolChange → AttachmentStore
  | .take name bytes => s.insertAttachmentLinkUpsert sha256 u name bytes
  | .drop name =>
    s.updateEntry u (fun e => { e with links := e.links.filter (·.1 ≠ name) }) (fun _ => rfl)

/-- What the loop of `ingest_peer` does with one entry of the peer. -/
inductive EntryArm where
  /-- Not held locally and tombstoned after the peer's last edit. -/
  | skip
  /-- Not held locally. -/
  | add (e : PoolEntry)
  | inSync
  | autoMerged (merged : PoolEntry) (changes : List PoolChange)
  /-- A conflict the local side has resolved. -/
  | holdsResolution
  /-- A conflict the peer has resolved. -/
  | adoptPeer (remote : PoolEntry)
  | held (remote : PoolEntry)
deriving DecidableEq

/-- One round of the loop: the arm, and the history the fold or the tombstones leave when they
change it, with the pool it refers to. -/
structure PeerRound where
  uuid : Uuid
  arm : EntryArm
  history : Option (List PoolVersion × Binaries) := none
deriving DecidableEq

/-- The arm of a verdict. The merged entry of an auto-merge refers to the local pool, everything
else to the peer's. -/
def runArm (s : AttachmentStore) (owner : String) (localBinaries peerBinaries : Binaries)
    (u : Uuid) : EntryArm → Except EngineError AttachmentStore
  | .skip => .ok s
  | .add e => s.insertEntry sha256 e peerBinaries
  | .inSync => .ok (s.dropConflictRowsForOwner owner u)
  | .autoMerged merged changes => do
    let s ← s.advanceLocalEntry sha256 merged localBinaries
    return (changes.foldl (applyChange sha256 u) s).dropConflictRowsForOwner owner u
  | .holdsResolution => .ok (s.dropConflictRowsForOwner owner u)
  | .adoptPeer remote =>
    (s.dropConflictRowsForOwner owner u).advanceLocalEntry sha256 remote peerBinaries
  | .held remote => (s.dropConflictRowsForOwner owner u).writePeerEntry sha256 owner remote peerBinaries

def runRound (owner : String) (localBinaries peerBinaries : Binaries) (s : AttachmentStore)
    (r : PeerRound) : Except EngineError AttachmentStore := do
  let s ← s.runArm sha256 owner localBinaries peerBinaries r.uuid r.arm
  match r.history with
  | none => return s
  | some (history, binaries) => s.rewriteEntryHistory sha256 r.uuid history binaries

/-- `ingest_peer`: the rounds, then the entries whose deletion it takes over. -/
def ingestPeer (s : AttachmentStore) (owner : String) (localBinaries peerBinaries : Binaries)
    (rounds : List PeerRound) (deleted : List Uuid) : Except EngineError AttachmentStore := do
  let s ← rounds.foldlM (runRound sha256 owner localBinaries peerBinaries) s
  return deleted.foldl deleteEntry s

/-- The commits of `apply_dissolve`. A decision to settle is `dropOwners`, then `land` when a merge
is adopted. -/
inductive DissolveCommit where
  | dropAll
  | dropOwners (dropped : List String)
  | land (owner : String) (merged : PoolVault)
deriving DecidableEq

/-- `apply_dissolve`, one commit of it. -/
def applyDissolve (u : Uuid) (s : AttachmentStore) :
    DissolveCommit → Except EngineError AttachmentStore
  | .dropAll => .ok (s.dropConflictRows u)
  | .dropOwners dropped => .ok (dropped.foldl (fun s owner => s.dropConflictRowsForOwner owner u) s)
  | .land owner merged => do
    let s ← s.ingestVault sha256 merged
    return s.dropConflictRowsForOwner owner u

/-- `apply_conflict_resolution`, of a merged vault. -/
def applyConflictResolution (s : AttachmentStore) (merged : PoolVault) (resolved : List Uuid) :
    Except EngineError AttachmentStore := do
  let s ← s.ingestVault sha256 merged
  return resolved.foldl dropConflictRows s

end Writes

/-! ## Collection -/

/-- `gc_attachment_roots`. -/
def gcAttachmentRoots (s : AttachmentStore) : List Sha :=
  s.entries.rows.flatMap (fun e => e.links.map (·.2)) ++ s.blobRefs.rows.map (·.sha) ++
    s.entries.rows.flatMap fun e => e.history.flatMap HistorySnapshotIo.roots

/-- `gc_attachment_blobs`. -/
def gcAttachmentBlobs (s : AttachmentStore) : AttachmentStore :=
  { s with blobs := s.blobs.delete fun b => b.sha ∉ s.gcAttachmentRoots }

/-! ## Entry mutations -/

/-- The history budgets of the vault; `none` is off. -/
structure HistoryCaps where
  items : Option Nat
  size : Option Nat
deriving DecidableEq

section Mutations

-- The length serde_json writes decides which records a budget keeps.
variable (sha256 : List UInt8 → Sha) (jsonLength : HistorySnapshotIo → Nat)

/-- `build_live_snapshot`: the links joined with the pool. -/
def buildLiveSnapshot (s : AttachmentStore) (e : PooledEntry) (body : String) : HistorySnapshotIo where
  attachments := e.links.filterMap fun l =>
    (s.blobs.find? l.2).map fun b => ⟨l.1, b.bytes.length, bytesToHex b.sha.1⟩
  body := body

/-- The records `prune_history` keeps, newest first. A record that does not fit is passed over. -/
def pruned (caps : HistoryCaps) : Nat → Nat → List HistorySnapshotIo → List HistorySnapshotIo
  | _, _, [] => []
  | kept, keptSize, snap :: older =>
    if (∀ c ∈ caps.items, kept < c) ∧ (∀ c ∈ caps.size, keptSize + jsonLength snap ≤ c) then
      snap :: pruned caps (kept + 1) (keptSize + jsonLength snap) older
    else pruned caps kept keptSize older

/-- `archive_snapshot`, with `prune_history`. -/
def archiveSnapshot (s : AttachmentStore) (u : Uuid) (snap : HistorySnapshotIo)
    (caps : HistoryCaps) : AttachmentStore :=
  s.updateEntry u
    (fun e => { e with
      history := (pruned jsonLength caps 0 0 (e.history ++ [snap]).reverse).reverse })
    (fun _ => rfl)

/-- `push_history_snapshot`, which each content edit of an entry runs first. -/
def pushHistorySnapshot (s : AttachmentStore) (u : Uuid) (body : String) (caps : HistoryCaps) :
    Except EngineError AttachmentStore :=
  match s.entries.find? u with
  | none => .error (.notFound "entry")
  | some e => .ok (s.archiveSnapshot jsonLength u (s.buildLiveSnapshot e body) caps)

/-- `attach_file` and `set_attachment`. -/
def setAttachment (s : AttachmentStore) (u : Uuid) (name : String) (bytes : List UInt8)
    (body : String) (caps : HistoryCaps) : Except EngineError AttachmentStore := do
  let s ← s.pushHistorySnapshot jsonLength u body caps
  return s.insertAttachmentLinkUpsert sha256 u name bytes

/-- `remove_attachment`. -/
def removeAttachment (s : AttachmentStore) (u : Uuid) (name : String) (body : String)
    (caps : HistoryCaps) : Except EngineError AttachmentStore := do
  let s ← s.pushHistorySnapshot jsonLength u body caps
  return s.updateEntry u (fun e => { e with links := e.links.filter (·.1 ≠ name) }) (fun _ => rfl)

/-- `delete_history_at`. -/
def deleteHistoryAt (s : AttachmentStore) (u : Uuid) (index : Nat) :
    Except EngineError AttachmentStore :=
  match s.entries.find? u with
  | none => .error (.notFound "entry")
  | some e =>
    if index < e.history.length then
      .ok (s.updateEntry u (fun e => { e with history := e.history.eraseIdx index }) (fun _ => rfl))
    else .error (.notFound "history_snapshot")

/-- The link a restore writes for an attachment of the record: none when its hex is empty or does
not decode, or when the blob is gone. -/
def restoredLink (s : AttachmentStore) (a : HistoryAttachmentIo) : Option (String × Sha) :=
  if a.sha256Hex = "" then none
  else do
    let bytes ← hexToBytes a.sha256Hex
    let sha ← toSha bytes
    if sha ∈ s.blobs.keys then some (a.name, sha) else none

/-- `restore_entry_from_history`. A record with two attachments of one name breaks the primary key
of the links. -/
def restoreEntryFromHistory (s : AttachmentStore) (u : Uuid) (index : Nat) (maxItems : Int)
    (body : String) : Except EngineError AttachmentStore :=
  match s.entries.find? u with
  | none => .error (.notFound "entry")
  | some e =>
    match e.history[index]? with
    | none => .error (.notFound "history_snapshot")
    | some snap =>
      let links := snap.attachments.filterMap s.restoredLink
      let history := e.history ++ [s.buildLiveSnapshot e body]
      if (links.map (·.1)).Nodup then
        .ok (s.updateEntry u
          (fun e => { e with
            links := links
            history := if 0 ≤ maxItems then history.drop (history.length - maxItems.toNat)
              else history })
          (fun _ => rfl))
      else .error (.sqlite .constraintPrimaryKey)

/-- `create_entry`. -/
def createEntry (s : AttachmentStore) (u : Uuid) : Except EngineError AttachmentStore :=
  match s.entries.insert? ⟨u, [], []⟩ with
  | none => .error (.sqlite .constraintPrimaryKey)
  | some entries => .ok { s with entries := entries }

/-! ## The operations -/

/-- The committed writes of the engine to the attachment tables. -/
inductive StoreOp where
  | createEntry (u : Uuid)
  /-- Each edit of an entry's fields, tags or icon. -/
  | editEntry (u : Uuid) (body : String) (caps : HistoryCaps)
  | setAttachment (u : Uuid) (name : String) (bytes : List UInt8) (body : String) (caps : HistoryCaps)
  | removeAttachment (u : Uuid) (name : String) (body : String) (caps : HistoryCaps)
  | deleteHistoryAt (u : Uuid) (index : Nat)
  | restoreEntryFromHistory (u : Uuid) (index : Nat) (maxItems : Int) (body : String)
  /-- `delete_entry`, and the entries `delete_group` and `empty_recycle_bin` purge. -/
  | deleteEntries (us : List Uuid)
  | ingestVault (v : PoolVault)
  | ingestPeer (owner : String) (localBinaries peerBinaries : Binaries) (rounds : List PeerRound)
    (deleted : List Uuid)
  | applyDissolve (u : Uuid) (commit : DissolveCommit)
  | applyConflictResolution (merged : PoolVault) (resolved : List Uuid)
  | clearParkedConflictMarker (u : Uuid)
  | gcAttachmentBlobs

def StoreOp.run (s : AttachmentStore) : StoreOp → Except EngineError AttachmentStore
  | .createEntry u => s.createEntry u
  | .editEntry u body caps => s.pushHistorySnapshot jsonLength u body caps
  | .setAttachment u name bytes body caps => s.setAttachment sha256 jsonLength u name bytes body caps
  | .removeAttachment u name body caps => s.removeAttachment jsonLength u name body caps
  | .deleteHistoryAt u index => s.deleteHistoryAt u index
  | .restoreEntryFromHistory u index maxItems body =>
    s.restoreEntryFromHistory u index maxItems body
  | .deleteEntries us => .ok (us.foldl deleteEntry s)
  | .ingestVault v => s.ingestVault sha256 v
  | .ingestPeer owner localBinaries peerBinaries rounds deleted =>
    s.ingestPeer sha256 owner localBinaries peerBinaries rounds deleted
  | .applyDissolve u commit => s.applyDissolve sha256 u commit
  | .applyConflictResolution merged resolved => s.applyConflictResolution sha256 merged resolved
  | .clearParkedConflictMarker u => .ok (s.dropConflictRows u)
  | .gcAttachmentBlobs => .ok s.gcAttachmentBlobs

/-- A failed operation is rolled back. -/
def StoreOp.next (s : AttachmentStore) (op : StoreOp) : AttachmentStore :=
  match op.run sha256 jsonLength s with
  | .ok s' => s'
  | .error _ => s

/-- The store of a new mirror after a run. -/
def after (ops : List StoreOp) : AttachmentStore :=
  ops.foldl (StoreOp.next sha256 jsonLength) empty

end Mutations

end AttachmentStore

end KeysCore
