import KeysCore.Ingest

/-!
# Ingesting a peer

`ingest_peer`: reconcile the peer's groups, then walk the peer's entries, then its deletions, its
icons and its meta, all in one transaction. What each entry becomes is the verdict of the
keepass-merge library, which is not part of the repository: it is the parameter `MergeLib`.

Attachments carry their bytes here, so the binary pools and the attachment blobs are left out. The
maps of the source are keyed by uuid and each step of a walk over one touches the rows of its own
uuid only; the walks follow the order of the underlying list.
-/

namespace KeysCore

open Lib

/-! ## The merge library -/

/-- A peer's attachment change the classifier adopts. -/
inductive AttachmentChange where
  | take (name : String) (bytes : List UInt8)
  | drop (name : String)
deriving DecidableEq

/-- The attachments of an entry after a change: `take` replaces or appends. -/
def AttachmentChange.apply (rows : List (String × List UInt8)) :
    AttachmentChange → List (String × List UInt8)
  | .take name bytes =>
    if name ∈ rows.map (·.1) then rows.map fun a => if a.1 = name then (name, bytes) else a
    else rows ++ [(name, bytes)]
  | .drop name => rows.filter (·.1 ≠ name)

/-- The verdict on an entry both sides hold. -/
inductive Classification where
  | inSync
  | autoMerged (merged : Entry) (attachmentChanges : List AttachmentChange)
  | conflict (remote : Entry)
deriving DecidableEq

/-- The functions of keepass-merge the ingest calls. A function that changes an entry in place
returns the entry with what it reports. -/
structure MergeLib where
  classify : Entry → Entry → Classification
  mergeMetaScalars : Meta → Meta → Meta
  /-- The records of `keys.conflict_resolutions.v1`: an entry and when it was resolved. -/
  parseConflictResolutions : List CustomDataItem → Option (List (Uuid × DateTime))
  foldEntryHistory : Entry → Entry → Except String (Entry × Bool)
  pruneHistoryWithTombstones : Entry → Int → Int → DateTime → Except String (Entry × Nat)
  reconcileHistoryTombstones : Entry → Entry → Except String (Entry × Bool)
  computeHistoryDropCount : List EntryVersion → Int → Int → Nat

/-- `TOMBSTONE_CUSTOM_DATA_KEY`. -/
def tombstoneCustomDataKey : String := "keys.history_tombstones.v1"

/-! ## Times -/

/-- `resolution_times`: the latest resolution of an entry, at whole seconds. -/
def resolutionTime (M : MergeLib) (data : List CustomDataItem) (u : Uuid) : Option DateTime :=
  ((((M.parseConflictResolutions data).getD []).filter (·.1 = u)).map
    (·.2.floorToSecond)).max?

/-- `edited_after`: both instants known, and the edit is the later. -/
def editedAfter (mtime resolvedAt : Option DateTime) : Bool :=
  match mtime, resolvedAt with
  | some m, some r => r < m
  | _, _ => false

/-- `live_edit_wins`: does a live edit beat a deletion? -/
def liveEditWins (edit delete : Option DateTime) : Bool :=
  match edit, delete with
  | some e, some d => d < e
  | _, none => true
  | none, some _ => false

/-- `earliest` and `earliest_ms`: a known instant before an unknown one. -/
def earliest {α : Type} [Min α] : Option α → Option α → Option α
  | some a, some b => some (min a b)
  | some a, none => some a
  | none, b => b

/-- `tombstone_map`: the deletion instant recorded for `u`, if `u` is recorded at all. -/
def tombstoneTime (deleted : List DeletedObject) (u : Uuid) : Option (Option DateTime) :=
  (deleted.filter (·.uuid = u)).foldl
    (fun t d => some (match t with | none => d.deletedAt | some t => earliest t d.deletedAt)) none

/-! ## Versions -/

/-- `same_version`: the fields, custom fields and tags agree, the last two in any order. -/
def sameVersion (a b : EntryVersion) : Bool :=
  a.title = b.title && a.username = b.username && a.password = b.password && a.url = b.url &&
    a.notes = b.notes && a.customFields.isPerm b.customFields && a.tags.isPerm b.tags

/-- `same_content`: the same version with the same attachments. -/
def sameContent (a b : EntryVersion) : Bool :=
  sameVersion a b && a.attachments.isPerm b.attachments

/-- `Option::max`, an unknown instant being the smallest. -/
def laterOf : Option DateTime → Option DateTime → Option DateTime
  | some a, some b => some (max a b)
  | some a, none => some a
  | none, b => b

/-- An entry with another modification time. -/
def Entry.withMtime (e : Entry) (t : Option DateTime) : Entry :=
  { e with times := { e.times with lastModificationTime := t } }

/-- The time of a merge that moves local: the peer's when it is the peer's version, else a second
past the later of the two. -/
def mergedMtime (merged localEntry peerEntry : Entry) : Option DateTime :=
  let localTime := localEntry.times.lastModificationTime
  let peerTime := peerEntry.times.lastModificationTime
  if sameVersion merged.toEntryVersion peerEntry.toEntryVersion then peerTime.or localTime
  else (laterOf localTime peerTime).map fun t => (t.checkedAddSeconds 1).getD t

/-- `with_advanced_mtime`. -/
def withAdvancedMtime (merged : Entry) (movesLocal : Bool) (localEntry peerEntry : Entry) : Entry :=
  if movesLocal then merged.withMtime (mergedMtime merged localEntry peerEntry) else merged

/-- Does either history hold local's content already? -/
def alreadyRecorded (localEntry peerEntry : Entry) : Bool :=
  localEntry.history.any (sameContent · localEntry.toEntryVersion) ||
    peerEntry.history.any (sameContent · localEntry.toEntryVersion)

/-- `with_pre_merge_snapshot`: the version the merge replaces is appended to the history, unless
either history holds its content already. -/
def withPreMergeSnapshot (merged : Entry) (movesLocal : Bool) (localEntry peerEntry : Entry) :
    Entry :=
  if movesLocal && !alreadyRecorded localEntry peerEntry then
    { merged with history := merged.history ++ [localEntry.toEntryVersion] }
  else merged

/-- Does the merge move local to a new version? -/
def movesLocal (localEntry merged : Entry) (changes : List AttachmentChange) : Bool :=
  !changes.isEmpty || !sameVersion localEntry.toEntryVersion merged.toEntryVersion

/-- The entry the auto-merge arm writes. -/
def autoMergedEntry (localEntry peerEntry merged : Entry) (changes : List AttachmentChange) : Entry :=
  let moves := movesLocal localEntry merged changes
  withPreMergeSnapshot (withAdvancedMtime merged moves localEntry peerEntry) moves localEntry peerEntry

/-! ## Writing entries -/

/-- The history-tombstone item of an entry's custom data. -/
def Entry.historyTombstones (e : Entry) : Option CustomDataItem :=
  e.customData.find? (·.key = tombstoneCustomDataKey)

/-- A row with the history rows and the history-tombstone item of `merged`. -/
def EntryRow.withHistoryOf (merged : Entry) (r : EntryRow) : EntryRow :=
  { r with
    history := merged.history.map HistorySnapshot.fromEntry
    customData := r.customData.filter (·.key ≠ tombstoneCustomDataKey) ++
      (merged.historyTombstones.map (·.toRow)).toList }

namespace Mirror

/-- `advance_local_entry`: the row is written anew from `merged`, under the group and bin flag it
had. -/
def advanceLocalEntry (m : Mirror) (merged : Entry) : Except EngineError Mirror :=
  match m.entries.find? merged.id with
  | none => .error (.sqlite .noRows)
  | some row =>
    (m.deleteEntries (fun e => e.uuid = merged.id)).insertEntry merged row.groupUuid row.isRecycled

/-- An attachment change applied to the rows of `entry_attachment`. -/
def applyAttachmentChange (u : Uuid) (m : Mirror) (c : AttachmentChange) : Mirror :=
  m.updateEntry u (fun r => { r with attachments := c.apply r.attachments }) (fun _ => rfl)
    (fun _ => rfl)

/-- `write_peer_entry`: the peer's version is parked. -/
def writePeerEntry (m : Mirror) (owner : String) (e : Entry) : Except EngineError Mirror :=
  m.insertConflictRow
    ⟨owner, e.id, .fromEntry e.toEntryVersion, e.history.map HistorySnapshot.fromEntry⟩

/-- `persist_entry_history`: the history rows and the history-tombstone item of the custom data.
Rows for an entry that is not there break the foreign key. -/
def persistEntryHistory (m : Mirror) (merged : Entry) : Except EngineError Mirror :=
  if m.entryExists merged.id || (merged.history.isEmpty && merged.historyTombstones.isNone) then
    .ok (m.updateEntry merged.id (EntryRow.withHistoryOf merged) (fun _ => rfl) (fun _ => rfl))
  else .error (.sqlite .constraintForeignKey)

end Mirror

/-! ## Location -/

/-- `(floored location_changed, group, previous parent)`. -/
abbrev EntryLocation := WithBot EpochMs ×ₗ Uuid ×ₗ WithBot Uuid

def EntryRow.location (r : EntryRow) : EntryLocation :=
  toLex (optKey (r.locationChangedAt.map (·.floorSecond)),
    toLex (r.groupUuid, optKey r.previousParentUuid))

/-- The stamp of a peer's entry, floored, as the column it would be written to. -/
def Entry.locationMs (e : Entry) : Option EpochMs :=
  e.times.locationChanged.map fun t => t.floorToSecond.timestampMillis

def Entry.location (e : Entry) (parent : Uuid) : EntryLocation :=
  toLex (optKey e.locationMs, toLex (parent, optKey e.previousParentGroup))

/-- `reconcile_entry_location`: the larger location is taken over, stamp and previous parent
included, when its group is here. -/
def reconcileEntryLocation (peerEntry : Entry) (peerParent : Uuid)
    (st : Mirror × IngestPeerOutcome) : Except EngineError (Mirror × IngestPeerOutcome) :=
  match st.1.entries.find? peerEntry.id with
  | none => .ok st
  | some row =>
    if peerEntry.location peerParent ≤ row.location then .ok st
    else if st.1.groupExists peerParent then do
      let inBin := st.1.groupInBinSubtree peerParent
      let m ← st.1.placeEntry peerEntry.id peerParent
        (fun r => { r with
          previousParentUuid := peerEntry.previousParentGroup
          isRecycled := inBin
          locationChangedAt := peerEntry.locationMs })
        (fun _ => rfl)
      return (m, { st.2 with moved := st.2.moved ++ [peerEntry.id] })
    else .ok st

/-! ## History -/

def hasHistoryTombstone (e : Entry) : Bool := e.customData.any (·.key = tombstoneCustomDataKey)

/-- `histories_identical`: equally many records, each with a twin on the other side. -/
def historiesIdentical (a b : Entry) : Bool :=
  let hasTwin := fun (x : EntryVersion) (side : Entry) => side.history.any fun y =>
    x.times.lastModificationTime.map (·.floorToSecond) =
      y.times.lastModificationTime.map (·.floorToSecond) && sameContent x y
  a.history.length = b.history.length && a.history.all (hasTwin · b) && b.history.all (hasTwin · a)

/-- The history a verdict arm leaves in the mirror. -/
inductive HistoryBase where
  | held
  | ofLocal
  | autoMerged (merged : Entry)
  | ofPeer
deriving DecidableEq

/-- What the history folds of one pass share. -/
structure HistoryFoldContext where
  maxItems : Int
  maxSize : Int
  now : DateTime

/-- `EngineError::Serialise`. -/
def serialised {α : Type} : Except String α → Except EngineError α
  | .ok a => .ok a
  | .error e => .error (.serialise e)

/-- `reconcile_entry_history_tombstones`: deletions only. -/
def reconcileEntryHistoryTombstones (M : MergeLib) (base other : Entry) (m : Mirror) :
    Except EngineError (Mirror × Bool) :=
  if !hasHistoryTombstone base && !hasHistoryTombstone other then .ok (m, false)
  else do
    let (merged, changed) ← serialised (M.reconcileHistoryTombstones base other)
    if changed then return (← m.persistEntryHistory merged, true) else return (m, false)

/-- The fold of two histories, trimmed to the caps, and whether it differs from the base's. -/
def foldedHistory (M : MergeLib) (ctx : HistoryFoldContext) (base other : Entry) :
    Except EngineError (Entry × Bool) := do
  let (merged, folded) ← serialised (M.foldEntryHistory base other)
  let (merged, trimmed) ←
    serialised (M.pruneHistoryWithTombstones merged ctx.maxItems ctx.maxSize ctx.now)
  return (merged, folded || 0 < trimmed || merged.history.length ≠ base.history.length)

/-- `fold_entry_history_into_mirror`. -/
def foldEntryHistoryIntoMirror (M : MergeLib) (ctx : HistoryFoldContext) (base other : Entry)
    (m : Mirror) : Except EngineError (Mirror × Bool) :=
  if !hasHistoryTombstone base && !hasHistoryTombstone other && historiesIdentical base other &&
      M.computeHistoryDropCount base.history ctx.maxItems ctx.maxSize = 0 then .ok (m, false)
  else do
    let (merged, changed) ← foldedHistory M ctx base other
    if changed then return (← m.persistEntryHistory merged, true) else return (m, false)

/-- The history pass over one shared entry. -/
def reconcileHistory (M : MergeLib) (ctx : HistoryFoldContext) (base : HistoryBase)
    (localEntry peerEntry : Entry) (m : Mirror) : Except EngineError (Mirror × Bool) :=
  match base with
  | .held => reconcileEntryHistoryTombstones M localEntry peerEntry m
  | .ofLocal => foldEntryHistoryIntoMirror M ctx localEntry peerEntry m
  | .autoMerged merged => foldEntryHistoryIntoMirror M ctx merged peerEntry m
  | .ofPeer => foldEntryHistoryIntoMirror M ctx peerEntry localEntry m

/-! ## Entries -/

/-- What the conflict arm does with an entry whose two versions clash. -/
inductive ConflictVerdict where
  | localHolds
  | adoptPeer
  | holdOpen
deriving DecidableEq

/-- A side that resolved the conflict has decided it, unless the other edited since. -/
def conflictVerdict (localResolvedAt peerResolvedAt localMtime peerMtime : Option DateTime) :
    ConflictVerdict :=
  if localResolvedAt.isSome && !editedAfter peerMtime localResolvedAt then .localHolds
  else if peerResolvedAt.isSome && !editedAfter localMtime peerResolvedAt then .adoptPeer
  else .holdOpen

/-- The arguments of one `ingest_peer` call. -/
structure PeerPull where
  owner : String
  /-- The projection of the mirror the call was given. -/
  localVault : Vault
  peer : Vault
  now : DateTime

namespace PeerPull

variable (M : MergeLib) (P : PeerPull)

/-- `index_entries` of the local vault. -/
def localEntry (u : Uuid) : Option Entry := P.localVault.entries.reverse.find? (·.id = u)

/-- The meta both replicas converge on. -/
def mergedMeta : Meta := M.mergeMetaScalars P.localVault.metadata P.peer.metadata

def historyFold : HistoryFoldContext :=
  ⟨(P.mergedMeta M).historyMaxItems, (P.mergedMeta M).historyMaxSize, P.now⟩

def conflictVerdict (localEntry peerEntry : Entry) : ConflictVerdict :=
  KeysCore.conflictVerdict (resolutionTime M P.localVault.metadata.customData peerEntry.id)
    (resolutionTime M P.peer.metadata.customData peerEntry.id)
    localEntry.times.lastModificationTime peerEntry.times.lastModificationTime

/-- An entry of the peer that is not here: added, unless it was deleted here since. -/
def ingestPeerOnly (peerEntry : Entry) (peerParent : Uuid) (st : Mirror × IngestPeerOutcome) :
    Except EngineError (Mirror × IngestPeerOutcome) :=
  let deletedAt := tombstoneTime P.localVault.deletedObjects peerEntry.id
  if deletedAt.any (fun d => !liveEditWins peerEntry.times.lastModificationTime d) then .ok st
  else do
    let m := if deletedAt.isSome then st.1.removeTombstone peerEntry.id else st.1
    let group := if m.groupExists peerParent then peerParent else P.localVault.root.id
    let m ← m.insertEntry peerEntry group false
    return (m, { st.2 with added := st.2.added ++ [peerEntry.id] })

/-- The verdict arms on an entry both sides hold, with the history each leaves in the mirror. -/
def verdictArm (localEntry peerEntry : Entry) (st : Mirror × IngestPeerOutcome) :
    Except EngineError ((Mirror × IngestPeerOutcome) × HistoryBase) :=
  let u := peerEntry.id
  match M.classify localEntry peerEntry with
  | .inSync =>
    .ok ((st.1.dropConflictRow P.owner u, { st.2 with inSync := st.2.inSync + 1 }), .ofLocal)
  | .autoMerged merged changes => do
    let merged := autoMergedEntry localEntry peerEntry merged changes
    let m ← st.1.advanceLocalEntry merged
    let m := changes.foldl (Mirror.applyAttachmentChange u) m
    return ((m.dropConflictRow P.owner u, { st.2 with autoMerged := st.2.autoMerged ++ [u] }),
      .autoMerged merged)
  | .conflict remote =>
    let m := st.1.dropConflictRow P.owner u
    match P.conflictVerdict M localEntry peerEntry with
    | .localHolds => .ok ((m, st.2), .held)
    | .adoptPeer => do
      let m ← m.advanceLocalEntry remote
      return ((m, { st.2 with autoMerged := st.2.autoMerged ++ [u] }), .ofPeer)
    | .holdOpen => do
      let m ← m.writePeerEntry P.owner remote
      return ((m, { st.2 with conflicted := st.2.conflicted ++ [u] }), .held)

/-- An entry both sides hold: the verdict, then the location, then the history. -/
def ingestShared (localEntry peerEntry : Entry) (peerParent : Uuid)
    (st : Mirror × IngestPeerOutcome) : Except EngineError (Mirror × IngestPeerOutcome) := do
  let (st, base) ← P.verdictArm M localEntry peerEntry st
  let st ← reconcileEntryLocation peerEntry peerParent st
  let (m, changed) ← reconcileHistory M (P.historyFold M) base localEntry peerEntry st.1
  return (m, if changed then { st.2 with historyPruned := st.2.historyPruned ++ [peerEntry.id] }
    else st.2)

/-- One entry of the peer. -/
def ingestEntry (st : Mirror × IngestPeerOutcome) (pe : Entry × Uuid) :
    Except EngineError (Mirror × IngestPeerOutcome) :=
  match P.localEntry pe.1.id with
  | none => P.ingestPeerOnly pe.1 pe.2 st
  | some localEntry => P.ingestShared M localEntry pe.1 pe.2 st

/-! ## Deletions -/

/-- `reconcile_peer_deletes` for one entry of the local vault. -/
def reconcileDelete (st : Mirror × IngestPeerOutcome) (u : Uuid) : Mirror × IngestPeerOutcome :=
  match P.localEntry u, tombstoneTime P.peer.deletedObjects u with
  | some localEntry, some deletedAt =>
    if u ∈ P.peer.entries.map (·.id) ∨ liveEditWins localEntry.times.lastModificationTime deletedAt
    then st
    else (st.1.deleteEntries (fun e => e.uuid = u), { st.2 with deleted := st.2.deleted ++ [u] })
  | _, _ => st

def reconcilePeerDeletes (st : Mirror × IngestPeerOutcome) : Mirror × IngestPeerOutcome :=
  (P.localVault.entries.map (·.id)).dedup.foldl P.reconcileDelete st

end PeerPull

/-- `union_tombstone`: the earlier of the two instants stays. -/
def unionTombstone (m : Mirror) (u : Uuid) (deletedAt : Option DateTime) : Mirror :=
  let new := deletedAt.map (·.timestampMillis)
  match m.tombstones.find? u with
  | none => m.putTombstone ⟨u, new⟩
  | some row =>
    if earliest row.deletedAt new = row.deletedAt then m
    else m.putTombstone ⟨u, earliest row.deletedAt new⟩

/-- `union_peer_tombstones` for one uuid: not for a live entry. -/
def unionPeerTombstone (deleted : List DeletedObject) (m : Mirror) (u : Uuid) : Mirror :=
  match tombstoneTime deleted u with
  | none => m
  | some deletedAt => if m.entryExists u then m else unionTombstone m u deletedAt

def unionPeerTombstones (deleted : List DeletedObject) (m : Mirror) : Mirror :=
  (deleted.map (·.uuid)).dedup.foldl (unionPeerTombstone deleted) m

/-- `union_peer_custom_icons` for one icon: `INSERT OR IGNORE`. -/
def unionIcon (m : Mirror) (icon : CustomIcon) : Mirror :=
  match m.settings.customIcons.insert? icon.toRow with
  | none => m
  | some T => m.writeSettings (fun s => { s with customIcons := T }) 1

def unionPeerCustomIcons (icons : List CustomIcon) (m : Mirror) : Mirror := icons.foldl unionIcon m

/-! ## Group tombstones -/

namespace Mirror

variable (m : Mirror)

def tombstonedGroups : List Uuid := m.groups.keys.filter (· ∈ m.tombstones.keys)

def holdsEntry (g : Uuid) : Bool := m.entries.rows.any (·.groupUuid = g)

/-- `group_alive`: not tombstoned, or holding an entry, or with a living child. The tree is acyclic
where this runs, so no branch is longer than the number of groups. -/
def groupAlive : Nat → Uuid → Bool
  | 0, g => g ∉ m.tombstones.keys || m.holdsEntry g
  | fuel + 1, g =>
    g ∉ m.tombstones.keys || m.holdsEntry g || (m.childGroups g).any (groupAlive fuel)

/-- `group_depth`: the length of the parent chain, at most 100 001. -/
def groupDepth : Nat → Uuid → Nat
  | 0, _ => 0
  | n + 1, g =>
    match m.parentOf g with
    | none => 0
    | some p => groupDepth n p + 1

/-- The tombstoned groups without anything alive below them, deepest first. -/
def deadGroups : List Uuid :=
  (m.tombstonedGroups.filter fun g => !m.groupAlive m.groups.rows.length g).insertionSort
    fun a b => m.groupDepth 100001 b ≤ m.groupDepth 100001 a

end Mirror

/-- `materialize_group_tombstones`: a tombstoned group with live content loses its tombstone, the
others are deleted. -/
def materializeGroupTombstones (st : Mirror × IngestPeerOutcome) :
    Except EngineError (Mirror × IngestPeerOutcome) := do
  let alive := st.1.tombstonedGroups.filter fun g => st.1.groupAlive st.1.groups.rows.length g
  let m := alive.foldl Mirror.removeTombstone st.1
  let m ← st.1.deadGroups.foldlM (fun (m : Mirror) g => m.deleteGroupRow g) m
  return (m, { st.2 with groupsDeleted := st.2.groupsDeleted ++ st.1.deadGroups })

/-- The dead ones of `order`, the tombstoned groups as a hash set yields them. -/
def Mirror.deadGroupsIn (m : Mirror) (order : List Uuid) : List Uuid :=
  (order.filter fun g => !m.groupAlive m.groups.rows.length g).insertionSort
    fun a b => m.groupDepth 100001 b ≤ m.groupDepth 100001 a

/-- `materialize_group_tombstones` over a hash set of tombstoned groups that yields them in the order
`order`. -/
def materializeGroupTombstonesIn (order : List Uuid) (st : Mirror × IngestPeerOutcome) :
    Except EngineError (Mirror × IngestPeerOutcome) := do
  let alive := order.filter fun g => st.1.groupAlive st.1.groups.rows.length g
  let m := alive.foldl Mirror.removeTombstone st.1
  let m ← (st.1.deadGroupsIn order).foldlM (fun (m : Mirror) g => m.deleteGroupRow g) m
  return (m, { st.2 with groupsDeleted := st.2.groupsDeleted ++ st.1.deadGroupsIn order })

/-! ## Meta -/

/-- `write_meta_scalars`: the icon pool and the custom data stay. -/
def Mirror.writeMetaScalars (m : Mirror) (v : Meta) : Mirror :=
  m.writeSettings (fun s => { v.toSettings s.customIcons s.customData with
    recycleBinEnabled := s.recycleBinEnabled }) metaScalarRows

/-- `reconcile_peer_meta`. -/
def reconcilePeerMeta (localMeta merged : Meta) (m : Mirror) : Mirror :=
  if merged = localMeta then m
  else
    let m := (m.writeMetaScalars merged).writeRecycleBinEnabled merged.recycleBinEnabled
    match merged.recycleBinUuid with
    | some g => if m.groupExists g then m.writeRecycleBinGroup g else m.clearRecycleBinGroup
    | none => m.clearRecycleBinGroup

namespace PeerPull

variable (M : MergeLib) (P : PeerPull)

/-- The entry whose row the walk writes for an entry of the peer, if it writes one: an entry that is new
here, the merge of an auto-merge, the peer's version when the peer has decided. -/
def writtenEntry (peerEntry : Entry) : Option Entry :=
  match P.localEntry peerEntry.id with
  | none =>
    if (tombstoneTime P.localVault.deletedObjects peerEntry.id).any
        (fun d => !liveEditWins peerEntry.times.lastModificationTime d) then none
    else some peerEntry
  | some localEntry =>
    match M.classify localEntry peerEntry with
    | .inSync => none
    | .autoMerged merged changes => some (autoMergedEntry localEntry peerEntry merged changes)
    | .conflict remote =>
      match P.conflictVerdict M localEntry peerEntry with
      | .adoptPeer => some remote
      | _ => none

end PeerPull

/-! ## The pull -/

/-- `ingest_peer`: one transaction over the mirror `m`, whose projection the caller took before. -/
def ingestPeer (M : MergeLib) (ord : HashOrder) (P : PeerPull) (m : Mirror) :
    Except EngineError (Mirror × IngestPeerOutcome) := do
  let st ← reconcilePeerGroups ord P.peer (m, {})
  let st ← P.peer.entriesWithParent.foldlM (P.ingestEntry M) st
  let st := P.reconcilePeerDeletes st
  let m := unionPeerCustomIcons P.peer.metadata.customIcons
    (unionPeerTombstones P.peer.deletedObjects st.1)
  let st ← materializeGroupTombstones (m, st.2)
  return (reconcilePeerMeta P.localVault.metadata (P.mergedMeta M) st.1, st.2)

end KeysCore
