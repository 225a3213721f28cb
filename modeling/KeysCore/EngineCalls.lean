import KeysCore.Lib.Committed
import KeysCore.Portable
import KeysCore.Settling

/-!
# The engine's calls and their change events

The mutations of `Engine` as a frontend calls them (`engine/mutations.rs`, `engine/queries.rs`): the
transaction of `mutations.rs`, where the source has one the settling of the entry's parked conflicts,
and the change events (`events.rs`), which go to the observer when all before them has returned. The
group deletions give their events before the settling. A call that fails keeps what it committed.
-/

namespace KeysCore

open Lib

/-! ## Change events -/

structure EntryDeletionInfo where
  uuid : Uuid
  previousGroup : Uuid
deriving DecidableEq

structure EntryMove where
  uuid : Uuid
  fromGroup : Uuid
  toGroup : Uuid
deriving DecidableEq

structure GroupDeletionInfo where
  uuid : Uuid
  previousParent : Option Uuid
deriving DecidableEq

structure GroupMove where
  uuid : Uuid
  fromParent : Uuid
  toParent : Uuid
deriving DecidableEq

inductive ChangeEvent where
  | entriesAdded (uuids : List Uuid)
  | entriesUpdated (uuids : List Uuid)
  | entryTouched (uuid : Uuid)
  | entriesDeleted (infos : List EntryDeletionInfo)
  | entriesMoved (moves : List EntryMove)
  | entriesRecycled (uuids : List Uuid)
  | entriesRestored (uuids : List Uuid)
  | groupsAdded (uuids : List Uuid)
  | groupsUpdated (uuids : List Uuid)
  | groupsDeleted (infos : List GroupDeletionInfo)
  | groupsMoved (moves : List GroupMove)
  | groupsReordered (uuids : List Uuid)
  | groupsRecycled (uuids : List Uuid)
  | groupsRestored (uuids : List Uuid)
  | protectedFieldChanged (entryUuid : Uuid) (fieldName : String)
  | attachmentsChanged (uuids : List Uuid)
  | tagsChanged (uuids : List Uuid)
  | metaUpdated (keys : List String)
deriving DecidableEq

def keyRecycleBinEnabled : String := "meta.recycle_bin_enabled"

/-- No row of `setting`: the designation is the flag of the group rows. -/
def keyRecycleBinUuid : String := "meta.recycle_bin_uuid"

def keyHistoryMaxItems : String := "meta.history_max_items"

def keyHistoryMaxSize : String := "meta.history_max_size"

def keyCustomIcons : String := "meta.custom_icons"

/-! ## Calls -/

/-- The mirror with the events its observer was given. -/
structure Observed where
  mirror : Mirror
  heard : List ChangeEvent := []

/-- A call of the engine: it commits as it goes. -/
abbrev Call := Committing Observed EngineError

namespace Call

variable {α : Type}

def emit (e : ChangeEvent) : Call PUnit := fun s => (.ok ⟨⟩, { s with heard := s.heard ++ [e] })

/-- A transaction on the mirror. -/
def transaction (f : Mirror → Except EngineError (Mirror × α)) : Call α :=
  Committing.transact fun s => (f s.mirror).map fun r => ({ s with mirror := r.1 }, r.2)

/-- Transactions on the mirror. -/
def transactions (x : Committing Mirror EngineError α) : Call α := fun s =>
  ((x.runFrom s.mirror).1, { s with mirror := (x.runFrom s.mirror).2 })

/-- A read of the mirror. -/
def read (f : Mirror → Except EngineError α) : Call α := fun s => (f s.mirror, s)

end Call

namespace Engine

open Call

section Settling

variable (L : VaultMergeLib) (u : Uuid)

/-- The loop of `settle_entry_rows`: each pass is a transaction, and one that lands a merge starts over
on the mirror it leaves. -/
def settleRows : Nat → Call PUnit
  | 0 => throw .diverges
  | fuel + 1 => do
    let owners ← read fun m => .ok (m.conflictOwnersFor u)
    if owners.isEmpty then return
    let localVault ← read Mirror.project
    let landed ← transaction fun m => do
      let decision ← dissolveDecision L m localVault u owners
      applyDissolve u m decision
    if landed then settleRows fuel

/-- `reconcile::reconcile_conflict_rows`. -/
def reconcileConflictRows : Call PUnit := do
  let owners ← read fun m => .ok (m.conflictOwnersFor u)
  settleRows L u (owners.length + 1)

end Settling

/-! ### Entries -/

section Entries

variable (H : HistoryLib) (L : VaultMergeLib)

def createEntry (group : Uuid) (fields : NewEntryFields) (now : EpochMs) (newUuid : Uuid) :
    Call Uuid := do
  let u ← transaction fun m => m.createEntry group fields now newUuid
  emit (.entriesAdded [u])
  return u

/-- Whether the pool has an icon of these bytes, for the flag `add_custom_icon_dedup` returns with. -/
def iconPooled (m : Mirror) (bytes : List UInt8) : Bool :=
  m.settings.customIcons.rows.any (·.bytes = bytes)

/-- Did the import of `p` add an icon to the pool? -/
def iconInserted (m : Mirror) (p : PortableEntry) : Bool :=
  match p.icon, p.customIconPng with
  | .custom _, some bytes => !iconPooled m bytes
  | _, _ => false

def importEntry (iconUuid : List UInt8 → Uuid) (group : Uuid) (p : PortableEntry)
    (now clock : EpochMs) (entryUuid : Uuid) : Call Uuid := do
  let inserted ← read fun m => .ok (iconInserted m p)
  let u ← transactions (Mirror.importEntry H iconUuid group p now clock entryUuid)
  emit (.entriesAdded [u])
  if inserted then emit (.metaUpdated [keyCustomIcons])
  return u

/-- The flag `finish_entry_edit` returns with: the content is not as before. -/
def contentChanged (u : Uuid) (f : EntryRow → EntryRow) (m : Mirror) : Bool :=
  match m.entries.find? u with
  | none => false
  | some row => (f row).content ≠ row.content

/-- `update_entry` and `save_entry`: an edit that changes nothing settles nothing and is not told. -/
def contentEdit (u : Uuid) (f : EntryRow → EntryRow) (now : EpochMs) : Call PUnit := do
  let changed ← transaction fun m =>
    (m.contentEdit H u now f).map fun m' => (m', contentChanged u f m)
  if changed then
    reconcileConflictRows L u
    emit (.entriesUpdated [u])

def updateEntry (u : Uuid) (upd : EntryUpdate) (now : EpochMs) : Call PUnit :=
  contentEdit H L u (EntryRow.applyUpdate upd) now

def saveEntry (u : Uuid) (save : EntrySave) (now : EpochMs) : Call PUnit :=
  contentEdit H L u (EntryRow.applySave save) now

def restoreEntry (u : Uuid) (now : EpochMs) : Call PUnit := do
  transaction fun m => (m.restoreEntry u now).map (·, ⟨⟩)
  emit (.entriesRestored [u])

def deleteEntry (u : Uuid) (now : EpochMs) : Call PUnit := do
  let previousGroup ← transaction fun m => m.deleteEntry u now
  reconcileConflictRows L u
  emit (.entriesDeleted [⟨u, previousGroup⟩])

def moveEntry (u newGroup : Uuid) (now : EpochMs) : Call PUnit := do
  let out ← transaction fun m => m.moveEntry u newGroup now
  emit (.entriesMoved [⟨u, out.fromGroup, out.toGroup⟩])

/-- An edit of an entry that is settled, and told whatever it does. -/
def settledEdit (u : Uuid) (f : Mirror → Except EngineError Mirror) (events : List ChangeEvent) :
    Call PUnit := do
  transaction fun m => (f m).map (·, ⟨⟩)
  reconcileConflictRows L u
  events.forM emit

/-- Told as a recycling also where the mutation deleted the entry or created the bin. -/
def recycleEntry (u : Uuid) (now : EpochMs) (binUuid : Uuid) : Call PUnit :=
  settledEdit L u (fun m => m.recycleEntry u now binUuid) [.entriesRecycled [u]]

def setProtectedField (u : Uuid) (name value : String) (now : EpochMs) : Call PUnit :=
  settledEdit L u (fun m => m.setProtectedField H u name value now) [.protectedFieldChanged u name]

def setNonProtectedCustomField (u : Uuid) (name value : String) (now : EpochMs) : Call PUnit :=
  settledEdit L u (fun m => m.setNonProtectedCustomField H u name value now) [.entriesUpdated [u]]

def removeCustomField (u : Uuid) (name : String) (now : EpochMs) : Call PUnit :=
  settledEdit L u (fun m => m.removeCustomField H u name now) [.entriesUpdated [u]]

def setTags (u : Uuid) (tags : List String) (now : EpochMs) : Call PUnit :=
  settledEdit L u (fun m => m.setTags H u tags now) [.tagsChanged [u], .entriesUpdated [u]]

/-- `attach_file` and `set_attachment`. -/
def setAttachment (u : Uuid) (name : String) (bytes : List UInt8) (now : EpochMs) : Call PUnit :=
  settledEdit L u (fun m => m.setAttachment H u name bytes now) [.attachmentsChanged [u]]

def removeAttachment (u : Uuid) (name : String) (now : EpochMs) : Call PUnit :=
  settledEdit L u (fun m => m.removeAttachment H u name now) [.attachmentsChanged [u]]

def clearEntryCustomIcon (u : Uuid) (now : EpochMs) : Call PUnit :=
  settledEdit L u (fun m => m.clearEntryCustomIcon H u now) [.entriesUpdated [u]]

def restoreEntryFromHistory (u : Uuid) (index : Nat) (now : EpochMs) : Call PUnit :=
  settledEdit L u (fun m => m.restoreEntryFromHistory H u index now) [.entriesUpdated [u]]

/-- An edit of an entry that settles nothing. -/
def plainEdit (f : Mirror → Except EngineError Mirror) (event : ChangeEvent) : Call PUnit := do
  transaction fun m => (f m).map (·, ⟨⟩)
  emit event

def linkEntryCustomIcon (u icon : Uuid) : Call PUnit :=
  plainEdit (fun m => m.linkEntryCustomIcon u icon) (.entriesUpdated [u])

def touchEntry (u : Uuid) (now : EpochMs) : Call PUnit :=
  plainEdit (fun m => m.touchEntry u (some now)) (.entryTouched u)

def clearEntryLastAccess (u : Uuid) : Call PUnit :=
  plainEdit (fun m => m.touchEntry u none) (.entriesUpdated [u])

def deleteHistoryAt (u : Uuid) (index : Nat) (now : EpochMs) : Call PUnit :=
  plainEdit (fun m => m.deleteHistoryAt H u index now) (.entriesUpdated [u])

end Entries

/-! ### Groups -/

section Groups

variable (L : VaultMergeLib)

def createGroup (parent : Uuid) (fields : NewGroupFields) (now : EpochMs) (newUuid : Uuid) :
    Call Uuid := do
  let u ← transaction fun m => m.createGroup parent fields now newUuid
  emit (.groupsAdded [u])
  return u

def updateGroup (u : Uuid) (upd : GroupUpdate) (now : EpochMs) : Call PUnit :=
  plainEdit (fun m => m.updateGroup u upd now) (.groupsUpdated [u])

def recycleGroup (u : Uuid) (now : EpochMs) : Call PUnit :=
  plainEdit (fun m => m.recycleGroup u now) (.groupsRecycled [u])

/-- A move to where the caller says, told as a restore. -/
def restoreGroup (u newParent : Uuid) (now : EpochMs) : Call PUnit :=
  plainEdit (fun m => (m.moveGroup u newParent now).map (·.1)) (.groupsRestored [u])

def moveGroup (u newParent : Uuid) (now : EpochMs) : Call PUnit := do
  let out ← transaction fun m => m.moveGroup u newParent now
  emit (.groupsMoved [⟨u, out.fromParent, out.toParent⟩])

def reorderGroup (u : Uuid) (position : Nat) (now : EpochMs) : Call PUnit := do
  let siblings ← transaction fun m => m.reorderGroup u position now
  emit (.groupsReordered siblings)

def deletedEntryInfos (out : DeleteGroupOutcome) : List EntryDeletionInfo :=
  out.deletedEntries.map fun d => ⟨d.1, d.2⟩

def deletedGroupInfos (out : DeleteGroupOutcome) : List GroupDeletionInfo :=
  out.deletedGroups.map fun d => ⟨d.1, d.2⟩

def emitDeletedEntries (out : DeleteGroupOutcome) : Call PUnit :=
  if out.deletedEntries.isEmpty then pure ⟨⟩ else emit (.entriesDeleted (deletedEntryInfos out))

def emitDeletedGroups (out : DeleteGroupOutcome) : Call PUnit :=
  if out.deletedGroups.isEmpty then pure ⟨⟩ else emit (.groupsDeleted (deletedGroupInfos out))

def deleteGroup (u : Uuid) (now : EpochMs) : Call PUnit := do
  let out ← transaction fun m => m.deleteGroup u now
  emitDeletedEntries out
  emit (.groupsDeleted (deletedGroupInfos out))
  out.deletedEntries.forM fun d => reconcileConflictRows L d.1

def emptyRecycleBin (now : EpochMs) : Call PUnit := do
  let out ← transaction fun m => m.emptyRecycleBin now
  emitDeletedEntries out
  emitDeletedGroups out
  out.deletedEntries.forM fun d => reconcileConflictRows L d.1

/-- The bin is told when there was none before and there is one now. -/
def ensureRecycleBin (now : EpochMs) (binUuid : Uuid) : Call PUnit := do
  let before ← read fun m => .ok m.recycleBinUuid
  transaction fun m => (m.ensureRecycleBin now binUuid).map (·, ⟨⟩)
  let bin ← read fun m => .ok m.recycleBinUuid
  if before.isNone then
    match bin with
    | some u => emit (.groupsAdded [u])
    | none => return

end Groups

/-! ### Meta -/

def setRecycleBin (enabled : Bool) (group : Option Uuid) (now : EpochMs) : Call PUnit :=
  plainEdit (fun m => m.setRecycleBin enabled group now)
    (.metaUpdated [keyRecycleBinEnabled, keyRecycleBinUuid])

def setHistoryMaxItems (n : Int) : Call PUnit :=
  plainEdit (fun m => .ok (m.setHistoryMaxItems n)) (.metaUpdated [keyHistoryMaxItems])

def setHistoryMaxSize (n : Int) : Call PUnit :=
  plainEdit (fun m => .ok (m.setHistoryMaxSize n)) (.metaUpdated [keyHistoryMaxSize])

def addCustomIcon (iconUuid : List UInt8 → Uuid) (bytes : List UInt8) (now : EpochMs) :
    Call Uuid := do
  let pooled ← read fun m => .ok (iconPooled m bytes)
  let u ← transaction fun m => m.addCustomIcon iconUuid bytes now
  if !pooled then emit (.metaUpdated [keyCustomIcons])
  return u

end Engine

end KeysCore
