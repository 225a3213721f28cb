import KeysCore.PeerIngest

/-!
# Entry mutations

The engine's operations on one entry (`mutations.rs`). Each edits the row of the entry with its side
tables, and an edit of its content first archives the row as it was: the snapshot goes to the end of
the history, and the history is pruned to the vault's budgets with a tombstone for every record that
falls out (`archive_snapshot`, `prune_history`). `update_entry` and `save_entry` archive only when the
content changed; otherwise their transaction is rolled back.

`import_entry` is `add_custom_icon`, `create_entry`, `update_entry` and `attach_file` in a row, each
committed on its own.

The canonical text of a snapshot and the construction of a history tombstone are the parameter
`HistoryLib`: the first is the length serde_json writes, the second belongs to keepass-merge.
-/

namespace KeysCore

open Lib

/-! ## Arguments -/

structure NewEntryFields where
  title : String := ""
  username : String := ""
  password : String := ""
  url : String := ""
  notes : String := ""
  icon : IconRef := .builtin 0
  customFields : List CustomField := []
  tags : List String := []
deriving DecidableEq

/-- A patch: `none` leaves a field alone. -/
structure EntryUpdate where
  title : Option String := none
  username : Option String := none
  password : Option String := none
  url : Option String := none
  notes : Option String := none
  icon : Option IconRef := none
  expiresAt : Option (Option EpochMs) := none
deriving DecidableEq

/-- The complete state of an entry after a save. -/
structure EntrySave extends NewEntryFields where
  expiresAt : Option EpochMs := none
deriving DecidableEq

inductive TombstoneReason where
  | userDelete
  | quotaTrim
deriving DecidableEq

/-- `add_history_tombstone` on the custom data of an entry, and the length of a snapshot's JSON. -/
structure HistoryLib where
  addHistoryTombstone :
    List CustomDataItem → EntryVersion → TombstoneReason → DateTime →
      Except String (List CustomDataItem)
  snapshotSize : HistorySnapshot → Nat

/-! ## Rows by name -/

/-- `INSERT … ON CONFLICT DO UPDATE` on rows listed by name. -/
def upsertRow {β : Type} (rows : List (String × β)) (r : String × β) : List (String × β) :=
  if r.1 ∈ rows.map (·.1) then rows.map fun a => if a.1 = r.1 then r else a else rows ++ [r]

/-- `INSERT OR REPLACE INTO entry_custom_data`. -/
def replaceCustomData (rows : List CustomDataRow) (r : CustomDataRow) : List CustomDataRow :=
  rows.filter (·.key ≠ r.key) ++ [r]

/-- The protected fields of a list, the one named like the password's slot left out. -/
def protectedOf (fields : List CustomField) : List (String × String) :=
  (fields.filter fun f => f.isProtected && f.key ≠ "Password").map fun f => (f.key, f.value)

def plainOf (fields : List CustomField) : List (String × String) :=
  (fields.filter fun f => !f.isProtected).map fun f => (f.key, f.value)

namespace EntryRow

/-! ## Snapshots -/

/-- `build_live_snapshot`: of a protected and a plain field of one name the plain one stays. -/
def liveSnapshot (e : EntryRow) : HistorySnapshot where
  title := e.title
  username := e.username
  url := e.url
  notes := e.notes
  password := e.password
  tags := (sortStrings e.tags).dedup
  createdAt := e.createdAt
  modifiedAt := e.modifiedAt
  accessedAt := e.accessedAt
  lastUsedAt := e.lastUsedAt
  expiresAt := e.expiresAt
  iconIndex := e.iconIndex
  iconCustomUuid := e.iconCustomUuid
  attachments := e.attachments
  customFields :=
    (e.protectedFields.map (fun f => CustomField.mk f.1 f.2 true) ++
      e.customFields.map fun f => CustomField.mk f.1 f.2 false).foldl putField []
  customData := e.customData.insertionSort fun a b => a.key ≤ b.key

/-- The walk of `prune_history` from the newest record on: which records stay, each with whether it
is kept. A record that does not fit is passed over and an older one may still fit. -/
def keepNewest (size : HistorySnapshot → Nat) (itemsCap sizeCap : Option Nat) :
    Nat → Nat → List HistorySnapshot → List (HistorySnapshot × Bool)
  | _, _, [] => []
  | kept, keptSize, s :: older =>
    if (∀ c ∈ itemsCap, kept < c) ∧ (∀ c ∈ sizeCap, keptSize + size s ≤ c) then
      (s, true) :: keepNewest size itemsCap sizeCap (kept + 1) (keptSize + size s) older
    else (s, false) :: keepNewest size itemsCap sizeCap kept keptSize older

/-- A budget of `Meta`; a negative one is off. -/
def budget (n : Int) : Option Nat := if n < 0 then none else some n.toNat

/-- The records with whether the vault's budgets keep them, oldest first. -/
def budgeted (H : HistoryLib) (s : Settings) (history : List HistorySnapshot) :
    List (HistorySnapshot × Bool) :=
  (keepNewest H.snapshotSize (budget s.historyMaxItems) (budget s.historyMaxSize) 0 0
    history.reverse).reverse

/-- The tombstone list of `data`, the one item of it that is written back. -/
def storeTombstones (data : List CustomDataItem) (e : EntryRow) : EntryRow :=
  match data.find? (·.key = tombstoneCustomDataKey) with
  | none => e
  | some item => { e with customData := replaceCustomData e.customData item.toRow }

/-- `tombstone_quota_trimmed_snapshots`: one tombstone for each record about to be dropped, folded
into the entry's list. -/
def tombstoneTrimmed (H : HistoryLib) (now : EpochMs) (dropped : List HistorySnapshot)
    (e : EntryRow) : Except EngineError EntryRow := do
  let carrier := (e.customData.filter (·.key = tombstoneCustomDataKey)).map fun r =>
    CustomDataItem.mk r.key r.value none
  let data ← dropped.foldlM (fun data s =>
    serialised (H.addHistoryTombstone data (s.toVersion e.uuid) .quotaTrim now.toDateTime)) carrier
  return e.storeTombstones data

/-- `prune_history`. -/
def pruneHistory (H : HistoryLib) (s : Settings) (now : EpochMs) (e : EntryRow) :
    Except EngineError EntryRow :=
  let rows := budgeted H s e.history
  let dropped := (rows.filter fun r => !r.2).map (·.1)
  if dropped.isEmpty then .ok e
  else do
    let e ← e.tombstoneTrimmed H now dropped
    return { e with history := (rows.filter (·.2)).map (·.1) }

/-- `archive_snapshot`. -/
def archive (H : HistoryLib) (s : Settings) (now : EpochMs) (snap : HistorySnapshot) (e : EntryRow) :
    Except EngineError EntryRow :=
  pruneHistory H s now { e with history := e.history ++ [snap] }

/-! ## Content -/

/-- `EntryContent`: what an edit must change to count. -/
structure Content where
  title : String
  username : String
  url : String
  notes : String
  iconIndex : Option IconIndex
  iconCustomUuid : Option Uuid
  expiresAt : Option EpochMs
  password : String
  protectedFields : List (String × String)
  customFields : List (String × String)
  tags : List String
  attachments : List (String × List UInt8)
  customData : List (String × String)
deriving DecidableEq

/-- `read_entry_content`. -/
def content (e : EntryRow) : Content where
  title := e.title
  username := e.username
  url := e.url
  notes := e.notes
  iconIndex := e.iconIndex
  iconCustomUuid := e.iconCustomUuid
  expiresAt := e.expiresAt
  password := e.password
  protectedFields := sortByName e.protectedFields
  customFields := sortByName e.customFields
  tags := sortStrings e.tags
  attachments := sortByName e.attachments
  customData := sortByName (e.customData.map fun r => (r.key, r.value))

/-- An edit of the content: archived and stamped, or nothing when the content is as before
(`finish_entry_edit`). -/
def finishEdit (H : HistoryLib) (s : Settings) (now : EpochMs) (before after : EntryRow) :
    Except EngineError (Option EntryRow) :=
  if after.content = before.content then .ok none
  else do
    let e ← after.archive H s now before.liveSnapshot
    return some { e with modifiedAt := now }

/-- An edit that archives whatever it does (`push_history_snapshot` first, `bump_modified` last). -/
def archivedEdit (H : HistoryLib) (s : Settings) (now : EpochMs) (f : EntryRow → EntryRow)
    (e : EntryRow) : Except EngineError EntryRow := do
  let archived ← e.archive H s now e.liveSnapshot
  return { f archived with modifiedAt := now }

/-! ## The edits -/

def applyUpdate (upd : EntryUpdate) (e : EntryRow) : EntryRow :=
  { e with
    title := upd.title.getD e.title
    username := upd.username.getD e.username
    url := upd.url.getD e.url
    notes := upd.notes.getD e.notes
    iconIndex := (upd.icon.map fun i => (iconParts i).1).getD e.iconIndex
    iconCustomUuid := (upd.icon.map fun i => (iconParts i).2).getD e.iconCustomUuid
    expiresAt := upd.expiresAt.getD e.expiresAt
    password := upd.password.getD e.password }

/-- The custom fields are replaced as a whole, the last of one name staying; so are the tags. -/
def applySave (s : EntrySave) (e : EntryRow) : EntryRow :=
  { e with
    title := s.title
    username := s.username
    url := s.url
    notes := s.notes
    iconIndex := (iconParts s.icon).1
    iconCustomUuid := (iconParts s.icon).2
    expiresAt := s.expiresAt
    password := s.password
    protectedFields := (protectedOf s.customFields).foldl upsertRow []
    customFields := (plainOf s.customFields).foldl upsertRow []
    tags := s.tags.foldl linkTag [] }

/-- `set_protected_field`: the slot named `Password` is the password. -/
def setProtected (name value : String) (e : EntryRow) : EntryRow :=
  if name = "Password" then { e with password := value }
  else { e with protectedFields := upsertRow e.protectedFields (name, value) }

/-- The live row of `restore_entry_from_history`: the snapshot's content under the row's own place,
with the history and the custom data of the row. -/
def restored (snap : HistorySnapshot) (now : EpochMs) (e : EntryRow) : EntryRow :=
  { e with
    title := snap.title
    username := snap.username
    url := snap.url
    notes := snap.notes
    iconIndex := snap.iconIndex
    iconCustomUuid := snap.iconCustomUuid
    createdAt := snap.createdAt
    modifiedAt := now
    accessedAt := snap.accessedAt
    lastUsedAt := snap.lastUsedAt
    expiresAt := snap.expiresAt
    password := snap.password
    protectedFields := protectedOf snap.customFields
    customFields := plainOf (snap.customFields.filter (·.key ≠ "Password"))
    attachments := snap.attachments
    tags := snap.tags.foldl linkTag [] }

/-- `restore_entry_from_history` on the row: the row as it was goes to the end of the history, which
is then trimmed to `history_max_items` only. -/
def restoreFrom (H : HistoryLib) (maxItems : Int) (now : EpochMs) (snap : HistorySnapshot)
    (e : EntryRow) : Except EngineError EntryRow :=
  let history := e.history ++ [e.liveSnapshot]
  let e' := { e.restored snap now with history }
  match budget maxItems with
  | none => .ok e'
  | some cap =>
    let toDrop := history.length - cap
    if toDrop = 0 then .ok e'
    else do
      let e' ← e'.tombstoneTrimmed H now (history.take toDrop)
      return { e' with history := history.drop toDrop }

end EntryRow

/-! ## The operations -/

namespace Mirror

variable (m : Mirror)

/-- The row of `u` rewritten in place. -/
def putEntryRow (u : Uuid) (row : EntryRow) : Mirror :=
  m.updateEntry u (fun r => { row with uuid := r.uuid, groupUuid := r.groupUuid }) (fun _ => rfl)
    (fun _ => rfl)

/-- An edit of one entry's row, in one transaction. -/
def editEntry (u : Uuid) (f : EntryRow → Except EngineError EntryRow) : Except EngineError Mirror :=
  match m.entries.find? u with
  | none => .error (.notFound "entry")
  | some row => do
    let row ← f row
    return m.putEntryRow u row

/-- `create_entry`. Two fields of one name and kind break the primary key of their table. -/
def createEntry (group : Uuid) (fields : NewEntryFields) (now : EpochMs) (newUuid : Uuid) :
    Except EngineError (Mirror × Uuid) :=
  if m.groupExists group then do
    let m ← m.insertEntryRow
      { uuid := newUuid, groupUuid := group, title := fields.title, username := fields.username
        url := fields.url, notes := fields.notes, iconIndex := (iconParts fields.icon).1
        iconCustomUuid := (iconParts fields.icon).2, createdAt := now, modifiedAt := now
        accessedAt := now, password := fields.password
        protectedFields := protectedOf fields.customFields
        customFields := plainOf fields.customFields, tags := fields.tags.foldl linkTag [] }
    if ((protectedOf fields.customFields).map (·.1)).Nodup ∧
        ((plainOf fields.customFields).map (·.1)).Nodup then return (m, newUuid)
    else .error (.sqlite .constraintPrimaryKey)
  else .error (.notFound "group")

/-- An edit that leaves the mirror alone when it changes no content. -/
def contentEdit (H : HistoryLib) (u : Uuid) (now : EpochMs) (f : EntryRow → EntryRow) :
    Except EngineError Mirror :=
  match m.entries.find? u with
  | none => .error (.notFound "entry")
  | some row => do
    match ← EntryRow.finishEdit H m.settings now row (f row) with
    | none => return m
    | some row => return m.putEntryRow u row

/-- `update_entry`. -/
def updateEntryFields (H : HistoryLib) (u : Uuid) (upd : EntryUpdate) (now : EpochMs) :
    Except EngineError Mirror :=
  m.contentEdit H u now (EntryRow.applyUpdate upd)

def saveEntry (H : HistoryLib) (u : Uuid) (save : EntrySave) (now : EpochMs) :
    Except EngineError Mirror :=
  m.contentEdit H u now (EntryRow.applySave save)

def setProtectedField (H : HistoryLib) (u : Uuid) (name value : String) (now : EpochMs) :
    Except EngineError Mirror :=
  m.editEntry u (EntryRow.archivedEdit H m.settings now (EntryRow.setProtected name value))

def setNonProtectedCustomField (H : HistoryLib) (u : Uuid) (name value : String) (now : EpochMs) :
    Except EngineError Mirror :=
  m.editEntry u (EntryRow.archivedEdit H m.settings now fun e =>
    { e with customFields := upsertRow e.customFields (name, value) })

/-- The password's slot is not a custom field. -/
def removeCustomField (H : HistoryLib) (u : Uuid) (name : String) (now : EpochMs) :
    Except EngineError Mirror :=
  m.editEntry u fun e =>
    if name = "Password" then .error (.notFound "custom_field")
    else EntryRow.archivedEdit H m.settings now (fun e =>
      { e with
        protectedFields := e.protectedFields.filter (·.1 ≠ name)
        customFields := e.customFields.filter (·.1 ≠ name) }) e

/-- Tags that are the same as a set are rewritten without an archive. -/
def setTags (H : HistoryLib) (u : Uuid) (tags : List String) (now : EpochMs) :
    Except EngineError Mirror :=
  m.editEntry u fun e =>
    let new := tags.foldl linkTag []
    if sortStrings new = sortStrings e.tags then .ok { e with tags := new }
    else EntryRow.archivedEdit H m.settings now (fun e => { e with tags := new }) e

/-- `attach_file` and `set_attachment`. -/
def setAttachment (H : HistoryLib) (u : Uuid) (name : String) (bytes : List UInt8) (now : EpochMs) :
    Except EngineError Mirror :=
  m.editEntry u (EntryRow.archivedEdit H m.settings now fun e =>
    { e with attachments := upsertRow e.attachments (name, bytes) })

def removeAttachment (H : HistoryLib) (u : Uuid) (name : String) (now : EpochMs) :
    Except EngineError Mirror :=
  m.editEntry u (EntryRow.archivedEdit H m.settings now fun e =>
    { e with attachments := e.attachments.filter (·.1 ≠ name) })

def clearEntryCustomIcon (H : HistoryLib) (u : Uuid) (now : EpochMs) : Except EngineError Mirror :=
  m.editEntry u (EntryRow.archivedEdit H m.settings now fun e => { e with iconCustomUuid := none })

/-- Neither archives nor stamps. -/
def linkEntryCustomIcon (u icon : Uuid) : Except EngineError Mirror :=
  m.editEntry u fun e => .ok { e with iconCustomUuid := some icon }

/-- `touch_entry` stamps the last use, `clear_entry_last_access` clears it; no projection reads it. -/
def touchEntry (u : Uuid) (usedAt : Option EpochMs) : Except EngineError Mirror :=
  m.editEntry u fun e => .ok { e with lastUsedAt := usedAt }

/-- `Engine::delete_history_at`: the record's tombstone is written to the custom data first, then the
record is removed, in two transactions. -/
def deleteHistoryAt (H : HistoryLib) (u : Uuid) (index : Nat) (now : EpochMs) :
    Except EngineError Mirror := do
  let vault ← m.project
  match vault.entries.find? (·.id = u) with
  | none => .error (.notFound "entry")
  | some entry =>
    match entry.history[index]? with
    | none => .error (.notFound "history_snapshot")
    | some record => do
      let data ← serialised
        (H.addHistoryTombstone entry.customData record .userDelete now.toDateTime)
      let m ← m.editEntry u fun e => .ok (e.storeTombstones data)
      m.editEntry u fun e =>
        if index < e.history.length then .ok { e with history := e.history.eraseIdx index }
        else .error (.notFound "history_snapshot")

/-- `restore_entry_from_history`. Attachments of one name break the primary key of their table. -/
def restoreEntryFromHistory (H : HistoryLib) (u : Uuid) (index : Nat) (now : EpochMs) :
    Except EngineError Mirror :=
  m.editEntry u fun e =>
    match e.history[index]? with
    | none => .error (.notFound "history_snapshot")
    | some snap =>
      if (snap.attachments.map (·.1)).Nodup then
        EntryRow.restoreFrom H m.settings.historyMaxItems now snap e
      else .error (.sqlite .constraintPrimaryKey)

/-! ## Meta -/

/-- `add_custom_icon_dedup`: bytes already in the pool keep their icon. A new icon's uuid is derived
from its bytes. -/
def addCustomIcon (iconUuid : List UInt8 → Uuid) (bytes : List UInt8) (now : EpochMs) :
    Except EngineError (Mirror × Uuid) :=
  match m.settings.customIcons.rows.find? (·.bytes = bytes) with
  | some icon => .ok (m, icon.uuid)
  | none =>
    match m.settings.customIcons.insert? ⟨iconUuid bytes, "", bytes, some now⟩ with
    | none => .error (.sqlite .constraintPrimaryKey)
    | some T => .ok (m.writeSettings (fun s => { s with customIcons := T }) 1, iconUuid bytes)

def setHistoryMaxItems (n : Int) : Mirror :=
  m.writeSettings (fun s => { s with historyMaxItems := n }) 1

def setHistoryMaxSize (n : Int) : Mirror :=
  m.writeSettings (fun s => { s with historyMaxSize := n }) 1

/-- `ensure_recycle_bin`. -/
def ensureRecycleBin (now : EpochMs) (binUuid : Uuid) : Except EngineError Mirror :=
  match m.recycleBinUuid with
  | some _ => .ok m
  | none => if m.readRecycleBinEnabled then m.createRecycleBinGroup now binUuid else .ok m

end Mirror

end KeysCore
