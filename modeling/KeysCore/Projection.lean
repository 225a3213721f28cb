import KeysCore.Mutations

/-!
# Projection

`projection::project`: the vault a mirror stands for, as a save writes it. Groups are loaded in
sibling order, the row without parent becomes the root, and the tree is built downwards from it by
removing each row it places; a row the root does not reach is not placed, and the entries of a group
that is not placed are not attached. Neither is reported.

The recursion of `build_subtree` carries as fuel the rows still to place: each call removes one, so
out of fuel it fails exactly where the source does, for want of a row.
-/

namespace KeysCore

open Lib

/-! ## Columns to fields -/

/-- `builtin_icon_index`: NULL reads as icon `0`. -/
def builtinIconIndex (i : Option IconIndex) : IconIndex := i.getD 0

/-- `build_times`: every instant at whole-second precision. -/
def buildTimes (createdAt modifiedAt accessedAt : EpochMs)
    (expiresAt locationChangedAt : Option EpochMs) : Timestamps where
  creationTime := some createdAt.floored
  lastModificationTime := some modifiedAt.floored
  lastAccessTime := some accessedAt.floored
  expiryTime := expiresAt.map (·.floored)
  expires := expiresAt.isSome
  locationChanged := locationChangedAt.map (·.floored)

/-- Rows in the order of their name. -/
def sortByName {β : Type} (rows : List (String × β)) : List (String × β) :=
  rows.insertionSort fun a b => a.1 ≤ b.1

def sortStrings (l : List String) : List String := l.insertionSort (· ≤ ·)

/-- `<CustomData>` of an entry or a history record. -/
def CustomDataRow.toItem (r : CustomDataRow) : CustomDataItem :=
  ⟨r.key, r.value, r.lastModifiedAt.map (·.floored)⟩

namespace GroupRow

/-- The group fields `build_subtree` fills from a row. -/
def toInfo (g : GroupRow) : GroupInfo where
  id := g.uuid
  name := g.name
  notes := g.notes
  iconId := builtinIconIndex g.iconIndex
  customIconUuid := g.iconCustomUuid
  times := buildTimes g.createdAt g.modifiedAt g.modifiedAt g.expiresAt g.locationChangedAt

end GroupRow

/-- `snapshot_to_entry`: a history record as an entry version, without a location. The order of
the custom fields is unspecified in the source; here it is by name. -/
def HistorySnapshot.toVersion (uuid : Uuid) (s : HistorySnapshot) : EntryVersion where
  id := uuid
  title := s.title
  username := s.username
  url := s.url
  notes := s.notes
  password := s.password
  tags := s.tags
  iconId := builtinIconIndex s.iconIndex
  customIconUuid := s.iconCustomUuid
  times := buildTimes s.createdAt s.modifiedAt s.accessedAt s.expiresAt none
  customFields := s.customFields.insertionSort fun a b => a.key ≤ b.key
  customData := s.customData.map (·.toItem)
  attachments := s.attachments.map fun a => ⟨a.1, a.2, false⟩

namespace EntryRow

/-- The live version of an entry: its row and side tables. Protected fields come before plain
ones, each by name. -/
def toVersion (e : EntryRow) : EntryVersion where
  id := e.uuid
  title := e.title
  username := e.username
  url := e.url
  notes := e.notes
  password := e.password
  iconId := builtinIconIndex e.iconIndex
  customIconUuid := e.iconCustomUuid
  previousParentGroup := e.previousParentUuid
  times := buildTimes e.createdAt e.modifiedAt e.accessedAt e.expiresAt e.locationChangedAt
  customFields :=
    (sortByName e.protectedFields).map (fun f => ⟨f.1, f.2, true⟩) ++
      (sortByName e.customFields).map fun f => ⟨f.1, f.2, false⟩
  attachments := (sortByName e.attachments).map fun a => ⟨a.1, a.2, false⟩
  tags := sortStrings e.tags
  customData := (e.customData.insertionSort fun a b => a.key ≤ b.key).map (·.toItem)

/-- The entry a row projects to, history included. -/
def toEntry (e : EntryRow) : Entry where
  toEntryVersion := e.toVersion
  history := e.history.map (HistorySnapshot.toVersion e.uuid)

end EntryRow

/-! ## The group tree -/

/-- `load_group_rows`: every row in sibling order; a `sort_order` outside `u32` fails the read. -/
def loadGroupRows (m : Mirror) : Except EngineError (List GroupRow) :=
  if ∀ g ∈ m.groups.rows, 0 ≤ g.sortOrder ∧ g.sortOrder < 2 ^ 32 then
    .ok (Mirror.sortRows m.groups.rows)
  else .error (.sqlite (.integralValueOutOfRange "sort_order"))

/-- The children of `u` among `rows`, in row order. -/
def childrenOf (rows : List GroupRow) (u : Uuid) : List Uuid :=
  (rows.filter (·.parentUuid = some u)).map (·.uuid)

/-- `build_subtree`: the tree below `u`, with the rows not yet placed. -/
def buildSubtree (rows : List GroupRow) :
    Nat → Uuid → List GroupRow → Except EngineError (Group × List GroupRow)
  | 0, u, _ => .error (.projection (.missingRow u))
  | fuel + 1, u, byUuid =>
    match byUuid.find? (·.uuid = u) with
    | none => .error (.projection (.missingRow u))
    | some row => do
      let (children, rest) ← (childrenOf rows u).foldlM
        (fun (acc : List Group × List GroupRow) c => do
          let (g, rest) ← buildSubtree rows fuel c acc.2
          return (acc.1 ++ [g], rest))
        ([], byUuid.filter (·.uuid ≠ u))
      return (.node row.toInfo [] children, rest)

/-- The root of `rows`: the first row without parent, an error when a second one follows. -/
def findRoot : Option Uuid → List GroupRow → Except EngineError (Option Uuid)
  | found, [] => .ok found
  | found, g :: rows =>
    match g.parentUuid, found with
    | some _, _ => findRoot found rows
    | none, none => findRoot (some g.uuid) rows
    | none, some existing => .error (.projection (.multipleRoots existing g.uuid))

/-- The bin of `rows`: the last row flagged. -/
def findRecycleBin (rows : List GroupRow) : Option Uuid :=
  rows.foldl (fun bin g => if g.isRecycleBin then some g.uuid else bin) none

/-- `build_group_tree`: the root with everything below it, and the bin. -/
def buildGroupTree (rows : List GroupRow) : Except EngineError (Group × Option Uuid) := do
  match ← findRoot none rows with
  | none => .error (.projection .noRoot)
  | some root =>
    let (g, _) ← buildSubtree rows rows.length root rows
    return (g, findRecycleBin rows)

mutual

/-- `attach_entries_to_tree`. -/
def Group.attach (entriesOf : Uuid → List Entry) : Group → Group
  | .node i _ gs => .node i (entriesOf i.id) (Group.attachAll entriesOf gs)

def Group.attachAll (entriesOf : Uuid → List Entry) : List Group → List Group
  | [] => []
  | g :: gs => g.attach entriesOf :: Group.attachAll entriesOf gs

end

/-! ## The vault -/

/-- `unpack_memory_protection`. -/
def unpackMemoryProtection (b : UInt8) : MemoryProtection where
  protectTitle := b &&& 1 ≠ 0
  protectUsername := b &&& 2 ≠ 0
  protectPassword := b &&& 4 ≠ 0
  protectUrl := b &&& 8 ≠ 0
  protectNotes := b &&& 16 ≠ 0

namespace Mirror

/-- The projected entries of group `g`, in row order. -/
def entriesOf (m : Mirror) (g : Uuid) : List Entry :=
  (m.entries.rows.filter (·.groupUuid = g)).map (·.toEntry)

/-- `read_meta_into`, with the bin found in the group rows. Instants keep the resolution of their
column. -/
def readMeta (m : Mirror) (bin : Option Uuid) : Meta where
  generator := m.settings.generator
  headerHash := m.settings.headerHash
  masterKeyChanged := m.settings.masterKeyChanged.map (·.toDateTime)
  masterKeyChangeRec := m.settings.masterKeyChangeRec
  masterKeyChangeForce := m.settings.masterKeyChangeForce
  memoryProtection := unpackMemoryProtection m.settings.memoryProtection
  unknownXml := m.settings.unknownXml
  databaseName := m.settings.databaseName
  databaseNameChanged := m.settings.databaseNameChanged.map (·.toDateTime)
  databaseDescription := m.settings.databaseDescription
  databaseDescriptionChanged := m.settings.databaseDescriptionChanged.map (·.toDateTime)
  defaultUsername := m.settings.defaultUsername
  defaultUsernameChanged := m.settings.defaultUsernameChanged.map (·.toDateTime)
  recycleBinEnabled := m.settings.recycleBinEnabled.getD bin.isSome
  recycleBinUuid := bin
  recycleBinChanged := m.settings.recycleBinChanged.map (·.toDateTime)
  settingsChanged := m.settings.settingsChanged.map (·.toDateTime)
  color := m.settings.color
  historyMaxItems := m.settings.historyMaxItems
  historyMaxSize := m.settings.historyMaxSize
  maintenanceHistoryDays := m.settings.maintenanceHistoryDays
  customIcons := (m.settings.customIcons.rows.insertionSort fun a b => a.uuid ≤ b.uuid).map fun r =>
    ⟨r.uuid, r.bytes, r.name, r.lastModifiedAt.map (·.toDateTime)⟩
  customData := (m.settings.customData.rows.insertionSort fun a b => a.key ≤ b.key).map fun r =>
    ⟨r.key, r.value, r.lastModifiedAt.map (·.toDateTime)⟩

/-- `read_deleted_objects`, at the resolution of the column. -/
def readDeletedObjects (m : Mirror) : List DeletedObject :=
  (m.tombstones.rows.insertionSort fun a b => a.uuid ≤ b.uuid).map fun r =>
    ⟨r.uuid, r.deletedAt.map (·.toDateTime)⟩

/-- `projection::project`. -/
def project (m : Mirror) : Except EngineError Vault := do
  let rows ← loadGroupRows m
  let (root, bin) ← buildGroupTree rows
  return {
    root := root.attach m.entriesOf
    metadata := m.readMeta bin
    deletedObjects := m.readDeletedObjects }

end Mirror

end KeysCore
