import KeysCore.PeerGroups

/-!
# Ingesting a vault

`insert_entry` turns an entry into rows, and `ingest_vault_with_header` replaces the whole mirror by
a vault inside one `IMMEDIATE` transaction. Where the vault came from (`Source`) decides the guard:
a vault read from its file is refused while the mirror owes a write, one rebuilt in memory is
refused when it says at which sequence it was projected and the mirror has moved on since, and
otherwise there is no guard.
-/

namespace KeysCore

open Lib

/-! ## Entries to rows -/

/-- Rust's `char::is_whitespace`, the Unicode property `White_Space`. -/
def isWhitespace (c : Char) : Bool :=
  let n := c.toNat
  (0x9 ≤ n && n ≤ 0xd) || n = 0x20 || n = 0x85 || n = 0xa0 || n = 0x1680 ||
    (0x2000 ≤ n && n ≤ 0x200a) || n = 0x2028 || n = 0x2029 || n = 0x202f || n = 0x205f || n = 0x3000

/-- Rust's `str::trim`. -/
def trim (s : String) : String :=
  String.ofList
    (((s.toList.dropWhile isWhitespace).reverse.dropWhile isWhitespace).reverse)

/-- `<CustomData>` to its row. -/
def CustomDataItem.toRow (c : CustomDataItem) : CustomDataRow :=
  ⟨c.key, c.value, c.lastModified.map (·.timestampMillis)⟩

/-- `HashMap::insert` on fields listed by key. -/
def putField (fields : List CustomField) (f : CustomField) : List CustomField :=
  fields.filter (·.key ≠ f.key) ++ [f]

/-- `HistorySnapshotIo::from_entry`: of two custom fields of one name the last stays. -/
def HistorySnapshot.fromEntry (e : EntryVersion) : HistorySnapshot where
  title := e.title
  username := e.username
  url := e.url
  notes := e.notes
  password := e.password
  tags := e.tags
  createdAt := dtToMs e.times.creationTime
  modifiedAt := dtToMs e.times.lastModificationTime
  accessedAt := dtToMs e.times.lastAccessTime
  lastUsedAt := e.times.lastAccessTime.map (·.timestampMillis)
  expiresAt := expiryMs e.times
  iconIndex := some e.iconId
  iconCustomUuid := e.customIconUuid
  attachments := e.attachments.map fun a => (a.name, a.data)
  customFields := e.customFields.foldl putField []
  customData := e.customData.map (·.toRow)

/-- `INSERT OR IGNORE` on rows listed by name. -/
def insertOrIgnore {β : Type} (rows : List (String × β)) (r : String × β) : List (String × β) :=
  if r.1 ∈ rows.map (·.1) then rows else rows ++ [r]

/-- The tags of an entry as `insert_entry` links them: trimmed, not empty, each once. -/
def linkTag (tags : List String) (raw : String) : List String :=
  if trim raw = "" ∨ trim raw ∈ tags then tags else tags ++ [trim raw]

namespace Entry

variable (e : Entry)

/-- The protected custom fields, as the rows of `entry_protected` beside the password. One named
like the password's slot is dropped. -/
def protectedRows : List (String × String) :=
  (e.customFields.filter fun f => f.isProtected && f.key ≠ "Password").map fun f => (f.key, f.value)

/-- The other custom fields, as rows of `entry_custom_field`. -/
def plainRows : List (String × String) :=
  (e.customFields.filter fun f => !f.isProtected).map fun f => (f.key, f.value)

/-- The primary keys of the side tables hold: a name stands once among the protected fields, once
among the plain ones, and a key once in the custom data. -/
def SideKeys : Prop :=
  (e.protectedRows.map (·.1)).Nodup ∧ (e.plainRows.map (·.1)).Nodup ∧ (e.customData.map (·.key)).Nodup

instance : Decidable e.SideKeys := inferInstanceAs (Decidable (_ ∧ _ ∧ _))

/-- The rows `insert_entry` writes. -/
def toRow (group : Uuid) (isRecycled : Bool) : EntryRow where
  uuid := e.id
  groupUuid := group
  title := e.title
  username := e.username
  url := e.url
  notes := e.notes
  iconIndex := some e.iconId
  iconCustomUuid := e.customIconUuid
  createdAt := dtToMs e.times.creationTime
  modifiedAt := dtToMs e.times.lastModificationTime
  accessedAt := dtToMs e.times.lastAccessTime
  lastUsedAt := e.times.lastAccessTime.map (·.timestampMillis)
  expiresAt := expiryMs e.times
  isRecycled := isRecycled
  previousParentUuid := e.previousParentGroup
  locationChangedAt := e.times.locationChanged.map (·.timestampMillis)
  password := e.password
  protectedFields := e.protectedRows
  customFields := e.plainRows
  customData := e.customData.map (·.toRow)
  tags := e.tags.foldl linkTag []
  attachments := (e.attachments.map fun a => (a.name, a.data)).foldl insertOrIgnore []
  history := e.history.map HistorySnapshot.fromEntry

end Entry

/-- `insert_entry`. -/
def Mirror.insertEntry (m : Mirror) (e : Entry) (group : Uuid) (isRecycled : Bool) :
    Except EngineError Mirror := do
  let m ← m.insertEntryRow (e.toRow group isRecycled)
  if e.SideKeys then return m else .error (.sqlite .constraintPrimaryKey)

/-! ## Replacing the mirror -/

/-- Where an ingested vault came from. -/
inductive Source where
  /-- Read from its file; it settles the watermark unless the ingest stamped a new identity. -/
  | vaultFile (settles : Bool)
  /-- Rebuilt in memory, perhaps from the mirror as it was at `projectedAtSeq`. -/
  | inMemory (projectedAtSeq : Option Nat)
deriving DecidableEq

mutual

/-- The entries `walk_entries` meets, each with its group and whether it is in the bin. -/
def Group.placed (bin : Option Uuid) (underBin : Bool) : Group → List (Entry × Uuid × Bool)
  | .node i es gs =>
    let inBin := underBin || bin = some i.id
    es.map (fun e => (e, i.id, inBin)) ++ Group.placedAll bin inBin gs

def Group.placedAll (bin : Option Uuid) (underBin : Bool) : List Group → List (Entry × Uuid × Bool)
  | [] => []
  | g :: gs => g.placed bin underBin ++ Group.placedAll bin underBin gs

end

/-- Rows inserted one by one into an empty table. -/
def insertAll {κ ρ : Type} [DecidableEq κ] {key : ρ → κ} (rows : List ρ) :
    Except EngineError (Table key) :=
  rows.foldlM (fun T r =>
    match T.insert? r with
    | none => .error (.sqlite .constraintPrimaryKey)
    | some T' => .ok T') .empty

/-- `pack_memory_protection`: the title is bit 0, the notes bit 4. -/
def MemoryProtection.pack (p : MemoryProtection) : UInt8 :=
  (if p.protectTitle then 1 else 0) ||| (if p.protectUsername then 2 else 0) |||
    (if p.protectPassword then 4 else 0) ||| (if p.protectUrl then 8 else 0) |||
    (if p.protectNotes then 16 else 0)

/-- `write_meta` on cleared rows, the list tables apart. -/
def Meta.toSettings (v : Meta) (icons : Table CustomIconRow.uuid) (data : Table CustomDataRow.key) :
    Settings where
  generator := v.generator
  headerHash := v.headerHash
  masterKeyChanged := v.masterKeyChanged.map (·.timestampMillis)
  masterKeyChangeRec := v.masterKeyChangeRec
  masterKeyChangeForce := v.masterKeyChangeForce
  memoryProtection := v.memoryProtection.pack
  unknownXml := v.unknownXml
  databaseName := v.databaseName
  databaseNameChanged := v.databaseNameChanged.map (·.timestampMillis)
  databaseDescription := v.databaseDescription
  databaseDescriptionChanged := v.databaseDescriptionChanged.map (·.timestampMillis)
  defaultUsername := v.defaultUsername
  defaultUsernameChanged := v.defaultUsernameChanged.map (·.timestampMillis)
  recycleBinEnabled := some v.recycleBinEnabled
  recycleBinChanged := v.recycleBinChanged.map (·.timestampMillis)
  settingsChanged := v.settingsChanged.map (·.timestampMillis)
  color := v.color
  historyMaxItems := v.historyMaxItems
  historyMaxSize := v.historyMaxSize
  maintenanceHistoryDays := v.maintenanceHistoryDays
  customIcons := icons
  customData := data

def CustomIcon.toRow (i : CustomIcon) : CustomIconRow :=
  ⟨i.uuid, i.name, i.data, i.lastModified.map (·.timestampMillis)⟩

def DeletedObject.toRow (d : DeletedObject) : TombstoneRow :=
  ⟨d.uuid, d.deletedAt.map (·.timestampMillis)⟩

/-- The scalar `meta.*` rows every write of them touches: six texts, five numbers, the memory
protection and the unknown elements. -/
def metaScalarRows : Nat := 13

/-- `clear_vault_tables` and `clear_meta_tables`: no content is left; the parked conflicts are. -/
def Mirror.cleared (m : Mirror) : Mirror where
  groups := .empty
  entries := .empty
  tombstones := .empty
  conflicts := m.conflicts
  settings := { recycleBinEnabled := m.settings.recycleBinEnabled }
  mutationSeq := m.mutationSeq + m.groups.rows.length + m.entries.rows.length +
    m.tombstones.rows.length + m.settings.customIcons.rows.length + m.settings.customData.rows.length
  persistedSeq := m.persistedSeq
  fkParent := by simp [Table.empty]
  fkGroup := by simp [Table.empty]

/-- `write_meta`, `write_deleted_objects` and the bin's enabled flag. -/
def Mirror.writeMeta (m : Mirror) (vault : Vault) : Except EngineError Mirror := do
  let icons ← insertAll (vault.metadata.customIcons.map (·.toRow))
  let data ← insertAll (vault.metadata.customData.map (·.toRow))
  let tombstones ← insertAll (vault.deletedObjects.map (·.toRow))
  return { m with
    settings := vault.metadata.toSettings icons data
    tombstones
    mutationSeq := m.mutationSeq + metaScalarRows + icons.rows.length + data.rows.length +
      tombstones.rows.length + 1 }

/-- The groups and entries of a vault, written to the tables. -/
def Mirror.writeTree (m : Mirror) (vault : Vault) : Except EngineError Mirror := do
  let bin := vault.metadata.recycleBinUuid
  let m ← vault.groups.foldlM (fun (m : Mirror) f =>
    m.insertGroup { f.toRow with isRecycleBin := bin = some f.info.id }) m
  (vault.root.placed bin false).foldlM (fun (m : Mirror) p => m.insertEntry p.1 p.2.1 p.2.2) m

/-- `ingest_vault_with_header`, without the outer-header facts. -/
def ingestVaultWithHeader (vault : Vault) (source : Source) (m : Mirror) :
    Except EngineError Mirror :=
  match source with
  | .vaultFile settles =>
    if m.isDirty then .error (.mirrorOwesWrite m.mutationSeq m.persistedSeq)
    else do
      let m ← (← m.cleared.writeMeta vault).writeTree vault
      if settles then return { m with persistedSeq := m.mutationSeq } else return m
  | .inMemory projectedAtSeq =>
    if projectedAtSeq.isSome ∧ projectedAtSeq ≠ some m.mutationSeq then
      .error (.resolutionMismatch "the vault changed after the resolver opened")
    else do (← m.cleared.writeMeta vault).writeTree vault

/-- `ingest_vault`. -/
def ingestVault (vault : Vault) (m : Mirror) : Except EngineError Mirror :=
  ingestVaultWithHeader vault (.inMemory none) m

/-- `ingest_projected_vault`. -/
def ingestProjectedVault (vault : Vault) (projectedAtSeq : Nat) (m : Mirror) :
    Except EngineError Mirror :=
  ingestVaultWithHeader vault (.inMemory (some projectedAtSeq)) m

end KeysCore
