import KeysCore.Lib.Table
import KeysCore.Lib.Forest
import KeysCore.Vault

/-!
# The mirror

The SQLite mirror of a vault: its tables, with the constraints the schema declares. Primary keys
are part of `Table`; the two foreign keys (`"group".parent_uuid` and `entry.group_uuid`, both
without cascade) are fields of `Mirror`, and a statement that would violate one fails. The side
tables of `entry` (protected and plain fields, custom data, tags, attachments, history) cascade with
their entry, so they are columns of `EntryRow`; sealed fields are kept as the plaintext they open to.

Every statement advances `mutation_seq` once per content row it touches, as the triggers of
migration 0012 do; an entry counts once with its side rows, so that the sequence advances exactly
when the code's does, by smaller steps. The parked conflict rows and the watermark itself are not
content.
-/

namespace KeysCore

open Lib

/-! ## Errors -/

/-- What `ProjectionError::SchemaInvariant` reports. -/
inductive SchemaInvariant where
  | multipleRoots (existing found : Uuid)
  | noRoot
  | missingRow (uuid : Uuid)
deriving DecidableEq

/-- A statement that SQLite, or the row decoder, refuses. -/
inductive SqliteError where
  | constraintPrimaryKey
  | constraintForeignKey
  | noRows
  | invalidColumnType (column : String)
  | integralValueOutOfRange (column : String)
  | invalidStatement
  | fromSqlConversionFailure (column : Nat)
  | full
deriving DecidableEq

/-- The errors of the modelled operations. `diverges` is not an error value of the source: it
marks a call that does not return. -/
inductive EngineError where
  | notFound (entity : String)
  | cycleDetected
  | sqlite (e : SqliteError)
  | projection (e : SchemaInvariant)
  | mirrorOwesWrite (mutationSeq persistedSeq : Nat)
  | resolutionMismatch (reason : String)
  | vaultIdentityMismatch (expected found : Uuid)
  | testVaultMarkerMismatch (localIsTest replicaIsTest : Bool)
  | serialise (message : String)
  | notEvaluable
  | diverges
deriving DecidableEq

/-! ## Rows -/

/-- A row of `"group"`. -/
structure GroupRow where
  uuid : Uuid
  parentUuid : Option Uuid
  name : String := ""
  iconIndex : Option IconIndex := some 0
  iconCustomUuid : Option Uuid := none
  notes : String := ""
  createdAt : EpochMs := default
  modifiedAt : EpochMs := default
  expiresAt : Option EpochMs := none
  isRecycleBin : Bool := false
  sortOrder : Int := 0
  locationChangedAt : Option EpochMs := none
deriving DecidableEq

/-- A row of `entry_custom_data` or `meta_custom_data`. -/
structure CustomDataRow where
  key : String
  value : String
  lastModifiedAt : Option EpochMs
deriving DecidableEq

/-- A history record (`entry_history.snapshot_json`): a content revision, without a placement. Its
custom fields are keyed by name. -/
structure HistorySnapshot where
  title : String := ""
  username : String := ""
  url : String := ""
  notes : String := ""
  password : String := ""
  tags : List String := []
  createdAt : EpochMs := default
  modifiedAt : EpochMs := default
  accessedAt : EpochMs := default
  lastUsedAt : Option EpochMs := none
  expiresAt : Option EpochMs := none
  iconIndex : Option IconIndex := some 0
  iconCustomUuid : Option Uuid := none
  attachments : List (String × List UInt8) := []
  customFields : List CustomField := []
  customData : List CustomDataRow := []
deriving DecidableEq

/-- A row of `entry` with its rows in the side tables. -/
structure EntryRow where
  uuid : Uuid
  groupUuid : Uuid
  title : String := ""
  username : String := ""
  url : String := ""
  notes : String := ""
  iconIndex : Option IconIndex := some 0
  iconCustomUuid : Option Uuid := none
  createdAt : EpochMs := default
  modifiedAt : EpochMs := default
  accessedAt : EpochMs := default
  lastUsedAt : Option EpochMs := none
  expiresAt : Option EpochMs := none
  isRecycled : Bool := false
  previousParentUuid : Option Uuid := none
  locationChangedAt : Option EpochMs := none
  password : String := ""
  protectedFields : List (String × String) := []
  customFields : List (String × String) := []
  customData : List CustomDataRow := []
  tags : List String := []
  attachments : List (String × List UInt8) := []
  history : List HistorySnapshot := []
deriving DecidableEq

/-- A row of `meta_deleted_object`. -/
structure TombstoneRow where
  uuid : Uuid
  deletedAt : Option EpochMs
deriving DecidableEq

/-- A parked peer version of an entry with its history, keyed by the peer it came from. -/
structure ConflictRow where
  owner : String
  uuid : Uuid
  entry : HistorySnapshot
  history : List HistorySnapshot
deriving DecidableEq

def ConflictRow.key (r : ConflictRow) : String × Uuid := (r.owner, r.uuid)

/-- A row of `meta_custom_icon`. -/
structure CustomIconRow where
  uuid : Uuid
  name : String
  bytes : List UInt8
  lastModifiedAt : Option EpochMs
deriving DecidableEq

/-- The `meta.*` rows of `setting`, with the `meta_custom_icon` and `meta_custom_data` tables. The
memory protection is one byte, a bit for each flag. -/
structure Settings where
  generator : String := ""
  headerHash : String := ""
  masterKeyChanged : Option EpochMs := none
  masterKeyChangeRec : Int := -1
  masterKeyChangeForce : Int := -1
  memoryProtection : UInt8 := 0
  unknownXml : List UnknownElement := []
  databaseName : String := ""
  databaseNameChanged : Option EpochMs := none
  databaseDescription : String := ""
  databaseDescriptionChanged : Option EpochMs := none
  defaultUsername : String := ""
  defaultUsernameChanged : Option EpochMs := none
  recycleBinEnabled : Option Bool := none
  recycleBinChanged : Option EpochMs := none
  settingsChanged : Option EpochMs := none
  color : String := ""
  historyMaxItems : Int := 10
  historyMaxSize : Int := 6291456
  maintenanceHistoryDays : Nat := 365
  customIcons : Table CustomIconRow.uuid := .empty
  customData : Table CustomDataRow.key := .empty
deriving DecidableEq

/-! ## The mirror -/

/-- The mirror's tables with their foreign keys and the persistence watermark. -/
structure Mirror where
  groups : Table GroupRow.uuid
  entries : Table EntryRow.uuid := .empty
  tombstones : Table TombstoneRow.uuid := .empty
  conflicts : Table ConflictRow.key := .empty
  settings : Settings := {}
  mutationSeq : Nat := 0
  persistedSeq : Nat := 0
  fkParent : ∀ g ∈ groups.rows, ∀ p ∈ g.parentUuid, p ∈ groups.keys
  fkGroup : ∀ e ∈ entries.rows, e.groupUuid ∈ groups.keys

/-- `parent_uuid` of the row under `u`, when there is a row and it has one. -/
def parentIn (T : Table GroupRow.uuid) (u : Uuid) : Option Uuid :=
  (T.find? u).bind (·.parentUuid)

namespace Mirror

variable (m : Mirror)

/-- `mutation_seq > persisted_seq`: the vault file is owed a write. -/
def isDirty : Bool := m.persistedSeq < m.mutationSeq

def parentOf (u : Uuid) : Option Uuid := parentIn m.groups u

def groupExists (u : Uuid) : Bool := (m.groups.find? u).isSome

def entryExists (u : Uuid) : Bool := (m.entries.find? u).isSome

/-- The triggers' effect of `n` content rows written. -/
def bump (n : Nat) : Mirror := { m with mutationSeq := m.mutationSeq + n }

/-! ## Statements on `"group"` -/

/-- `INSERT INTO "group"`. -/
def insertGroup (g : GroupRow) : Except EngineError Mirror :=
  match h : m.groups.insert? g with
  | none => .error (.sqlite .constraintPrimaryKey)
  | some T =>
    if hp : ∀ p ∈ g.parentUuid, p ∈ T.keys then
      .ok { m with
        groups := T
        mutationSeq := m.mutationSeq + 1
        fkParent := by
          intro r hr p hpr
          rw [(Table.insert?_eq_some.1 h).2, List.mem_append, List.mem_singleton] at hr
          rcases hr with hr | rfl
          · rw [Table.keys_insert h]
            exact List.mem_append_left _ (m.fkParent r hr p hpr)
          · exact hp p hpr
        fkGroup := fun e he => by
          rw [Table.keys_insert h]
          exact List.mem_append_left _ (m.fkGroup e he) }
    else .error (.sqlite .constraintForeignKey)

/-- `UPDATE "group" SET … WHERE p` of columns other than `parent_uuid`. -/
def updateGroups (p : GroupRow → Prop) [DecidablePred p] (f : GroupRow → GroupRow)
    (hu : ∀ r, (f r).uuid = r.uuid) (hp : ∀ r, (f r).parentUuid = r.parentUuid) : Mirror :=
  { m with
    groups := m.groups.update p f hu
    mutationSeq := m.mutationSeq + (m.groups.rows.filter p).length
    fkParent := by
      intro r hr q hq
      obtain ⟨s, hs, rfl⟩ := (Table.mem_update hu).1 hr
      rw [Table.keys_update]
      refine m.fkParent s hs q ?_
      split at hq
      · rwa [hp] at hq
      · exact hq
    fkGroup := fun e he => by
      rw [Table.keys_update]
      exact m.fkGroup e he }

/-- `UPDATE "group" SET parent_uuid = p, … WHERE uuid = u`, the other columns by `f`. -/
def setParent (u p : Uuid) (f : GroupRow → GroupRow) (hu : ∀ r, (f r).uuid = r.uuid) :
    Except EngineError Mirror :=
  if hp : p ∈ m.groups.keys then
    .ok { m with
      groups := m.groups.modify u (fun r => { f r with parentUuid := some p }) hu
      mutationSeq := m.mutationSeq + (m.groups.rows.filter (·.uuid = u)).length
      fkParent := by
        intro r hr q hq
        obtain ⟨s, hs, rfl⟩ := (Table.mem_update _).1 hr
        rw [Table.keys_modify]
        split at hq
        · simp only [Option.mem_def, Option.some.injEq] at hq
          exact hq ▸ hp
        · exact m.fkParent s hs q hq
      fkGroup := fun e he => by
        rw [Table.keys_modify]
        exact m.fkGroup e he }
  else if m.groupExists u then .error (.sqlite .constraintForeignKey)
  else .ok m

/-- `DELETE FROM "group" WHERE uuid = u`. -/
def deleteGroupRow (u : Uuid) : Except EngineError Mirror :=
  if h : u ∈ m.groups.keys →
      (∀ g ∈ m.groups.rows, g.parentUuid = some u → g.uuid = u) ∧
      (∀ e ∈ m.entries.rows, e.groupUuid ≠ u) then
    .ok { m with
      groups := m.groups.erase u
      mutationSeq := m.mutationSeq + (m.groups.rows.filter (·.uuid = u)).length
      fkParent := by
        intro r hr q hq
        obtain ⟨hmem, hru⟩ := Table.mem_delete.1 hr
        have hqm := m.fkParent r hmem q hq
        refine Table.mem_keys_erase.2 ⟨fun e => ?_, hqm⟩
        subst e
        exact hru ((h hqm).1 r hmem hq)
      fkGroup := fun e he =>
        Table.mem_keys_erase.2
          ⟨fun hu => (h (hu ▸ m.fkGroup e he)).2 e he hu, m.fkGroup e he⟩ }
  else .error (.sqlite .constraintForeignKey)

/-! ## Statements on `entry` -/

/-- `INSERT INTO entry`, with the rows of the side tables. -/
def insertEntryRow (r : EntryRow) : Except EngineError Mirror :=
  match h : m.entries.insert? r with
  | none => .error (.sqlite .constraintPrimaryKey)
  | some T =>
    if hg : r.groupUuid ∈ m.groups.keys then
      .ok { m with
        entries := T
        mutationSeq := m.mutationSeq + 1
        fkGroup := by
          intro e he
          rw [(Table.insert?_eq_some.1 h).2, List.mem_append, List.mem_singleton] at he
          rcases he with he | rfl
          · exact m.fkGroup e he
          · exact hg }
    else .error (.sqlite .constraintForeignKey)

/-- `UPDATE entry SET … WHERE uuid = u` of columns other than `group_uuid`, or of the side
tables. -/
def updateEntry (u : Uuid) (f : EntryRow → EntryRow) (hu : ∀ r, (f r).uuid = r.uuid)
    (hg : ∀ r, (f r).groupUuid = r.groupUuid) : Mirror :=
  { m with
    entries := m.entries.modify u f hu
    mutationSeq := m.mutationSeq + (m.entries.rows.filter (·.uuid = u)).length
    fkGroup := by
      intro e he
      obtain ⟨s, hs, rfl⟩ := (Table.mem_update _).1 he
      split
      · rw [hg]
        exact m.fkGroup s hs
      · exact m.fkGroup s hs }

/-- `UPDATE entry SET group_uuid = g, … WHERE uuid = u`, the other columns by `f`. -/
def placeEntry (u g : Uuid) (f : EntryRow → EntryRow) (hu : ∀ r, (f r).uuid = r.uuid) :
    Except EngineError Mirror :=
  if hg : g ∈ m.groups.keys then
    .ok { m with
      entries := m.entries.modify u (fun r => { f r with groupUuid := g }) hu
      mutationSeq := m.mutationSeq + (m.entries.rows.filter (·.uuid = u)).length
      fkGroup := by
        intro e he
        obtain ⟨s, hs, rfl⟩ := (Table.mem_update _).1 he
        split
        · exact hg
        · exact m.fkGroup s hs }
  else if m.entryExists u then .error (.sqlite .constraintForeignKey)
  else .ok m

/-- `DELETE FROM entry WHERE p`; the side tables cascade. -/
def deleteEntries (p : EntryRow → Prop) [DecidablePred p] : Mirror :=
  { m with
    entries := m.entries.delete p
    mutationSeq := m.mutationSeq + (m.entries.rows.filter p).length
    fkGroup := fun e he => m.fkGroup e (Table.mem_delete.1 he).1 }

/-! ## Statements on the other tables -/

/-- `INSERT OR REPLACE INTO meta_deleted_object`. -/
def putTombstone (r : TombstoneRow) : Mirror :=
  { m with tombstones := m.tombstones.put r, mutationSeq := m.mutationSeq + 1 }

/-- `DELETE FROM meta_deleted_object WHERE uuid = u`. -/
def removeTombstone (u : Uuid) : Mirror :=
  { m with
    tombstones := m.tombstones.erase u
    mutationSeq := m.mutationSeq + (m.tombstones.rows.filter (·.uuid = u)).length }

/-- `DELETE FROM conflict_entry WHERE owner = o AND entry_uuid = u`. -/
def dropConflictRow (o : String) (u : Uuid) : Mirror :=
  { m with conflicts := m.conflicts.erase (o, u) }

/-- `INSERT INTO conflict_entry`. -/
def insertConflictRow (r : ConflictRow) : Except EngineError Mirror :=
  match m.conflicts.insert? r with
  | none => .error (.sqlite .constraintPrimaryKey)
  | some T => .ok { m with conflicts := T }

/-- `n` `meta.*` rows of `setting` written. -/
def writeSettings (f : Settings → Settings) (n : Nat) : Mirror :=
  { m with settings := f m.settings, mutationSeq := m.mutationSeq + n }

end Mirror

end KeysCore
