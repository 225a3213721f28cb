import KeysCore.EngineCalls
import KeysCore.KdfCost
import KeysCore.Lib.LittleEndian
import KeysCore.Projection

/-!
# The rows of the settings

`meta.rs`: the scalars of `Meta` as the rows of the table `setting`, each under its key. Texts are UTF-8,
integers are little-endian of the width of their type, instants are milliseconds, and an instant that is
not set has no row. A row that is missing leaves the value of a fresh `Meta`; one of the wrong width is
an error, but for the memory protection and the recycle bin's flag, where it counts as missing.
-/

namespace KeysCore.MetaRows

open Lib

abbrev Rows := KdfGate.SettingRows

def keyGenerator : String := "meta.generator"
def keyDatabaseName : String := "meta.database_name"
def keyDatabaseDescription : String := "meta.database_description"
def keyDatabaseNameChanged : String := "meta.database_name_changed"
def keyDatabaseDescriptionChanged : String := "meta.database_description_changed"
def keyDefaultUsername : String := "meta.default_username"
def keyDefaultUsernameChanged : String := "meta.default_username_changed"
def keyRecycleBinChanged : String := "meta.recycle_bin_changed"
def keySettingsChanged : String := "meta.settings_changed"
def keyMasterKeyChanged : String := "meta.master_key_changed"
def keyMasterKeyChangeRec : String := "meta.master_key_change_rec"
def keyMasterKeyChangeForce : String := "meta.master_key_change_force"
def keyMaintenanceHistoryDays : String := "meta.maintenance_history_days"
def keyColor : String := "meta.color"
def keyHeaderHash : String := "meta.header_hash"
def keyMemoryProtection : String := "meta.memory_protection"
def keyUnknownXml : String := "meta.unknown_xml"

/-- `ProjectionError::SchemaInvariant` of a row, without the reason UTF-8 or the XML was refused. -/
inductive SettingError where
  | nonUtf8 (key : String)
  | width (key type : String) (expected got : Nat)
  | unknownXml (cause : String)
deriving DecidableEq

def SettingError.key : SettingError → String
  | nonUtf8 key => key
  | width key _ _ _ => key
  | unknownXml _ => keyUnknownXml

def SettingError.message : SettingError → String
  | nonUtf8 key => s!"{key}: non-utf8 setting value"
  | width key type expected got => s!"{key}: expected {expected}-byte {type}, got {got} bytes"
  | unknownXml cause => s!"meta.unknown_xml: {cause}"

/-! ## Unknown XML -/

structure UnknownXmlRecord where
  tag : String
  rawXml : String
deriving DecidableEq

/-- `serde_json` on a list of records, and the standard base64 engine. -/
structure XmlLib where
  toJson : List UnknownXmlRecord → String
  fromJson : String → Except String (List UnknownXmlRecord)
  encode64 : List UInt8 → String
  decode64 : String → Except String (List UInt8)

section

variable (L : XmlLib)

/-- `serialise_unknown_xml`. -/
def serialiseUnknownXml (elements : List UnknownElement) : String :=
  L.toJson (elements.map fun e => ⟨e.tag, L.encode64 e.rawXml⟩)

/-- One record read back. -/
def UnknownXmlRecord.element (r : UnknownXmlRecord) : Except String UnknownElement :=
  match L.decode64 r.rawXml with
  | .ok rawXml => .ok ⟨r.tag, rawXml⟩
  | .error e => .error s!"decode raw_xml base64: {e}"

/-- `deserialise_unknown_xml`. -/
def deserialiseUnknownXml (json : String) : Except String (List UnknownElement) :=
  match L.fromJson json with
  | .ok records => records.mapM (·.element L)
  | .error e => .error s!"decode json: {e}"

/-! ## Writing -/

def setBlob (key : String) (value : KdfGate.Blob) (rows : Rows) : Rows :=
  Function.update rows key (some value)

def deleteRow (key : String) (rows : Rows) : Rows := Function.update rows key none

/-- The bytes of a text. -/
def utf8 (value : String) : KdfGate.Blob := value.toUTF8.data.toList

def setText (key value : String) : Rows → Rows := setBlob key (utf8 value)

def setI64 (key : String) (value : Int) : Rows → Rows := setBlob key (littleEndianInt 8 value)

def setI32 (key : String) (value : Int) : Rows → Rows := setBlob key (littleEndianInt 4 value)

def setU32 (key : String) (value : Nat) : Rows → Rows := setBlob key (littleEndian 4 value)

/-- `set_optional_timestamp`: no instant, no row. -/
def setOptionalTimestamp (key : String) : Option EpochMs → Rows → Rows
  | some t => setI64 key t.val
  | none => deleteRow key

/-- `write_meta_scalars`. -/
def writeMetaScalars (v : Meta) (rows : Rows) : Rows :=
  rows
    |> setText keyGenerator v.generator
    |> setText keyDatabaseName v.databaseName
    |> setText keyDatabaseDescription v.databaseDescription
    |> setText keyDefaultUsername v.defaultUsername
    |> setText keyColor v.color
    |> setText keyHeaderHash v.headerHash
    |> setOptionalTimestamp keyDatabaseNameChanged (v.databaseNameChanged.map (·.timestampMillis))
    |> setOptionalTimestamp keyDatabaseDescriptionChanged
        (v.databaseDescriptionChanged.map (·.timestampMillis))
    |> setOptionalTimestamp keyDefaultUsernameChanged
        (v.defaultUsernameChanged.map (·.timestampMillis))
    |> setOptionalTimestamp keyRecycleBinChanged (v.recycleBinChanged.map (·.timestampMillis))
    |> setOptionalTimestamp keySettingsChanged (v.settingsChanged.map (·.timestampMillis))
    |> setOptionalTimestamp keyMasterKeyChanged (v.masterKeyChanged.map (·.timestampMillis))
    |> setI64 keyMasterKeyChangeRec v.masterKeyChangeRec
    |> setI64 keyMasterKeyChangeForce v.masterKeyChangeForce
    |> setI32 keyHistoryMaxItems v.historyMaxItems
    |> setI64 keyHistoryMaxSize v.historyMaxSize
    |> setU32 keyMaintenanceHistoryDays v.maintenanceHistoryDays
    |> setBlob keyMemoryProtection [v.memoryProtection.pack]
    |> setText keyUnknownXml (serialiseUnknownXml L v.unknownXml)

/-- `write_recycle_bin_enabled`. -/
def writeRecycleBinEnabled (enabled : Bool) : Rows → Rows :=
  setBlob keyRecycleBinEnabled [if enabled then 1 else 0]

/-- `write_recycle_bin_changed`. -/
def writeRecycleBinChanged (now : EpochMs) : Rows → Rows := setI64 keyRecycleBinChanged now.val

/-- `write_history_max_items`. -/
def writeHistoryMaxItems (value : Int) : Rows → Rows := setI32 keyHistoryMaxItems value

/-- `write_history_max_size`. -/
def writeHistoryMaxSize (value : Int) : Rows → Rows := setI64 keyHistoryMaxSize value

/-- `write_kdbx_outer_header_facts`: the cipher and the KDF row of this version, the other's deleted. -/
def writeKdbxOuterHeaderFacts (header : KdfGate.OuterHeader) (rows : Rows) : Rows :=
  let rows := setBlob KdfGate.keyKdbxCipherOid header.cipherId rows
  match header.versionFields with
  | .v4 params =>
    rows
      |> setBlob KdfGate.keyKdbxKdfParameters params
      |> deleteRow KdfGate.keyKdbxTransformRounds
  | .v3 _ rounds =>
    rows
      |> setBlob KdfGate.keyKdbxTransformRounds (KdfGate.leBytes rounds)
      |> deleteRow KdfGate.keyKdbxKdfParameters

/-! ## Reading -/

/-- A text from the bytes of its row. -/
def textOf (key : String) (bytes : KdfGate.Blob) : Except SettingError String :=
  match String.fromUTF8? ⟨bytes.toArray⟩ with
  | some s => .ok s
  | none => .error (.nonUtf8 key)

/-- A value of a fixed width from the bytes of its row. -/
def fixedWidth {α : Type} (type : String) (width : Nat) (read : KdfGate.Blob → α) (key : String)
    (bytes : KdfGate.Blob) : Except SettingError α :=
  if bytes.length = width then .ok (read bytes) else .error (.width key type width bytes.length)

def i64Of : String → KdfGate.Blob → Except SettingError Int := fixedWidth "i64" 8 ofLittleEndianInt

def i32Of : String → KdfGate.Blob → Except SettingError Int := fixedWidth "i32" 4 ofLittleEndianInt

def u32Of : String → KdfGate.Blob → Except SettingError Nat := fixedWidth "u32" 4 ofLittleEndian

/-- A row read as a value, when there is a row. -/
def getRow {α : Type} (decode : String → KdfGate.Blob → Except SettingError α) (rows : Rows)
    (key : String) : Except SettingError (Option α) :=
  match rows key with
  | some bytes => (decode key bytes).map some
  | none => .ok none

def getText : Rows → String → Except SettingError (Option String) := getRow textOf

def getI64 : Rows → String → Except SettingError (Option Int) := getRow i64Of

def getI32 : Rows → String → Except SettingError (Option Int) := getRow i32Of

def getU32 : Rows → String → Except SettingError (Option Nat) := getRow u32Of

/-- `ms_to_dt`, at the resolution of the column: an instant outside chrono's range is none. -/
def msToDt (ms : Int) : Option EpochMs :=
  if h : minSecond ≤ ms / 1000 ∧ ms / 1000 ≤ maxSecond then some ⟨ms, h⟩ else none

def getOptionalTimestamp (rows : Rows) (key : String) : Except SettingError (Option EpochMs) :=
  (getI64 rows key).map (·.bind msToDt)

/-- `load_recycle_bin_enabled`. -/
def loadRecycleBinEnabled (rows : Rows) : Option Bool :=
  match rows keyRecycleBinEnabled with
  | some [b] => some (b ≠ 0)
  | _ => none

/-- `read_recycle_bin_enabled`, with the bin of the group rows. -/
def readRecycleBinEnabled (rows : Rows) (bin : Option Uuid) : Bool :=
  match loadRecycleBinEnabled rows with
  | some enabled => enabled
  | none => bin.isSome

/-- `read_history_max_items`. -/
def readHistoryMaxItems (rows : Rows) : Except SettingError Int :=
  (getI32 rows keyHistoryMaxItems).map (·.getD ({} : Meta).historyMaxItems)

/-- `read_history_max_size`. -/
def readHistoryMaxSize (rows : Rows) : Except SettingError Int :=
  (getI64 rows keyHistoryMaxSize).map (·.getD ({} : Meta).historyMaxSize)

/-- The memory protection, unless its row is missing or not a byte. -/
def getMemoryProtection (rows : Rows) (d : MemoryProtection) : MemoryProtection :=
  match rows keyMemoryProtection with
  | some [b] => unpackMemoryProtection b
  | _ => d

/-- The unknown elements of a text, when there is one. -/
def getUnknownXml (d : List UnknownElement) : Option String → Except SettingError (List UnknownElement)
  | some json => (deserialiseUnknownXml L json).mapError .unknownXml
  | none => .ok d

/-- `read_meta_into`, but for the two list tables. -/
def readMetaInto (rows : Rows) (v : Meta) : Except SettingError Meta := do
  let generator ← getText rows keyGenerator
  let databaseName ← getText rows keyDatabaseName
  let databaseDescription ← getText rows keyDatabaseDescription
  let defaultUsername ← getText rows keyDefaultUsername
  let color ← getText rows keyColor
  let headerHash ← getText rows keyHeaderHash
  let databaseNameChanged ← getOptionalTimestamp rows keyDatabaseNameChanged
  let databaseDescriptionChanged ← getOptionalTimestamp rows keyDatabaseDescriptionChanged
  let defaultUsernameChanged ← getOptionalTimestamp rows keyDefaultUsernameChanged
  let recycleBinChanged ← getOptionalTimestamp rows keyRecycleBinChanged
  let settingsChanged ← getOptionalTimestamp rows keySettingsChanged
  let masterKeyChanged ← getOptionalTimestamp rows keyMasterKeyChanged
  let masterKeyChangeRec ← getI64 rows keyMasterKeyChangeRec
  let masterKeyChangeForce ← getI64 rows keyMasterKeyChangeForce
  let historyMaxItems ← getI32 rows keyHistoryMaxItems
  let historyMaxSize ← getI64 rows keyHistoryMaxSize
  let maintenanceHistoryDays ← getU32 rows keyMaintenanceHistoryDays
  let json ← getText rows keyUnknownXml
  let unknownXml ← getUnknownXml L v.unknownXml json
  return { v with
    generator := generator.getD v.generator
    databaseName := databaseName.getD v.databaseName
    databaseDescription := databaseDescription.getD v.databaseDescription
    defaultUsername := defaultUsername.getD v.defaultUsername
    color := color.getD v.color
    headerHash := headerHash.getD v.headerHash
    databaseNameChanged := databaseNameChanged.map (·.toDateTime)
    databaseDescriptionChanged := databaseDescriptionChanged.map (·.toDateTime)
    defaultUsernameChanged := defaultUsernameChanged.map (·.toDateTime)
    recycleBinChanged := recycleBinChanged.map (·.toDateTime)
    settingsChanged := settingsChanged.map (·.toDateTime)
    masterKeyChanged := masterKeyChanged.map (·.toDateTime)
    masterKeyChangeRec := masterKeyChangeRec.getD v.masterKeyChangeRec
    masterKeyChangeForce := masterKeyChangeForce.getD v.masterKeyChangeForce
    historyMaxItems := historyMaxItems.getD v.historyMaxItems
    historyMaxSize := historyMaxSize.getD v.historyMaxSize
    maintenanceHistoryDays := maintenanceHistoryDays.getD v.maintenanceHistoryDays
    memoryProtection := getMemoryProtection rows v.memoryProtection
    unknownXml }

/-- The `Meta` of `project`: the lists come from their tables, the bin from the group rows. -/
def projectMeta (rows : Rows) (customIcons : List CustomIcon) (customData : List CustomDataItem)
    (bin : Option Uuid) : Except SettingError Meta := do
  let v ← readMetaInto L rows {}
  return { v with
    customIcons, customData
    recycleBinUuid := bin
    recycleBinEnabled := (loadRecycleBinEnabled rows).getD bin.isSome }

end

end KeysCore.MetaRows
