import Mathlib.Algebra.Group.Nat.Defs
import Mathlib.Logic.Function.Basic

/-!
# The KDF-cost gate

The outer header of a KDBX file names the cost of its key derivation, and nothing about the file can be
checked before the key is derived. So the mirror records the cost of its vault file, in two rows of
`setting` of which one is there, and a file is derived only when its header asks for the recorded cost,
for one the user approved, or, with nothing recorded, for one within a ceiling.

The functions are in a monad whose state survives an error, as what a statement wrote survives the
failure of the next. The calls out of the modelled code (SQLite, the file system, the unlocking, the
merge) fail as the list `faults` says. Two history variables record what the gate is about: `derived`,
the key derivations, and `lastFiles`, the costs of the last file whose recording went through and of
those whose recording was cut short since.
-/

namespace KeysCore.KdfGate

/-! ## Costs -/

inductive Argon2Variant where
  | argon2d
  | argon2id
deriving DecidableEq

/-- `KdfParams` of keepass-core, which may name a family the engine does not know. -/
inductive KdfParams where
  | aesKdf (seed : List UInt8) (rounds : UInt64)
  | argon2 (variant : Argon2Variant) (salt : List UInt8) (iterations memoryBytes : UInt64)
      (parallelism version : UInt32)
  | other (params : List UInt8)
deriving DecidableEq

/-- The parameters with the salt cleared; those of an unknown family compare whole. -/
def KdfParams.withoutSalt : KdfParams → KdfParams
  | aesKdf _ rounds => aesKdf (List.replicate 32 0) rounds
  | argon2 variant _ iterations memoryBytes parallelism version =>
    argon2 variant [] iterations memoryBytes parallelism version
  | other params => other params

theorem KdfParams.withoutSalt_withoutSalt (p : KdfParams) : p.withoutSalt.withoutSalt = p.withoutSalt := by
  cases p <;> rfl

/-- Parameters without a salt: the work a file asks for. -/
structure KdfCost where
  params : KdfParams
  saltless : params.withoutSalt = params
deriving DecidableEq

namespace KdfCost

/-- `KdfCost::of`. -/
def of (p : KdfParams) : KdfCost := ⟨p.withoutSalt, p.withoutSalt_withoutSalt⟩

/-- `KdfCost::aes_kdf`. -/
def aesKdf (rounds : UInt64) : KdfCost := of (.aesKdf (List.replicate 32 0) rounds)

end KdfCost

/-! ## Headers -/

abbrev Blob := List UInt8

inductive VersionFields where
  | v3 (transformSeed : Blob) (transformRounds : UInt64)
  | v4 (kdfParameters : Blob)
deriving DecidableEq

structure OuterHeader where
  cipherId : Blob
  versionFields : VersionFields
deriving DecidableEq

/-- `VarDictionary::parse` and `KdfParams::from_var_dictionary` of keepass-core. -/
structure KdbxLib where
  decodeParams : Blob → Option KdfParams

/-- `OuterHeader::decode_kdf_params`. -/
def OuterHeader.decodeKdfParams (L : KdbxLib) (h : OuterHeader) : Option KdfParams :=
  match h.versionFields with
  | .v3 seed rounds => some (.aesKdf seed rounds)
  | .v4 params => L.decodeParams params

def OuterHeader.cost (L : KdbxLib) (h : OuterHeader) : Option KdfCost :=
  (h.decodeKdfParams L).map KdfCost.of

/-! ## Rows of setting -/

/-- The table `setting`: the value under each key that has one. -/
abbrev SettingRows := String → Option Blob

def keyKdbxCipherOid : String := "meta.kdbx_cipher_oid"

def keyKdbxKdfParameters : String := "meta.kdbx_kdf_parameters"

def keyKdbxTransformRounds : String := "meta.kdbx_transform_rounds"

def keyRecycleBinEnabled : String := "meta.recycle_bin_enabled"

/-- The keys `write_meta_scalars` sets, and the recycle bin's flag. -/
def metaScalarKeys : List String :=
  [keyRecycleBinEnabled, "meta.generator", "meta.database_name", "meta.database_description",
    "meta.default_username", "meta.color", "meta.header_hash", "meta.database_name_changed",
    "meta.database_description_changed", "meta.default_username_changed", "meta.recycle_bin_changed",
    "meta.settings_changed", "meta.master_key_changed", "meta.master_key_change_rec", "meta.master_key_change_force",
    "meta.history_max_items", "meta.history_max_size", "meta.maintenance_history_days",
    "meta.memory_protection", "meta.unknown_xml"]

/-- `clear_meta_tables`, its statement on `setting`. -/
def clearMetaTables (rows : SettingRows) : SettingRows := fun key =>
  if "meta.".toList.isPrefixOf key.toList ∧ key ∉ [keyRecycleBinEnabled, keyKdbxCipherOid,
      keyKdbxKdfParameters, keyKdbxTransformRounds] then none
  else rows key

/-- The scalar rows of a `Meta` with these values; a time it does not have deletes its row. -/
def writeMetaScalars (values rows : SettingRows) : SettingRows := fun key =>
  if key ∈ metaScalarKeys then values key else rows key

/-- `u64::to_le_bytes`. -/
def leBytes (n : UInt64) : Blob := (List.range 8).map fun i => UInt8.ofNat (n.toNat / 256 ^ i)

/-- `i64::from_le_bytes` and the cast to `u64`. -/
def ofLeBytes (bytes : Blob) : Option UInt64 :=
  if bytes.length = 8 then
    some (UInt64.ofNat (bytes.foldr (fun b n => b.toNat + 256 * n) 0))
  else none

/-! ## The monad -/

inductive KdfError where
  /-- A call out of the modelled code has failed. -/
  | outside
  /-- `EngineError::Serialise`: the header's parameters do not decode. -/
  | serialise
  /-- A row that is not eight bytes long. -/
  | schemaInvariant (key : String)
  | mirrorKdfUnknown
  | kdfParametersMismatch (own peer : KdfCost)
  | kdfApprovalRequired (recorded : Option KdfCost) (file : KdfCost)
deriving DecidableEq

/-- A key derivation on a file whose header asks for `file`, and what spoke for it: the recorded cost,
the approved one, and whether the file is within the ceiling. -/
structure Derivation where
  file : KdfCost
  recorded : Option KdfCost
  approved : Option KdfCost := none
  withinCeiling : Bool := false
deriving DecidableEq

structure KdfState where
  settings : SettingRows
  /-- Whether the next calls out of the modelled code fail; after the last one none does. -/
  faults : List Bool := []
  derived : List Derivation := []
  /-- The recorded cost is one of these, `none` for no recorded cost. -/
  lastFiles : List (Option KdfCost)

abbrev KdfM := EStateM KdfError KdfState

/-- A call that can fail. -/
def callOut : KdfM Unit := do
  let s ← get
  match s.faults with
  | [] => return
  | fails :: faults =>
    set { s with faults }
    if fails then throw .outside

/-- Rolls the rows back on an error. -/
def transaction (body : KdfM Unit) : KdfM Unit := fun s =>
  match body s with
  | .ok a s' => .ok a s'
  | .error e s' => .error e { s' with settings := s.settings }

def setBlob (key : String) (value : Blob) : KdfM Unit := do
  callOut
  modify fun s => { s with settings := Function.update s.settings key (some value) }

def deleteRow (key : String) : KdfM Unit := do
  callOut
  modify fun s => { s with settings := Function.update s.settings key none }

/-! ## The recorded cost -/

/-- The cost the rows record. -/
def SettingRows.kdfCost (L : KdbxLib) (rows : SettingRows) : Except KdfError KdfCost :=
  match rows keyKdbxKdfParameters with
  | some blob =>
    match L.decodeParams blob with
    | some params => .ok (.of params)
    | none => .error .mirrorKdfUnknown
  | none =>
    match rows keyKdbxTransformRounds with
    | some bytes =>
      match ofLeBytes bytes with
      | some rounds => .ok (.aesKdf rounds)
      | none => .error (.schemaInvariant keyKdbxTransformRounds)
    | none => .error .mirrorKdfUnknown

section Gate

variable (L : KdbxLib)

/-- `read_kdf_cost`. -/
def readKdfCost : KdfM KdfCost := do
  callOut
  match (← get).settings.kdfCost L with
  | .ok cost => return cost
  | .error e => throw e

/-- `recorded_kdf_cost`. -/
def recordedKdfCost : KdfM (Option KdfCost) := do
  callOut
  match (← get).settings.kdfCost L with
  | .ok cost => return some cost
  | .error .mirrorKdfUnknown => return none
  | .error e => throw e

/-- `KdfCost::of_header`. -/
def costOfHeader (header : OuterHeader) : KdfM KdfCost :=
  match header.cost L with
  | some cost => return cost
  | none => throw .serialise

/-- `write_kdbx_outer_header_facts`: the rows of the header, and the row of the other version deleted. -/
def writeKdbxOuterHeaderFacts (header : OuterHeader) : KdfM Unit := do
  setBlob keyKdbxCipherOid header.cipherId
  match header.versionFields with
  | .v4 params =>
    setBlob keyKdbxKdfParameters params
    deleteRow keyKdbxTransformRounds
  | .v3 _ rounds =>
    setBlob keyKdbxTransformRounds (leBytes rounds)
    deleteRow keyKdbxKdfParameters

/-- `refresh_kdbx_outer_header_facts`: nothing is written where the rows have the cost and the cipher. -/
def refreshKdbxOuterHeaderFacts (header : OuterHeader) : KdfM Unit := do
  let cost ← costOfHeader L header
  let recorded ← recordedKdfCost L
  callOut
  let cipher := (← get).settings keyKdbxCipherOid
  if recorded ≠ some cost ∨ cipher ≠ some header.cipherId then
    modify fun s => { s with lastFiles := some cost :: s.lastFiles }
    writeKdbxOuterHeaderFacts header
  modify fun s => { s with lastFiles := [some cost] }

/-! ## Derivations -/

structure KdfPolicy where
  /-- `KdfCost::exceeds` of the ceiling. -/
  exceeds : KdfCost → Bool
  approved : Option KdfCost

/-- `check_vault_file`. -/
def checkVaultFile (file : KdfCost) (recorded : Option KdfCost) (policy : KdfPolicy) : KdfM Unit :=
  let passes : Bool := policy.approved = some file ||
    match recorded with
    | some recorded => recorded = file
    | none => !policy.exceeds file
  if passes then return else throw (.kdfApprovalRequired recorded file)

/-- `unlock`: the key is derived, and may not open the file. -/
def unlock (file : KdfCost) (approved : Option KdfCost) (withinCeiling : Bool) : KdfM Unit := do
  modify fun s => { s with
    derived := ⟨file, (s.settings.kdfCost L).toOption, approved, withinCeiling⟩ :: s.derived }
  callOut

/-- What a merge writes to `setting`: the scalars of a peer's newer `Meta`, and the in-memory ingests that
land the settled conflicts. -/
structure MergeWrites where
  scalars : Option SettingRows := none
  landings : List SettingRows := []

/-- An ingest of a vault rebuilt in memory: the dissolve and the resolution land through it. -/
def ingestInMemory (values : SettingRows) : KdfM Unit :=
  transaction do
    callOut
    modify fun s => { s with settings := writeMetaScalars values (clearMetaTables s.settings) }
    callOut

/-- The transaction of the pull. -/
def pullScalars (scalars : Option SettingRows) : KdfM Unit :=
  transaction do
    callOut
    if let some values := scalars then
      modify fun s => { s with settings := writeMetaScalars values s.settings }
    callOut

/-- `ingest_kdbx_as_owner`. -/
def ingestKdbxAsOwner (merge : MergeWrites) : KdfM Unit := do
  pullScalars merge.scalars
  for values in merge.landings do
    ingestInMemory values
  callOut

/-! ## Operations -/

/-- The header of a file that is unlocked: its parameters have decoded. -/
structure UnlockedHeader (L : KdbxLib) where
  header : OuterHeader
  cost : KdfCost
  decodes : header.cost L = some cost

/-- `ingest_vault_with_header` of a vault file, its transaction. -/
def ingestVaultFile (header : OuterHeader) (values : SettingRows) : KdfM Unit :=
  transaction do
    callOut
    modify fun s => { s with settings := writeMetaScalars values (clearMetaTables s.settings) }
    writeKdbxOuterHeaderFacts header
    callOut

def ingestFile {L : KdbxLib} (file : UnlockedHeader L) (values : SettingRows) : KdfM Unit := do
  ingestVaultFile file.header values
  modify fun s => { s with lastFiles := [some file.cost] }

/-- `reconcile_with_disk_park_conflicts`. -/
def reconcileWithDiskParkConflicts (disk : OuterHeader) (policy : KdfPolicy) (merge : MergeWrites) :
    KdfM Unit := do
  callOut
  let recorded ← recordedKdfCost L
  let file ← costOfHeader L disk
  checkVaultFile file recorded policy
  unlock L file policy.approved (!policy.exceeds file)
  ingestKdbxAsOwner merge
  refreshKdbxOuterHeaderFacts L disk

/-- `ensure_same_kdf_cost`. -/
def ensureSameKdfCost (peer : OuterHeader) : KdfM KdfCost := do
  let own ← readKdfCost L
  let peer ← costOfHeader L peer
  if peer = own then return peer else throw (.kdfParametersMismatch own peer)

/-- `ingest_peer_from_kdbx`. -/
def ingestPeerFromKdbx (peer : OuterHeader) (merge : MergeWrites) : KdfM Unit := do
  callOut
  let cost ← ensureSameKdfCost L peer
  unlock L cost none false
  ingestKdbxAsOwner merge

/-- `adopt_peer_kdf`: the vault file is current before and after the derivation, and the merge is saved
in the peer's envelope before its facts are recorded. -/
def adoptPeerKdf (peer : OuterHeader) (approved : KdfCost) (merge : MergeWrites) : KdfM Unit := do
  callOut
  let cost ← costOfHeader L peer
  if cost ≠ approved then
    let own ← readKdfCost L
    throw (.kdfParametersMismatch own cost)
  -- `ensure_vault_file_current`
  callOut
  unlock L cost (some approved) false
  callOut
  ingestKdbxAsOwner merge
  -- `save`
  callOut
  refreshKdbxOuterHeaderFacts L peer
  -- `persistence_state` and `record_kdbx_correspondence`
  callOut

end Gate

/-- The operations the gate is about. -/
inductive KdfOp (L : KdbxLib) where
  | ingestFile (file : UnlockedHeader L) (values : SettingRows)
  | ingestInMemory (values : SettingRows)
  | reconcile (disk : OuterHeader) (policy : KdfPolicy) (merge : MergeWrites)
  | ingestPeer (peer : OuterHeader) (merge : MergeWrites)
  | adopt (peer : OuterHeader) (approved : KdfCost) (merge : MergeWrites)

namespace KdfOp

variable {L : KdbxLib}

def run : KdfOp L → KdfM Unit
  | ingestFile file values => KdfGate.ingestFile file values
  | ingestInMemory values => KdfGate.ingestInMemory values
  | reconcile disk policy merge => reconcileWithDiskParkConflicts L disk policy merge
  | ingestPeer peer merge => ingestPeerFromKdbx L peer merge
  | adopt peer approved merge => adoptPeerKdf L peer approved merge

/-- The state an operation leaves, whether it completes or fails. -/
def leaves (op : KdfOp L) (s : KdfState) : KdfState :=
  match op.run s with
  | .ok _ s' => s'
  | .error _ s' => s'

def runAll (ops : List (KdfOp L)) (s : KdfState) : KdfState := ops.foldl (fun s op => op.leaves s) s

end KdfOp

end KeysCore.KdfGate
