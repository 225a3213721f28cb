import KeysCore.PeerIngest

/-!
# Parked conflicts

A parked row is a peer's whole entry. Settling an entry's rows (`settle_entry_rows`) merges each
against the local vault: a row that still clashes stays, one that has dissolved is dropped, and one
that has dissolved but still carries changes is landed first, by ingesting the merged vault. The
resolver (`held_conflict_payload`) stashes a merge for the user to decide, and
`apply_conflict_resolution` lands the decision.

The vault-level merge of keepass-merge is not part of the repository: it is the parameter
`VaultMergeLib`.
-/

namespace KeysCore

open Lib

/-! ## The vault merge -/

inductive ConflictSide where
  | localSide
  | remoteSide
deriving DecidableEq

inductive AttachmentChoice where
  | keepLocal
  | keepRemote
  | keepBoth
deriving DecidableEq

inductive DeleteEditChoice where
  | keepLocal
  | acceptRemoteDelete
deriving DecidableEq

/-- The user's choices, by entry. -/
structure Resolution where
  entryFieldChoices : List (Uuid × List (String × ConflictSide)) := []
  entryAttachmentChoices : List (Uuid × List (String × AttachmentChoice)) := []
  entryIconChoices : List (Uuid × ConflictSide) := []
  deleteEditChoices : List (Uuid × DeleteEditChoice) := []
deriving DecidableEq

inductive ConflictKind where
  | field
  | attachment
  | icon
deriving DecidableEq

/-- A record of `keys.conflict_resolutions.v1`. -/
structure ConflictResolution where
  entry : Uuid
  kind : ConflictKind
  key : Option String
  resolvedAt : DateTime
deriving DecidableEq

/-- The functions of keepass-merge on whole vaults. A function that changes a vault in place returns
it. -/
structure VaultMergeLib where
  MergeOutcome : Type
  merge : Vault → Vault → Except String MergeOutcome
  entryConflicts : MergeOutcome → List Uuid
  deleteEditConflicts : MergeOutcome → List Uuid
  applyMerge : Vault → Vault → MergeOutcome → Resolution → Except String Vault
  reconcileTimestamps : Vault → Vault → Vault
  addConflictResolution : List CustomDataItem → ConflictResolution → Except String (List CustomDataItem)

/-- Neither bucket holds a conflict. -/
def VaultMergeLib.clean (L : VaultMergeLib) (o : L.MergeOutcome) : Bool :=
  (L.entryConflicts o).isEmpty && (L.deleteEditConflicts o).isEmpty

/-! ## Entries in a tree -/

mutual

/-- `find_entry`. -/
def Group.findEntry (u : Uuid) : Group → Option Entry
  | .node _ es gs => (es.find? (·.id = u)).or (Group.findEntryAll u gs)

def Group.findEntryAll (u : Uuid) : List Group → Option Entry
  | [] => none
  | g :: gs => (g.findEntry u).or (Group.findEntryAll u gs)

end

/-- `contains_entry`. -/
def Group.containsEntry (u : Uuid) (g : Group) : Bool := (g.findEntry u).isSome

mutual

/-- `swap_entry_in_tree`: the entry takes the place of the one of its id, if there is one. -/
def Group.swapEntry (e : Entry) : Group → Group
  | .node i es gs =>
    if es.any (·.id = e.id) then
      .node i (es.replaceF fun x => if x.id = e.id then some e else none) gs
    else .node i es (Group.swapEntryAll e gs)

def Group.swapEntryAll (e : Entry) : List Group → List Group
  | [] => []
  | g :: gs =>
    if g.containsEntry e.id then g.swapEntry e :: gs else g :: Group.swapEntryAll e gs

end

/-! ## The rows of an entry -/

namespace Mirror

variable (m : Mirror)

/-- `parked_conflict_uuids`: each entry with a row, sorted. -/
def parkedConflictUuids : List Uuid :=
  (m.conflicts.rows.map (·.uuid)).dedup.insertionSort (· ≤ ·)

/-- `conflict_owners_for`, sorted. -/
def conflictOwnersFor (u : Uuid) : List String :=
  sortStrings ((m.conflicts.rows.filter (·.uuid = u)).map (·.owner))

/-- `drop_conflict_rows`. -/
def dropConflictRows (u : Uuid) : Mirror :=
  { m with conflicts := m.conflicts.delete fun r => r.uuid = u }

/-- `reconstruct_peer_entry`: the parked entry, without a location. -/
def reconstructPeerEntry (owner : String) (u : Uuid) : Option Entry :=
  (m.conflicts.find? (owner, u)).map fun r =>
    { r.entry.toVersion u with history := r.history.map (HistorySnapshot.toVersion u) }

end Mirror

/-- An entry with the placement stamps of another. -/
def Entry.placedAs (e other : Entry) : Entry :=
  { e with
    times := { e.times with locationChanged := other.times.locationChanged }
    previousParentGroup := other.previousParentGroup }

/-- `theirs_vault`: the local vault with the parked entry in place of the local one. -/
def theirsVault (m : Mirror) (localVault : Vault) (owner : String) (u : Uuid) : Option Vault :=
  (m.reconstructPeerEntry owner u).map fun peer =>
    let peer := match localVault.root.findEntry u with
      | some l => peer.placedAs l
      | none => peer
    { localVault with root := localVault.root.swapEntry peer }

/-- The custom fields in the order of their keys. -/
def EntryVersion.sortedFields (v : EntryVersion) : EntryVersion :=
  { v with customFields := v.customFields.insertionSort fun a b => a.key ≤ b.key }

/-- `same_entry`: equal but for the order of custom fields. -/
def sameEntry (a b : Entry) : Bool :=
  a.toEntryVersion.sortedFields = b.toEntryVersion.sortedFields &&
    a.history.map EntryVersion.sortedFields = b.history.map EntryVersion.sortedFields

/-! ## Settling -/

/-- What `dissolve_decision` finds about one owner's row. -/
inductive RowVerdict where
  /-- The row still clashes and stays. -/
  | live
  /-- Local holds everything the row carries. -/
  | dropped
  /-- The row has dissolved, and `merged` is local with what it still carries. -/
  | adopt (merged : Vault)

/-- The clean merge of `theirs` into the local vault. -/
def cleanMerge (L : VaultMergeLib) (localVault theirs : Vault) (outcome : L.MergeOutcome) :
    Except EngineError Vault := do
  let merged ← serialised (L.applyMerge localVault theirs outcome {})
  return L.reconcileTimestamps merged theirs

/-- The body of the loop of `dissolve_decision`, for a `localEntry` of the local vault. -/
def dissolveRow (L : VaultMergeLib) (m : Mirror) (localVault : Vault) (localEntry : Entry)
    (owner : String) (u : Uuid) : Except EngineError RowVerdict :=
  match theirsVault m localVault owner u with
  | none => .ok .dropped
  | some theirs => do
    let outcome ← serialised (L.merge localVault theirs)
    if L.clean outcome then
      let merged ← cleanMerge L localVault theirs outcome
      if (merged.root.findEntry u).any (sameEntry · localEntry) then return .dropped
      else return .adopt merged
    else return .live

/-! ## Resolving -/

/-- `PendingConflictContext`. -/
structure PendingConflictContext (L : VaultMergeLib) where
  id : Nat
  outcome : L.MergeOutcome
  projectedAtSeq : Nat
  localVault : Vault
  remoteVault : Vault

/-- The merge `held_conflict_payload` offers for `u`: of the first owner whose row is there, when it
clashes. -/
def heldConflict (L : VaultMergeLib) (m : Mirror) (localVault : Vault) (u : Uuid) :
    Except EngineError (Option (Vault × L.MergeOutcome)) :=
  match (m.conflictOwnersFor u).head?.bind fun owner => theirsVault m localVault owner u with
  | none => .ok none
  | some theirs => do
    let outcome ← serialised (L.merge localVault theirs)
    if L.clean outcome then return none else return some (theirs, outcome)

namespace Resolution

variable (r : Resolution)

/-- The facets `record_resolutions_into_meta` records; a delete-or-edit choice gets no record. -/
def facets : List (Uuid × ConflictKind × Option String) :=
  (r.entryFieldChoices.flatMap fun c => c.2.map fun f => (c.1, .field, some f.1)) ++
    (r.entryAttachmentChoices.flatMap fun c => c.2.map fun a => (c.1, .attachment, some a.1)) ++
    r.entryIconChoices.map fun c => (c.1, .icon, none)

/-- `resolved_entries`. -/
def entries : List Uuid :=
  (r.entryFieldChoices.map (·.1) ++ r.entryAttachmentChoices.map (·.1) ++
    r.entryIconChoices.map (·.1) ++ r.deleteEditChoices.map (·.1)).dedup

end Resolution

/-- `record_resolutions_into_meta`. -/
def recordResolutionsIntoMeta (L : VaultMergeLib) (merged : Vault) (r : Resolution)
    (now : DateTime) : Except EngineError Vault := do
  let data ← r.facets.foldlM
    (fun data f => serialised (L.addConflictResolution data ⟨f.1, f.2.1, f.2.2, now⟩))
    merged.metadata.customData
  return { merged with metadata := { merged.metadata with customData := data } }

/-- The vault `apply_conflict_resolution` ingests. -/
def PendingConflictContext.resolved {L : VaultMergeLib} (ctx : PendingConflictContext L)
    (r : Resolution) (now : DateTime) : Except EngineError Vault := do
  let merged ← match L.applyMerge ctx.localVault ctx.remoteVault ctx.outcome r with
    | .ok merged => .ok merged
    | .error e => .error (.resolutionMismatch e)
  recordResolutionsIntoMeta L (L.reconcileTimestamps merged ctx.remoteVault) r now

/-! ## The replica gate -/

/-- `is_same_vault`: the nil uuid is no identity. -/
def isSameVault (expected found : Uuid) : Bool := found ≠ 0 && found = expected

/-- `test_vault::is_marked`. -/
def isMarked (data : List CustomDataItem) : Bool :=
  data.any fun c => c.key = "KeysTestVault" && c.value = "1"

/-- `read_is_test_vault`. -/
def Mirror.isTestVault (m : Mirror) : Bool :=
  m.settings.customData.rows.any fun c => c.key = "KeysTestVault" && c.value = "1"

/-- `ensure_same_replica`. -/
def ensureSameReplica (peer : Vault) (m : Mirror) : Except EngineError Unit :=
  match m.rootUuid? with
  | none => .error (.sqlite .noRows)
  | some expected =>
    if isSameVault expected peer.root.id then
      if m.isTestVault = isMarked peer.metadata.customData then .ok ()
      else .error (.testVaultMarkerMismatch m.isTestVault (isMarked peer.metadata.customData))
    else .error (.vaultIdentityMismatch expected peer.root.id)

end KeysCore
