import KeysCore.Projection

/-!
# Reconciling a peer's groups

`reconcile_peer_groups`: adopt the groups only the peer has, take the newer metadata and the newer
parent of every group (`reconcile_group_metadata`, `reconcile_group_location`), and break the cycles
concurrent moves can leave (`break_group_cycles`).

Two traits of the source are kept as they are. The metadata query decodes `icon_index` as a
non-NULL integer, so it fails on a row whose icon is a custom one set here. The location pass leaves
a row untouched when its parent already is the peer's, also when the peer's stamp is newer.

`find_one_cycle` walks from the keys of a hash map, whose order is unspecified and differs between
two maps of the same content; the order of the `n`-th map is the parameter `HashOrder`.
-/

namespace KeysCore

open Lib

/-- `IngestPeerOutcome`: what a peer ingest changed. -/
structure IngestPeerOutcome where
  conflicted : List Uuid := []
  autoMerged : List Uuid := []
  added : List Uuid := []
  deleted : List Uuid := []
  moved : List Uuid := []
  groupsAdded : List Uuid := []
  groupsUpdated : List Uuid := []
  groupsMoved : List Uuid := []
  groupsDeleted : List Uuid := []
  historyPruned : List Uuid := []
  inSync : Nat := 0
deriving DecidableEq

/-- An optional value in the order of Rust's `Option`: `None` first. -/
def optKey {α : Type} : Option α → WithBot α
  | none => ⊥
  | some a => (a : WithBot α)

/-- The order in which the `n`-th hash map of a pass yields its keys. -/
structure HashOrder where
  order : Nat → List Uuid → List Uuid
  perm : ∀ n l, (order n l).Perm l

/-- Hash maps that yield their keys in insertion order. -/
def HashOrder.insertion : HashOrder := ⟨fun _ l => l, fun _ _ => .refl _⟩

/-- `expiry_ms`: the expiry column, NULL unless the entry or group expires. -/
def expiryMs (t : Timestamps) : Option EpochMs :=
  if t.expires then t.expiryTime.map (·.timestampMillis) else none

/-! ## Metadata -/

/-- `(floored modified_at, name, notes, icon_index, custom icon)`. -/
abbrev MetadataKey := EpochMs ×ₗ String ×ₗ String ×ₗ IconIndex ×ₗ WithBot Uuid

def metadataKey (modifiedAt : EpochMs) (name notes : String) (icon : IconIndex)
    (custom : Option Uuid) : MetadataKey :=
  toLex (modifiedAt.floorSecond, toLex (name, toLex (notes, toLex (icon, optKey custom))))

def GroupInfo.metadataKey (g : GroupInfo) : MetadataKey :=
  KeysCore.metadataKey (dtToMs g.times.lastModificationTime) g.name g.notes g.iconId g.customIconUuid

/-- The columns `reconcile_group_metadata` takes over from the peer. -/
def GroupRow.adoptMetadata (g : GroupInfo) (row : GroupRow) : GroupRow :=
  { row with
    name := g.name
    notes := g.notes
    iconIndex := some g.iconId
    iconCustomUuid := g.customIconUuid
    modifiedAt := dtToMs g.times.lastModificationTime }

def reconcileGroupMetadata (g : GroupInfo) (st : Mirror × IngestPeerOutcome) :
    Except EngineError (Mirror × IngestPeerOutcome) :=
  match st.1.groups.find? g.id with
  | none => .ok st
  | some row =>
    match row.iconIndex with
    | none => .error (.sqlite (.invalidColumnType "icon_index"))
    | some icon =>
      if g.metadataKey ≤ metadataKey row.modifiedAt row.name row.notes icon row.iconCustomUuid then
        .ok st
      else
        .ok (st.1.updateGroups (fun r => r.uuid = g.id) (GroupRow.adoptMetadata g) (fun _ => rfl)
            (fun _ => rfl),
          { st.2 with groupsUpdated := st.2.groupsUpdated ++ [g.id] })

/-! ## Location -/

/-- `(floored location_changed, parent)`. -/
abbrev GroupLocation := WithBot EpochMs ×ₗ WithBot Uuid

/-- The location a row holds. -/
def GroupRow.location (row : GroupRow) : GroupLocation :=
  toLex (optKey (row.locationChangedAt.map (·.floorSecond)), optKey row.parentUuid)

/-- The peer's stamp, floored, as the column it would be written to. -/
def GroupInfo.locationMs (g : GroupInfo) : Option EpochMs :=
  g.times.locationChanged.map fun t => t.floorToSecond.timestampMillis

/-- The location the peer gives a group under `parent`. -/
def GroupInfo.location (g : GroupInfo) (parent : Uuid) : GroupLocation :=
  toLex (optKey g.locationMs, (parent : WithBot Uuid))

def reconcileGroupLocation (g : GroupInfo) (peerParent : Uuid) (st : Mirror × IngestPeerOutcome) :
    Except EngineError (Mirror × IngestPeerOutcome) :=
  match st.1.groups.find? g.id with
  | none => .ok st
  | some row =>
    if g.location peerParent ≤ row.location then .ok st
    -- the same parent already: the newer stamp is not recorded
    else if row.parentUuid = some peerParent then .ok st
    else do
      let m ← st.1.setParent g.id peerParent
        (fun r => { r with locationChangedAt := g.locationMs }) (fun _ => rfl)
      return (m, { st.2 with groupsMoved := st.2.groupsMoved ++ [g.id] })

/-! ## Cycles -/

/-- The walk of `find_one_cycle` from the last node of `path` on to `cur`: the members of the cycle
it runs into, if any. A walk repeats a node before it is longer than the map. -/
def walkCycle (parent : Uuid → Option Uuid) : Nat → List Uuid → Uuid → Option (List Uuid)
  | fuel, path, cur =>
    if cur ∈ path then some (path.dropWhile (· ≠ cur))
    else
      match fuel, parent cur with
      | fuel + 1, some p => walkCycle parent fuel (path ++ [cur]) p
      | _, _ => none

/-- `find_one_cycle`, with the keys in the order the map yields them. -/
def findOneCycle (parent : Uuid → Option Uuid) (keys : List Uuid) : Option (List Uuid) :=
  keys.findSome? fun start => walkCycle parent (keys.length + 1) [] start

/-- The keys of the parent map: the groups that have a parent. -/
def Mirror.childKeys (m : Mirror) : List Uuid :=
  (m.groups.rows.filter (·.parentUuid.isSome)).map (·.uuid)

/-- `break_group_cycles`: while there is a cycle, its smallest member goes under the root. The
loop is bounded by the number of groups; past it, it does not return. -/
def breakGroupCycles (ord : HashOrder) (root : Uuid) :
    Nat → Nat → Mirror × IngestPeerOutcome → Except EngineError (Mirror × IngestPeerOutcome)
  | 0, _, _ => .error .diverges
  | fuel + 1, n, st =>
    match findOneCycle st.1.parentOf (ord.order n st.1.childKeys) with
    | none => .ok st
    | some cycle =>
      match cycle.min? with
      -- `expect`: a cycle has at least one member
      | none => .error .diverges
      | some victim => do
        let m ← st.1.setParent victim root (fun r => r) (fun _ => rfl)
        breakGroupCycles ord root fuel (n + 1)
          (m, { st.2 with groupsMoved := st.2.groupsMoved ++ [victim] })

/-! ## The passes -/

/-- The row a peer's group is adopted as: an ordinary group, not a bin. -/
def FlatGroup.toRow (f : FlatGroup) : GroupRow where
  uuid := f.info.id
  parentUuid := f.parent
  name := f.info.name
  iconIndex := some f.info.iconId
  iconCustomUuid := f.info.customIconUuid
  notes := f.info.notes
  createdAt := dtToMs f.info.times.creationTime
  modifiedAt := dtToMs f.info.times.lastModificationTime
  expiresAt := expiryMs f.info.times
  isRecycleBin := false
  sortOrder := f.sortOrder
  locationChangedAt := f.info.times.locationChanged.map (·.timestampMillis)

/-- Pass 1 for one group: insert it unless it is the peer's root or already here. -/
def adoptGroup (st : Mirror × IngestPeerOutcome) (f : FlatGroup) :
    Except EngineError (Mirror × IngestPeerOutcome) :=
  if f.parent.isNone || st.1.groupExists f.info.id then .ok st
  else do
    let m ← st.1.insertGroup f.toRow
    return (m, { st.2 with groupsAdded := st.2.groupsAdded ++ [f.info.id] })

/-- Pass 2 for one group: metadata, and the location of a group with a parent. -/
def reconcileGroup (st : Mirror × IngestPeerOutcome) (f : FlatGroup) :
    Except EngineError (Mirror × IngestPeerOutcome) := do
  let st ← reconcileGroupMetadata f.info st
  match f.parent with
  | none => return st
  | some p => reconcileGroupLocation f.info p st

def reconcilePeerGroups (ord : HashOrder) (peer : Vault) (st : Mirror × IngestPeerOutcome) :
    Except EngineError (Mirror × IngestPeerOutcome) := do
  let st ← peer.groups.foldlM adoptGroup st
  let st ← peer.groups.foldlM reconcileGroup st
  breakGroupCycles ord peer.root.id (st.1.groups.rows.length + 1) 0 st

end KeysCore
