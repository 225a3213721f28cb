import Mathlib.Data.List.Sort
import KeysCore.Mirror

/-!
# Structural mutations

The engine's operations that create, place, reorder and remove groups, and that place and remove
entries (`mutations.rs`). Each is one transaction: it returns the mirror it commits, or an error
with nothing committed.

`delete_group_recursive` and the upward walk of `move_group` have no bound in the source; here they
carry as fuel the number of group rows, and running out of it (`EngineError.diverges`) means that
the parent chain they follow is cyclic and the source's loop does not return.
-/

namespace KeysCore

open Lib

/-! ## Arguments and outcomes -/

inductive IconRef where
  | builtin (index : IconIndex)
  | custom (uuid : Uuid)
deriving DecidableEq

/-- `icon_parts`: the two icon columns. A custom icon leaves `icon_index` NULL. -/
def iconParts : IconRef → Option IconIndex × Option Uuid
  | .builtin i => (some i, none)
  | .custom u => (none, some u)

structure NewGroupFields where
  name : String
  notes : String
  icon : IconRef
deriving DecidableEq

structure GroupUpdate where
  name : Option String := none
  notes : Option String := none
  icon : Option IconRef := none
  expiresAt : Option (Option EpochMs) := none
deriving DecidableEq

structure MoveGroupOutcome where
  fromParent : Uuid
  toParent : Uuid
deriving DecidableEq

structure MoveEntryOutcome where
  fromGroup : Uuid
  toGroup : Uuid
deriving DecidableEq

/-- Deleted groups with the parent they had, deleted entries with the group they sat in. -/
structure DeleteGroupOutcome where
  deletedGroups : List (Uuid × Option Uuid) := []
  deletedEntries : List (Uuid × Uuid) := []
deriving DecidableEq

namespace Mirror

variable (m : Mirror)

/-! ## Queries -/

/-- `recycle_bin_uuid`: the first row flagged as the bin. -/
def recycleBinUuid : Option Uuid := (m.groups.rows.find? (·.isRecycleBin)).map (·.uuid)

/-- `SELECT uuid FROM "group" WHERE parent_uuid IS NULL LIMIT 1`. -/
def rootUuid? : Option Uuid := (m.groups.rows.find? (·.parentUuid.isNone)).map (·.uuid)

/-- The uuids under `p`, in row order. -/
def childGroups (p : Uuid) : List Uuid :=
  (m.groups.rows.filter (·.parentUuid = some p)).map (·.uuid)

/-- `COALESCE(MAX(sort_order), -1) + 1` over the children of `p`. -/
def nextSortOrder (p : Uuid) : Int :=
  (((m.groups.rows.filter (·.parentUuid = some p)).map (·.sortOrder)).max?).getD (-1) + 1

/-- `meta::read_recycle_bin_enabled`: the setting row, else whether a bin group exists. -/
def readRecycleBinEnabled : Bool :=
  m.settings.recycleBinEnabled.getD m.recycleBinUuid.isSome

/-- The walk of `group_in_bin_subtree`, at most `n` groups long. -/
def binWalk (bin : Uuid) : Nat → Option Uuid → Bool
  | 0, _ => false
  | _ + 1, none => false
  | n + 1, some g => g = bin || binWalk bin n (m.parentOf g)

/-- `group_in_bin_subtree`: is `g` the bin or below it? -/
def groupInBinSubtree (g : Uuid) : Bool :=
  match m.recycleBinUuid with
  | none => false
  | some bin => m.binWalk bin 10000 (some g)

/-- `ORDER BY sort_order, name, uuid`. -/
def siblingKey (g : GroupRow) : Int ×ₗ String ×ₗ Uuid := toLex (g.sortOrder, toLex (g.name, g.uuid))

/-- Group rows in sibling order. -/
def sortRows (rows : List GroupRow) : List GroupRow :=
  rows.insertionSort fun a b => siblingKey a ≤ siblingKey b

/-! ## Recycle-bin designation -/

/-- `meta::write_recycle_bin_group`: flag `u`, and no other group. -/
def writeRecycleBinGroup (u : Uuid) : Mirror :=
  (m.updateGroups (fun g => g.isRecycleBin ∧ g.uuid ≠ u) (fun g => { g with isRecycleBin := false })
    (fun _ => rfl) (fun _ => rfl)).updateGroups
      (fun g => g.uuid = u) (fun g => { g with isRecycleBin := true }) (fun _ => rfl) (fun _ => rfl)

/-- `meta::clear_recycle_bin_group`. -/
def clearRecycleBinGroup : Mirror :=
  m.updateGroups (fun g => g.isRecycleBin) (fun g => { g with isRecycleBin := false })
    (fun _ => rfl) (fun _ => rfl)

/-- `meta::write_recycle_bin_enabled`. -/
def writeRecycleBinEnabled (enabled : Bool) : Mirror :=
  m.writeSettings (fun s => { s with recycleBinEnabled := some enabled }) 1

/-- `meta::write_recycle_bin_changed`. -/
def writeRecycleBinChanged (now : EpochMs) : Mirror :=
  m.writeSettings (fun s => { s with recycleBinChanged := some now }) 1

def setRecycleBin (enabled : Bool) (groupUuid : Option Uuid) (now : EpochMs) :
    Except EngineError Mirror :=
  match groupUuid with
  | some u =>
    if m.groupExists u then
      .ok (((m.writeRecycleBinGroup u).writeRecycleBinEnabled enabled).writeRecycleBinChanged now)
    else .error (.notFound "group")
  | none => .ok ((m.clearRecycleBinGroup.writeRecycleBinEnabled enabled).writeRecycleBinChanged now)

/-- `create_recycle_bin_group`: the canonical bin under the root. -/
def createRecycleBinGroup (now : EpochMs) (binUuid : Uuid) : Except EngineError Mirror :=
  match m.rootUuid? with
  | none => .error (.sqlite .noRows)
  | some root => do
    let m' ← m.insertGroup
      { uuid := binUuid, parentUuid := some root, name := "Recycle Bin", iconIndex := some 43
        createdAt := now, modifiedAt := now, sortOrder := m.nextSortOrder root }
    return ((m'.writeRecycleBinGroup binUuid).writeRecycleBinEnabled true).writeRecycleBinChanged now

/-! ## Tombstones -/

/-- `record_tombstone`. -/
def recordTombstone (u : Uuid) (now : EpochMs) : Mirror := m.putTombstone ⟨u, some now⟩

/-! ## Groups -/

def createGroup (parent : Uuid) (fields : NewGroupFields) (now : EpochMs) (newUuid : Uuid) :
    Except EngineError (Mirror × Uuid) :=
  if m.groupExists parent then do
    let m' ← m.insertGroup
      { uuid := newUuid, parentUuid := some parent, name := fields.name
        iconIndex := (iconParts fields.icon).1, iconCustomUuid := (iconParts fields.icon).2
        notes := fields.notes, createdAt := now, modifiedAt := now
        sortOrder := m.nextSortOrder parent }
    return (m', newUuid)
  else .error (.notFound "group")

/-- The columns `update_group` writes. -/
def applyGroupUpdate (upd : GroupUpdate) (now : EpochMs) (g : GroupRow) : GroupRow :=
  { g with
    name := upd.name.getD g.name
    notes := upd.notes.getD g.notes
    iconIndex := (upd.icon.map fun i => (iconParts i).1).getD g.iconIndex
    iconCustomUuid := (upd.icon.map fun i => (iconParts i).2).getD g.iconCustomUuid
    expiresAt := upd.expiresAt.getD g.expiresAt
    modifiedAt := now }

def updateGroup (u : Uuid) (upd : GroupUpdate) (now : EpochMs) : Except EngineError Mirror :=
  if m.groupExists u then
    -- one statement for each field given, and one for `modified_at`
    .ok ((m.updateGroups (fun g => g.uuid = u) (applyGroupUpdate upd now) (fun _ => rfl)
      (fun _ => rfl)).bump
        ([upd.name.isSome, upd.notes.isSome, upd.icon.isSome, upd.expiresAt.isSome].count true))
  else .error (.notFound "group")

/-- Moves `u` under the bin. Neither its `location_changed_at` nor its `sort_order` is written, and
the bin may be below `u`. -/
def recycleGroup (u : Uuid) (now : EpochMs) : Except EngineError Mirror :=
  if m.groupExists u then
    match m.recycleBinUuid with
    | none => .error (.notFound "recycle_bin")
    | some bin =>
      if bin = u then .error .cycleDetected
      else m.setParent u bin (fun g => { g with modifiedAt := now }) (fun _ => rfl)
  else .error (.notFound "group")

/-- The upward walk of `move_group`: does it meet `target`? -/
def walkMeets (target : Uuid) : Nat → Option Uuid → Except EngineError Bool
  | _, none => .ok false
  | 0, some _ => .error .diverges
  | n + 1, some cur => if cur = target then .ok true else walkMeets target n (m.parentOf cur)

def moveGroup (u newParent : Uuid) (now : EpochMs) :
    Except EngineError (Mirror × MoveGroupOutcome) :=
  if u = newParent then .error .cycleDetected
  else
    match m.groups.find? u with
    | none => .error (.notFound "group")
    | some row =>
      if m.groupExists newParent then do
        let cyclic ← m.walkMeets u m.groups.rows.length (some newParent)
        if cyclic then .error .cycleDetected
        else
          let sortOrder := m.nextSortOrder newParent
          let m' ← m.setParent u newParent
            (fun g => { g with
              sortOrder := sortOrder, modifiedAt := now, locationChangedAt := some now })
            (fun _ => rfl)
          -- a root without parent reports itself as the origin
          return (m', ⟨row.parentUuid.getD u, newParent⟩)
      else .error (.notFound "group")

/-- The sibling uuids with `u` taken out and put back at `position`, clamped to the end. -/
def spliceSiblings (siblings : List Uuid) (u : Uuid) (position : Nat) : List Uuid :=
  let rest := siblings.erase u
  rest.insertIdx (min position rest.length) u

/-- `UPDATE "group" SET sort_order = i` for each sibling at index `i`. -/
def renumber : Nat → List Uuid → Mirror → Mirror
  | _, [], m => m
  | i, s :: rest, m =>
    renumber (i + 1) rest
      (m.updateGroups (fun g => g.uuid = s) (fun g => { g with sortOrder := (i : Int) })
        (fun _ => rfl) (fun _ => rfl))

def reorderGroup (u : Uuid) (position : Nat) (now : EpochMs) :
    Except EngineError (Mirror × List Uuid) :=
  match (m.groups.find? u).bind (·.parentUuid) with
  | none => .error (.notFound "group")
  | some parent =>
    let siblings := (sortRows (m.groups.rows.filter (·.parentUuid = some parent))).map (·.uuid)
    if u ∈ siblings then
      let order := spliceSiblings siblings u position
      .ok ((renumber 0 order m).updateGroups (fun g => g.uuid = u)
        (fun g => { g with modifiedAt := now }) (fun _ => rfl) (fun _ => rfl), order)
    else .error (.notFound "group")

/-- `delete_direct_child_entries`: tombstone and delete the entries directly in `g`. -/
def deleteDirectChildEntries (now : EpochMs) (g attributedParent : Uuid)
    (st : Mirror × DeleteGroupOutcome) : Mirror × DeleteGroupOutcome :=
  let children := (st.1.entries.rows.filter (·.groupUuid = g)).map (·.uuid)
  let m' := children.foldl (fun m e => m.recordTombstone e now) st.1
  (m'.deleteEntries (fun e => e.groupUuid = g),
    { st.2 with
      deletedEntries := st.2.deletedEntries ++ children.map fun e => (e, attributedParent) })

/-- `delete_group_recursive`: children first, then the entries directly in the group, then its row
and tombstone. -/
def deleteGroupRecursive (now : EpochMs) :
    Nat → Uuid → Option Uuid → Mirror × DeleteGroupOutcome →
      Except EngineError (Mirror × DeleteGroupOutcome)
  | 0, _, _, _ => .error .diverges
  | fuel + 1, u, parent, st => do
    let st ← (st.1.childGroups u).foldlM
      (fun st c => deleteGroupRecursive now fuel c (some u) st) st
    let st := deleteDirectChildEntries now u u st
    let m ← st.1.deleteGroupRow u
    return (m.recordTombstone u now,
      { st.2 with deletedGroups := st.2.deletedGroups ++ [(u, parent)] })

/-- Nothing keeps the root from being the group deleted. -/
def deleteGroup (u : Uuid) (now : EpochMs) : Except EngineError (Mirror × DeleteGroupOutcome) :=
  match m.groups.find? u with
  | none => .error (.notFound "group")
  | some row => deleteGroupRecursive now m.groups.rows.length u row.parentUuid (m, {})

/-- Deletes what is in the bin and keeps the bin; does nothing without a bin. -/
def emptyRecycleBin (now : EpochMs) : Except EngineError (Mirror × DeleteGroupOutcome) :=
  match m.recycleBinUuid with
  | none => .ok (m, {})
  | some bin => do
    let st ← (m.childGroups bin).foldlM
      (fun st c => deleteGroupRecursive now m.groups.rows.length c (some bin) st) (m, {})
    return deleteDirectChildEntries now bin bin st

/-! ## Entries -/

def deleteEntry (u : Uuid) (now : EpochMs) : Except EngineError (Mirror × Uuid) :=
  match m.entries.find? u with
  | none => .error (.notFound "entry")
  | some row => .ok ((m.deleteEntries (fun e => e.uuid = u)).recordTombstone u now, row.groupUuid)

def moveEntry (u newGroup : Uuid) (now : EpochMs) :
    Except EngineError (Mirror × MoveEntryOutcome) :=
  match m.entries.find? u with
  | none => .error (.notFound "entry")
  | some row =>
    if m.groupExists newGroup then do
      let destInBin := m.groupInBinSubtree newGroup
      let m' ← m.placeEntry u newGroup
        (fun e => { e with
          previousParentUuid := some e.groupUuid, isRecycled := destInBin
          modifiedAt := now, locationChangedAt := some now })
        (fun _ => rfl)
      return (m', ⟨row.groupUuid, newGroup⟩)
    else .error (.notFound "group")

/-- `UPDATE entry` of `recycle_entry`, into the bin. -/
def recycleInto (u bin : Uuid) (now : EpochMs) : Except EngineError Mirror :=
  m.placeEntry u bin
    (fun e => { e with
      isRecycled := true, previousParentUuid := some e.groupUuid
      modifiedAt := now, locationChangedAt := some now })
    (fun _ => rfl)

/-- Moves an entry into the bin, creating the bin when it is enabled and absent; deletes the entry
for good when the bin is disabled and absent. -/
def recycleEntry (u : Uuid) (now : EpochMs) (binUuid : Uuid) : Except EngineError Mirror :=
  match m.entries.find? u with
  | none => .error (.notFound "entry")
  | some row =>
    if m.groupInBinSubtree row.groupUuid then .ok m
    else
      match m.recycleBinUuid with
      | some bin => m.recycleInto u bin now
      | none =>
        if m.readRecycleBinEnabled then do
          let m' ← m.createRecycleBinGroup now binUuid
          m'.recycleInto u binUuid now
        else .ok ((m.deleteEntries (fun e => e.uuid = u)).recordTombstone u now)

/-- The destination of `restore_entry`: the recorded previous parent when it exists outside the
bin, else the root. -/
def restoreDestination (previous : Option Uuid) : Option Uuid :=
  match previous with
  | some prev => if m.groupExists prev && !m.groupInBinSubtree prev then some prev else m.rootUuid?
  | none => m.rootUuid?

def restoreEntry (u : Uuid) (now : EpochMs) : Except EngineError Mirror :=
  match m.entries.find? u with
  | none => .error (.notFound "entry")
  | some row =>
    if m.groupInBinSubtree row.groupUuid then
      match m.restoreDestination row.previousParentUuid with
      | none => .error (.sqlite .noRows)
      | some dest =>
        m.placeEntry u dest
          (fun e => { e with
            isRecycled := false, previousParentUuid := some e.groupUuid
            modifiedAt := now, locationChangedAt := some now })
          (fun _ => rfl)
    else if row.isRecycled then
      .ok (m.updateEntry u (fun e => { e with isRecycled := false }) (fun _ => rfl) (fun _ => rfl))
    else .ok m

end Mirror

end KeysCore
