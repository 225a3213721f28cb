import KeysCore.EntryReads
import KeysCore.Search

/-!
# Reading the group tree

`group_tree`: every group row in one flat list, the root first and siblings in the order of
`reorder_group` and the projection. A client rebuilds the tree from the parents. Both counters are
`u32`, and a column that does not fit fails the read.
-/

namespace KeysCore

structure GroupNode where
  uuid : Uuid
  parentUuid : Option Uuid
  name : String
  icon : IconRef
  /-- The entries directly in the group, those in the bin included. -/
  entryCountDirect : UInt32
  isRecycleBin : Bool
  sortOrder : UInt32
deriving DecidableEq

/-- `u32_from_db_column`. -/
def u32FromDbColumn (value : Int) (column : String) : Except EngineError UInt32 :=
  if 0 ≤ value ∧ value < 2 ^ 32 then .ok (UInt32.ofNat value.toNat)
  else .error (.sqlite (.integralValueOutOfRange column))

namespace Mirror

variable (m : Mirror)

/-- `ORDER BY (parent_uuid IS NOT NULL), sort_order, name, uuid`. -/
def treeKey (g : GroupRow) : Bool ×ₗ Int ×ₗ String ×ₗ Uuid :=
  toLex (g.parentUuid.isSome, siblingKey g)

/-- A row of `group_tree`. -/
def groupNode (g : GroupRow) : Except EngineError GroupNode := do
  let sortOrder ← u32FromDbColumn g.sortOrder "sort_order"
  let entryCountDirect ← u32FromDbColumn (m.entryCount (some g.uuid)) "entry_count_direct"
  return {
    uuid := g.uuid
    parentUuid := g.parentUuid
    name := g.name
    icon := iconRefFrom g.iconIndex g.iconCustomUuid
    entryCountDirect := entryCountDirect
    isRecycleBin := g.isRecycleBin
    sortOrder := sortOrder }

/-- `group_tree`. -/
def groupTree : Except EngineError (List GroupNode) :=
  (m.groups.rows.insertionSort fun a b => treeKey a ≤ treeKey b).mapM m.groupNode

end Mirror

end KeysCore
