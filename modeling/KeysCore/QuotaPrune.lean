import KeysCore.HistoryRows
import KeysCore.Lib.Greedy

/-!
# Pruning a history to its budgets

`prune_history` and `tombstone_quota_trimmed_snapshots` on what they load: the index and the JSON text of
each history row of the entry, and the entry's custom data. The size of a row is what the query reads,
`length(snapshot_json)`. The items budget is an `i32` and the size budget an `i64`, each replaced by the
largest value of its type when it is off, and the sizes are summed up to the largest `i64`.

`EntryRow.pruneHistory` is the same walk on snapshots that can all be rebuilt, with budgets that are
plain numbers.
-/

namespace KeysCore.QuotaPrune

open Lib Lib.Indexed

/-- What the prune calls: `projection::snapshot_json_to_entry`, `none` for a text it cannot rebuild, and
`keepass_merge::add_history_tombstone` on the custom data of an entry. -/
structure QuotaLib where
  snapshotJsonToEntry : String → Option EntryVersion
  addHistoryTombstone :
    List CustomDataItem → EntryVersion → TombstoneReason → DateTime →
      Except String (List CustomDataItem)

/-! ## The walk -/

/-- `i32::MAX`. -/
def i32Max : Nat := 2147483647

/-- `i64::MAX`. -/
def i64Max : Nat := 9223372036854775807

/-- `saturating_add` on sizes. -/
def saturatingAdd (a b : Nat) : Nat := min (a + b) i64Max

def itemsCap (maxItems : Int) : Nat := if maxItems < 0 then i32Max else maxItems.toNat

def sizeCap (maxSize : Int) : Nat := if maxSize < 0 then i64Max else maxSize.toNat

/-- One step of the walk: the row is kept when one more fits, with its size, in both caps. A row that
does not fit is passed over, and the walk goes on to older ones. -/
def keepRow (maxItems maxSize : Int) (state : Nat × Nat) (json : String) : Option (Nat × Nat) :=
  let nextKeptSize := saturatingAdd state.2 json.length
  if state.1 < itemsCap maxItems ∧ nextKeptSize ≤ sizeCap maxSize then
    some (state.1 + 1, nextKeptSize)
  else none

/-- The rows with whether they are kept, oldest first; the walk is from the newest on. -/
def keep (maxItems maxSize : Int) (rows : List String) : List (String × Bool) :=
  (Greedy.marks (keepRow maxItems maxSize) (0, 0) rows.reverse).reverse

/-! ## The prune -/

/-- The carrier of the tombstones the entry has. -/
def tombstoneCarrier (data : List CustomDataRow) : List CustomDataItem :=
  (data.filter (·.key = tombstoneCustomDataKey)).map fun r => ⟨r.key, r.value, none⟩

/-- The tombstone of one dropped snapshot. A text that cannot be rebuilt has no stable hash and is passed
over. -/
def tombstoneDropped (L : QuotaLib) (now : EpochMs) (items : List CustomDataItem) (json : String) :
    Except EngineError (List CustomDataItem) :=
  match L.snapshotJsonToEntry json with
  | none => .ok items
  | some record => serialised (L.addHistoryTombstone items record .quotaTrim now.toDateTime)

/-- `tombstone_quota_trimmed_snapshots`. -/
def tombstoneQuotaTrimmedSnapshots (L : QuotaLib) (now : EpochMs) (droppedJsons : List String)
    (data : List CustomDataRow) : Except EngineError (List CustomDataRow) := do
  let items ← droppedJsons.foldlM (tombstoneDropped L now) (tombstoneCarrier data)
  match items.find? (·.key = tombstoneCustomDataKey) with
  | none => return data
  | some item => return replaceCustomData data item.toRow

/-- `prune_history`. -/
def pruneHistory (L : QuotaLib) (maxItems maxSize : Int) (now : EpochMs) (rows : List (Int × String))
    (data : List CustomDataRow) : Except EngineError (List (Int × String) × List CustomDataRow) := do
  let loaded := ordered rows
  let flagged := loaded.zip ((keep maxItems maxSize (loaded.map (·.2))).map (·.2))
  let toDelete := (flagged.filter fun r => !r.2).map (·.1.1)
  if toDelete.isEmpty then return (rows, data)
  let droppedJsons := (flagged.filter fun r => !r.2).map (·.1.2)
  let data ← tombstoneQuotaTrimmedSnapshots L now droppedJsons data
  let rows := toDelete.foldl deleteAt rows
  let rows ← unlessTaken (shift? HistoryRows.shiftOffset (fun _ => true) rows)
  let survivors := (flagged.filter (·.2)).map (·.1.1 + HistoryRows.shiftOffset)
  let rows ← unlessTaken (((numbered 0 survivors).map Prod.swap).foldlM move? rows)
  return (rows, data)

end KeysCore.QuotaPrune
