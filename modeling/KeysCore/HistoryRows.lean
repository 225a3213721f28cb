import KeysCore.EntryMutations
import KeysCore.Lib.Indexed

/-!
# The rows of `entry_history`

The history of an entry is the list of its snapshots in the model of the mirror. In the store it is rows
of `entry_history` under the primary key `(entry_uuid, history_index)`: the projection reads them in the
order of the index, and the operations on one snapshot find it by its index. The functions here are the
statements of the writers on the rows of one entry. An `UPDATE` of several rows finds them through the
index of the primary key, in ascending order.
-/

namespace KeysCore

open Lib Lib.Indexed

/-- The rows of one entry: an index and a snapshot each. -/
abbrev HistoryRows := List (Int × HistorySnapshot)

/-- The rows by entry. -/
abbrev HistoryTable := Uuid → HistoryRows

/-- The result of a statement that the primary key may refuse. -/
def unlessTaken {α : Type} : Option α → Except EngineError α
  | none => .error (.sqlite .constraintPrimaryKey)
  | some a => .ok a

namespace HistoryRows

/-- `insert_history_snapshot` for each of `history`, at its position in the list. -/
def insertSnapshots (rows : HistoryRows) (history : List EntryVersion) :
    Except EngineError HistoryRows :=
  (numbered 0 (history.map HistorySnapshot.fromEntry)).foldlM (fun rows r => unlessTaken (insert? rows r))
    rows

/-- `rewrite_entry_history`. -/
def rewriteEntryHistory (history : List EntryVersion) : Except EngineError HistoryRows :=
  insertSnapshots [] history

/-- The large offset of the two-step renumbering. -/
def shiftOffset : Int := 1000000000

/-- `prune_history`: the rows over budget are deleted, the others moved out of the way and then back,
one by one, to dense indices. -/
def pruneHistory (H : HistoryLib) (s : Settings) (rows : HistoryRows) :
    Except EngineError HistoryRows := do
  let loaded := ordered rows
  let keep := loaded.zip ((EntryRow.budgeted H s (loaded.map (·.2))).map (·.2))
  let toDelete := (keep.filter fun r => !r.2).map (·.1.1)
  if toDelete.isEmpty then return rows
  let rows := toDelete.foldl deleteAt rows
  let rows ← unlessTaken (shift? shiftOffset (fun _ => true) rows)
  let survivors := (keep.filter (·.2)).map (·.1.1 + shiftOffset)
  unlessTaken (((numbered 0 survivors).map Prod.swap).foldlM move? rows)

/-- `archive_snapshot`. -/
def archiveSnapshot (H : HistoryLib) (s : Settings) (snap : HistorySnapshot) (rows : HistoryRows) :
    Except EngineError HistoryRows := do
  let rows ← unlessTaken (insert? rows (nextIndex rows, snap))
  pruneHistory H s rows

/-- `delete_history_at`, of `mutations.rs`. -/
def deleteHistoryAt (index : Nat) (rows : HistoryRows) : Except EngineError HistoryRows :=
  if (index : Int) ∈ indices rows then
    unlessTaken (shift? (-1) (fun i => (index : Int) < i) (deleteAt rows index))
  else .error (.notFound "history_snapshot")

/-- The rows of `restore_entry_from_history`: the live state goes to the next index, and over
`history_max_items` the rows with the lowest indices go. -/
def restoreEntryFromHistory (maxItems : Int) (snap : HistorySnapshot) (rows : HistoryRows) :
    Except EngineError HistoryRows := do
  let rows ← unlessTaken (insert? rows (nextIndex rows, snap))
  match EntryRow.budget maxItems with
  | none => return rows
  | some cap =>
    if rows.length ≤ cap then return rows
    let toDrop := rows.length - cap
    let lowest := indices ((ordered rows).take toDrop)
    unlessTaken (shift? (-toDrop) (fun _ => true) (rows.filter (·.1 ∉ lowest)))

end HistoryRows

/-- `ON DELETE CASCADE`: no rows without their entry. -/
def Mirror.cascadeHistory (m : Mirror) (T : HistoryTable) : HistoryTable :=
  fun u => if m.entryExists u then T u else []

/-- A full ingest: the table is cleared and every entry's history inserted. -/
def ingestHistory (vault : Vault) : Except EngineError HistoryTable :=
  (vault.root.placed vault.metadata.recycleBinUuid false).foldlM
    (fun T p => do
      let rows ← HistoryRows.insertSnapshots (T p.1.id) p.1.history
      return Function.update T p.1.id rows)
    fun _ => []

end KeysCore
