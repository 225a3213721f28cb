import KeysCore.EntryMutations

/-!
# `Engine::delete_history_at`, step by step

The call projects the vault, constructs the tombstone of the record it finds at the index, writes the
tombstone list with a statement of its own, and deletes the row at the index in a transaction. Between
these other connections may commit, and the call may fail at any of its stages: what it committed before
stays. `Mirror.deleteHistoryAt` is the call that runs alone.

Of the projection only the reads of the entry's history matter here; they are one statement, and the
mirror the call starts from is the one they see.
-/

namespace KeysCore

/-- The stages of a call, each of which may fail. -/
inductive DeleteStage where
  | projection
  | construction
  | tombstoneWrite
  | rowDelete
  | renumbering
deriving DecidableEq

/-- What a call runs among: what other connections commit after its projection and after the write of
its tombstone, and the stage at which the store or the library fails, with the error. -/
structure DeleteSurroundings where
  afterProjection : Mirror → Mirror := id
  afterTombstone : Mirror → Mirror := id
  failsAt : Option (DeleteStage × EngineError) := none

/-- A stage that fails if it is to. -/
def DeleteSurroundings.attempt {α : Type} (w : DeleteSurroundings) (stage : DeleteStage)
    (x : Except EngineError α) : Except EngineError α :=
  match w.failsAt with
  | none => x
  | some (s, e) => if s = stage then .error e else x

/-- The mirror a call leaves, and what it returns. `commits` are the transactions of the call itself, each
as the mirror it found and the one it left; they are no data of the source. -/
structure DeleteOutcome where
  mirror : Mirror
  result : Except EngineError Unit
  commits : List (Mirror × Mirror) := []

namespace Mirror

variable (m : Mirror)

/-- The snapshot of `u` at an index. -/
def snapshotAt (u : Uuid) (index : Nat) : Option HistorySnapshot :=
  (m.entries.find? u).bind (·.history[index]?)

/-- `INSERT OR REPLACE INTO entry_custom_data` of the tombstone list, when there is one. -/
def storeHistoryTombstone (u : Uuid) (data : List CustomDataItem) : Except EngineError Mirror :=
  if data.any (·.key = tombstoneCustomDataKey) then
    match m.entries.find? u with
    | none => .error (.sqlite .constraintForeignKey)
    | some row => .ok (m.putEntryRow u (row.storeTombstones data))
  else .ok m

/-- `mutations::delete_history_at`. -/
def deleteHistoryRow (u : Uuid) (index : Nat) : Except EngineError Mirror :=
  match m.entries.find? u with
  | none => .error (.notFound "entry")
  | some row =>
    if index < row.history.length then
      .ok (m.putEntryRow u { row with history := row.history.eraseIdx index })
    else .error (.notFound "history_snapshot")

end Mirror

section Call

variable (w : DeleteSurroundings) (H : HistoryLib) (u : Uuid) (index : Nat) (now : EpochMs)

/-- The tombstone list with the record at the index, constructed from a projection. -/
def constructTombstone (m : Mirror) : Except EngineError (List CustomDataItem) := do
  let vault ← w.attempt .projection m.project
  match vault.entries.find? (·.id = u) with
  | none => .error (.notFound "entry")
  | some entry =>
    match entry.history[index]? with
    | none => .error (.notFound "history_snapshot")
    | some record =>
      w.attempt .construction
        (serialised (H.addHistoryTombstone entry.customData record .userDelete now.toDateTime))

/-- The transaction that deletes the row, after the ones in `commits`. -/
def removeRow (m : Mirror) (commits : List (Mirror × Mirror)) : DeleteOutcome :=
  match w.attempt .rowDelete (w.attempt .renumbering (m.deleteHistoryRow u index)) with
  | .error e => { mirror := m, result := .error e, commits }
  | .ok m' => { mirror := m', result := .ok (), commits := commits ++ [(m, m')] }

/-- `Engine::delete_history_at` among other connections. -/
def deleteHistoryAtAmong (m : Mirror) : DeleteOutcome :=
  match constructTombstone w H u index now m with
  | .error e => { mirror := m, result := .error e }
  | .ok data =>
    let m₁ := w.afterProjection m
    match w.attempt .tombstoneWrite (m₁.storeHistoryTombstone u data) with
    | .error e => { mirror := m₁, result := .error e }
    | .ok m₂ =>
      -- without a tombstone list to store, nothing is written
      let commits := if data.any (·.key = tombstoneCustomDataKey) then [(m₁, m₂)] else []
      removeRow w u index (w.afterTombstone m₂) commits

end Call

end KeysCore
