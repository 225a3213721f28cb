import KeysCore.ConflictRows

/-!
# Settling and resolving parked conflicts

`settle_entry_rows` drops the rows of an entry that have dissolved, lands at most one adopted merge
and starts over on the mirror that leaves; `reconcile_conflict_rows` runs it after an edit of an
entry, `reconcile_all_conflict_rows` after a pull. `held_conflict_payload` settles an entry and
stashes the merge of its first remaining owner; `apply_conflict_resolution` lands the user's choice
and drops the rows of the entries it names.

Each pass of the loop that goes on drops a row, so its fuel is the number of owners.
-/

namespace KeysCore

open Lib

/-! ## Dissolving -/

/-- What `dissolve_decision` decides for one entry. -/
inductive DissolveDecision where
  | dropAll
  | settle (dropped : List String) (adopt : Option (String × Vault))

/-- The loop of `dissolve_decision` over the owners: the rows found dissolved so far, up to the first
row whose merge is to be adopted. -/
def dissolveOwners (L : VaultMergeLib) (m : Mirror) (localVault : Vault) (localEntry : Entry)
    (u : Uuid) : List String → List String → Except EngineError DissolveDecision
  | dropped, [] => .ok (.settle dropped none)
  | dropped, owner :: owners => do
    match ← dissolveRow L m localVault localEntry owner u with
    | .live => dissolveOwners L m localVault localEntry u dropped owners
    | .dropped => dissolveOwners L m localVault localEntry u (dropped ++ [owner]) owners
    | .adopt merged => return .settle dropped (some (owner, merged))

def dissolveDecision (L : VaultMergeLib) (m : Mirror) (localVault : Vault) (u : Uuid)
    (owners : List String) : Except EngineError DissolveDecision :=
  match localVault.root.findEntry u with
  | none => .ok .dropAll
  | some localEntry => dissolveOwners L m localVault localEntry u [] owners

/-- The rows of `u` from each of `owners` dropped. -/
def Mirror.dropConflictOwners (m : Mirror) (u : Uuid) (owners : List String) : Mirror :=
  owners.foldl (fun m o => m.dropConflictRow o u) m

/-- `apply_dissolve`, with whether a merge was landed. The landing has no guard. -/
def applyDissolve (u : Uuid) (m : Mirror) :
    DissolveDecision → Except EngineError (Mirror × Bool)
  | .dropAll => .ok (m.dropConflictRows u, false)
  | .settle dropped none => .ok (m.dropConflictOwners u dropped, false)
  | .settle dropped (some (owner, merged)) => do
    let m ← ingestVault merged (m.dropConflictOwners u dropped)
    return (m.dropConflictRow owner u, true)

/-- The loop of `settle_entry_rows` over the mirror and its projection. -/
def settleLoop (L : VaultMergeLib) (u : Uuid) :
    Nat → Mirror × Vault × Bool → Except EngineError (Mirror × Vault × Bool)
  | 0, _ => .error .diverges
  | fuel + 1, (m, localVault, adopted) =>
    let owners := m.conflictOwnersFor u
    if owners.isEmpty then .ok (m, localVault, adopted)
    else do
      let decision ← dissolveDecision L m localVault u owners
      let (m, landed) ← applyDissolve u m decision
      if landed then
        let localVault ← m.project
        settleLoop L u fuel (m, localVault, true)
      else return (m, localVault, adopted)

/-- `settle_entry_rows`. -/
def settleEntryRows (L : VaultMergeLib) (u : Uuid) (m : Mirror) (localVault : Vault) :
    Except EngineError (Mirror × Vault × Bool) :=
  settleLoop L u ((m.conflictOwnersFor u).length + 1) (m, localVault, false)

/-- `reconcile_conflict_rows`. -/
def reconcileConflictRows (L : VaultMergeLib) (u : Uuid) (m : Mirror) : Except EngineError Mirror :=
  if (m.conflictOwnersFor u).isEmpty then .ok m
  else do
    let localVault ← m.project
    let (m, _, _) ← settleEntryRows L u m localVault
    return m

/-- The sweep over the parked entries, with those a merge was landed for. -/
def sweepRows (L : VaultMergeLib) :
    List Uuid → Mirror × Vault × List Uuid → Except EngineError (Mirror × Vault × List Uuid)
  | [], st => .ok st
  | u :: parked, (m, localVault, adopted) => do
    let (m, localVault, landed) ← settleEntryRows L u m localVault
    sweepRows L parked (m, localVault, if landed then adopted ++ [u] else adopted)

/-- `reconcile_all_conflict_rows`. -/
def reconcileAllConflictRows (L : VaultMergeLib) (m : Mirror) :
    Except EngineError (Mirror × List Uuid) :=
  if m.parkedConflictUuids.isEmpty then .ok (m, [])
  else do
    let localVault ← m.project
    let (m, _, adopted) ← sweepRows L m.parkedConflictUuids (m, localVault, [])
    return (m, adopted)

/-! ## Resolving -/

/-- The rows of every entry a resolution names dropped, whoever owns them. -/
def Mirror.dropResolvedRows (m : Mirror) (r : Resolution) : Mirror :=
  r.entries.foldl Mirror.dropConflictRows m

/-- `apply_conflict_resolution` on the stashed context. -/
def applyConflictResolution {L : VaultMergeLib} (ctx : PendingConflictContext L) (r : Resolution)
    (now : DateTime) (m : Mirror) : Except EngineError Mirror := do
  let vault ← ctx.resolved r now
  let m ← ingestProjectedVault vault ctx.projectedAtSeq m
  return m.dropResolvedRows r

end KeysCore
