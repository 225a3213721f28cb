import Mathlib.Data.List.Range

/-!
# The vault file and the watermark

How the engine keeps track of the vault file, step by step: the operations that write it (`save` and
its re-key, `adopt_peer_kdf`) or read it (`ingest_from_kdbx` followed by
`record_ingested_kdbx_signature`, and the disk reconcile with its settle), each as the sequence of
its accesses to the file and of its transactions on the mirror. Between two steps other writers may
rename a new file over the path and other connections may commit content writes. An operation may
fail at any step; what it committed before stays.

File versions are numbered in the order they appear at the path. The content write that advances
`mutation_seq` to `i` is write `i`. Two history variables record what the guarantees are about:
`known`, the versions whose bytes the engine itself wrote or read, and `persisted`, the writes that
are in a file it saved or came from the file.
-/

namespace KeysCore

/-- `KdbxStateSignature`: what a stat of a file shows. -/
structure KdbxStateSignature where
  mtimeMs : Int
  byteCount : Nat
deriving DecidableEq

/-! ## Program points -/

/-- The operations that read the vault file. A reconcile remembers whether the mirror was dirty when
it began. -/
inductive Reader where
  | ingest
  | reconcile (wasDirty : Bool)
deriving DecidableEq

/-- Where the engine stands in the operation it is running. The points of a save carry `adopt`, true
when `adopt_peer_kdf` called it, and the `seq_at_start` of its step 0. -/
inductive EnginePoint where
  | idle
  /-- A reconcile has read whether the mirror is dirty. -/
  | probed (wasDirty : Bool)
  /-- `read_file`: the file is open. -/
  | opened (by_ : Reader) (version : Nat)
  /-- `read_file`: the handle is stat'ed, nothing is read. -/
  | stated (by_ : Reader) (version : Nat) (sig : KdbxStateSignature)
  /-- `read_file` has returned. -/
  | loaded (by_ : Reader) (sig : KdbxStateSignature)
  /-- The ingest of the bytes has committed; `own` are its content writes. -/
  | merged (by_ : Reader) (sig : KdbxStateSignature) (own : List Nat) (inSync : Bool)
  /-- A reconcile has refreshed the outer-header facts. -/
  | refreshed (wasDirty : Bool) (sig : KdbxStateSignature) (own : List Nat) (inSync : Bool)
  /-- `record_kdbx_state_signature` has read `mutation_seq`. -/
  | settling (sig : KdbxStateSignature) (own : List Nat) (seq : Nat)
  /-- `adopt_peer_kdf`: the peer's header is read. -/
  | adopting
  /-- The vault file was current before the key derivation. -/
  | checked
  /-- It was current after it. -/
  | rechecked
  /-- The peer is merged into the mirror. -/
  | adopted
  | saving (adopt : Bool) (seqAtStart : Nat)
  /-- Projected and serialised. -/
  | projected (adopt : Bool) (seqAtStart : Nat)
  /-- `write_atomically` has renamed the new file over the path. -/
  | renamed (adopt : Bool) (seqAtStart : Nat)
  /-- `atomic_write` has stat'ed the path for the self-write signature. -/
  | selfStated (adopt : Bool) (seqAtStart : Nat)
  /-- Step 6 has stat'ed the path. -/
  | pathStated (adopt : Bool) (seqAtStart : Nat) (sig : KdbxStateSignature)
  /-- `adopt_peer_kdf`: the save has returned. -/
  | saved
  /-- The header facts of the adopted envelope are written. -/
  | factsWritten
  /-- `settled` is read. -/
  | settled (seq : Nat)
  /-- The path is stat'ed once more. -/
  | adoptStated (seq : Nat) (sig : KdbxStateSignature)
deriving DecidableEq

/-! ## States -/

structure Persistence where
  /-- The version at the path. -/
  atPath : Nat
  /-- The number of versions so far. -/
  versions : Nat
  mutationSeq : Nat := 0
  persistedSeq : Nat := 0
  /-- The recorded `KdbxStateSignature`. -/
  recorded : Option KdbxStateSignature := none
  point : EnginePoint := .idle
  known : List Nat := []
  persisted : List Nat := []
deriving DecidableEq

namespace Persistence

/-- A mirror just created beside a vault file. -/
def fresh : Persistence where
  atPath := 0
  versions := 1

variable (s : Persistence)

def isDirty : Bool := s.persistedSeq < s.mutationSeq

/-- The next `n` content writes. -/
def nextWrites (n : Nat) : List Nat := List.range' (s.mutationSeq + 1) n

/-- `n` content rows written and committed. -/
def write (n : Nat) : Persistence := { s with mutationSeq := s.mutationSeq + n }

/-- A file renamed over the path. -/
def rename : Persistence := { s with atPath := s.versions, versions := s.versions + 1 }

/-- The operation goes on to `p`. -/
def goto (p : EnginePoint) : Persistence := { s with point := p }

/-- The transaction of `record_kdbx_correspondence`. -/
def recordCorrespondence (sig : KdbxStateSignature) (seq : Nat) : Persistence :=
  { s with recorded := some sig, persistedSeq := seq }

end Persistence

/-! ## Steps -/

/-- What can happen next: another writer replaces the file, another connection commits `rows`
content writes, the engine begins an operation, takes its next step, or returns from it early. An
ingest writes `rows` rows; `inSync` is the outcome its settling depends on (no identity stamped, or
the merge equal to the file). -/
inductive PersistAction where
  | replace
  | mutate (rows : Nat)
  | beginSave
  | beginIngest
  | beginReconcile
  | beginAdopt
  | next (rows : Nat) (inSync : Bool)
  | fail
deriving DecidableEq

section Step

variable (sigOf : Nat → KdbxStateSignature)

/-- `ensure_vault_file_current`: the recorded signature is that of the file at the path. -/
def vaultFileCurrent (s : Persistence) : Bool := s.recorded = some (sigOf s.atPath)

/-- The next step of the running operation. -/
def engineStep (s : Persistence) (rows : Nat) (inSync : Bool) : Option Persistence :=
  match s.point with
  | .idle => none
  | .probed d => some (s.goto (.opened (.reconcile d) s.atPath))
  | .opened r v => some (s.goto (.stated r v (sigOf v)))
  | .stated r v sig => some { s with point := .loaded r sig, known := v :: s.known }
  -- `ingest_vault_with_header`: refused while dirty; replaces the mirror and settles in one
  -- transaction
  | .loaded .ingest sig =>
    if s.isDirty then none
    else
      let own := s.nextWrites rows
      let s' := (s.write rows).goto (.merged .ingest sig own inSync)
      if inSync then
        some { s' with persistedSeq := s'.mutationSeq, persisted := own ++ s.persisted }
      else some s'
  | .loaded (.reconcile d) sig =>
    some ((s.write rows).goto (.merged (.reconcile d) sig (s.nextWrites rows) inSync))
  -- `record_ingested_kdbx_signature` leaves the watermark alone
  | .merged .ingest sig _ _ => some { s with recorded := some sig, point := .idle }
  | .merged (.reconcile d) sig own eq =>
    some ((s.write rows).goto (.refreshed d sig (own ++ s.nextWrites rows) eq))
  | .refreshed d sig own eq =>
    if !d && eq then some (s.goto (.settling sig own s.mutationSeq)) else some (s.goto .idle)
  | .settling sig own seq =>
    some { s.recordCorrespondence sig seq with point := .idle, persisted := own ++ s.persisted }
  | .adopting => if vaultFileCurrent sigOf s then some (s.goto .checked) else none
  | .checked => if vaultFileCurrent sigOf s then some (s.goto .rechecked) else none
  | .rechecked => some ((s.write rows).goto .adopted)
  | .adopted => some (s.goto (.saving true s.mutationSeq))
  | .saving a seq => some (s.goto (.projected a seq))
  -- the file holds at least what was committed before step 0
  | .projected a seq =>
    some { s.rename with
      point := .renamed a seq
      known := s.versions :: s.known
      persisted := List.range' 1 seq ++ s.persisted }
  | .renamed a seq => some (s.goto (.selfStated a seq))
  | .selfStated a seq => some (s.goto (.pathStated a seq (sigOf s.atPath)))
  | .pathStated a seq sig =>
    some ((s.recordCorrespondence sig seq).goto (if a then .saved else .idle))
  -- the facts describe the envelope of the file just written
  | .saved =>
    some { (s.write rows).goto .factsWritten with persisted := s.nextWrites rows ++ s.persisted }
  | .factsWritten => some (s.goto (.settled s.mutationSeq))
  | .settled seq => some (s.goto (.adoptStated seq (sigOf s.atPath)))
  | .adoptStated seq sig => some ((s.recordCorrespondence sig seq).goto .idle)

/-- Begins an operation when none is running. -/
def beginAt (s : Persistence) (p : EnginePoint) : Option Persistence :=
  if s.point = .idle then some (s.goto p) else none

def persistStep (s : Persistence) : PersistAction → Option Persistence
  | .replace => some s.rename
  | .mutate rows => some (s.write rows)
  | .beginSave => beginAt s (.saving false s.mutationSeq)
  | .beginIngest => beginAt s (.opened .ingest s.atPath)
  | .beginReconcile => beginAt s (.probed s.isDirty)
  | .beginAdopt => beginAt s .adopting
  | .next rows inSync => engineStep sigOf s rows inSync
  | .fail => some (s.goto .idle)

/-- `t` is reached from `s` by steps that `allowed` admits in the state each starts from. -/
inductive PersistRun (allowed : Persistence → PersistAction → Prop) :
    Persistence → Persistence → Prop where
  | refl (s : Persistence) : PersistRun allowed s s
  | step {s t u : Persistence} {a : PersistAction} :
      PersistRun allowed s t → allowed t a → persistStep sigOf t a = some u →
      PersistRun allowed s u

end Step

end KeysCore
