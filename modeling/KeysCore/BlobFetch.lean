import Mathlib.Data.List.Basic

/-!
# Fetching a blob

`fetch_blob_with_deadline` of the sync node: a loop that reads the blob's status, asks the doc's peers
for a blob the doc's own download lost, and waits for the next event of the doc. The statuses, the
clock readings and the answers of the doc come from outside: a `FetchRound` is what one iteration
reads, and `FetchCall.run` is the loop over a sequence of rounds.

Instants and delays are in milliseconds.
-/

namespace KeysCore

/-- `FETCH_BLOB_DEADLINE`. -/
def fetchBlobDeadline : Nat := 60000

/-- `FETCH_BLOB_STATUS_BACKSTOP`. -/
def fetchBlobStatusBackstop : Nat := 2000

/-- `MISSING_BLOB_REQUEST_INTERVAL`. -/
def missingBlobRequestInterval : Nat := 5000

/-- What the blob store holds under a hash. An unfinished blob has a size from its last chunk on. -/
inductive BlobStatus where
  | notFound
  | unfinished (size : Option Nat)
  | complete (size : Nat)
deriving DecidableEq

def BlobStatus.isComplete : BlobStatus → Bool
  | .complete _ => true
  | _ => false

/-- A failed call, with what its message prints besides the hash and the doc. -/
inductive FetchBlobError where
  /-- A call of the stores that failed, under its context. -/
  | store (context cause : String)
  | validatedTooLarge (validatedSize maxSizeBytes : Nat)
  | completedTooLarge (size maxSizeBytes : Nat)
  | deadline (deadline : Nat) (status : BlobStatus)
  | eventStreamEnded
deriving DecidableEq

/-! ## The doc's peers -/

section

variable {Hash PublicKey : Type}

structure DocEntry (Hash : Type) where
  key : List UInt8
  contentHash : Hash

/-- What the doc answers when it is asked for the providers of a blob: what its download policy admits,
its entries as they stream in, and the peers it syncs with. -/
structure DocReads (Hash : Type) where
  downloadPolicy : Except String (DocEntry Hash → Bool)
  getMany : Except String (List (Except String (DocEntry Hash)))
  getSyncPeers : Except String (Option (List (List UInt8)))

variable [DecidableEq Hash]

/-- The search for an admitted entry, up to the first one. -/
def findAdmitted (policy : DocEntry Hash → Bool) (hash : Hash) :
    List (Except String (DocEntry Hash)) → Except FetchBlobError Bool
  | [] => .ok false
  | .error cause :: _ => .error (.store "entry stream item" cause)
  | .ok entry :: rest =>
    if entry.contentHash = hash ∧ policy entry then .ok true else findAdmitted policy hash rest

/-- What a failed call of the stores is reported as. -/
def withContext {α : Type} (context : String) : Except String α → Except FetchBlobError α
  | .ok a => .ok a
  | .error cause => .error (.store context cause)

/-- `admitted_providers`: `fromBytes` is `PublicKey::from_bytes`. -/
def admittedProviders (fromBytes : List UInt8 → Option PublicKey) (doc : DocReads Hash) (hash : Hash) :
    Except FetchBlobError (List PublicKey) := do
  let policy ← withContext "download policy" doc.downloadPolicy
  let entries ← withContext "get_many" doc.getMany
  let admitted ← findAdmitted policy hash entries
  if admitted then
    let peers ← withContext "sync peers" doc.getSyncPeers
    return (peers.getD []).filterMap fromBytes
  else return []

/-- `request_missing_blob`: the peers of the transfer it starts. -/
def requestMissingBlob (fromBytes : List UInt8 → Option PublicKey) (doc : DocReads Hash) (hash : Hash) :
    Option (List PublicKey) :=
  match admittedProviders fromBytes doc hash with
  | .ok [] => none
  | .ok providers => some providers
  | .error _ => none

/-! ## The loop -/

/-- What ends a wait: an item of the event stream, the timer, or the end of the stream. -/
inductive FetchWake where
  | event
  | elapsed
  | streamEnded
deriving DecidableEq

/-- What one iteration reads. -/
structure FetchRound (Hash : Type) where
  status : Except String BlobStatus
  /-- Whether the transfer the call started last is over. -/
  transferFinished : Bool
  /-- The clock when a request is considered, and when the next one is scheduled. -/
  checkedAt : Nat
  requestedAt : Nat
  doc : DocReads Hash
  /-- The clock at the check of the deadline, at the start of the wait and at its end. -/
  deadlineReadAt : Nat
  waitFrom : Nat
  wake : FetchWake
  wokenAt : Nat

/-- The arguments of a call. -/
structure FetchCall (Hash PublicKey : Type) where
  hash : Hash
  maxSizeBytes : Nat
  deadline : Nat := fetchBlobDeadline
  startedAt : Nat
  fromBytes : List UInt8 → Option PublicKey

/-- The variables of the loop: the transfer the call started last, by its peers. -/
structure FetchLoop (PublicKey : Type) where
  requested : Option (List PublicKey) := none
  nextRequestAt : Nat

/-- Whether an iteration asks the peers. -/
def FetchLoop.asks (s : FetchLoop PublicKey) (r : FetchRound Hash) : Bool :=
  match r.status with
  | .ok status =>
    !status.isComplete && !(s.requested.isSome && !r.transferFinished) &&
      decide (s.nextRequestAt ≤ r.checkedAt)
  | .error _ => false

/-- What came of some iterations: those that asked the peers, and the result of the loop if it ended. -/
structure FetchOutcome (Hash : Type) where
  asked : List (FetchRound Hash)
  result : Option (Except FetchBlobError Unit)

namespace FetchCall

variable (c : FetchCall Hash PublicKey)

def deadlineAt : Nat := c.startedAt + c.deadline

/-- The loop before its first iteration. -/
def init : FetchLoop PublicKey := { nextRequestAt := c.startedAt + missingBlobRequestInterval }

/-- The loop once the iteration has asked, if it does. -/
def request (s : FetchLoop PublicKey) (r : FetchRound Hash) : FetchLoop PublicKey :=
  if s.asks r then
    { requested := requestMissingBlob c.fromBytes r.doc c.hash
      nextRequestAt := r.requestedAt + missingBlobRequestInterval }
  else s

/-- Whether a size is over the cap; there is none at zero. -/
def tooLarge (size : Nat) : Bool := decide (0 < c.maxSizeBytes) && decide (c.maxSizeBytes < size)

/-- What the status decides. -/
def judge : BlobStatus → Option (Except FetchBlobError Unit)
  | .unfinished (some validatedSize) =>
    if c.tooLarge validatedSize then some (.error (.validatedTooLarge validatedSize c.maxSizeBytes))
    else none
  | .complete size =>
    if c.tooLarge size then some (.error (.completedTooLarge size c.maxSizeBytes)) else some (.ok ())
  | _ => none

/-- What an iteration ends the loop with, if it does: a failed read, the status, then the deadline, then
the end of the event stream. -/
def decision (r : FetchRound Hash) : Option (Except FetchBlobError Unit) :=
  match r.status with
  | .error cause => some (.error (.store "blob status" cause))
  | .ok status =>
    match c.judge status with
    | some result => some result
    | none =>
      if c.deadlineAt ≤ r.deadlineReadAt then some (.error (.deadline c.deadline status))
      else if r.wake = .streamEnded then some (.error .eventStreamEnded)
      else none

/-- The instant the wait is bounded by. -/
def wakeBy (r : FetchRound Hash) : Nat := min (r.waitFrom + fetchBlobStatusBackstop) c.deadlineAt

/-- The loop over the rounds `rs`. What is queued when an event comes is drained unseen, so an iteration
is one wake-up however many events it stands for. -/
def loop : FetchLoop PublicKey → List (FetchRound Hash) → FetchOutcome Hash
  | _, [] => ⟨[], none⟩
  | s, r :: rs =>
    let asked := if s.asks r then [r] else []
    match c.decision r with
    | some result => ⟨asked, some result⟩
    | none =>
      let rest := loop (c.request s r) rs
      ⟨asked ++ rest.asked, rest.result⟩

/-- `fetch_blob_with_deadline` on a joined doc, over the rounds `rs`: `none` while it waits. `getBytes`
is what the store reads once the loop is left. -/
def fetchBlobWithDeadline (rs : List (FetchRound Hash)) (getBytes : Except String (List UInt8)) :
    Option (Except FetchBlobError (List UInt8)) :=
  (c.loop c.init rs).result.map fun result => do
    result
    withContext "read complete blob" getBytes

end FetchCall

end

end KeysCore
