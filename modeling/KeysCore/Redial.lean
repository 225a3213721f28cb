import Mathlib.Data.Finset.Basic

/-!
# Re-dialling peers

`watch_redial` of the sync node: one task per joined doc that re-runs `start_sync` while the doc owes
a peer a round. The task is a loop around a `select!` with three ready branches: an event of the doc,
a peer the caller forgets, and the re-dial timer. `RedialLoop.step` is one iteration, whichever branch
is taken; the end of the event stream ends the loop.

Instants and delays are in milliseconds. A peer's `PublicKey` is any type with decidable equality.
-/

namespace KeysCore

/-- Who dialled a round: `Origin::Connect` is the own node. -/
inductive SyncOrigin where
  | connect
  | accept
deriving DecidableEq

/-- `REDIAL_BACKOFF`. -/
def redialBackoff : List Nat := [5000, 15000, 60000]

/-- `REDIAL_STEADY_INTERVAL`. -/
def redialSteadyInterval : Nat := 300000

def redialDelay (attempt : Nat) : Nat := redialBackoff[attempt]?.getD redialSteadyInterval

/-! ## Peers -/

section

variable {PublicKey : Type} [DecidableEq PublicKey]

/-- The peers the doc owes a round, and the peers the caller told it to stop re-dialling. -/
structure RedialSet (PublicKey : Type) [DecidableEq PublicKey] where
  owed : Finset PublicKey := ∅
  forgotten : Finset PublicKey := ∅

namespace RedialSet

variable (s : RedialSet PublicKey)

/-- A finished round, and whether it leaves the peer owed. -/
def recordRound (peer : PublicKey) (origin : SyncOrigin) (succeeded : Bool) :
    RedialSet PublicKey × Bool :=
  if succeeded then (⟨s.owed.erase peer, s.forgotten.erase peer⟩, false)
  else
    match origin with
    | .connect =>
      if peer ∈ s.forgotten then (s, false) else ({ s with owed := insert peer s.owed }, true)
    | .accept => (s, false)

def forget (peer : PublicKey) : RedialSet PublicKey :=
  ⟨s.owed.erase peer, insert peer s.forgotten⟩

end RedialSet

/-! ## The loop -/

/-- The variables of the loop. -/
structure RedialLoop (PublicKey : Type) [DecidableEq PublicKey] where
  peers : RedialSet PublicKey := {}
  attempt : Nat := 0
  nextRedial : Option Nat := none

/-- What an iteration wakes up to. -/
inductive RedialEvent (PublicKey : Type) where
  | syncFinished (peer : PublicKey) (origin : SyncOrigin) (succeeded : Bool)
  /-- Another event of the doc, or one that did not decode. -/
  | otherEvent
  | forgotten (peer : PublicKey)
  | redialDue
deriving DecidableEq

namespace RedialLoop

variable (s : RedialLoop PublicKey)

/-- The end of an iteration: the schedule starts over once nothing is owed. -/
def settle : RedialLoop PublicKey :=
  if s.peers.owed = ∅ then { s with attempt := 0, nextRedial := none } else s

/-- The branch of the `select!` for `e`, with the peers it hands to `start_sync`. The timer branch is
ready from its instant on, and never without one. -/
def branch (now : Nat) :
    RedialEvent PublicKey → Option (RedialLoop PublicKey × Option (Finset PublicKey))
  | .syncFinished peer origin succeeded =>
    let (peers, owes) := s.peers.recordRound peer origin succeeded
    some ({ s with
      peers := peers
      nextRedial := if owes then some (now + redialDelay s.attempt) else s.nextRedial }, none)
  | .otherEvent => some (s, none)
  | .forgotten peer => some ({ s with peers := s.peers.forget peer }, none)
  | .redialDue =>
    match s.nextRedial with
    | none => none
    | some due =>
      if due ≤ now then
        some ({ s with
          attempt := s.attempt + 1
          nextRedial := some (now + redialDelay (s.attempt + 1)) }, some s.peers.owed)
      else none

/-- One iteration, with the peers it hands to `start_sync`. -/
def step (now : Nat) (e : RedialEvent PublicKey) :
    Option (RedialLoop PublicKey × Option (Finset PublicKey)) :=
  (s.branch now e).map fun r => (r.1.settle, r.2)

/-- The iterations for a sequence of events, each with the instant it is taken at. -/
def run : RedialLoop PublicKey → List (Nat × RedialEvent PublicKey) → Option (RedialLoop PublicKey)
  | s, [] => some s
  | s, (now, e) :: es => (s.step now e).bind fun r => run r.1 es

end RedialLoop

end

end KeysCore
