import KeysCore.Verify.EngineRuns

/-!
# Several connections to one mirror

Every engine has its own connection to the mirror, and a transaction of one may commit between two
accesses of another. A call takes each of its steps on the mirror as it then is: what it read before,
the vault of `project_to_vault` above all, it keeps. `project_to_vault` opens no transaction, so a
projection that another commit overlaps may mix rows from before and after it: it returns the vault of
the mirror if `mutation_seq` stood still meanwhile, and any vault otherwise.
-/

namespace KeysCore.Verify

open Lib

/-! ## Calls in steps -/

/-- What a call does when an entry's rows are settled: the rest of the sweep, or the resolver with the
candidates left, the id of its stash and the `mutation_seq` it read before projecting. -/
inductive AfterSettle where
  | sweep (rest : List Uuid)
  | resolver (id projectedAtSeq : Nat) (rest : List Uuid)

/-- What a projection is for. -/
inductive Purpose where
  | pull (ord : HashOrder) (owner : String) (peer : Vault) (now : DateTime)
  | settle (u : Uuid) (next : AfterSettle)

/-- Where the call of a connection stands. A projection carries `mutation_seq` as it was when the
projection began; only the resolver reads it. -/
inductive CallPoint where
  | idle
  | projecting (seq : Nat) (purpose : Purpose)
  | projected (seq : Nat) (v : Vault) (purpose : Purpose)
  /-- `apply_dissolve` is to land `merged`, which it made from `v` and the row of `owner`. -/
  | landing (seq : Nat) (v : Vault) (u : Uuid) (owner : String) (merged : Vault) (next : AfterSettle)
  /-- `Engine::ingest_peer` has committed its pull and is to sweep. -/
  | sweeping

/-- An engine, with the conflicts stashed for its resolver. -/
structure Connection (L : VaultMergeLib) where
  point : CallPoint := .idle
  pending : List (PendingConflictContext L) := []

/-- The steps of a connection: an idle one runs a transaction or begins a call, a call projects and
goes on, or fails. -/
inductive CallStep where
  | mutate (op : EngineOp)
  | ingestFile (vault : Vault) (settles : Bool)
  | resolve (id : Nat) (r : Resolution) (now : DateTime)
  | beginPull (ord : HashOrder) (owner : String) (peer : Vault) (now : DateTime)
  | beginReconcile (u : Uuid)
  | openResolver (id : Nat) (filter : Option Uuid)
  | project (v : Vault)
  | advance
  | fail

/-- The mirror a transaction leaves: rolled back when it fails. -/
def committed (m : Mirror) : Except EngineError Mirror → Mirror
  | .ok m' => m'
  | .error _ => m

namespace Connection

variable (Λ : Libs) {L : VaultMergeLib}

/-- The call has returned. -/
def returned (k : Connection L) : Connection L := { k with point := .idle }

def goto (k : Connection L) (p : CallPoint) : Connection L := { k with point := p }

/-- The next entry to settle, against the projection at hand. -/
def settleNext (k : Connection L) (seq : Nat) (v : Vault) (next : List Uuid → AfterSettle) :
    List Uuid → Connection L
  | [] => k.returned
  | u :: rest => k.goto (.projected seq v (.settle u (next rest)))

/-- `u` is settled on `m`: the sweep goes on, and the resolver stashes a conflict that is left. -/
def settled (k : Connection Λ.vaults) (m : Mirror) (seq : Nat) (v : Vault) (u : Uuid) :
    AfterSettle → Connection Λ.vaults
  | .sweep rest => k.settleNext seq v .sweep rest
  | .resolver id projectedAtSeq rest =>
    match heldConflict Λ.vaults m v u with
    | .error _ => k.returned
    | .ok none => k.settleNext seq v (.resolver id projectedAtSeq) rest
    | .ok (some (theirs, outcome)) =>
      { k.returned with pending := k.pending ++ [⟨id, outcome, projectedAtSeq, v, theirs⟩] }

/-- The pass of `settle_entry_rows` over the rows of `u`, up to what it is to land. -/
def settlePass (k : Connection Λ.vaults) (m : Mirror) (seq : Nat) (v : Vault) (u : Uuid)
    (next : AfterSettle) : Mirror × Connection Λ.vaults :=
  let owners := m.conflictOwnersFor u
  if owners.isEmpty then (m, k.settled Λ m seq v u next)
  else
    match dissolveDecision Λ.vaults m v u owners with
    | .error _ => (m, k.returned)
    | .ok .dropAll => (m.dropConflictRows u, k.settled Λ (m.dropConflictRows u) seq v u next)
    | .ok (.settle dropped none) =>
      (m.dropConflictOwners u dropped, k.settled Λ (m.dropConflictOwners u dropped) seq v u next)
    | .ok (.settle dropped (some (owner, merged))) =>
      (m.dropConflictOwners u dropped, k.goto (.landing seq v u owner merged next))

/-- The next step of the call, on the mirror `m`. The pull and the landing write what they made of
their projection without a look at `mutation_seq`. -/
def advance (k : Connection Λ.vaults) (m : Mirror) : Mirror × Connection Λ.vaults :=
  match k.point with
  | .projected _ v (.pull ord owner peer now) =>
    match ingestPeer Λ.merge ord ⟨owner, v, peer, now⟩ m with
    | .error _ => (m, k.returned)
    | .ok st => (st.1, k.goto .sweeping)
  | .sweeping =>
    match m.parkedConflictUuids with
    | [] => (m, k.returned)
    | u :: rest => (m, k.goto (.projecting m.mutationSeq (.settle u (.sweep rest))))
  | .projected seq v (.settle u next) => k.settlePass Λ m seq v u next
  | .landing _ _ u owner merged next =>
    match ingestVault merged m with
    | .error _ => (m, k.returned)
    | .ok m' => (m'.dropConflictRow owner u, k.goto (.projecting m'.mutationSeq (.settle u next)))
  | .idle | .projecting .. => (m, k)

end Connection

/-! ## The shared mirror -/

/-- The mirror with its connections. `unsaved` is no data of the source: the mutations the mirror took
since it was last replaced from its file. -/
structure SharedState (ι : Type) (L : VaultMergeLib) where
  mirror : Mirror
  conns : ι → Connection L
  unsaved : List EngineOp := []

variable {ι : Type} [DecidableEq ι] (Λ : Libs)

namespace SharedState

/-- Connection `c` and the mirror take new values. -/
def put (s : SharedState ι Λ.vaults) (c : ι) (m : Mirror) (k : Connection Λ.vaults) :
    SharedState ι Λ.vaults :=
  { s with mirror := m, conns := Function.update s.conns c k }

/-- A mutation that wrote nothing is not one. -/
def note (s : SharedState ι Λ.vaults) (op : EngineOp) (m : Mirror) : List EngineOp :=
  if m.mutationSeq = s.mirror.mutationSeq then s.unsaved else s.unsaved ++ [op]

end SharedState

/-- A step of connection `c`. -/
inductive SharedStep (s : SharedState ι Λ.vaults) (c : ι) :
    CallStep → SharedState ι Λ.vaults → Prop where
  | mutate {op : EngineOp} {m : Mirror} :
      (s.conns c).point = .idle → op.run Λ.env s.mirror = .ok m →
      SharedStep s c (.mutate op)
        { s.put Λ c m (s.conns c) with unsaved := s.note Λ op m }
  | ingestFile {vault : Vault} {settles : Bool} {m : Mirror} :
      (s.conns c).point = .idle → ingestVaultWithHeader vault (.vaultFile settles) s.mirror = .ok m →
      SharedStep s c (.ingestFile vault settles) { s.put Λ c m (s.conns c) with unsaved := [] }
  | fileRefused {vault : Vault} {settles : Bool} {e : EngineError} :
      (s.conns c).point = .idle →
      ingestVaultWithHeader vault (.vaultFile settles) s.mirror = .error e →
      SharedStep s c (.ingestFile vault settles) s
  | resolve {id : Nat} {r : Resolution} {now : DateTime} {ctx : PendingConflictContext Λ.vaults} :
      (s.conns c).point = .idle → (s.conns c).pending.find? (·.id = id) = some ctx →
      SharedStep s c (.resolve id r now)
        (s.put Λ c (committed s.mirror (applyConflictResolution ctx r now s.mirror))
          { s.conns c with pending := (s.conns c).pending.filter (·.id ≠ id) })
  | beginPull {ord : HashOrder} {owner : String} {peer : Vault} {now : DateTime} :
      (s.conns c).point = .idle → ensureSameReplica peer s.mirror = .ok () →
      SharedStep s c (.beginPull ord owner peer now)
        (s.put Λ c s.mirror
          ((s.conns c).goto (.projecting s.mirror.mutationSeq (.pull ord owner peer now))))
  | beginReconcile {u : Uuid} :
      (s.conns c).point = .idle → (s.mirror.conflictOwnersFor u).isEmpty = false →
      SharedStep s c (.beginReconcile u)
        (s.put Λ c s.mirror
          ((s.conns c).goto (.projecting s.mirror.mutationSeq (.settle u (.sweep [])))))
  | openResolver {id : Nat} {filter : Option Uuid} {u : Uuid} {rest : List Uuid} :
      (s.conns c).point = .idle →
      s.mirror.parkedConflictUuids.filter (fun u => ∀ f ∈ filter, u = f) = u :: rest →
      SharedStep s c (.openResolver id filter)
        (s.put Λ c s.mirror ((s.conns c).goto
          (.projecting s.mirror.mutationSeq
            (.settle u (.resolver id s.mirror.mutationSeq rest)))))
  | project {seq : Nat} {purpose : Purpose} {v : Vault} :
      (s.conns c).point = .projecting seq purpose →
      (s.mirror.mutationSeq = seq → s.mirror.project = .ok v) →
      SharedStep s c (.project v)
        (s.put Λ c s.mirror ((s.conns c).goto (.projected seq v purpose)))
  | advance :
      SharedStep s c .advance
        (s.put Λ c ((s.conns c).advance Λ s.mirror).1 ((s.conns c).advance Λ s.mirror).2)
  | fail : SharedStep s c .fail (s.put Λ c s.mirror (s.conns c).returned)

/-- `t` is reached from `s` by steps of the connections that all meet `C`. -/
inductive SharedRun (C : SharedState ι Λ.vaults → ι → CallStep → Prop) (s : SharedState ι Λ.vaults) :
    SharedState ι Λ.vaults → Prop where
  | refl : SharedRun C s s
  | step {t t' : SharedState ι Λ.vaults} {c : ι} {a : CallStep} :
      SharedRun C s t → C t c a → SharedStep Λ t c a t' → SharedRun C s t'

end KeysCore.Verify
