import KeysCore.Settling
import KeysCore.Verify.EngineOps
import KeysCore.Verify.MutationSeq

/-!
# Runs of the engine

The engine over one mirror: its mutations, pulls, ingests of the vault file, the settling of parked
conflicts and the resolver, each a transaction of its own. An engine call such as `delete_entry` is a
mutation followed by a settling, and one that fails in between has committed the first; a run is any
sequence of transactions, so it passes through those states too. `EngineRun.invariant` is the rule
for what every state of a run has.
-/

namespace KeysCore.Verify

open Lib

/-! ## Dropping parked rows -/

theorem dropConflictOwners_sameContent (m : Mirror) (u : Uuid) (owners : List String) :
    SameContent m (m.dropConflictOwners u owners) := by
  refine foldl_rel SameContent.refl SameContent.trans (fun a o _ => ?_) m
  exact (⟨rfl, rfl, rfl, rfl⟩ : SameContent a (a.dropConflictRow o u))

theorem dropResolvedRows_sameContent (m : Mirror) (r : Resolution) :
    SameContent m (m.dropResolvedRows r) := by
  refine foldl_rel SameContent.refl SameContent.trans (fun a u _ => ?_) m
  exact (⟨rfl, rfl, rfl, rfl⟩ : SameContent a (a.dropConflictRows u))

/-- `merged` is the clean merge of the local vault `v` with the row of `owner` for `u`. -/
def Adopts (L : VaultMergeLib) (m : Mirror) (v : Vault) (u : Uuid) (owner : String) (merged : Vault) :
    Prop :=
  ∃ theirs outcome, theirsVault m v owner u = some theirs ∧ L.merge v theirs = .ok outcome ∧
    L.clean outcome = true ∧ cleanMerge L v theirs outcome = .ok merged

theorem dissolveRow_adopts {L : VaultMergeLib} {m : Mirror} {v merged : Vault} {l : Entry} {u : Uuid}
    {owner : String} (h : dissolveRow L m v l owner u = .ok (.adopt merged)) :
    Adopts L m v u owner merged := by
  unfold dissolveRow at h
  split at h
  · cases h
  · rename_i theirs htheirs
    obtain ⟨outcome, houtcome, h⟩ := except_bind_ok.1 h
    split at h
    · rename_i hclean
      obtain ⟨a, ha, h⟩ := except_bind_ok.1 h
      split at h
      · cases h
      · obtain rfl := RowVerdict.adopt.inj (Except.ok.inj h)
        exact ⟨theirs, outcome, htheirs, serialised_ok.1 houtcome, hclean, ha⟩
    · cases h

/-- **A merge to be landed is adopted from a row.** -/
theorem dissolveDecision_adopts {L : VaultMergeLib} {m : Mirror} {v merged : Vault} {u : Uuid}
    {owners dropped : List String} {owner : String}
    (h : dissolveDecision L m v u owners = .ok (.settle dropped (some (owner, merged)))) :
    Adopts L m v u owner merged := by
  unfold dissolveDecision at h
  split at h
  · cases h
  · rename_i l _
    suffices hloop : ∀ d, dissolveOwners L m v l u d owners =
        .ok (.settle dropped (some (owner, merged))) → Adopts L m v u owner merged from hloop [] h
    clear h
    induction owners with
    | nil =>
      intro d h
      cases h
    | cons o owners ih =>
      intro d h
      unfold dissolveOwners at h
      obtain ⟨verdict, hverdict, h⟩ := except_bind_ok.1 h
      cases verdict with
      | live => exact ih _ h
      | dropped => exact ih _ h
      | adopt a =>
        obtain ⟨-, he⟩ := DissolveDecision.settle.inj (Except.ok.inj h)
        obtain ⟨rfl, rfl⟩ := Prod.mk.inj (Option.some.inj he)
        exact dissolveRow_adopts hverdict

/-- The vault a resolution lands: the merge with the choices, and a record of them in its meta. -/
theorem resolved_ok {L : VaultMergeLib} {ctx : PendingConflictContext L} {r : Resolution}
    {now : DateTime} {v : Vault} (h : ctx.resolved r now = .ok v) :
    ∃ merged, L.applyMerge ctx.localVault ctx.remoteVault ctx.outcome r = .ok merged ∧
      recordResolutionsIntoMeta L (L.reconcileTimestamps merged ctx.remoteVault) r now = .ok v := by
  unfold PendingConflictContext.resolved at h
  split at h
  · rename_i merged hmerged
    exact ⟨merged, hmerged, h⟩
  · cases h

/-! ## The engine -/

/-- What the engine takes from outside the repository. -/
structure Libs where
  env : EngineEnv
  merge : MergeLib
  vaults : VaultMergeLib

/-- The mirror with the conflicts stashed for a resolver. -/
structure EngineState (L : VaultMergeLib) where
  mirror : Mirror
  pending : List (PendingConflictContext L) := []

/-- The transactions of the engine. -/
inductive EngineTxn where
  | mutate (op : EngineOp)
  | pull (ord : HashOrder) (owner : String) (peer : Vault) (now : DateTime)
  | ingestFile (vault : Vault) (settles : Bool)
  | settle (u : Uuid)
  | openResolver (u : Uuid) (id : Nat)
  | resolve (id : Nat) (r : Resolution) (now : DateTime)
  | discard (id : Nat)
  | dismiss (u : Uuid)

namespace EngineTxn

variable (Λ : Libs)

/-- The state a transaction commits. A pull and a settling start from the projection of the mirror;
a resolver's context keeps the projection it was opened on. -/
def run (s : EngineState Λ.vaults) : EngineTxn → Except EngineError (EngineState Λ.vaults)
  | mutate op => do
    let m ← op.run Λ.env s.mirror
    return { s with mirror := m }
  | pull ord owner peer now => do
    ensureSameReplica peer s.mirror
    let v ← s.mirror.project
    let (m, _) ← ingestPeer Λ.merge ord ⟨owner, v, peer, now⟩ s.mirror
    return { s with mirror := m }
  | ingestFile vault settles => do
    let m ← ingestVaultWithHeader vault (.vaultFile settles) s.mirror
    return { s with mirror := m }
  | settle u => do
    let v ← s.mirror.project
    let decision ← dissolveDecision Λ.vaults s.mirror v u (s.mirror.conflictOwnersFor u)
    let (m, _) ← applyDissolve u s.mirror decision
    return { s with mirror := m }
  | openResolver u id => do
    let v ← s.mirror.project
    match ← heldConflict Λ.vaults s.mirror v u with
    | none => return s
    | some (theirs, outcome) =>
      return { s with pending := s.pending ++ [⟨id, outcome, s.mirror.mutationSeq, v, theirs⟩] }
  | resolve id r now =>
    match s.pending.find? (·.id = id) with
    | none => .error (.notFound "conflict_payload")
    | some ctx => do
      let m ← applyConflictResolution ctx r now s.mirror
      return { mirror := m, pending := s.pending.filter (·.id ≠ id) }
  | discard id => .ok { s with pending := s.pending.filter (·.id ≠ id) }
  | dismiss u => .ok { s with mirror := s.mirror.dropConflictRows u }

end EngineTxn

theorem EngineTxn.run_mutate {Λ : Libs} {s : EngineState Λ.vaults} {op : EngineOp} {m : Mirror}
    (h : op.run Λ.env s.mirror = .ok m) :
    (EngineTxn.mutate op).run Λ s = .ok { s with mirror := m } := by
  have hrun : (EngineTxn.mutate op).run Λ s = (do
      let m ← op.run Λ.env s.mirror
      return { s with mirror := m }) := rfl
  rw [hrun, h]
  rfl

/-- `t` is reached from `s` by transactions that all meet `C`. -/
inductive EngineRun (Λ : Libs) (C : EngineState Λ.vaults → EngineTxn → Prop)
    (s : EngineState Λ.vaults) : EngineState Λ.vaults → Prop where
  | refl : EngineRun Λ C s s
  | step {t t' : EngineState Λ.vaults} {txn : EngineTxn} :
      EngineRun Λ C s t → C t txn → txn.run Λ t = .ok t' → EngineRun Λ C s t'

/-- **What holds at the start and is kept by every transaction that meets `C` holds along the run.** -/
theorem EngineRun.invariant {Λ : Libs} {C : EngineState Λ.vaults → EngineTxn → Prop}
    {I : EngineState Λ.vaults → Prop} {s t : EngineState Λ.vaults} (hrun : EngineRun Λ C s t)
    (hinit : I s)
    (hstep : ∀ t t' txn, I t → C t txn → EngineTxn.run Λ t txn = .ok t' → I t') : I t := by
  induction hrun with
  | refl => exact hinit
  | step _ hC htxn ih => exact hstep _ _ _ ih hC htxn

/-- What a transaction does to the mirror and the stash, by kind. -/
inductive TxnStep (Λ : Libs) (s : EngineState Λ.vaults) : EngineTxn → EngineState Λ.vaults → Prop where
  | mutate {op : EngineOp} {m : Mirror} : op.run Λ.env s.mirror = .ok m →
      TxnStep Λ s (.mutate op) { s with mirror := m }
  | pull {ord : HashOrder} {owner : String} {peer v : Vault} {now : DateTime}
      {st : Mirror × IngestPeerOutcome} : ensureSameReplica peer s.mirror = .ok () →
      s.mirror.project = .ok v → ingestPeer Λ.merge ord ⟨owner, v, peer, now⟩ s.mirror = .ok st →
      TxnStep Λ s (.pull ord owner peer now) { s with mirror := st.1 }
  | ingestFile {vault : Vault} {settles : Bool} {m : Mirror} :
      ingestVaultWithHeader vault (.vaultFile settles) s.mirror = .ok m →
      TxnStep Λ s (.ingestFile vault settles) { s with mirror := m }
  | settle {u : Uuid} {v : Vault} {d : DissolveDecision} {m : Mirror} {b : Bool} :
      s.mirror.project = .ok v →
      dissolveDecision Λ.vaults s.mirror v u (s.mirror.conflictOwnersFor u) = .ok d →
      applyDissolve u s.mirror d = .ok (m, b) →
      TxnStep Λ s (.settle u) { s with mirror := m }
  | noConflict {u : Uuid} {id : Nat} {v : Vault} : s.mirror.project = .ok v →
      heldConflict Λ.vaults s.mirror v u = .ok none → TxnStep Λ s (.openResolver u id) s
  | opened {u : Uuid} {id : Nat} {v theirs : Vault} {outcome : Λ.vaults.MergeOutcome} :
      s.mirror.project = .ok v →
      heldConflict Λ.vaults s.mirror v u = .ok (some (theirs, outcome)) →
      TxnStep Λ s (.openResolver u id)
        { s with pending := s.pending ++ [⟨id, outcome, s.mirror.mutationSeq, v, theirs⟩] }
  | resolve {id : Nat} {r : Resolution} {now : DateTime} {ctx : PendingConflictContext Λ.vaults}
      {m : Mirror} : ctx ∈ s.pending → applyConflictResolution ctx r now s.mirror = .ok m →
      TxnStep Λ s (.resolve id r now) ⟨m, s.pending.filter (·.id ≠ id)⟩
  | discard {id : Nat} :
      TxnStep Λ s (.discard id) { s with pending := s.pending.filter (·.id ≠ id) }
  | dismiss {u : Uuid} : TxnStep Λ s (.dismiss u) { s with mirror := s.mirror.dropConflictRows u }

/-- **A transaction that returned, taken apart.** -/
theorem EngineTxn.run_step {Λ : Libs} {s s' : EngineState Λ.vaults} {txn : EngineTxn}
    (h : txn.run Λ s = .ok s') : TxnStep Λ s txn s' := by
  cases txn with
  | mutate op =>
    obtain ⟨m, hm, h⟩ := except_bind_ok.1 h
    obtain rfl := Except.ok.inj h
    exact .mutate hm
  | pull ord owner peer now =>
    obtain ⟨⟨⟩, hsame, h⟩ := except_bind_ok.1 h
    obtain ⟨v, hv, h⟩ := except_bind_ok.1 h
    obtain ⟨st, hst, h⟩ := except_bind_ok.1 h
    obtain rfl := Except.ok.inj h
    exact .pull hsame hv hst
  | ingestFile vault settles =>
    obtain ⟨m, hm, h⟩ := except_bind_ok.1 h
    obtain rfl := Except.ok.inj h
    exact .ingestFile hm
  | settle u =>
    obtain ⟨v, hv, h⟩ := except_bind_ok.1 h
    obtain ⟨d, hd, h⟩ := except_bind_ok.1 h
    obtain ⟨⟨m, b⟩, hm, h⟩ := except_bind_ok.1 h
    obtain rfl := Except.ok.inj h
    exact .settle hv hd hm
  | openResolver u id =>
    obtain ⟨v, hv, h⟩ := except_bind_ok.1 h
    obtain ⟨held, hheld, h⟩ := except_bind_ok.1 h
    cases held with
    | none =>
      obtain rfl := Except.ok.inj h
      exact .noConflict hv hheld
    | some p =>
      obtain rfl := Except.ok.inj h
      exact .opened hv hheld
  | resolve id r now =>
    simp only [run] at h
    split at h
    · cases h
    · rename_i ctx hctx
      obtain ⟨m, hm, h⟩ := except_bind_ok.1 h
      obtain rfl := Except.ok.inj h
      exact .resolve (List.mem_of_find?_eq_some hctx) hm
  | discard id =>
    obtain rfl := Except.ok.inj h
    exact .discard
  | dismiss u =>
    obtain rfl := Except.ok.inj h
    exact .dismiss

end KeysCore.Verify
