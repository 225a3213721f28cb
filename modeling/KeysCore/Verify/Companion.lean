import KeysCore.Lib.Run
import KeysCore.Verify.EngineRuns

/-!
# Tables beside the mirror

Some tables and columns of the store follow the entries of the mirror and are not part of the model of
it: a `Companion` says what the transactions write to them. `EngineTxn.runWith` runs a transaction on
the mirror and the companion, and does to the mirror what the transaction does alone (`runWith_run`). A
property of the two holds along every run when it follows the entries, mutations and pulls keep it and
ingests establish it (`Companion.Keeps.run`).
-/

namespace KeysCore.Verify

open Lib

/-- What the transactions do to tables of type `τ`. -/
structure Companion (Λ : Libs) (τ : Type) where
  /-- A mutation that takes the mirror from the first to the second. -/
  mutate : EngineOp → Mirror → Mirror → τ → Except EngineError τ
  /-- `ingest_peer`, on the mirror and the tables. -/
  pull : HashOrder → PeerPull → Mirror → τ → Except EngineError ((Mirror × IngestPeerOutcome) × τ)
  /-- The tables a full ingest leaves; it clears them first. -/
  ingest : Vault → Except EngineError τ

variable {Λ : Libs} {τ : Type}

/-- The mirror's part of a pull is the pull of the mirror. -/
def Companion.Erases (K : Companion Λ τ) : Prop :=
  ∀ ord P m x st x', K.pull ord P m x = .ok (st, x') → ingestPeer Λ.merge ord P m = .ok st

/-- What settling an entry does to the tables: a landed merge is a full ingest. -/
def Companion.dissolve (K : Companion Λ τ) (x : τ) : DissolveDecision → Except EngineError τ
  | .dropAll => .ok x
  | .settle _ none => .ok x
  | .settle _ (some (_, merged)) => K.ingest merged

/-- A transaction on the mirror and the tables beside it. -/
def EngineTxn.runWith (K : Companion Λ τ) (s : EngineState Λ.vaults × τ) :
    EngineTxn → Except EngineError (EngineState Λ.vaults × τ)
  | mutate op => do
    let m ← op.run Λ.env s.1.mirror
    let x ← K.mutate op s.1.mirror m s.2
    return ({ s.1 with mirror := m }, x)
  | pull ord owner peer now => do
    ensureSameReplica peer s.1.mirror
    let v ← s.1.mirror.project
    let (st, x) ← K.pull ord ⟨owner, v, peer, now⟩ s.1.mirror s.2
    return ({ s.1 with mirror := st.1 }, x)
  | ingestFile vault settles => do
    let m ← ingestVaultWithHeader vault (.vaultFile settles) s.1.mirror
    let x ← K.ingest vault
    return ({ s.1 with mirror := m }, x)
  | settle u => do
    let v ← s.1.mirror.project
    let decision ← dissolveDecision Λ.vaults s.1.mirror v u (s.1.mirror.conflictOwnersFor u)
    let (m, _) ← applyDissolve u s.1.mirror decision
    let x ← K.dissolve s.2 decision
    return ({ s.1 with mirror := m }, x)
  | openResolver u id => do
    let t ← (openResolver u id).run Λ s.1
    return (t, s.2)
  | resolve id r now =>
    match s.1.pending.find? (·.id = id) with
    | none => .error (.notFound "conflict_payload")
    | some ctx => do
      let vault ← ctx.resolved r now
      let m ← ingestProjectedVault vault ctx.projectedAtSeq s.1.mirror
      let x ← K.ingest vault
      return ({ mirror := m.dropResolvedRows r, pending := s.1.pending.filter (·.id ≠ id) }, x)
  | discard id => .ok ({ s.1 with pending := s.1.pending.filter (·.id ≠ id) }, s.2)
  | dismiss u => .ok ({ s.1 with mirror := s.1.mirror.dropConflictRows u }, s.2)

/-- **What a transaction does to the mirror, it does without the tables too.** -/
theorem EngineTxn.runWith_run {K : Companion Λ τ} (hK : K.Erases) {s s' : EngineState Λ.vaults × τ}
    {txn : EngineTxn} (h : txn.runWith K s = .ok s') : txn.run Λ s.1 = .ok s'.1 := by
  cases txn with
  | mutate op =>
    obtain ⟨m, hm, h⟩ := except_bind_ok.1 h
    obtain ⟨x, -, h⟩ := except_bind_ok.1 h
    obtain rfl := Except.ok.inj h
    exact except_bind_ok.2 ⟨m, hm, rfl⟩
  | pull ord owner peer now =>
    obtain ⟨⟨⟩, hsame, h⟩ := except_bind_ok.1 h
    obtain ⟨v, hv, h⟩ := except_bind_ok.1 h
    obtain ⟨⟨st, x⟩, hst, h⟩ := except_bind_ok.1 h
    obtain rfl := Except.ok.inj h
    refine except_bind_ok.2 ⟨(), hsame, except_bind_ok.2 ⟨v, hv, ?_⟩⟩
    exact except_bind_ok.2 ⟨st, hK _ _ _ _ _ _ hst, rfl⟩
  | ingestFile vault settles =>
    obtain ⟨m, hm, h⟩ := except_bind_ok.1 h
    obtain ⟨x, -, h⟩ := except_bind_ok.1 h
    obtain rfl := Except.ok.inj h
    exact except_bind_ok.2 ⟨m, hm, rfl⟩
  | settle u =>
    obtain ⟨v, hv, h⟩ := except_bind_ok.1 h
    obtain ⟨d, hd, h⟩ := except_bind_ok.1 h
    obtain ⟨⟨m, b⟩, hm, h⟩ := except_bind_ok.1 h
    obtain ⟨x, -, h⟩ := except_bind_ok.1 h
    obtain rfl := Except.ok.inj h
    exact except_bind_ok.2 ⟨v, hv, except_bind_ok.2 ⟨d, hd, except_bind_ok.2 ⟨(m, b), hm, rfl⟩⟩⟩
  | openResolver u id =>
    obtain ⟨t, ht, h⟩ := except_bind_ok.1 h
    obtain rfl := Except.ok.inj h
    exact ht
  | resolve id r now =>
    simp only [runWith] at h
    simp only [run]
    cases hctx : s.1.pending.find? (·.id = id) with
    | none =>
      rw [hctx] at h
      cases h
    | some ctx =>
      rw [hctx] at h
      obtain ⟨vault, hvault, h⟩ := except_bind_ok.1 h
      obtain ⟨m, hm, h⟩ := except_bind_ok.1 h
      obtain ⟨x, -, h⟩ := except_bind_ok.1 h
      obtain rfl := Except.ok.inj h
      refine except_bind_ok.2 ⟨m.dropResolvedRows r, ?_, rfl⟩
      exact except_bind_ok.2 ⟨vault, hvault, except_bind_ok.2 ⟨m, hm, rfl⟩⟩
  | discard id =>
    obtain rfl := Except.ok.inj h
    rfl
  | dismiss u =>
    obtain rfl := Except.ok.inj h
    rfl

/-- **A run with the tables is a run of the mirror.** -/
theorem Companion.Erases.run {K : Companion Λ τ} (hK : K.Erases)
    {C : EngineState Λ.vaults × τ → EngineTxn → Prop} {s t : EngineState Λ.vaults × τ}
    (hrun : Lib.Run (EngineTxn.runWith K) C s t) : EngineRun Λ (fun _ _ => True) s.1 t.1 := by
  induction hrun with
  | refl => exact .refl
  | snoc _ _ hok ih => exact .step ih trivial (EngineTxn.runWith_run hK hok)

/-- The transactions that meet `C` keep `I`, which is about the entries and the tables. -/
structure Companion.Keeps (K : Companion Λ τ) (C : EngineState Λ.vaults × τ → EngineTxn → Prop)
    (I : Mirror → τ → Prop) : Prop where
  entries {m m' : Mirror} {x : τ} : I m x → m'.entries = m.entries → I m' x
  mutate {s : EngineState Λ.vaults × τ} {op : EngineOp} {m : Mirror} {x : τ} : I s.1.mirror s.2 →
    C s (.mutate op) → op.run Λ.env s.1.mirror = .ok m → K.mutate op s.1.mirror m s.2 = .ok x → I m x
  pull {s : EngineState Λ.vaults × τ} {ord : HashOrder} {owner : String} {peer v : Vault}
    {now : DateTime} {st : Mirror × IngestPeerOutcome} {x : τ} : I s.1.mirror s.2 →
    C s (.pull ord owner peer now) → s.1.mirror.project = .ok v →
    K.pull ord ⟨owner, v, peer, now⟩ s.1.mirror s.2 = .ok (st, x) → I st.1 x
  ingest {vault : Vault} {source : Source} {m m' : Mirror} {x : τ} :
    ingestVaultWithHeader vault source m = .ok m' → K.ingest vault = .ok x → I m' x

namespace Companion.Keeps

variable {K : Companion Λ τ} {C : EngineState Λ.vaults × τ → EngineTxn → Prop}
  {I : Mirror → τ → Prop}

theorem step (hK : K.Keeps C I) {s s' : EngineState Λ.vaults × τ} {txn : EngineTxn}
    (hs : I s.1.mirror s.2) (hC : C s txn) (h : txn.runWith K s = .ok s') : I s'.1.mirror s'.2 := by
  cases txn with
  | mutate op =>
    obtain ⟨m, hm, h⟩ := except_bind_ok.1 h
    obtain ⟨x, hx, h⟩ := except_bind_ok.1 h
    obtain rfl := Except.ok.inj h
    exact hK.mutate hs hC hm hx
  | pull ord owner peer now =>
    obtain ⟨⟨⟩, -, h⟩ := except_bind_ok.1 h
    obtain ⟨v, hv, h⟩ := except_bind_ok.1 h
    obtain ⟨⟨st, x⟩, hst, h⟩ := except_bind_ok.1 h
    obtain rfl := Except.ok.inj h
    exact hK.pull hs hC hv hst
  | ingestFile vault settles =>
    obtain ⟨m, hm, h⟩ := except_bind_ok.1 h
    obtain ⟨x, hx, h⟩ := except_bind_ok.1 h
    obtain rfl := Except.ok.inj h
    exact hK.ingest hm hx
  | settle u =>
    obtain ⟨v, -, h⟩ := except_bind_ok.1 h
    obtain ⟨d, -, h⟩ := except_bind_ok.1 h
    obtain ⟨⟨m, b⟩, hm, h⟩ := except_bind_ok.1 h
    obtain ⟨x, hx, h⟩ := except_bind_ok.1 h
    obtain rfl := Except.ok.inj h
    cases d with
    | dropAll =>
      obtain ⟨rfl, -⟩ := Prod.mk.inj (Except.ok.inj hm)
      obtain rfl := Except.ok.inj hx
      exact hK.entries hs rfl
    | settle dropped adopt =>
      cases adopt with
      | none =>
        obtain ⟨rfl, -⟩ := Prod.mk.inj (Except.ok.inj hm)
        obtain rfl := Except.ok.inj hx
        exact hK.entries hs (dropConflictOwners_sameContent s.1.mirror u dropped).entries
      | some landed =>
        obtain ⟨a, ha, hm⟩ := except_bind_ok.1 hm
        obtain ⟨rfl, -⟩ := Prod.mk.inj (Except.ok.inj hm)
        exact hK.entries (hK.ingest ha hx) rfl
  | openResolver u id =>
    obtain ⟨t, ht, h⟩ := except_bind_ok.1 h
    obtain rfl := Except.ok.inj h
    cases EngineTxn.run_step ht with
    | noConflict => exact hs
    | opened => exact hs
  | resolve id r now =>
    simp only [EngineTxn.runWith] at h
    split at h
    · cases h
    · obtain ⟨vault, -, h⟩ := except_bind_ok.1 h
      obtain ⟨m, hm, h⟩ := except_bind_ok.1 h
      obtain ⟨x, hx, h⟩ := except_bind_ok.1 h
      obtain rfl := Except.ok.inj h
      exact hK.entries (hK.ingest hm hx) (dropResolvedRows_sameContent m r).entries
  | discard id =>
    obtain rfl := Except.ok.inj h
    exact hs
  | dismiss u =>
    obtain rfl := Except.ok.inj h
    exact hK.entries hs rfl

/-- **A kept property holds in every state a run from an ingest reaches.** -/
theorem run (hK : K.Keeps C I) {vault : Vault} {source : Source} {m m' : Mirror} {x : τ}
    (hm : ingestVaultWithHeader vault source m = .ok m') (hx : K.ingest vault = .ok x)
    {pending : List (PendingConflictContext Λ.vaults)} {t : EngineState Λ.vaults × τ}
    (hrun : Lib.Run (EngineTxn.runWith K) C (⟨m', pending⟩, x) t) : I t.1.mirror t.2 :=
  hrun.invariant (I := fun s => I s.1.mirror s.2) (hK.ingest hm hx)
    fun _ _ _ hs hC hstep => hK.step hs hC hstep

end Companion.Keeps

end KeysCore.Verify
