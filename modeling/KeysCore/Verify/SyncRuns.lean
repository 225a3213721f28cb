import KeysCore.Verify.Replicas
import Mathlib.Logic.Relation

/-!
# Runs of replicas that ingest each other's files

Any number of replicas of one vault. A replica publishes the projection of its mirror, and ingests
any file that was ever published, in any order and any number of times (`SyncStep`). An ingest that
fails is rolled back, so it is no step. `SyncRun.invariant` is the induction over a run: what every
mirror keeps when it ingests a file that shows it, every reachable mirror has.
-/

namespace KeysCore.Verify

open Lib

/-- The replicas of one vault, the files they published, and what each has ingested. -/
structure World (ι : Type) where
  mirror : ι → Mirror
  files : List Vault
  ingested : ι → List Vault

variable {ι : Type} [DecidableEq ι]

namespace World

def publish (w : World ι) (v : Vault) : World ι := { w with files := v :: w.files }

/-- Replica `i` ingested `v` and holds `m` now. -/
def pull (w : World ι) (i : ι) (v : Vault) (m : Mirror) : World ι :=
  { w with
    mirror := Function.update w.mirror i m
    ingested := Function.update w.ingested i (v :: w.ingested i) }

theorem pull_mirror (w : World ι) (i : ι) (v : Vault) (m : Mirror) : (w.pull i v m).mirror i = m := by
  simp [pull]

theorem mem_ingested_pull (w : World ι) (i : ι) (v : Vault) (m : Mirror) :
    v ∈ (w.pull i v m).ingested i := by
  simp [pull]

end World

/-- One step of the replicas. `C` is a condition on the ingests of the run, over their arguments and
the mirror they start from. -/
inductive SyncStep (M : MergeLib) (C : PeerPull → Mirror → Prop) : World ι → World ι → Prop where
  | publish {w : World ι} {i : ι} {v : Vault} :
      (w.mirror i).project = .ok v → SyncStep M C w (w.publish v)
  | pull {w : World ι} {i : ι} {P : PeerPull} {ord : HashOrder} {st : Mirror × IngestPeerOutcome} :
      P.peer ∈ w.files → (w.mirror i).project = .ok P.localVault → C P (w.mirror i) →
      ingestPeer M ord P (w.mirror i) = .ok st → SyncStep M C w (w.pull i P.peer st.1)

/-- A run of any length. -/
abbrev SyncRun (M : MergeLib) (C : PeerPull → Mirror → Prop) : World ι → World ι → Prop :=
  Relation.ReflTransGen (SyncStep M C)

/-! ## Files and mirrors of one vault -/

/-- A file of the vault with root `r`. -/
structure FileOf (r : Uuid) (v : Vault) : Prop where
  groups : (v.groups.map (·.info.id)).Nodup
  entries : (v.entries.map (·.id)).Nodup
  root : v.root.id = r

theorem FileOf.of_project {m : Mirror} {r : Uuid} {v : Vault} (h : RootedAt m r)
    (hv : m.project = .ok v) : FileOf r v := by
  have ha := project_attaches (groupTree_iff.2 ⟨r, h⟩) hv
  exact ⟨ha.ids_nodup, ha.entry_ids_nodup, ha.root_eq h⟩

theorem FileOf.peerOf {m : Mirror} {r : Uuid} {v : Vault} (hv : FileOf r v) (h : RootedAt m r) :
    PeerOf m v := ⟨hv.groups, hv.root ▸ h⟩

/-- A tree under `r`, or nothing at all. -/
def ReplicaOf (r : Uuid) (m : Mirror) : Prop := RootedAt m r ∨ m.groups.keys = []

theorem project_of_no_groups {m : Mirror} (h : m.groups.keys = []) (v : Vault) :
    m.project ≠ .ok v := by
  have hrows : m.groups.rows = [] := List.map_eq_nil_iff.1 h
  intro hv
  obtain ⟨-, g, hg, -⟩ := project_ok hv
  rw [hrows] at hg
  cases hg

/-- A replica that projects is a tree. -/
theorem ReplicaOf.rooted {m : Mirror} {r : Uuid} {v : Vault} (h : ReplicaOf r m)
    (hv : m.project = .ok v) : RootedAt m r :=
  h.resolve_right fun hnone => project_of_no_groups hnone v hv

/-- Every mirror and every file is of the vault with root `r`. -/
structure World.Sound (r : Uuid) (w : World ι) : Prop where
  mirrors : ∀ i, ReplicaOf r (w.mirror i)
  files : ∀ v ∈ w.files, FileOf r v

theorem World.Sound.step {M : MergeLib} (hM : Lawful M) {C : PeerPull → Mirror → Prop} {r : Uuid}
    {w w' : World ι} (h : w.Sound r) (hs : SyncStep M C w w') : w'.Sound r := by
  cases hs with
  | publish hv =>
    refine ⟨h.mirrors, fun v hmem => ?_⟩
    rcases List.mem_cons.1 hmem with rfl | hmem
    · exact .of_project ((h.mirrors _).rooted hv) hv
    · exact h.files v hmem
  | @pull i P ord st hfile hv _ hst =>
    refine ⟨fun j => ?_, h.files⟩
    show ReplicaOf r (Function.update w.mirror i st.1 j)
    rw [Function.update_apply]
    split
    · have hf := h.files _ hfile
      have hpull := ingestPeer_rooted hM (hf.peerOf ((h.mirrors i).rooted hv)) hst
      rwa [hf.root] at hpull
    · exact h.mirrors j

/-! ## Invariants of runs -/

/-- **What holds of every mirror and every file at the start, is shown by a projection, and is kept
by an ingest of a file that has it, holds along a run.** -/
theorem SyncRun.invariant {M : MergeLib} (hM : Lawful M) {C : PeerPull → Mirror → Prop} {r : Uuid}
    {I : ι → List Vault → Mirror → Prop} {F : Vault → Prop}
    (hproject : ∀ i vs m v, RootedAt m r → I i vs m → m.project = .ok v → F v)
    (hpull : ∀ i vs m P ord st, RootedAt m r → FileOf r P.peer → I i vs m → F P.peer →
      m.project = .ok P.localVault → C P m → ingestPeer M ord P m = .ok st → I i (P.peer :: vs) st.1)
    {w w' : World ι} (hw : w.Sound r) (hI : ∀ i, I i (w.ingested i) (w.mirror i))
    (hF : ∀ v ∈ w.files, F v) (hrun : SyncRun M C w w') :
    w'.Sound r ∧ (∀ i, I i (w'.ingested i) (w'.mirror i)) ∧ ∀ v ∈ w'.files, F v := by
  induction hrun with
  | refl => exact ⟨hw, hI, hF⟩
  | @tail w₁ _ _ hs ih =>
    obtain ⟨hw, hI, hF⟩ := ih
    refine ⟨hw.step hM hs, ?_⟩
    cases hs with
    | publish hv =>
      refine ⟨hI, fun v hmem => ?_⟩
      rcases List.mem_cons.1 hmem with rfl | hmem
      · exact hproject _ _ _ _ ((hw.mirrors _).rooted hv) (hI _) hv
      · exact hF v hmem
    | @pull i P ord st hfile hv hC hst =>
      refine ⟨fun j => ?_, hF⟩
      show I j (Function.update w₁.ingested i (P.peer :: w₁.ingested i) j)
        (Function.update w₁.mirror i st.1 j)
      by_cases e : j = i
      · subst e
        rw [Function.update_self, Function.update_self]
        exact hpull _ _ _ _ _ _ ((hw.mirrors _).rooted hv) (hw.files _ hfile) (hI _)
          (hF _ hfile) hv hC hst
      · rw [Function.update_of_ne e, Function.update_of_ne e]
        exact hI j

end KeysCore.Verify
