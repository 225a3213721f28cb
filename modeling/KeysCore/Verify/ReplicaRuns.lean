import KeysCore.Lib.Gossip
import KeysCore.Verify.FieldMerge
import KeysCore.Verify.LiveTombstones
import KeysCore.Verify.PullSucceeds
import KeysCore.Verify.SyncRuns

/-!
# Runs of replicas that edit and sync

Any number of replicas, each changed by the engine's mutations, that publish the projections of their
mirrors and ingest published files through the gate of `ensure_same_replica` (`ReplicaStep`). Every
mirror of a run is a tree, or has lost all of its groups to a tombstone of the root, and every file is
keyed (`ReplicaRun.intact`).
-/

namespace KeysCore.Verify

open Lib

variable {ι : Type} [DecidableEq ι]

/-- Replica `i` changed its mirror to `m`. -/
def World.edit (w : World ι) (i : ι) (m : Mirror) : World ι :=
  { w with mirror := Function.update w.mirror i m }

/-- One step of replicas that also edit. `C` is a condition on the mutations of the run, over the
mirror they start from. -/
inductive ReplicaStep (E : EngineEnv) (M : MergeLib) (C : ι → EngineOp → Mirror → Prop) (w : World ι) :
    World ι → Prop where
  | mutate {i : ι} {op : EngineOp} {m : Mirror} :
      C i op (w.mirror i) → op.run E (w.mirror i) = .ok m → ReplicaStep E M C w (w.edit i m)
  | publish {i : ι} {v : Vault} : (w.mirror i).project = .ok v → ReplicaStep E M C w (w.publish v)
  | pull {i : ι} {P : PeerPull} {ord : HashOrder} {st : Mirror × IngestPeerOutcome} :
      P.peer ∈ w.files → ensureSameReplica P.peer (w.mirror i) = .ok () →
      (w.mirror i).project = .ok P.localVault → ingestPeer M ord P (w.mirror i) = .ok st →
      ReplicaStep E M C w (w.pull i P.peer st.1)

abbrev ReplicaRun (E : EngineEnv) (M : MergeLib) (C : ι → EngineOp → Mirror → Prop) :
    World ι → World ι → Prop :=
  Relation.ReflTransGen (ReplicaStep E M C)

/-- The mutation keeps the group tree. -/
def EngineOp.Safe (op : EngineOp) (m : Mirror) : Prop := ∀ o, op = .structural o → o.Safe m

/-! ## Intact mirrors -/

/-- A tree, or nothing at all. -/
def Intact (m : Mirror) : Prop := GroupTree m ∨ m.groups.keys = []

theorem no_entries_of_no_groups {m : Mirror} (h : m.groups.keys = []) (e : EntryRow) :
    e ∉ m.entries.rows := by
  intro he
  have hg := m.fkGroup e he
  rw [h] at hg
  cases hg

theorem rootUuid?_of_no_groups {m : Mirror} (h : m.groups.keys = []) : m.rootUuid? = none := by
  have hrows : m.groups.rows = [] := List.map_eq_nil_iff.1 h
  simp [Mirror.rootUuid?, hrows]

theorem createRecycleBinGroup_no_groups {m m' : Mirror} {now : EpochMs} {u : Uuid}
    (h : m.groups.keys = []) : m.createRecycleBinGroup now u ≠ .ok m' := by
  intro hok
  simp [Mirror.createRecycleBinGroup, rootUuid?_of_no_groups h] at hok

/-- **A mutation creates no group where there is none.** -/
theorem EngineOp.run_no_groups {E : EngineEnv} {m m' : Mirror} {op : EngineOp}
    (h : m.groups.keys = []) (hop : op.run E m = .ok m') : m'.groups.keys = [] := by
  suffices hcreated : (op.footprint m).createdGroup = none by
    rw [List.eq_nil_iff_forall_not_mem]
    intro u hu
    rcases ((EngineOp.run_leaves hop).groups u).1 hu with hc | ⟨hm, -⟩
    · rw [hcreated] at hc
      cases hc
    · rw [h] at hm
      cases hm
  cases run_commits hop with
  | structural hs =>
    cases StructuralOp.run_commits hs with
    | createGroup hp _ =>
      rw [h] at hp
      cases hp
    | noBin hbin => simp [footprint, StructuralOp.footprint, hbin]
    | emptyBin hbin _ => simp [footprint, StructuralOp.footprint, Footprint.subtrees, hbin]
    | recycledNew hrow _ _ _ _ _ => exact absurd (Table.find?_mem hrow) (no_entries_of_no_groups h _)
    | inBin hrow _ => exact absurd (Table.find?_mem hrow) (no_entries_of_no_groups h _)
    | recycled hrow _ _ _ => exact absurd (Table.find?_mem hrow) (no_entries_of_no_groups h _)
    | deleted hrow _ _ _ => exact absurd (Table.find?_mem hrow) (no_entries_of_no_groups h _)
    | _ => rfl
  | binPresent hbin => simp [footprint, Footprint.bin, hbin]
  | binCreated _ _ hnew => exact absurd hnew (createRecycleBinGroup_no_groups h)
  | binDisabled hbin hen => simp [footprint, Footprint.bin, hen]
  | _ => rfl

theorem Intact.mutate {E : EngineEnv} {m m' : Mirror} {op : EngineOp} (h : Intact m) (hsafe : op.Safe m)
    (hop : op.run E m = .ok m') : Intact m' :=
  h.imp (fun ht => EngineOp.run_groupTree ht hsafe hop) fun hno => EngineOp.run_no_groups hno hop

/-- The gate of `ensure_same_replica`, taken apart. -/
theorem ensureSameReplica_ok {m : Mirror} {peer : Vault} (h : ensureSameReplica peer m = .ok ()) :
    m.rootUuid? = some peer.root.id ∧ m.isTestVault = isMarked peer.metadata.customData := by
  unfold ensureSameReplica at h
  split at h
  · cases h
  · rename_i r hr
    split at h
    · rename_i hsame
      split at h
      · rename_i hmark
        simp only [isSameVault, Bool.and_eq_true, decide_eq_true_eq] at hsame
        rw [hr, hsame.2]
        exact ⟨rfl, hmark⟩
      · cases h
    · cases h

/-- A replica that the gate lets through to a peer is a tree under the peer's root. -/
theorem Intact.peerOf {m : Mirror} {peer : Vault} (h : Intact m) (hf : FileOf peer.root.id peer)
    (hgate : ensureSameReplica peer m = .ok ()) : PeerOf m peer := by
  have hroot := (ensureSameReplica_ok hgate).1
  rcases h with ht | hno
  · obtain ⟨r, hr⟩ := groupTree_iff.1 ht
    rw [GroupTree.rootUuid? hr, Option.some.injEq] at hroot
    exact hf.peerOf (hroot ▸ hr)
  · rw [rootUuid?_of_no_groups hno] at hroot
    cases hroot

theorem Intact.rooted {m : Mirror} {v : Vault} (h : Intact m) (hv : m.project = .ok v) :
    RootedAt m v.root.id := by
  obtain ⟨r, hr⟩ := groupTree_iff.1 (h.resolve_right fun hno => project_of_no_groups hno v hv)
  rwa [(project_attaches (groupTree_iff.2 ⟨r, hr⟩) hv).root_eq hr]

/-- Every mirror is intact and every file keyed. -/
structure World.Intact (w : World ι) : Prop where
  mirrors : ∀ i, Verify.Intact (w.mirror i)
  files : ∀ v ∈ w.files, FileOf v.root.id v

theorem World.Intact.step {E : EngineEnv} {M : MergeLib} (hM : Lawful M)
    {C : ι → EngineOp → Mirror → Prop} (hC : ∀ i op m, C i op m → op.Safe m) {w w' : World ι}
    (h : w.Intact) (hs : ReplicaStep E M C w w') : w'.Intact := by
  cases hs with
  | @mutate i op m hop hm =>
    refine ⟨fun j => ?_, h.files⟩
    show Verify.Intact (Function.update w.mirror i m j)
    rw [Function.update_apply]
    split
    · exact (h.mirrors i).mutate (hC _ _ _ hop) hm
    · exact h.mirrors j
  | publish hv =>
    refine ⟨h.mirrors, fun v hmem => ?_⟩
    rcases List.mem_cons.1 hmem with rfl | hmem
    · exact .of_project ((h.mirrors _).rooted hv) hv
    · exact h.files v hmem
  | @pull i P ord st hfile hgate hv hst =>
    refine ⟨fun j => ?_, h.files⟩
    show Verify.Intact (Function.update w.mirror i st.1 j)
    rw [Function.update_apply]
    split
    · have hpull := ingestPeer_rooted hM ((h.mirrors i).peerOf (h.files _ hfile) hgate) hst
      exact hpull.imp_left fun hr => groupTree_iff.2 ⟨_, hr⟩
    · exact h.mirrors j

/-- **Along a run of safe mutations every mirror stays intact and every file keyed.** -/
theorem ReplicaRun.intact {E : EngineEnv} {M : MergeLib} (hM : Lawful M)
    {C : ι → EngineOp → Mirror → Prop} (hC : ∀ i op m, C i op m → op.Safe m) {w w' : World ι}
    (h : w.Intact) (hrun : ReplicaRun E M C w w') : w'.Intact := by
  induction hrun with
  | refl => exact h
  | tail _ hs ih => exact ih.step hM hC hs

/-- **What every mirror and file has at the start, a mutation keeps, a projection shows, and a pull of a
file that has it keeps, holds along a run.** -/
theorem ReplicaRun.invariant {E : EngineEnv} {M : MergeLib} (hM : Lawful M)
    {C : ι → EngineOp → Mirror → Prop} (hC : ∀ i op m, C i op m → op.Safe m)
    {I : ι → Mirror → Prop} {F : Vault → Prop}
    (hmutate : ∀ i op m m', C i op m → op.run E m = .ok m' → I i m → I i m')
    (hproject : ∀ i m v, m.project = .ok v → I i m → F v)
    (hpull : ∀ i m P ord st, PeerOf m P.peer → ensureSameReplica P.peer m = .ok () →
      ingestPeer M ord P m = .ok st → I i m → F P.peer → I i st.1)
    {w w' : World ι} (hw : w.Intact) (hI : ∀ i, I i (w.mirror i)) (hF : ∀ v ∈ w.files, F v)
    (hrun : ReplicaRun E M C w w') : (∀ i, I i (w'.mirror i)) ∧ ∀ v ∈ w'.files, F v := by
  induction hrun with
  | refl => exact ⟨hI, hF⟩
  | @tail w₁ _ hrun hs ih =>
    obtain ⟨hI, hF⟩ := ih
    have hw₁ := ReplicaRun.intact hM hC hw hrun
    have hupdate : ∀ (i : ι) (m : Mirror), I i m → ∀ j, I j (Function.update w₁.mirror i m j) := by
      intro i m hm j
      by_cases e : j = i
      · subst e
        rwa [Function.update_self]
      · rw [Function.update_of_ne e]
        exact hI j
    cases hs with
    | mutate hop hm => exact ⟨hupdate _ _ (hmutate _ _ _ _ hop hm (hI _)), hF⟩
    | publish hv =>
      refine ⟨hI, fun v hmem => ?_⟩
      rcases List.mem_cons.1 hmem with rfl | hmem
      · exact hproject _ _ _ hv (hI _)
      · exact hF v hmem
    | @pull i P ord st hfile hgate hv hst =>
      have hpeer := (hw₁.mirrors i).peerOf (hw₁.files _ hfile) hgate
      exact ⟨hupdate _ _ (hpull _ _ _ _ _ hpeer hgate hst (hI i) (hF _ hfile)), hF⟩

/-! ## What gossips

A reading of a mirror that a file shows, a pull joins and a mutation only makes grow is gossiped by
replicas: their runs are runs of gossip over it, so the rules of gossip apply.
-/

/-- A pull joins the reading of the replica with what the file shows. -/
structure Gossips {α : Type} [SemilatticeSup α] (E : EngineEnv) (M : MergeLib) (read : Mirror → α)
    (shows : Vault → α) : Prop where
  project {m : Mirror} {v : Vault} : GroupTree m → m.project = .ok v → shows v = read m
  pull {m : Mirror} {P : PeerPull} {ord : HashOrder} {st : Mirror × IngestPeerOutcome} :
    PeerOf m P.peer → (P.peer.entries.map (·.id)).Nodup → m.project = .ok P.localVault →
    ingestPeer M ord P m = .ok st → read st.1 = read m ⊔ shows P.peer
  mutate {m m' : Mirror} {op : EngineOp} : op.run E m = .ok m' → read m ≤ read m'

/-- What the replicas read, as nodes that gossip. -/
def World.readings {ι α : Type} (read : Mirror → α) (shows : Vault → α) (w : World ι) :
    Gossip.Net ι α :=
  ⟨fun i => read (w.mirror i), w.files.map shows, fun i => (w.ingested i).map shows⟩

/-- A start: nothing published, nothing ingested. -/
structure World.Fresh {ι : Type} (w : World ι) : Prop where
  intact : w.Intact
  files : w.files = []
  ingested : ∀ i, w.ingested i = []

section Fresh

variable {ι α : Type} [SemilatticeSup α] {read : Mirror → α} {shows : Vault → α} {w : World ι}

theorem World.Fresh.heard (hw : w.Fresh) : Gossip.Heard (w.readings read shows) := by
  intro i x hx
  simp [World.readings, hw.ingested i] at hx

theorem World.Fresh.backed (hw : w.Fresh) : Gossip.Backed (w.readings read shows) := by
  intro x hx
  simp [World.readings, hw.files] at hx

end Fresh

theorem map_update {α β : Type} (f : α → β) (g : ι → α) (i : ι) (a : α) :
    (fun j => f (Function.update g i a j)) = Function.update (fun j => f (g j)) i (f a) := by
  funext j
  simp only [Function.update_apply]
  split <;> rfl

namespace Gossips

variable {α : Type} [SemilatticeSup α] {E : EngineEnv} {M : MergeLib} {read : Mirror → α}
  {shows : Vault → α} {C : ι → EngineOp → Mirror → Prop} {w₀ w w' : World ι}

/-- A reading grows as one of the mutations makes it grow. -/
def Grows (E : EngineEnv) (read : Mirror → α) (C : ι → EngineOp → Mirror → Prop) (i : ι) (a b : α) :
    Prop :=
  ∃ op m m', C i op m ∧ op.run E m = .ok m' ∧ a = read m ∧ b = read m'

/-- **A step of replicas is a step of gossip.** -/
theorem step (h : Gossips E M read shows) (hw : w.Intact) (hs : ReplicaStep E M C w w') :
    Gossip.Step (Grows E read C) (w.readings read shows) (w'.readings read shows) := by
  cases hs with
  | @mutate i op m hC hop =>
    have hnet : (w.edit i m).readings read shows = (w.readings read shows).grow i (read m) := by
      simp [World.readings, World.edit, Gossip.Net.grow, map_update read]
    rw [hnet]
    exact .grow i (h.mutate hop) ⟨op, _, m, hC, hop, rfl, rfl⟩
  | @publish i v hv =>
    have hshown := h.project (groupTree_iff.2 ⟨_, (hw.mirrors i).rooted hv⟩) hv
    have hnet : (w.publish v).readings read shows = (w.readings read shows).send i := by
      simp [World.readings, World.publish, Gossip.Net.send, hshown]
    rw [hnet]
    exact .send i
  | @pull i P ord st hfile hgate hv hst =>
    have hf := hw.files _ hfile
    have hjoin := h.pull ((hw.mirrors i).peerOf hf hgate) hf.entries hv hst
    have hnet : (w.pull i P.peer st.1).readings read shows =
        (w.readings read shows).receive i (shows P.peer) := by
      simp [World.readings, World.pull, Gossip.Net.receive, map_update read,
        map_update (List.map shows), hjoin]
    rw [hnet]
    exact .receive i (List.mem_map_of_mem hfile)

/-- **A run of replicas is a run of gossip.** -/
theorem run (h : Gossips E M read shows) (hM : Lawful M) (hC : ∀ i op m, C i op m → op.Safe m)
    (hw : w.Intact) (hrun : ReplicaRun E M C w w') :
    Gossip.Run (Grows E read C) (w.readings read shows) (w'.readings read shows) := by
  induction hrun with
  | refl => exact .refl
  | tail hrun hs ih => exact ih.tail (h.step (ReplicaRun.intact hM hC hw hrun) hs)

/-- **Along a run nothing read is lost**, nor anything a file that was ingested shows. -/
theorem kept (h : Gossips E M read shows) (hM : Lawful M) (hC : ∀ i op m, C i op m → op.Safe m)
    (hw : w.Fresh) (hrun : ReplicaRun E M C w w') (i : ι) :
    read (w.mirror i) ≤ read (w'.mirror i) ∧ ∀ v ∈ w'.ingested i, shows v ≤ read (w'.mirror i) := by
  have hgossip := h.run hM hC hw.intact hrun
  exact ⟨hgossip.le_state i, fun v hv => hgossip.heard hw.heard i (shows v) (List.mem_map_of_mem hv)⟩

/-- **A replica that, while nobody edits, ingests from each of the others a file with all that other
read** holds the join of what all of them read. -/
theorem agree (h : Gossips E M read shows) (hM : Lawful M) (hC : ∀ i op m, C i op m → op.Safe m)
    (hw : w₀.Fresh) (hedits : ReplicaRun E M C w₀ w)
    (hquiet : ReplicaRun E M (fun _ _ _ => False) w w') {i : ι}
    (hheard : ∀ k, k ≠ i → ∃ v ∈ w'.ingested i, read (w.mirror k) ≤ shows v) :
    IsLUB (Set.range fun k => read (w.mirror k)) (read (w'.mirror i)) := by
  have hgossip := h.run hM hC hw.intact hedits
  have hquiet := h.run hM (fun _ _ _ h => h.elim) (ReplicaRun.intact hM hC hw.intact hedits) hquiet
  have hnone : Grows (ι := ι) E read (fun _ _ _ => False) = fun _ _ _ => False := by
    funext i a b
    simp [Grows]
  rw [hnone] at hquiet
  refine hquiet.agree (hgossip.heard hw.heard) (hgossip.backed hw.backed) (i := i) fun k hk => ?_
  obtain ⟨v, hv, hle⟩ := hheard k hk
  exact ⟨shows v, List.mem_map_of_mem hv, hle⟩

end Gossips

/-! ## Two replicas -/

/-- Two equal replicas. -/
def equalReplicas : World Bool := ⟨fun _ => nestedMirror false, [], fun _ => []⟩

theorem equalReplicas_fresh : equalReplicas.Fresh where
  intact := ⟨fun _ => .inl (nestedMirror_groupTree false), fun _ h => absurd h List.not_mem_nil⟩
  files := rfl
  ingested _ := rfl

/-- One of them edits. -/
theorem equalReplicas_edit {op : EngineOp} (h : (op.run plainEnv (nestedMirror false)).isOk = true) :
    ReplicaRun plainEnv fieldMerge (fun _ o _ => o = op) equalReplicas
      (equalReplicas.edit true (op.next plainEnv (nestedMirror false))) :=
  .single (.mutate rfl (EngineOp.run_next h))

/-- What the other one holds after it ingested the first one's state `A`. -/
def spreadTo (A : Mirror) : Mirror :=
  (afterPull fieldMerge .insertion "phone" (.atSecond 50) (view A) (nestedMirror false)).1

/-- The first one, with the state `A`, publishes it and the other one ingests the file. -/
def World.spread (w : World Bool) (A : Mirror) : World Bool :=
  ((w.edit true A).publish (view A)).pull false (view A) (spreadTo A)

theorem equalReplicas_spread {C : Bool → EngineOp → Mirror → Prop} {A : Mirror}
    (hproject : A.project.isOk = true) (hgate : ensureSameReplica (view A) (nestedMirror false) = .ok ())
    (hpull : (ingestPeer fieldMerge .insertion
      ⟨"phone", view (nestedMirror false), view A, .atSecond 50⟩ (nestedMirror false)).isOk = true) :
    ReplicaRun plainEnv fieldMerge C (equalReplicas.edit true A) (equalReplicas.spread A) := by
  refine .tail (.single (.publish (i := true) (project_view hproject))) ?_
  exact .pull (P := ⟨"phone", view (nestedMirror false), view A, .atSecond 50⟩) List.mem_cons_self hgate
    (project_view (m := nestedMirror false) (by decide)) (ingestPeer_afterPull hpull)

/-- What the first one holds after it ingested the other one's state `B` in turn. -/
def backTo (A B : Mirror) : Mirror := (afterPull fieldMerge .insertion "desk" (.atSecond 60) (view B) A).1

/-- The other one publishes too, and the first one ingests that. -/
def World.spreadBack (w : World Bool) (A : Mirror) : World Bool :=
  ((w.spread A).publish (view (spreadTo A))).pull true (view (spreadTo A)) (backTo A (spreadTo A))

theorem equalReplicas_spreadBack {C : Bool → EngineOp → Mirror → Prop} {A : Mirror}
    (hproject : A.project.isOk = true) (hback : (spreadTo A).project.isOk = true)
    (hgate : ensureSameReplica (view (spreadTo A)) A = .ok ())
    (hpull : (ingestPeer fieldMerge .insertion
      ⟨"desk", view A, view (spreadTo A), .atSecond 60⟩ A).isOk = true) :
    ReplicaRun plainEnv fieldMerge C (equalReplicas.spread A) (equalReplicas.spreadBack A) := by
  refine .tail (.single (.publish (i := false) (project_view hback))) ?_
  exact .pull (P := ⟨"desk", view A, view (spreadTo A), .atSecond 60⟩) List.mem_cons_self hgate
    (project_view (m := A) hproject) (ingestPeer_afterPull hpull)

end KeysCore.Verify
