import KeysCore.Verify.IconPools
import KeysCore.Verify.Knowledge

/-!
# Vaults that never mix

The gate of `ensure_same_replica` compares the root of the peer and its test-vault marker with those of
the replica. Neither changes along a run (`EngineOp.run_rooted`, `ReplicaRun.lineage`), except that a
replica may lose all of its groups and its root with them, after which it shows no file and the gate lets
none through to it. So the gate splits the replicas and the files by their identity once and for all:
erase all those of other identities from a run, and what is left is a run (`quarantine`).
-/

namespace KeysCore.Verify

open Lib Lib.Forest

/-! ## The root -/

theorem setParent_rooted {m m' : Mirror} {u p r : Uuid} {f : GroupRow → GroupRow}
    {hu : ∀ r, (f r).uuid = r.uuid} (h : m.setParent u p f hu = .ok m') (hmem : u ∈ m.groups.keys)
    (hr : RootedAt m r) (hreach : ¬ Reach m.parentOf p u) : RootedAt m' r := by
  obtain ⟨hp, hkeys, hpar⟩ := setParent_ok h hmem
  unfold RootedAt
  rw [hkeys, hpar]
  exact hr.setParent hp hreach

/-- **A mutation that keeps the tree keeps its root.** -/
theorem StructuralOp.run_rooted {m m' : Mirror} {r : Uuid} {op : StructuralOp} (h : op.run m = .ok m')
    (hsafe : op.Safe m) (hr : RootedAt m r) : RootedAt m' r := by
  have same : SameParents m m' → RootedAt m' r := fun h => h.rooted hr
  cases run_commits h with
  | createGroup hp hins => exact insertGroup_rooted hins rfl hp hr
  | moveGroup hu hreach hset => exact setParent_rooted hset hu hr hreach
  | recycleGroup hu hbin hset => exact setParent_rooted hset hu hr (hsafe _ hbin)
  | reorderGroup =>
    exact same ((SameParents.renumber _ 0 m).trans (SameParents.updateGroups _ _ _ _ _))
  | deleteGroup _ hdel =>
    refine (deleteGroupRecursive_rows hdel).rooted hr fun hmem => ?_
    rw [← List.mem_singleton.1 hmem] at hsafe
    exact hsafe hr.root_par
  | noBin => exact hr
  | @emptyBin bin now st hbin hst =>
    have hrem := foldlM_removesBelow (fun st c st' hc => deleteGroupRecursive_rows hc) hst
    have hroot : RootedAt st.1 r := hrem.rooted hr fun hmem => by
      have := childGroups_parent hmem
      rw [show m.parentOf r = none from hr.root_par] at this
      cases this
    exact (SameParents.of_groups (deleteDirectChildEntries_groups now bin bin st)).rooted hroot
  | @setBin _ u _ =>
    exact same ((SameParents.writeRecycleBinGroup m u).trans (.of_groups rfl))
  | clearBin => exact same ((SameParents.clearRecycleBinGroup m).trans (.of_groups rfl))
  | moveEntry _ hplace => exact same (.of_groups (placeEntry_groups hplace))
  | inBin => exact hr
  | recycled _ _ _ hplace => exact same (.of_groups (placeEntry_groups hplace))
  | recycledNew _ _ _ _ hnew hplace =>
    exact (SameParents.of_groups (placeEntry_groups hplace)).rooted (createRecycleBinGroup_rooted hnew hr)
  | deleted => exact same (.of_groups rfl)
  | restored _ _ _ hplace => exact same (.of_groups (placeEntry_groups hplace))
  | unflagged => exact same (.of_groups rfl)
  | outside => exact hr

theorem EngineOp.run_rooted {E : EngineEnv} {m m' : Mirror} {r : Uuid} {op : EngineOp}
    (h : op.run E m = .ok m') (hsafe : op.Safe m) (hr : RootedAt m r) : RootedAt m' r := by
  have same : m'.groups = m.groups → RootedAt m' r := fun hg => (SameParents.of_groups hg).rooted hr
  cases run_commits h with
  | structural h => exact StructuralOp.run_rooted h (hsafe _ rfl) hr
  | @updateGroup u upd now =>
    have hsp := SameParents.updateGroups m (fun g => g.uuid = u) (Mirror.applyGroupUpdate upd now)
      (fun _ => rfl) (fun _ => rfl)
    exact (hsp.trans (c := Mirror.bump _ _) (.of_groups rfl)).rooted hr
  | createEntry h => exact same (createEntry_row h).1.groups
  | editEntry h => exact same (EntryEdit.run_editsRow h).rowOnly.groups
  | deleteEntry => exact same rfl
  | binPresent => exact hr
  | binCreated _ _ h => exact createRecycleBinGroup_rooted h hr
  | binDisabled => exact hr
  | iconPresent => exact hr
  | iconAdded => exact same rfl
  | setHistoryMaxItems => exact same rfl
  | setHistoryMaxSize => exact same rfl

/-! ## Identities -/

/-- What the gate compares: the root of the vault, and whether it is a test vault. -/
structure Lineage where
  root : Uuid
  test : Bool
deriving DecidableEq

def lineage (v : Vault) : Lineage := ⟨v.root.id, isMarked v.metadata.customData⟩

/-- The mirror is of the lineage `c`, or it was before it lost all of its groups. -/
structure OfLineage (c : Lineage) (m : Mirror) : Prop where
  root : ReplicaOf c.root m
  test : m.isTestVault = c.test

theorem isTestVault_of_data {m m' : Mirror}
    (h : m'.settings.customData = m.settings.customData) : m'.isTestVault = m.isTestVault := by
  rw [Mirror.isTestVault, h, Mirror.isTestVault]

theorem project_isMarked {m : Mirror} {v : Vault} (hv : m.project = .ok v) :
    isMarked v.metadata.customData = m.isTestVault := by
  obtain ⟨-, g, -, rfl⟩ := project_ok hv
  show isMarked (List.map _ _) = _
  rw [isMarked, List.any_map]
  exact (List.perm_insertionSort _ _).any_eq

/-- A mirror that projects shows its lineage. -/
theorem OfLineage.project {c : Lineage} {m : Mirror} {v : Vault} (h : OfLineage c m)
    (hv : m.project = .ok v) : lineage v = c := by
  have hr := h.root.rooted hv
  rw [lineage, project_isMarked hv, h.test, (project_attaches (groupTree_iff.2 ⟨_, hr⟩) hv).root_eq hr]

/-- **The gate lets through files of the replica's own lineage only.** -/
theorem OfLineage.gate {c : Lineage} {m : Mirror} {peer : Vault} (h : OfLineage c m)
    (hgate : ensureSameReplica peer m = .ok ()) : lineage peer = c := by
  obtain ⟨hroot, hmark⟩ := ensureSameReplica_ok hgate
  rcases h.root with hr | hno
  · rw [GroupTree.rootUuid? hr, Option.some.injEq] at hroot
    rw [lineage, ← hmark, h.test, ← hroot]
  · rw [rootUuid?_of_no_groups hno] at hroot
    cases hroot

theorem OfLineage.mutate {c : Lineage} {E : EngineEnv} {m m' : Mirror} {op : EngineOp}
    (h : OfLineage c m) (hsafe : op.Safe m) (hop : op.run E m = .ok m') : OfLineage c m' := by
  refine ⟨h.root.imp (EngineOp.run_rooted hop hsafe) fun hno => EngineOp.run_no_groups hno hop, ?_⟩
  rw [← h.test]
  rcases EngineOp.run_lists hop with hsame | ⟨_, _, _, -, -, hdata, -⟩
  · exact isTestVault_of_data hsame.data
  · exact isTestVault_of_data hdata

theorem OfLineage.pull {c : Lineage} {M : MergeLib} {ord : HashOrder} {P : PeerPull} {m : Mirror}
    {st : Mirror × IngestPeerOutcome} (hM : Lawful M) (h : OfLineage c m) (hpeer : PeerOf m P.peer)
    (hgate : ensureSameReplica P.peer m = .ok ()) (hst : ingestPeer M ord P m = .ok st) :
    OfLineage c st.1 := by
  refine ⟨?_, (isTestVault_of_data (ingestPeer_lists hM hst).1).trans h.test⟩
  rw [← h.gate hgate]
  exact ingestPeer_rooted hM hpeer hst

/-! ## Erasing the others -/

section Runs

variable {ι : Type} [DecidableEq ι] {E : EngineEnv} {M : MergeLib} {C : ι → EngineOp → Mirror → Prop}
  {w w' : World ι} {c : ι → Lineage}

/-- **Every replica keeps its lineage.** -/
theorem ReplicaRun.lineage (hM : Lawful M) (hC : ∀ i op m, C i op m → op.Safe m) (hw : w.Intact)
    (hc : ∀ i, OfLineage (c i) (w.mirror i)) (hrun : ReplicaRun E M C w w') (i : ι) :
    OfLineage (c i) (w'.mirror i) :=
  (ReplicaRun.invariant hM hC (I := fun i => OfLineage (c i)) (F := fun _ => True)
    (fun _ _ _ _ hop h hm => hm.mutate (hC _ _ _ hop) h) (fun _ _ _ _ _ => trivial)
    (fun _ _ _ _ _ hpeer hgate hst hm _ => hm.pull hM hpeer hgate hst) hw hc (fun _ _ => trivial)
    hrun).1 i

/-- The replicas and the files of the lineage `d`, without the others. -/
def World.only (c : ι → Lineage) (d : Lineage) (w : World ι) : World {i // c i = d} :=
  ⟨fun i => w.mirror i, w.files.filter fun v => Verify.lineage v = d, fun i => w.ingested i⟩

theorem update_subtype {α : Type} {p : ι → Prop} (g : ι → α) {i : ι} (hi : p i) (a : α) :
    (fun j : {i // p i} => Function.update g i a j) =
      Function.update (fun j : {i // p i} => g j) ⟨i, hi⟩ a := by
  funext j
  simp only [Function.update_apply, Subtype.ext_iff]

theorem update_outside {α : Type} {p : ι → Prop} (g : ι → α) {i : ι} (hi : ¬ p i) (a : α) :
    (fun j : {i // p i} => Function.update g i a j) = fun j : {i // p i} => g j := by
  funext j
  rw [Function.update_of_ne]
  rintro rfl
  exact hi j.2

/-- A step of one of the replicas kept is a step without the others, and a step of another is none. -/
theorem ReplicaStep.only {d : Lineage} (hc : ∀ i, OfLineage (c i) (w.mirror i))
    (hs : ReplicaStep E M C w w') :
    ReplicaRun E M (fun i : {i // c i = d} => C i) (w.only c d) (w'.only c d) := by
  cases hs with
  | @mutate i op m hop hm =>
    by_cases hi : c i = d
    · have hnet : (w.edit i m).only c d = (w.only c d).edit ⟨i, hi⟩ m := by
        simp [World.only, World.edit, update_subtype (p := (c · = d)) w.mirror hi]
      rw [hnet]
      exact .single (.mutate hop hm)
    · have hnet : (w.edit i m).only c d = w.only c d := by
        simp [World.only, World.edit, update_outside (p := (c · = d)) w.mirror hi]
      rw [hnet]
  | @publish i v hv =>
    have hline := (hc i).project hv
    by_cases hi : c i = d
    · have hnet : (w.publish v).only c d = (w.only c d).publish v := by
        simp [World.only, World.publish, hline, hi]
      rw [hnet]
      exact .single (.publish (i := (⟨i, hi⟩ : {i // c i = d})) hv)
    · have hnet : (w.publish v).only c d = w.only c d := by
        simp [World.only, World.publish, hline, hi]
      rw [hnet]
  | @pull i P ord st hfile hgate hv hst =>
    have hline := (hc i).gate hgate
    by_cases hi : c i = d
    · have hnet : (w.pull i P.peer st.1).only c d =
          (w.only c d).pull ⟨i, hi⟩ P.peer st.1 := by
        simp [World.only, World.pull, update_subtype (p := (c · = d)) w.mirror hi,
          update_subtype (p := (c · = d)) w.ingested hi]
      rw [hnet]
      refine .single (.pull (i := (⟨i, hi⟩ : {i // c i = d})) ?_ hgate hv hst)
      exact List.mem_filter.2 ⟨hfile, by simp [hline, hi]⟩
    · have hnet : (w.pull i P.peer st.1).only c d = w.only c d := by
        simp [World.only, World.pull, update_outside (p := (c · = d)) w.mirror hi,
          update_outside (p := (c · = d)) w.ingested hi]
      rw [hnet]

/-- **Vaults of different lineages never mix.** Whatever a run does with replicas and files of any
lineages side by side, every replica keeps its lineage, the root up to the loss of all of its groups; and
the replicas of one lineage go through a run of their own among the files of that lineage: the other
vaults, and the test copies of this one, might as well not exist. -/
theorem quarantine (hM : Lawful M) (hC : ∀ i op m, C i op m → op.Safe m) (hw : w.Intact)
    (hc : ∀ i, OfLineage (c i) (w.mirror i)) (hrun : ReplicaRun E M C w w') :
    (∀ i, OfLineage (c i) (w'.mirror i)) ∧
      ∀ d, ReplicaRun E M (fun i : {i // c i = d} => C i) (w.only c d) (w'.only c d) := by
  refine ⟨ReplicaRun.lineage hM hC hw hc hrun, fun d => ?_⟩
  induction hrun with
  | refl => exact .refl
  | tail hrun hs ih => exact ih.trans (hs.only (ReplicaRun.lineage hM hC hw hc hrun))

end Runs

/-! ## A vault and its test copy -/

/-- The copy of the vault that is marked as a test vault. -/
def testCopy : Mirror :=
  { nestedMirror false with
    settings := { customData := ⟨[⟨"KeysTestVault", "1", none⟩], by simp⟩ } }

/-- The test copy after it deleted the entry `9`. -/
def testDeleted : Mirror := (EngineOp.deleteEntry 9 (.atSecond 40)).next plainEnv testCopy

/-- The vault, and its test copy. -/
def vaultAndCopy : World Bool := ⟨fun test => if test then testCopy else nestedMirror false, [], fun _ => []⟩

theorem vaultAndCopy_lineage (i : Bool) : OfLineage ⟨1, i⟩ (vaultAndCopy.mirror i) := by
  have hroot : ReplicaOf 1 (nestedMirror false) := by
    obtain ⟨r, hr⟩ := groupTree_iff.1 (nestedMirror_groupTree false)
    rw [rootUuid?_rooted hr (u := 1) (by decide)]
    exact .inl hr
  cases i with
  | false => exact ⟨hroot, rfl⟩
  | true => exact ⟨hroot.imp (SameParents.of_groups rfl).rooted id, by decide⟩

theorem vaultAndCopy_intact : vaultAndCopy.Intact where
  mirrors i := (vaultAndCopy_lineage i).root.imp_left fun h => groupTree_iff.2 ⟨_, h⟩
  files _ h := absurd h List.not_mem_nil

/-- The test copy deletes the entry and publishes that: for the vault nothing has happened. -/
theorem quarantine_testDeleted :
    let d : Lineage := ⟨1, false⟩
    let w := (vaultAndCopy.edit true testDeleted).publish (view testDeleted)
    (∀ i, OfLineage ⟨1, i⟩ (w.mirror i)) ∧
      ReplicaRun plainEnv fieldMerge (fun _ op _ => op = .deleteEntry 9 (.atSecond 40))
        (vaultAndCopy.only (fun i => ⟨1, i⟩) d) (w.only (fun i => ⟨1, i⟩) d) ∧
      (w.only (fun i => ⟨1, i⟩) d).files = [] ∧
      ensureSameReplica (view testDeleted) (nestedMirror false) =
        .error (.testVaultMarkerMismatch false true) := by
  intro d w
  have hrun : ReplicaRun plainEnv fieldMerge (fun _ op _ => op = .deleteEntry 9 (.atSecond 40))
      vaultAndCopy w :=
    .tail (.single (.mutate (i := true) rfl (EngineOp.run_next (m := testCopy) (by decide))))
      (.publish (i := true) (project_view (m := testDeleted) (by decide +kernel)))
  obtain ⟨hlineage, honly⟩ := quarantine fieldMerge_lawful safe_of_deletes vaultAndCopy_intact
    vaultAndCopy_lineage hrun
  refine ⟨hlineage, honly d, ?_, by decide +kernel⟩
  have hne : lineage (view testDeleted) ≠ d := by decide +kernel
  simp [w, World.only, World.publish, World.edit, vaultAndCopy, hne]

end KeysCore.Verify
