import Mathlib.Data.Set.Lattice
import Mathlib.Order.ConditionallyCompleteLattice.Basic
import KeysCore.Lib.Gossip
import KeysCore.Verify.FieldMerge
import KeysCore.Verify.ReplicaRuns

/-!
# What replicas know

The uuids a replica has a record of, as a live group or entry or as a deleted object (`known`). A pull
joins the peer's into the replica's (`ingestPeer_known`) and a mutation adds those it creates
(`EngineOp.run_known`), so replicas gossip them: no object is ever forgotten (`replica_run_known`), and
replicas that heard of each other agree on what there is and was (`quiet_replicas_agree`).
-/

namespace KeysCore.Verify

open Lib

/-- The uuids a mirror has a record of. -/
def known (m : Mirror) : Set Uuid :=
  {u | u ∈ m.groups.keys ∨ u ∈ m.entries.keys ∨ u ∈ m.tombstones.keys}

/-- The uuids a file has a record of. -/
def shown (v : Vault) : Set Uuid :=
  {u | u ∈ v.groups.map (·.info.id) ∨ u ∈ v.entries.map (·.id) ∨ u ∈ v.deletedObjects.map (·.uuid)}

/-! ## Projections -/

theorem mem_deleted_iff {deleted : List DeletedObject} {u : Uuid} :
    u ∈ deleted.map (·.uuid) ↔ (tombstoneTime deleted u).isSome := by
  constructor
  · intro hu
    by_contra hn
    rw [Option.not_isSome_iff_eq_none, tombstoneTime] at hn
    obtain ⟨d, hd, rfl⟩ := List.mem_map.1 hu
    have hmem : d ∈ deleted.filter (·.uuid = d.uuid) := List.mem_filter.2 ⟨hd, by simp⟩
    revert hmem hn
    induction deleted.filter (·.uuid = d.uuid) using List.reverseRecOn with
    | nil => simp
    | append_singleton l x _ => simp
  · intro hs
    by_contra hn
    rw [tombstoneTime_none hn] at hs
    cases hs

/-- A projection shows what the mirror knows. -/
theorem project_shown {m : Mirror} {v : Vault} (ht : GroupTree m) (hv : m.project = .ok v) :
    shown v = known m := by
  have ha := project_attaches ht hv
  ext u
  have hgroups : u ∈ v.groups.map (·.info.id) ↔ u ∈ m.groups.keys := by
    have h := (ha.groups.map fun g => g.1.id).mem_iff (a := u)
    rwa [List.map_map, List.map_map] at h
  have htomb : u ∈ v.deletedObjects.map (·.uuid) ↔ u ∈ m.tombstones.keys := by
    rw [mem_deleted_iff, project_tombstoneTime hv, Option.isSome_map, Table.find?_isSome]
  simp only [shown, known, Set.mem_ofPred_eq, hgroups, ha.mem_entry_ids, htomb]

/-! ## A pull -/

/-- A group that goes in the last pass leaves its tombstone. -/
theorem materializeGroupTombstones_known {st st' : Mirror × IngestPeerOutcome}
    (h : materializeGroupTombstones st = .ok st') {u : Uuid} (hu : u ∈ st.1.groups.keys) :
    u ∈ st'.1.groups.keys ∨ u ∈ st'.1.tombstones.keys := by
  unfold materializeGroupTombstones at h
  obtain ⟨m, hm, h⟩ := except_bind_ok.1 h
  obtain rfl := Except.ok.inj h
  by_cases hdead : u ∈ st.1.deadGroups
  · right
    obtain ⟨htomb, hlive⟩ := List.mem_filter.1 ((List.mem_insertionSort _).1 hdead)
    show u ∈ m.tombstones.keys
    rw [(deleteGroupRows_same hm).1.tombstones, mem_removeTombstones]
    refine ⟨by simpa using (List.mem_filter.1 htomb).2, fun halive => ?_⟩
    simp [(List.mem_filter.1 halive).2] at hlive
  · left
    refine (deleteGroupRows_keys hm u).2 ⟨?_, hdead⟩
    rwa [(removeTombstones_spec _ st.1).1.groups]

section Pull

variable {M : MergeLib} {ord : HashOrder} {P : PeerPull} {m : Mirror} {st : Mirror × IngestPeerOutcome}

/-- **A group the pull has met is known after it.** -/
theorem ingestPeer_group_known (hM : Lawful M) (h : ingestPeer M ord P m = .ok st)
    {st₁ : Mirror × IngestPeerOutcome} (h₁ : reconcilePeerGroups ord P.peer (m, {}) = .ok st₁)
    {u : Uuid} (hu : u ∈ st₁.1.groups.keys) : u ∈ known st.1 := by
  unfold ingestPeer at h
  obtain ⟨st₁', h₁', h⟩ := except_bind_ok.1 h
  rw [h₁, Except.ok.injEq] at h₁'
  subst h₁'
  obtain ⟨st₂, h₂, h⟩ := except_bind_ok.1 h
  obtain ⟨st₄, h₄, h⟩ := except_bind_ok.1 h
  obtain rfl := Except.ok.inj h
  have hgroups : st₂.1.groups = st₁.1.groups :=
    foldlM_rel (R := fun a b : Mirror × IngestPeerOutcome => b.1.groups = a.1.groups)
      (fun _ => rfl) (fun h h' => h'.trans h)
      (fun _ _ _ _ hs => (ingestEntry_touches hM hs).1.groups) h₂
  have hu₃ : u ∈ (unionPeerCustomIcons P.peer.metadata.customIcons
      (unionPeerTombstones P.peer.deletedObjects (P.reconcilePeerDeletes st₂).1)).groups.keys := by
    rw [(unionPeerCustomIcons_same _ _).1.groups, (unionPeerTombstones_spec _ _).1.groups,
      (reconcilePeerDeletes_spec (P := P) st₂).1, hgroups]
    exact hu
  obtain ⟨-, hft, -, hfl⟩ := reconcilePeerMeta_same P.localVault.metadata (P.mergedMeta M) st₄.1
  refine (materializeGroupTombstones_known h₄ hu₃).imp (fun hg => ?_) fun ht => .inr ?_
  · rw [← locationOf_isSome, hfl u, locationOf_isSome]
    exact hg
  · show u ∈ (reconcilePeerMeta _ _ st₄.1).tombstones.keys
    rw [hft]
    exact ht

/-- The groups after the group pass are those of both sides. -/
theorem reconcile_keys_iff (hpeer : PeerOf m P.peer) {out : IngestPeerOutcome}
    {st₁ : Mirror × IngestPeerOutcome} (h₁ : reconcilePeerGroups ord P.peer (m, out) = .ok st₁)
    (u : Uuid) :
    u ∈ st₁.1.groups.keys ↔ u ∈ m.groups.keys ∨ u ∈ P.peer.groups.map (·.info.id) := by
  obtain ⟨st', hst', -, -, hfind⟩ :=
    hpeer.reconcile_spec ord out ((hpeer.reconcile_ok_iff ord out).1 ⟨st₁, h₁⟩)
  rw [h₁, Except.ok.injEq] at hst'
  subst hst'
  rw [← Table.find?_isSome, hfind u, mergedRow, Option.isSome_map, Option.isSome_map,
    Option.isSome_or, Bool.or_eq_true, Table.find?_isSome, adoptedRow, Option.isSome_map,
    List.find?_isSome, groups_eq_cons]
  simp only [decide_eq_true_eq, List.map_cons, List.mem_cons, List.mem_map]
  have hroot := hpeer.rooted.root_mem
  constructor
  · exact Or.imp_right .inr
  · rintro (hu | rfl | hu)
    · exact .inl hu
    · exact .inl hroot
    · exact .inr hu

theorem mem_tombstoneAfter {live : Bool} {u : Uuid} {old : Option TombstoneRow} :
    (tombstoneAfter P live u old).isSome ↔
      old.isSome ∨ live = false ∧ u ∈ P.peer.deletedObjects.map (·.uuid) := by
  rw [mem_deleted_iff, tombstoneAfter]
  cases tombstoneTime P.peer.deletedObjects u with
  | none => simp
  | some t => cases live <;> simp

/-- What is left of an object that is no group: it is live, or its tombstone of either side is. -/
theorem known_of_tombstoneAfter {u : Uuid} (hg : u ∉ st.1.groups.keys) {old : Option TombstoneRow}
    (ht : st.1.tombstones.find? u = tombstoneAfter P (st.1.entryExists u) u old) :
    u ∈ known st.1 ↔ u ∈ st.1.entries.keys ∨ old.isSome ∨ u ∈ P.peer.deletedObjects.map (·.uuid) := by
  have hlive : st.1.entryExists u = false ↔ u ∉ st.1.entries.keys := by
    rw [Mirror.entryExists, ← Table.find?_isSome, Bool.not_eq_true]
  have htomb : u ∈ st.1.tombstones.keys ↔ (st.1.tombstones.find? u).isSome := Table.find?_isSome.symm
  show u ∈ st.1.groups.keys ∨ _ ∨ u ∈ st.1.tombstones.keys ↔ _
  rw [htomb, ht, mem_tombstoneAfter, hlive, or_iff_right hg]
  by_cases hu : u ∈ st.1.entries.keys <;> simp [hu]

/-- **A pull leaves what either side had a record of, and nothing else.** -/
theorem ingestPeer_known (hM : Lawful M) (hpeer : PeerOf m P.peer)
    (hnd : (P.peer.entries.map (·.id)).Nodup) (hv : m.project = .ok P.localVault)
    (h : ingestPeer M ord P m = .ok st) : known st.1 = known m ∪ shown P.peer := by
  have ha := project_attaches (groupTree_iff.2 ⟨_, hpeer.rooted⟩) hv
  obtain ⟨st₁, -, h₁, -, -, -, -, -, -, -, -, -, -, hloc⟩ := ingestPeer_steps hM h
  have hkeys := reconcile_keys_iff hpeer h₁
  have hlocal : ∀ u, P.localEntry u = (m.entries.find? u).map (·.toEntry) := ha.localEntry rfl
  have htime : ∀ u, (tombstoneTime P.localVault.deletedObjects u).isSome ↔ u ∈ m.tombstones.keys :=
    fun u => by rw [project_tombstoneTime hv, Option.isSome_map, Table.find?_isSome]
  ext u
  by_cases hg₁ : u ∈ st₁.1.groups.keys
  · have hboth : u ∈ known m ∪ shown P.peer := ((hkeys u).1 hg₁).imp .inl .inl
    exact iff_of_true (ingestPeer_group_known hM h h₁ hg₁) hboth
  have hg : u ∉ st.1.groups.keys := by
    rw [← locationOf_isSome] at hg₁ ⊢
    rcases hloc u with e | e
    · simp [e]
    · rwa [e]
  have hsides := (not_congr (hkeys u)).1 hg₁
  rw [not_or] at hsides
  suffices u ∈ known st.1 ↔ (u ∈ m.entries.keys ∨ u ∈ m.tombstones.keys) ∨
      u ∈ P.peer.entries.map (·.id) ∨ u ∈ P.peer.deletedObjects.map (·.uuid) by
    rw [this]
    show _ ↔ (u ∈ m.groups.keys ∨ _) ∨ (u ∈ P.peer.groups.map (·.info.id) ∨ _)
    rw [or_iff_right hsides.1, or_iff_right hsides.2]
  by_cases hu : u ∈ P.peer.entries.map (·.id)
  · have hmem := hu
    rw [← entriesWithParent_map_fst, List.map_map] at hu
    obtain ⟨⟨p, parent⟩, hpe, rfl⟩ := List.mem_map.1 hu
    change p.id ∉ _ at hg₁
    refine iff_of_true ?_ (.inr (.inl hmem))
    cases hl : P.localEntry p.id with
    | some l =>
      obtain ⟨_, -, hshared⟩ := ingestPeer_shared hM hnd hpe hl h
      obtain ⟨result, -, hrow⟩ := hshared.row
      have hrow : (st.1.entries.find? p.id).isSome := by
        rw [hlocal, Option.map_eq_some_iff] at hl
        obtain ⟨row, hfind, -⟩ := hl
        rw [hrow, hfind]
        rfl
      exact .inr (.inl (Table.find?_isSome.1 hrow))
    | none =>
      obtain ⟨st₁', h₁', hside⟩ := ingestPeer_peerOnly hM hnd hpe hl h
      rw [h₁, Except.ok.injEq] at h₁'
      subst h₁'
      rcases hside with ⟨hblocked, -, ht⟩ | ⟨-, hrow, -⟩
      · refine (known_of_tombstoneAfter hg (ht hg₁)).2 (.inr (.inl ?_))
        obtain ⟨d, hd, -⟩ := hblocked
        rw [Table.find?_isSome, ← htime, hd]
        rfl
      · refine .inr (.inl (Table.find?_isSome.1 ?_))
        show (st.1.entries.find? p.id).isSome
        rw [hrow]
        rfl
  · obtain ⟨st₁', h₁', hrow, ht⟩ := ingestPeer_absent hM hu h
    rw [h₁, Except.ok.injEq] at h₁'
    subst h₁'
    rw [known_of_tombstoneAfter hg (ht hg₁), Table.find?_isSome, ← Table.find?_isSome, hrow]
    split
    · -- the peer deleted the entry, so it shows a tombstone
      rename_i hdel
      obtain ⟨l, d, -, hd, -⟩ := hdel
      have hshown : u ∈ P.peer.deletedObjects.map (·.uuid) := by
        rw [mem_deleted_iff, hd]
        rfl
      simp [hshown]
    · rw [Table.find?_isSome]
      tauto

end Pull

/-! ## Mutations -/

/-- The uuids a mutation creates. -/
def Footprint.created (f : Footprint) : Set Uuid := {u | u ∈ f.createdEntry ∨ u ∈ f.createdGroup}

/-- What a mutation removes is there. -/
def Footprint.Removes (f : Footprint) (m : Mirror) : Prop :=
  ∀ u, f.removedEntry u ∨ f.removedGroup u → u ∈ known m

theorem below_mem {m : Mirror} {cs : List Uuid} {u : Uuid} (hcs : ∀ c ∈ cs, c ∈ m.groups.keys)
    (h : Below m.groups cs u) : u ∈ m.groups.keys := by
  obtain ⟨c, hc, k, hk⟩ := h
  cases k with
  | zero => exact Option.some.inj hk ▸ hcs c hc
  | succ k =>
    cases hp : parentIn m.groups u with
    | none => simp [Forest.up, hp] at hk
    | some p => exact (mem_keys_of_parentOf hp).1

theorem Footprint.Removes.subtrees {m : Mirror} {cs : List Uuid} (hcs : ∀ c ∈ cs, c ∈ m.groups.keys) :
    (Footprint.subtrees m cs).Removes m := by
  rintro u (⟨e, he, rfl, -⟩ | hu)
  · exact .inr (.inl (Table.key_mem he))
  · exact .inl (below_mem hcs hu)

theorem Footprint.Removes.of_none {f : Footprint} (he : ∀ u, ¬ f.removedEntry u)
    (hg : ∀ u, ¬ f.removedGroup u) (m : Mirror) : f.Removes m :=
  fun u h => (h.elim (he u) (hg u)).elim

theorem Footprint.Removes.recycle {m : Mirror} {u bin : Uuid} {now : EpochMs} {row : EntryRow}
    (hrow : m.entries.find? u = some row) :
    ((StructuralOp.recycleEntry u now bin).footprint m).Removes m := by
  simp only [StructuralOp.footprint, hrow]
  intro v hv
  split at hv
  · simp at hv
  · simp only [Footprint.bin, or_false] at hv
    exact .inr (.inl (hv.1 ▸ Table.exists_find?.1 ⟨_, hrow⟩))

theorem StructuralOp.removes_known {m m' : Mirror} {op : StructuralOp} (h : op.run m = .ok m') :
    (op.footprint m).Removes m := by
  cases run_commits h with
  | deleteGroup hrow _ =>
    refine .subtrees fun c hc => ?_
    rw [List.mem_singleton.1 hc]
    exact Table.exists_find?.1 ⟨_, hrow⟩
  | noBin hbin =>
    simp only [footprint, hbin]
    exact .of_none (fun _ => id) (fun _ => id) m
  | emptyBin hbin _ =>
    simp only [footprint, hbin]
    rintro u (⟨e, he, rfl, -⟩ | hu)
    · exact .inr (.inl (Table.key_mem he))
    · exact .inl (below_mem (fun c hc => (mem_keys_of_parentOf (childGroups_parent hc)).1) hu)
  | inBin hrow _ => exact .recycle hrow
  | recycled hrow _ _ _ => exact .recycle hrow
  | recycledNew hrow _ _ _ _ _ => exact .recycle hrow
  | deleted hrow _ _ _ => exact .recycle hrow
  | _ => exact .of_none (fun _ => id) (fun _ => id) m

theorem EngineOp.removes_known {E : EngineEnv} {m m' : Mirror} {op : EngineOp} (h : op.run E m = .ok m') :
    (op.footprint m).Removes m := by
  cases op with
  | structural op => exact StructuralOp.removes_known h
  | deleteEntry u now =>
    obtain ⟨⟨a, v⟩, ha, -⟩ := except_map_ok.1 h
    unfold Mirror.deleteEntry at ha
    split at ha
    · cases ha
    · rename_i row hrow
      intro v hv
      obtain rfl : v = u := hv.resolve_right id
      exact .inr (.inl (Table.exists_find?.1 ⟨row, hrow⟩))
  | _ => exact .of_none (fun _ => id) (fun _ => id) m

/-- **A mutation adds what it creates.** What it deletes leaves a tombstone. -/
theorem EngineOp.run_known {E : EngineEnv} {m m' : Mirror} {op : EngineOp} (h : op.run E m = .ok m') :
    known m' = known m ∪ (op.footprint m).created := by
  have hl := EngineOp.run_leaves h
  have hrem := EngineOp.removes_known h
  ext u
  constructor
  · rintro (hu | hu | hu)
    · exact ((hl.groups u).1 hu).elim (fun h => .inr (.inr h)) fun h => .inl (.inl h.1)
    · exact ((hl.entries u).1 hu).elim (fun h => .inr (.inl h)) fun h => .inl (.inr (.inl h.1))
    · exact ((hl.tombstones u).1 hu).elim (fun h => .inl (.inr (.inr h))) fun h => .inl (hrem u h)
  · rintro ((hu | hu | hu) | hu | hu)
    · by_cases hr : (op.footprint m).removedGroup u
      · exact .inr (.inr ((hl.tombstones u).2 (.inr (.inr hr))))
      · exact .inl ((hl.groups u).2 (.inr ⟨hu, hr⟩))
    · by_cases hr : (op.footprint m).removedEntry u
      · exact .inr (.inr ((hl.tombstones u).2 (.inr (.inl hr))))
      · exact .inr (.inl ((hl.entries u).2 (.inr ⟨hu, hr⟩)))
    · exact .inr (.inr ((hl.tombstones u).2 (.inl hu)))
    · exact .inr (.inl ((hl.entries u).2 (.inl hu)))
    · exact .inl ((hl.groups u).2 (.inl hu))

/-! ## Runs -/

/-- What replicas know gossips. -/
theorem known_gossips {E : EngineEnv} {M : MergeLib} (hM : Lawful M) : Gossips E M known shown where
  project ht hv := project_shown ht hv
  pull hpeer hnd hv h := ingestPeer_known hM hpeer hnd hv h
  mutate h := by
    rw [EngineOp.run_known h]
    exact Set.subset_union_left

variable {ι : Type} [DecidableEq ι]

section Runs

variable {E : EngineEnv} {M : MergeLib} {C : ι → EngineOp → Mirror → Prop} {w₀ w w' : World ι}

/-- **No replica forgets an object, and none makes one up.** Along any run of edits, publications and
pulls in any order, a replica has a record of all it had a record of in any state on the way, and of all
that the files it ingested show; and whatever it has a record of was on some replica at the start, or is
one of the uuids `N` that the edits create. -/
theorem replica_run_known (hM : Lawful M) (hC : ∀ i op m, C i op m → op.Safe m) {N : Set Uuid}
    (hN : ∀ i op m, C i op m → (op.footprint m).created ⊆ N) (hw : w.Fresh)
    (hrun : ReplicaRun E M C w w') (i : ι) :
    (∀ w₁, ReplicaRun E M C w w₁ → ReplicaRun E M C w₁ w' →
        known (w₁.mirror i) ⊆ known (w'.mirror i)) ∧
      (∀ v ∈ w'.ingested i, shown v ⊆ known (w'.mirror i)) ∧
      known (w'.mirror i) ⊆ (⋃ j, known (w.mirror j)) ∪ N := by
  have hold : ∀ w₁, ReplicaRun E M C w w₁ → ReplicaRun E M C w₁ w' →
      known (w₁.mirror i) ⊆ known (w'.mirror i) := fun w₁ hto hfrom =>
    ((known_gossips hM).run hM hC (ReplicaRun.intact hM hC hw.intact hto) hfrom).le_state i
  have hseen := ((known_gossips hM).kept hM hC hw hrun i).2
  have hbelow : Gossip.Below ((⋃ j, known (w.mirror j)) ∪ N) (w.readings known shown) := by
    refine ⟨fun j => ?_, fun x hx => ?_⟩
    · exact (Set.subset_iUnion (fun j => known (w.mirror j)) j).trans Set.subset_union_left
    · simp [World.readings, hw.files] at hx
  have hgossip := (known_gossips hM).run hM hC hw.intact hrun
  refine ⟨hold, hseen, (hgossip.bounded hbelow ?_).state i⟩
  rintro j _ _ ⟨op, m, m', hop, hrun, rfl, rfl⟩ hm
  rw [EngineOp.run_known hrun]
  exact Set.union_subset hm ((hN j op m hop).trans Set.subset_union_right)

/-- **Replicas that heard of each other agree on what there is and was.** After any run of edits and
syncs, a replica that while nobody edits ingests, from each of the others, a file with all that other
knew has a record of exactly what all of them together knew. -/
theorem quiet_replicas_agree (hM : Lawful M) (hC : ∀ i op m, C i op m → op.Safe m) (hw : w₀.Fresh)
    (hedits : ReplicaRun E M C w₀ w) (hquiet : ReplicaRun E M (fun _ _ _ => False) w w') {i : ι}
    (hheard : ∀ k, k ≠ i → ∃ v ∈ w'.ingested i, known (w.mirror k) ⊆ shown v) :
    known (w'.mirror i) = ⋃ k, known (w.mirror k) := by
  have hlub := (known_gossips hM).agree hM hC hw hedits hquiet hheard
  exact hlub.unique (isLUB_iSup (f := fun k => known (w.mirror k)))

end Runs

/-! ## A deletion that spreads -/

/-- What a replica holds after it deleted the entry `9`. -/
def afterDelete : Mirror := (EngineOp.deleteEntry 9 (.atSecond 40)).next plainEnv (nestedMirror false)

theorem safe_of_deletes (_ : Bool) (op : EngineOp) (m : Mirror)
    (h : op = .deleteEntry 9 (.atSecond 40)) : op.Safe m := by
  subst h
  intro o ho
  cases ho

theorem deletes_run : ReplicaRun plainEnv fieldMerge
    (fun _ op _ => op = .deleteEntry 9 (.atSecond 40)) equalReplicas (equalReplicas.edit true afterDelete) :=
  equalReplicas_edit (by decide)

theorem deletion_spreads {C : Bool → EngineOp → Mirror → Prop} : ReplicaRun plainEnv fieldMerge C
    (equalReplicas.edit true afterDelete) (equalReplicas.spread afterDelete) :=
  equalReplicas_spread (by decide +kernel) (by decide +kernel) (by decide +kernel)

theorem replica_run_known_spread :
    known (nestedMirror false) ⊆ known (spreadTo afterDelete) ∧
      known (spreadTo afterDelete) ⊆ (⋃ j, known (equalReplicas.mirror j)) ∪ ∅ ∧
      9 ∉ (spreadTo afterDelete).entries.keys := by
  obtain ⟨hold, -, honly⟩ := replica_run_known fieldMerge_lawful safe_of_deletes (N := ∅)
    (fun _ _ _ h => by simp [h, Footprint.created, EngineOp.footprint]) equalReplicas_fresh
    (deletes_run.trans deletion_spreads) false
  exact ⟨hold equalReplicas .refl (deletes_run.trans deletion_spreads), honly, by decide +kernel⟩

theorem quiet_replicas_agree_spread :
    known (spreadTo afterDelete) = ⋃ k, known ((equalReplicas.edit true afterDelete).mirror k) := by
  refine quiet_replicas_agree (i := false) fieldMerge_lawful safe_of_deletes equalReplicas_fresh
    deletes_run deletion_spreads fun k hk => ?_
  refine ⟨view afterDelete, by simp [World.spread, World.pull], ?_⟩
  obtain rfl : k = true := by simpa using hk
  rw [project_shown (m := afterDelete)]
  · exact subset_rfl
  · exact EngineOp.run_groupTree (nestedMirror_groupTree false)
      (safe_of_deletes true _ _ rfl) (EngineOp.run_next (by decide))
  · exact project_view (by decide +kernel)

end KeysCore.Verify
