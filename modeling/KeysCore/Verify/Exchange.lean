import KeysCore.Verify.Knowledge

/-!
# Two replicas that pull each other

What two replicas hold after each has pulled the other. When both pull the state the other was in
before (`exchange_entries`), and when one pulls first and the other then pulls the result
(`exchange_in_turn`), they hold the same entries: a deletion of one side is weighed against the copy of
the other by the same rule on both. What is in the entries is left to the merge.
-/

namespace KeysCore.Verify

open Lib

/-! ## Which entries a pull leaves -/

section Pull

variable {M : MergeLib} {ord : HashOrder} {P : PeerPull} {m : Mirror} {st : Mirror × IngestPeerOutcome}

/-- The deletion that `deleted` records for `e` outlives it. -/
def Buries (deleted : List DeletedObject) (e : Entry) : Prop :=
  ∃ d, tombstoneTime deleted e.id = some d ∧ liveEditWins e.times.lastModificationTime d = false

/-- The local entry of a uuid is the one entry of the local vault that has it. -/
theorem localEntry_eq_some {v : Vault} (ha : Attached m v) (hP : P.localVault = v) {u : Uuid}
    {l : Entry} : P.localEntry u = some l ↔ l ∈ v.entries ∧ l.id = u := by
  subst hP
  have hmem : ∀ k, P.localEntry u = some k → k ∈ P.localVault.entries := fun k hk => by
    have := List.mem_of_find?_eq_some hk
    rwa [List.mem_reverse] at this
  refine ⟨fun hl => ⟨hmem l hl, localEntry_id hl⟩, ?_⟩
  rintro ⟨hl, hid⟩
  cases hfind : P.localEntry u with
  | none =>
    have hno := List.find?_eq_none.1 hfind l (List.mem_reverse.2 hl)
    exact absurd hid (by simpa using hno)
  | some k =>
    rw [List.inj_on_of_nodup_map ha.entry_ids_nodup (hmem k hfind) hl
      ((localEntry_id hfind).trans hid.symm)]

/-- **The entries a pull leaves**: those both sides hold, and those one side holds and the other has not
buried. -/
theorem ingestPeer_entries (hM : Lawful M) (ht : GroupTree m) (hv : m.project = .ok P.localVault)
    (hnd : (P.peer.entries.map (·.id)).Nodup) (h : ingestPeer M ord P m = .ok st) (u : Uuid) :
    u ∈ st.1.entries.keys ↔
      (u ∈ m.entries.keys ∧ u ∈ P.peer.entries.map (·.id)) ∨
      (u ∉ P.peer.entries.map (·.id) ∧
        ∃ l ∈ P.localVault.entries, l.id = u ∧ ¬ Buries P.peer.deletedObjects l) ∨
      (u ∉ m.entries.keys ∧
        ∃ p ∈ P.peer.entries, p.id = u ∧ ¬ Buries P.localVault.deletedObjects p) := by
  have ha := project_attaches ht hv
  have hlocal : ∀ u, P.localEntry u = (m.entries.find? u).map (·.toEntry) := ha.localEntry rfl
  by_cases hu : u ∈ P.peer.entries.map (·.id)
  · have hmem := hu
    rw [← entriesWithParent_map_fst, List.map_map] at hu
    obtain ⟨⟨p, parent⟩, hpe, rfl⟩ := List.mem_map.1 hu
    change p.id ∈ P.peer.entries.map (·.id) at hmem
    show p.id ∈ st.1.entries.keys ↔ _
    cases hl : P.localEntry p.id with
    | some l =>
      obtain ⟨_, -, hshared⟩ := ingestPeer_shared hM hnd hpe hl h
      obtain ⟨result, -, hrow⟩ := hshared.row
      have hm : p.id ∈ m.entries.keys := by
        rw [hlocal] at hl
        rw [← Table.find?_isSome, ← Option.isSome_map, hl]
        rfl
      refine iff_of_true ?_ (.inl ⟨hm, hmem⟩)
      rwa [← Table.find?_isSome, hrow, Option.isSome_map, Table.find?_isSome]
    | none =>
      have hm : p.id ∉ m.entries.keys := by
        rw [hlocal, Option.map_eq_none_iff] at hl
        exact Table.find?_eq_none.1 hl
      have hbury : p.id ∈ st.1.entries.keys ↔ ¬ Buries P.localVault.deletedObjects p := by
        obtain ⟨_, -, hside⟩ := ingestPeer_peerOnly hM hnd hpe hl h
        rw [← Table.find?_isSome]
        rcases hside with ⟨hb, hrow, -⟩ | ⟨hb, hrow, -⟩
        · rw [hrow, Table.find?_isSome]
          exact iff_of_false hm fun hn => hn hb
        · rw [hrow]
          exact iff_of_true rfl hb
      have hone : ∀ q ∈ P.peer.entries, q.id = p.id → q = p := fun q hq e =>
        List.inj_on_of_nodup_map hnd hq (mem_entries hpe) e
      rw [hbury]
      constructor
      · exact fun hb => .inr (.inr ⟨hm, p, mem_entries hpe, rfl, hb⟩)
      · rintro (⟨hin, -⟩ | ⟨hout, -⟩ | ⟨-, q, hq, hid, hb⟩)
        · exact absurd hin hm
        · exact absurd hmem hout
        · rwa [hone q hq hid] at hb
  · obtain ⟨_, -, hrow, -⟩ := ingestPeer_absent hM hu h
    have hdel : DeletedByPeer P u ↔ ∃ l, P.localEntry u = some l ∧ Buries P.peer.deletedObjects l := by
      constructor
      · rintro ⟨l, d, hl, hd, -, hlose⟩
        exact ⟨l, hl, d, localEntry_id hl ▸ hd, hlose⟩
      · rintro ⟨l, hl, d, hd, hlose⟩
        exact ⟨l, d, hl, localEntry_id hl ▸ hd, hu, hlose⟩
    have hmem := fun l => localEntry_eq_some ha (P := P) rfl (u := u) (l := l)
    have hlive : u ∈ m.entries.keys ↔ ∃ l ∈ P.localVault.entries, l.id = u := by
      rw [← ha.mem_entry_ids, List.mem_map]
    rw [← Table.find?_isSome, hrow]
    split
    · rename_i hd
      obtain ⟨l, hl, hb⟩ := hdel.1 hd
      refine iff_of_false (by simp) ?_
      rintro (⟨-, hin⟩ | ⟨-, k, hk, hid, hnb⟩ | ⟨-, p, hp, hid, -⟩)
      · exact hu hin
      · rw [(hmem k).2 ⟨hk, hid⟩, Option.some.injEq] at hl
        exact hnb (hl ▸ hb)
      · exact hu (List.mem_map.2 ⟨p, hp, hid⟩)
    · rename_i hd
      rw [Table.find?_isSome]
      constructor
      · intro hin
        obtain ⟨l, hl, hid⟩ := hlive.1 hin
        exact .inr (.inl ⟨hu, l, hl, hid, fun hb => hd (hdel.2 ⟨l, (hmem l).2 ⟨hl, hid⟩, hb⟩)⟩)
      · rintro (⟨hin, -⟩ | ⟨-, l, hl, hid, -⟩ | ⟨-, p, hp, hid, -⟩)
        · exact hin
        · exact hlive.2 ⟨l, hl, hid⟩
        · exact absurd (List.mem_map.2 ⟨p, hp, hid⟩) hu

end Pull

/-! ## Exchanges -/

section Exchange

variable {M : MergeLib} {ordA ordB : HashOrder} {ownerA ownerB : String} {nowA nowB : DateTime}
  {r : Uuid} {mA mB : Mirror} {vA vB : Vault} {stA stB : Mirror × IngestPeerOutcome}

/-- **Two replicas that pull each other's state hold the same entries, and know the same objects.** -/
theorem exchange_entries (hM : Lawful M) (hA : RootedAt mA r) (hB : RootedAt mB r)
    (hvA : mA.project = .ok vA) (hvB : mB.project = .ok vB)
    (hstA : ingestPeer M ordA ⟨ownerA, vA, vB, nowA⟩ mA = .ok stA)
    (hstB : ingestPeer M ordB ⟨ownerB, vB, vA, nowB⟩ mB = .ok stB) :
    (∀ u, u ∈ stA.1.entries.keys ↔ u ∈ stB.1.entries.keys) ∧ known stA.1 = known stB.1 := by
  have htA := groupTree_iff.2 ⟨r, hA⟩
  have htB := groupTree_iff.2 ⟨r, hB⟩
  have haA := project_attaches htA hvA
  have haB := project_attaches htB hvB
  refine ⟨fun u => ?_, ?_⟩
  · rw [ingestPeer_entries hM htA hvA haB.entry_ids_nodup hstA,
      ingestPeer_entries hM htB hvB haA.entry_ids_nodup hstB]
    simp only [haA.mem_entry_ids, haB.mem_entry_ids]
    exact or_congr and_comm or_comm
  · rw [ingestPeer_known hM (PeerOf.of_project hA hB hvB) haB.entry_ids_nodup hvA hstA,
      ingestPeer_known hM (PeerOf.of_project hB hA hvA) haA.entry_ids_nodup hvB hstB,
      project_shown htA hvA, project_shown htB hvB, Set.union_comm]

/-- The tombstone that keeps a peer's entry away is shown unchanged after the pull, when the peer has
none and the uuid is no group's. -/
theorem tombstone_of_kept_away {st : Mirror × IngestPeerOutcome} {P : PeerPull} {ord : HashOrder}
    {v : Vault} (hM : Lawful M) (hpeer : PeerOf mA P.peer) (hvA : mA.project = .ok P.localVault)
    (hnd : (P.peer.entries.map (·.id)).Nodup) (h : ingestPeer M ord P mA = .ok st)
    (hv : st.1.project = .ok v) {p : Entry} (hp : p ∈ P.peer.entries) (hout : p.id ∉ mA.entries.keys)
    (hblocked : Blocked P p) (hnone : tombstoneTime P.peer.deletedObjects p.id = none)
    (hgA : p.id ∉ mA.groups.keys) (hgB : p.id ∉ P.peer.groups.map (·.info.id)) :
    tombstoneTime v.deletedObjects p.id = tombstoneTime P.localVault.deletedObjects p.id := by
  have ha := project_attaches (groupTree_iff.2 ⟨_, hpeer.rooted⟩) hvA
  rw [← entriesWithParent_map_fst] at hp
  obtain ⟨⟨q, parent⟩, hpe, rfl⟩ := List.mem_map.1 hp
  have hl : P.localEntry q.id = none := by
    rw [ha.localEntry rfl, Table.find?_eq_none.2 hout]
    rfl
  obtain ⟨st₁, h₁, hside⟩ := ingestPeer_peerOnly hM hnd hpe hl h
  have hg : q.id ∉ st₁.1.groups.keys := by
    rw [reconcile_keys_iff hpeer h₁, not_or]
    exact ⟨hgA, hgB⟩
  rcases hside with ⟨-, -, ht⟩ | ⟨hfree, -⟩
  · rw [project_tombstoneTime hv, project_tombstoneTime hvA, ht hg, tombstoneAfter, hnone]
  · exact absurd hblocked hfree

/-- **Two replicas of which one pulls the other, and the other then the result, hold the same
entries**, when the second has no tombstone of a live entry and its entries share no uuid with a
group. -/
theorem exchange_in_turn (hM : Lawful M) (hA : RootedAt mA r) (hB : RootedAt mB r)
    (hvA : mA.project = .ok vA) (hvB : mB.project = .ok vB) {vA' : Vault}
    (hclean : ∀ u ∈ mB.entries.keys, u ∉ mB.tombstones.keys)
    (hapart : ∀ u ∈ mB.entries.keys, u ∉ mA.groups.keys ∧ u ∉ mB.groups.keys)
    (hstA : ingestPeer M ordA ⟨ownerA, vA, vB, nowA⟩ mA = .ok stA) (hvA' : stA.1.project = .ok vA')
    (hstB : ingestPeer M ordB ⟨ownerB, vB, vA', nowB⟩ mB = .ok stB) (u : Uuid) :
    u ∈ stA.1.entries.keys ↔ u ∈ stB.1.entries.keys := by
  have htA := groupTree_iff.2 ⟨r, hA⟩
  have htB := groupTree_iff.2 ⟨r, hB⟩
  have haA := project_attaches htA hvA
  have haB := project_attaches htB hvB
  have hpeer : PeerOf mA vB := PeerOf.of_project hA hB hvB
  have htA' : GroupTree stA.1 := by
    refine groupTree_iff.2 ⟨_, (ingestPeer_rooted hM hpeer hstA).resolve_right fun hno => ?_⟩
    exact project_of_no_groups hno _ hvA'
  have haA' := project_attaches htA' hvA'
  have hfirst := ingestPeer_entries hM htA hvA haB.entry_ids_nodup hstA u
  have hsecond := ingestPeer_entries hM htB hvB haA'.entry_ids_nodup hstB u
  simp only [haB.mem_entry_ids, haA'.mem_entry_ids] at hfirst hsecond
  rw [hsecond]
  constructor
  · intro hu
    by_cases huB : u ∈ mB.entries.keys
    · exact .inl ⟨huB, hu⟩
    · refine .inr (.inr ⟨huB, ?_⟩)
      rcases hfirst.1 hu with ⟨-, hin⟩ | ⟨-, l, hl, rfl, hb⟩ | ⟨-, p, hp, rfl, -⟩
      · exact absurd hin huB
      · -- the row is untouched, so the peer sees the copy it has weighed
        have hrow : stA.1.entries.find? l.id = mA.entries.find? l.id := by
          obtain ⟨_, -, hrow, -⟩ := ingestPeer_absent hM (P := ⟨ownerA, vA, vB, nowA⟩)
            (fun hin => huB (haB.mem_entry_ids.1 hin)) hstA
          split at hrow
          · rw [← Table.find?_isSome, hrow] at hu
            cases hu
          · exact hrow
        have hold : (⟨ownerA, vA, vB, nowA⟩ : PeerPull).localEntry l.id = some l :=
          (localEntry_eq_some haA rfl).2 ⟨hl, rfl⟩
        have hkeep : (⟨ownerA, vA', vB, nowA⟩ : PeerPull).localEntry l.id = some l := by
          rw [haA'.localEntry rfl, hrow, ← haA.localEntry (P := ⟨ownerA, vA, vB, nowA⟩) rfl]
          exact hold
        exact ⟨l, ((localEntry_eq_some haA' rfl).1 hkeep).1, rfl, hb⟩
      · exact absurd (haB.mem_entry_ids.1 (List.mem_map_of_mem hp)) huB
  · rintro (⟨-, hu⟩ | ⟨hout, l, hl, rfl, hb⟩ | ⟨-, p, hp, rfl, -⟩)
    · exact hu
    · have hlB := haB.mem_entry_ids.1 (List.mem_map_of_mem hl)
      by_contra hu
      have hlA : l.id ∉ mA.entries.keys := fun hin => hu (hfirst.2 (.inl ⟨hin, hlB⟩))
      have hbury : Buries vA.deletedObjects l := by
        by_contra hn
        exact hu (hfirst.2 (.inr (.inr ⟨hlA, l, hl, rfl, hn⟩)))
      have hnone : tombstoneTime vB.deletedObjects l.id = none := by
        rw [project_tombstoneTime hvB, Table.find?_eq_none.2 (hclean _ hlB)]
        rfl
      have hgroups : l.id ∉ vB.groups.map (·.info.id) := fun hg => by
        have hmem := (haB.groups.map fun g => g.1.id).mem_iff (a := l.id)
        rw [List.map_map, List.map_map] at hmem
        exact (hapart _ hlB).2 (hmem.1 hg)
      have hsame := tombstone_of_kept_away (P := ⟨ownerA, vA, vB, nowA⟩) hM hpeer hvA
        haB.entry_ids_nodup hstA hvA' hl hlA hbury hnone (hapart _ hlB).1 hgroups
      obtain ⟨d, hd, hlose⟩ := hbury
      exact hb ⟨d, hsame.trans hd, hlose⟩
    · exact haA'.mem_entry_ids.1 (List.mem_map_of_mem hp)

end Exchange

/-! ## A deletion here, a new entry there -/

/-- What a replica holds after it added the entry `12`. -/
def afterCreate : Mirror :=
  (EngineOp.createEntry 2 { title := "Bank" } (.atSecond 45) 12).next plainEnv (nestedMirror false)

theorem afterDelete_rooted : RootedAt afterDelete 1 := by
  have ht : GroupTree afterDelete := EngineOp.run_groupTree (nestedMirror_groupTree false)
    (safe_of_deletes true _ _ rfl) (EngineOp.run_next (by decide))
  obtain ⟨r, hr⟩ := groupTree_iff.1 ht
  rwa [rootUuid?_rooted hr (u := 1) (by decide)]

theorem afterCreate_rooted : RootedAt afterCreate 1 := by
  have ht : GroupTree afterCreate := EngineOp.run_groupTree (nestedMirror_groupTree false)
    (fun _ ho => by cases ho) (EngineOp.run_next (by decide))
  obtain ⟨r, hr⟩ := groupTree_iff.1 ht
  rwa [rootUuid?_rooted hr (u := 1) (by decide)]

theorem afterDelete_projects : afterDelete.project = .ok (view afterDelete) :=
  project_view (by decide +kernel)

theorem afterCreate_projects : afterCreate.project = .ok (view afterCreate) :=
  project_view (by decide +kernel)

/-- The first replica after it pulled the second. -/
def deleteMeetsCreate : Mirror × IngestPeerOutcome :=
  afterPull fieldMerge .insertion "B" (.atSecond 50) (view afterCreate) afterDelete

theorem deleteMeetsCreate_pulls : ingestPeer fieldMerge .insertion
    ⟨"B", view afterDelete, view afterCreate, .atSecond 50⟩ afterDelete = .ok deleteMeetsCreate :=
  ingestPeer_afterPull (by decide +kernel)

/-- Each pulls the other's state. -/
theorem exchange_entries_delete_create :
    let B := afterPull fieldMerge .insertion "A" (.atSecond 50) (view afterDelete) afterCreate
    (∀ u, u ∈ deleteMeetsCreate.1.entries.keys ↔ u ∈ B.1.entries.keys) ∧
      known deleteMeetsCreate.1 = known B.1 ∧ deleteMeetsCreate.1.entries.keys = [12] := by
  intro B
  have hB : ingestPeer fieldMerge .insertion
      ⟨"A", view afterCreate, view afterDelete, .atSecond 50⟩ afterCreate = .ok B :=
    ingestPeer_afterPull (by decide +kernel)
  obtain ⟨hlive, hknown⟩ := exchange_entries fieldMerge_lawful afterDelete_rooted afterCreate_rooted
    afterDelete_projects afterCreate_projects deleteMeetsCreate_pulls hB
  exact ⟨hlive, hknown, by decide +kernel⟩

/-- The second pulls what the first holds after its pull. -/
theorem exchange_in_turn_delete_create :
    let B := afterPull fieldMerge .insertion "A" (.atSecond 60) (view deleteMeetsCreate.1) afterCreate
    ∀ u, u ∈ deleteMeetsCreate.1.entries.keys ↔ u ∈ B.1.entries.keys := by
  intro B
  have hB : ingestPeer fieldMerge .insertion
      ⟨"A", view afterCreate, view deleteMeetsCreate.1, .atSecond 60⟩ afterCreate = .ok B :=
    ingestPeer_afterPull (by decide +kernel)
  exact exchange_in_turn fieldMerge_lawful afterDelete_rooted afterCreate_rooted afterDelete_projects
    afterCreate_projects (by decide) (by decide) deleteMeetsCreate_pulls
    (project_view (by decide +kernel)) hB

end KeysCore.Verify
