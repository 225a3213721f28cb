import KeysCore.Verify.EntryLocation
import KeysCore.Verify.SyncRuns

/-!
# A deletion that is newer than every copy

A tombstone blocks a copy from a peer, and removes the copy held, unless the copy was edited since.
Joining two tombstones keeps the earlier instant, so an older tombstone that reaches a replica from a
third one lowers the bar of a newer deletion. `newest_deletion_wins`: when every tombstone around is
at least as recent as every copy, no run re-adds the entry over a tombstone, and every ingest of a
tombstone removes it. `older_tombstone_resurrects` runs the schedule in which one is not.
-/

namespace KeysCore.Verify

open Lib

/-- The mirror's copy of the entry `u` is no newer than `D`, its tombstone is no older, and it holds
only one of the two. -/
structure Outdated (u : Uuid) (D : EpochMs) (m : Mirror) : Prop where
  copy : ∀ row, m.entries.find? u = some row → row.modifiedAt ≤ D
  tombstone : ∀ t, m.tombstones.find? u = some t → ∃ d, t.deletedAt = some d ∧ D ≤ d
  apart : m.entries.find? u = none ∨ m.tombstones.find? u = none
  notGroup : u ∉ m.groups.keys

/-- The same of a file. -/
structure OutdatedFile (u : Uuid) (D : EpochMs) (v : Vault) : Prop where
  copy : ∀ e ∈ v.entries, e.id = u →
    ∃ t : EpochMs, e.times.lastModificationTime = some t.toDateTime ∧ t ≤ D
  tombstone : ∀ d, tombstoneTime v.deletedObjects u = some d →
    ∃ t : EpochMs, d = some t.toDateTime ∧ D ≤ t
  apart : u ∉ v.entries.map (·.id) ∨ tombstoneTime v.deletedObjects u = none
  notGroup : u ∉ v.groups.map (·.info.id)

/-- The ingest does not merge two versions of `u` into one dated after `D`. -/
def NoNewerMerge (M : MergeLib) (u : Uuid) (D : EpochMs) (P : PeerPull) (m : Mirror) : Prop :=
  ∀ row p merged changes, m.entries.find? u = some row → p ∈ P.peer.entries → p.id = u →
    M.classify row.toEntry p = .autoMerged merged changes →
    movesLocal row.toEntry merged changes = true →
    sameVersion merged.toEntryVersion p.toEntryVersion = false →
    dtToMs (mergedMtime merged row.toEntry p) ≤ D

/-! ## Files -/

theorem Outdated.file {u : Uuid} {D : EpochMs} {m : Mirror} {r : Uuid} {v : Vault}
    (h : Outdated u D m) (hr : RootedAt m r) (hv : m.project = .ok v) : OutdatedFile u D v := by
  have ha := project_attaches (groupTree_iff.2 ⟨r, hr⟩) hv
  refine ⟨?_, ?_, ?_, ?_⟩
  · rintro e he rfl
    obtain ⟨row, hrow, rfl⟩ := List.mem_map.1 (ha.entries_perm.mem_iff.1 he)
    exact ⟨row.modifiedAt.floorSecond, rfl,
      (EpochMs.floorSecond_le _).trans (h.copy row (Table.find?_of_mem hrow))⟩
  · intro d hd
    rw [project_tombstoneTime hv] at hd
    obtain ⟨t, ht, rfl⟩ := Option.map_eq_some_iff.1 hd
    obtain ⟨d, hd, hle⟩ := h.tombstone t ht
    exact ⟨d, by rw [hd]; rfl, hle⟩
  · refine h.apart.imp (fun hnone => ?_) fun hnone => ?_
    · rw [ha.mem_entry_ids]
      exact Table.find?_eq_none.1 hnone
    · rw [project_tombstoneTime hv, hnone]
      rfl
  · intro hmem
    obtain ⟨f, hf, rfl⟩ := List.mem_map.1 hmem
    obtain ⟨row, hrow, hi, -⟩ := ha.of_mem hf
    exact h.notGroup (hi ▸ Table.key_mem hrow)

/-! ## One ingest -/

/-- A copy no newer than `D` does not beat a deletion no older. -/
theorem liveEditWins_outdated {a b D : EpochMs} (ha : a ≤ D) (hb : D ≤ b) :
    liveEditWins (some a.toDateTime) (some b.toDateTime) = false := by
  show decide (b.toDateTime < a.toDateTime) = false
  rw [decide_eq_false_iff_not, EpochMs.toDateTime_lt, not_lt]
  exact ha.trans hb

theorem dtToMs_toDateTime (t : EpochMs) : dtToMs (some t.toDateTime) = t :=
  EpochMs.timestampMillis_toDateTime t

theorem toRow_modifiedAt (e : Entry) (g : Uuid) (b : Bool) :
    (e.toRow g b).modifiedAt = dtToMs e.times.lastModificationTime := rfl

theorem autoMergedEntry_mtime {l p merged : Entry} {changes : List AttachmentChange} :
    (autoMergedEntry l p merged changes).times.lastModificationTime =
      if movesLocal l merged changes then mergedMtime merged l p
      else merged.times.lastModificationTime := by
  rw [show (autoMergedEntry l p merged changes).times = _ from
    congrArg EntryVersion.times autoMergedEntry_version, withAdvancedMtime]
  split <;> rfl

section Pull

variable {M : MergeLib} {m : Mirror} {r : Uuid} {P : PeerPull} {ord : HashOrder}
  {st : Mirror × IngestPeerOutcome} {u : Uuid} {D : EpochMs}

/-- Every verdict leaves a time no newer than `D`. -/
theorem armRow_modifiedAt_le (hM : Lawful M) {row : EntryRow} (hrow : m.entries.find? u = some row)
    (hm : row.modifiedAt ≤ D) {p : Entry} (hp : p ∈ P.peer.entries) (hid : p.id = u) {t : EpochMs}
    (ht : p.times.lastModificationTime = some t.toDateTime) (htD : t ≤ D)
    (hC : NoNewerMerge M u D P m) : (armRow M P row.toEntry p row).modifiedAt ≤ D := by
  have hpeer : dtToMs p.times.lastModificationTime ≤ D := by
    rw [ht, dtToMs_toDateTime]
    exact htD
  unfold armRow
  cases hc : M.classify row.toEntry p with
  | inSync => exact hm
  | autoMerged merged changes =>
    show dtToMs (autoMergedEntry row.toEntry p merged changes).times.lastModificationTime ≤ D
    rw [autoMergedEntry_mtime]
    split
    · rename_i hmoves
      by_cases hsame : sameVersion merged.toEntryVersion p.toEntryVersion = true
      · rw [mergedMtime, if_pos hsame, ht, Option.some_or, ← ht]
        exact hpeer
      · exact hC row p merged changes hrow hp hid hc hmoves (by simpa using hsame)
    · rw [hM.merged_times hc]
      show row.modifiedAt.floorSecond.toDateTime.timestampMillis ≤ D
      rw [EpochMs.timestampMillis_toDateTime]
      exact (EpochMs.floorSecond_le _).trans hm
  | conflict _ =>
    cases P.conflictVerdict M row.toEntry p with
    | localHolds => exact hm
    | holdOpen => exact hm
    | adoptPeer => exact hpeer

theorem reconcile_keys (hpeer : PeerOf m P.peer) {out : IngestPeerOutcome}
    {st₁ : Mirror × IngestPeerOutcome} (h₁ : reconcilePeerGroups ord P.peer (m, out) = .ok st₁)
    (hm : u ∉ m.groups.keys) (hp : u ∉ P.peer.groups.map (·.info.id)) : u ∉ st₁.1.groups.keys := by
  obtain ⟨st', hst', -, -, hfind⟩ :=
    hpeer.reconcile_spec ord out ((hpeer.reconcile_ok_iff ord out).1 ⟨st₁, h₁⟩)
  rw [h₁, Except.ok.injEq] at hst'
  subst hst'
  rw [← Table.find?_eq_none, hfind u, mergedRow, Table.find?_eq_none.2 hm, Option.none_or, adoptedRow]
  cases hf : (belowRoot P.peer).find? (·.info.id = u) with
  | none => rfl
  | some f =>
    refine absurd (List.mem_map.2 ⟨f, ?_, by simpa using List.find?_some hf⟩) hp
    rw [groups_eq_cons]
    exact List.mem_cons_of_mem _ (List.mem_of_find?_eq_some hf)

/-- A join of tombstones no older than `D`. -/
theorem joinedTombstone_le {old : Option TombstoneRow} {d : Option DateTime}
    (hold : ∀ t, old = some t → ∃ e, t.deletedAt = some e ∧ D ≤ e)
    (hd : ∃ t : EpochMs, d = some t.toDateTime ∧ D ≤ t) :
    ∃ e, (joinedTombstone u old d).deletedAt = some e ∧ D ≤ e := by
  obtain ⟨t, rfl, htD⟩ := hd
  cases old with
  | none => exact ⟨t, by simp [joinedTombstone], htD⟩
  | some row =>
    obtain ⟨e, he, heD⟩ := hold row rfl
    exact ⟨min e t, by simp [joinedTombstone, he, earliest], le_min heD htD⟩

/-- What an ingest may leave: a copy without tombstone, when neither side tombstones the entry; or no
copy, and every tombstone kept. -/
def SettledBy (u : Uuid) (D : EpochMs) (m : Mirror) (v : Vault) (m' : Mirror) : Prop :=
  (m.tombstones.find? u = none ∧ tombstoneTime v.deletedObjects u = none ∧
      m'.tombstones.find? u = none ∧ ∃ row, m'.entries.find? u = some row ∧ row.modifiedAt ≤ D) ∨
    (m'.entries.find? u = none ∧ ∀ t, m'.tombstones.find? u = some t →
      ∃ d, t.deletedAt = some d ∧ D ≤ d)

theorem pull_settled (hM : Lawful M) (hr : RootedAt m r) (hf : FileOf r P.peer)
    (hv : m.project = .ok P.localVault) (hm : Outdated u D m) (hp : OutdatedFile u D P.peer)
    (hC : NoNewerMerge M u D P m) (h : ingestPeer M ord P m = .ok st) :
    SettledBy u D m P.peer st.1 := by
  have hpeer := hf.peerOf hr
  have ha := project_attaches (groupTree_iff.2 ⟨r, hr⟩) hv
  by_cases hu : u ∈ P.peer.entries.map (·.id)
  · -- the peer holds a copy, so it has no tombstone
    have hthere := hp.apart.resolve_left (not_not.2 hu)
    have hkeep : ∀ live old, tombstoneAfter P live u old = old := fun live old => by
      rw [tombstoneAfter, hthere]
    rw [← entriesWithParent_map_fst, List.map_map] at hu
    obtain ⟨⟨p, parent⟩, hpe, hid⟩ := List.mem_map.1 hu
    have hid : p.id = u := hid
    obtain ⟨t, ht, htD⟩ := hp.copy p (mem_entries hpe) hid
    cases hrow : m.entries.find? u with
    | some row =>
      have hhere : m.tombstones.find? u = none := hm.apart.resolve_left (by rw [hrow]; simp)
      have hl : P.localEntry p.id = some row.toEntry := by
        rw [ha.localEntry rfl, hid, hrow]
        rfl
      obtain ⟨st₁, h₁, hres⟩ := ingestPeer_shared hM hf.entries hpe hl h
      obtain ⟨result, -, hfind⟩ := hres.row
      have htomb := hres.tombstone (hid ▸ reconcile_keys hpeer h₁ hm.notGroup hp.notGroup)
      rw [hid] at hfind htomb
      rw [hrow, Option.map_some] at hfind
      refine .inl ⟨hhere, hthere, by rw [htomb, hkeep, hhere], _, hfind, ?_⟩
      rw [sharedRow, historyRow_modifiedAt, locatedRow_modifiedAt]
      exact armRow_modifiedAt_le hM hrow (hm.copy row hrow) (mem_entries hpe) hid ht htD hC
    | none =>
      have hl : P.localEntry p.id = none := by
        rw [ha.localEntry rfl, hid, hrow]
        rfl
      obtain ⟨st₁, h₁, hres⟩ := ingestPeer_peerOnly hM hf.entries hpe hl h
      have hng := reconcile_keys hpeer h₁ hm.notGroup hp.notGroup
      rw [hid] at hres
      rcases hres with ⟨-, hfind, htomb⟩ | ⟨hnb, hfind, htomb⟩
      · refine .inr ⟨by rw [hfind, hrow], ?_⟩
        rw [htomb hng, hkeep]
        exact hm.tombstone
      · -- a tombstone here would have blocked the copy
        have hhere : m.tombstones.find? u = none := by
          cases hts : m.tombstones.find? u with
          | none => rfl
          | some ts =>
            obtain ⟨d, hd, hDd⟩ := hm.tombstone ts hts
            refine absurd ⟨some d.toDateTime, ?_, ?_⟩ hnb
            · rw [project_tombstoneTime hv, hid, hts, Option.map_some, hd]
              rfl
            · rw [ht]
              exact liveEditWins_outdated htD hDd
        refine .inl ⟨hhere, hthere, by rw [htomb hng, hhere, ite_self], _, hfind, ?_⟩
        rw [toRow_modifiedAt, ht, dtToMs_toDateTime]
        exact htD
  · obtain ⟨st₁, h₁, hfind, htomb⟩ := ingestPeer_absent hM hu h
    have htomb := htomb (reconcile_keys hpeer h₁ hm.notGroup hp.notGroup)
    cases hpt : tombstoneTime P.peer.deletedObjects u with
    | none =>
      have hnot : ¬ DeletedByPeer P u := by
        rintro ⟨l, d, -, hd, -⟩
        rw [hpt] at hd
        cases hd
      rw [if_neg hnot] at hfind
      rw [tombstoneAfter, hpt] at htomb
      cases hrow : m.entries.find? u with
      | some row =>
        have hhere : m.tombstones.find? u = none := hm.apart.resolve_left (by rw [hrow]; simp)
        exact .inl ⟨hhere, hpt, htomb.trans hhere, row, hfind.trans hrow, hm.copy row hrow⟩
      | none => exact .inr ⟨hfind.trans hrow, fun t ht => hm.tombstone t (htomb.symm.trans ht)⟩
    | some d =>
      have hgone : st.1.entries.find? u = none := by
        rw [hfind]
        split
        · rfl
        · rename_i hnot
          cases hrow : m.entries.find? u with
          | none => rfl
          | some row =>
            obtain ⟨t, rfl, htD⟩ := hp.tombstone d hpt
            refine absurd ⟨row.toEntry, some t.toDateTime, ?_, hpt, hu, ?_⟩ hnot
            · rw [ha.localEntry rfl, hrow]
              rfl
            · exact liveEditWins_outdated
                ((EpochMs.floorSecond_le _).trans (hm.copy row hrow)) htD
      have hlive : st.1.entryExists u = false := by
        rw [Mirror.entryExists, hgone]
        rfl
      rw [tombstoneAfter, hpt, hlive] at htomb
      refine .inr ⟨hgone, fun t ht => ?_⟩
      obtain rfl := Option.some.inj (htomb.symm.trans ht)
      exact joinedTombstone_le hm.tombstone (hp.tombstone d hpt)

/-- An ingest keeps the copy outdated. -/
theorem Outdated.pull (hM : Lawful M) (hr : RootedAt m r) (hf : FileOf r P.peer)
    (hv : m.project = .ok P.localVault) (hm : Outdated u D m) (hp : OutdatedFile u D P.peer)
    (hC : NoNewerMerge M u D P m) (h : ingestPeer M ord P m = .ok st) : Outdated u D st.1 := by
  have hng : u ∉ st.1.groups.keys := by
    obtain ⟨st₁, -, h₁, -, -, -, -, -, -, -, -, -, -, hsub⟩ := ingestPeer_steps hM h
    have hold := reconcile_keys (hf.peerOf hr) h₁ hm.notGroup hp.notGroup
    rw [mem_keys_of_locationOf, not_not] at hold ⊢
    exact (hsub u).elim id fun e => e.trans hold
  rcases pull_settled hM hr hf hv hm hp hC h with
    ⟨-, -, hnone, row, hrow, hle⟩ | ⟨hnone, htomb⟩
  · refine ⟨fun row' hrow' => ?_, fun t ht => ?_, .inr hnone, hng⟩
    · obtain rfl := Option.some.inj (hrow.symm.trans hrow')
      exact hle
    · rw [hnone] at ht
      cases ht
  · refine ⟨fun row hrow => ?_, htomb, .inl hnone, hng⟩
    rw [hnone] at hrow
    cases hrow

end Pull

/-! ## Runs -/

/-- **When every tombstone of an entry is at least as recent as every copy, then in every state a run
reaches, a replica with a tombstone does not re-add the entry, and one that ingests a tombstone does
not keep it.** -/
theorem newest_deletion_wins {ι : Type} [DecidableEq ι] {M : MergeLib} (hM : Lawful M) {r u : Uuid}
    {D : EpochMs} {w w' : World ι} (hw : w.Sound r) (hmirrors : ∀ i, Outdated u D (w.mirror i))
    (hfiles : ∀ v ∈ w.files, OutdatedFile u D v) (hrun : SyncRun M (NoNewerMerge M u D) w w') {i : ι}
    {P : PeerPull} {ord : HashOrder} {st : Mirror × IngestPeerOutcome} (hfile : P.peer ∈ w'.files)
    (hv : (w'.mirror i).project = .ok P.localVault) (hC : NoNewerMerge M u D P (w'.mirror i))
    (hst : ingestPeer M ord P (w'.mirror i) = .ok st) :
    ((w'.mirror i).tombstones.find? u ≠ none → st.1.entries.find? u = none) ∧
      (tombstoneTime P.peer.deletedObjects u ≠ none → st.1.entries.find? u = none) := by
  obtain ⟨hw', hI, hF⟩ := SyncRun.invariant hM (I := fun _ _ m => Outdated u D m)
    (fun _ _ _ _ hr hm hx => hm.file hr hx)
    (fun _ _ _ _ _ _ hr hf hm hp hx hC hst => hm.pull hM hr hf hx hp hC hst) hw hmirrors hfiles hrun
  rcases pull_settled hM ((hw'.mirrors i).rooted hv) (hw'.files _ hfile) hv (hI i) (hF _ hfile) hC
    hst with ⟨hhere, hthere, -⟩ | ⟨hnone, -⟩
  · exact ⟨fun h => absurd hhere h, fun h => absurd hthere h⟩
  · exact ⟨fun _ => hnone, fun _ => hnone⟩

/-! ## Replicas of one entry -/

theorem Outdated.of_copy {u : Uuid} {D : EpochMs} {m : Mirror} {row : EntryRow}
    (hrow : m.entries.find? u = some row) (hle : row.modifiedAt ≤ D)
    (hnone : m.tombstones.find? u = none) (hng : u ∉ m.groups.keys) : Outdated u D m := by
  refine ⟨fun row' hrow' => ?_, fun t ht => ?_, .inr hnone, hng⟩
  · obtain rfl := Option.some.inj (hrow.symm.trans hrow')
    exact hle
  · rw [hnone] at ht
    cases ht

theorem Outdated.of_tombstone {u : Uuid} {D d : EpochMs} {m : Mirror}
    (hnone : m.entries.find? u = none) (ht : m.tombstones.find? u = some ⟨u, some d⟩) (hle : D ≤ d)
    (hng : u ∉ m.groups.keys) : Outdated u D m := by
  refine ⟨fun row hrow => ?_, fun t ht' => ?_, .inl hnone, hng⟩
  · rw [hnone] at hrow
    cases hrow
  · obtain rfl := Option.some.inj (ht.symm.trans ht')
    exact ⟨d, rfl, hle⟩

/-- Entry `9`, modified at `mtime`. -/
def heldCopy (mtime : EpochMs) : Mirror := filedMirror "a" 2 two_filed mtime mtime none

/-- That mirror after `delete_entry`. -/
def deletedCopy (mtime deletedAt : EpochMs) : Mirror :=
  (((heldCopy mtime).deleteEntry 9 deletedAt).toOption.map (·.1)).getD (heldCopy mtime)

theorem deletedCopy_rooted (mtime deletedAt : EpochMs) : RootedAt (deletedCopy mtime deletedAt) 1 :=
  filedMirror_rooted "a" 2 (by decide) mtime mtime none

/-- Deleted on one replica at the second `20`, modified on both at the second `10`: the other replica
loses its copy when it ingests the tombstone. -/
theorem newest_deletion_wins_two_replicas :
    let A := deletedCopy (.atSecond 10) (.atSecond 20)
    let B := heldCopy (.atSecond 10)
    let stB := afterPull fieldMerge .insertion "A" (.atSecond 30) (view A) B
    B.entries.find? 9 ≠ none ∧ stB.1.entries.find? 9 = none := by
  intro A B stB
  have hvA : A.project = .ok (view A) := project_view (by decide +kernel)
  have hvB : B.project = .ok (view B) := project_view (by decide +kernel)
  have hstB : ingestPeer fieldMerge .insertion ⟨"A", view B, view A, .atSecond 30⟩ B = .ok stB :=
    ingestPeer_afterPull (by decide +kernel)
  have hA : Outdated 9 (.atSecond 10) A :=
    .of_tombstone (d := .atSecond 20) (by decide +kernel) (by decide +kernel) (by decide +kernel)
      (by decide +kernel)
  have hrowB : B.entries.find? 9 = some B.entries.rows[0] := by decide +kernel
  have hB : Outdated 9 (.atSecond 10) B :=
    .of_copy hrowB (by decide +kernel) (by decide +kernel) (by decide +kernel)
  have hempty : (view A).entries = [] := by decide +kernel
  have hC : NoNewerMerge fieldMerge 9 (.atSecond 10) ⟨"A", view B, view A, .atSecond 30⟩ B := by
    intro row p merged changes _ hp
    rw [show (view A).entries = [] from hempty] at hp
    cases hp
  let w : World Bool := ⟨fun i => if i then B else A, [], fun _ => []⟩
  have hsound : w.Sound 1 := by
    refine ⟨fun i => .inl ?_, fun v hv => by cases hv⟩
    cases i with
    | false => exact deletedCopy_rooted _ _
    | true => exact filedMirror_rooted "a" 2 (by decide) _ _ none
  have hall : ∀ i, Outdated 9 (.atSecond 10) (w.mirror i) := by
    intro i
    cases i with
    | false => exact hA
    | true => exact hB
  have hrun : SyncRun fieldMerge (NoNewerMerge fieldMerge 9 (.atSecond 10)) w (w.publish (view A)) :=
    .single (.publish (i := false) hvA)
  have h := newest_deletion_wins (i := true) fieldMerge_lawful hsound hall (fun v hv => by cases hv)
    hrun (P := ⟨"A", view B, view A, .atSecond 30⟩) (List.mem_cons_self ..) hvB hC hstB
  exact ⟨by decide +kernel, h.2 (by decide +kernel)⟩

/-- Three replicas. The entry was deleted on `C` at the second `5`, edited on `A` and `B` at `10`, and
deleted on `A` at `20`, after every edit. `A` ingests `C` and takes over the older instant; then it
ingests `B` and adds the entry again. -/
theorem older_tombstone_resurrects :
    let A := deletedCopy (.atSecond 10) (.atSecond 20)
    let B := heldCopy (.atSecond 10)
    let C := deletedCopy (.atSecond 1) (.atSecond 5)
    let st₁ := afterPull fieldMerge .insertion "C" (.atSecond 30) (view C) A
    let st₂ := afterPull fieldMerge .insertion "B" (.atSecond 30) (view B) st₁.1
    A.entries.find? 9 = none ∧ A.tombstones.find? 9 = some ⟨9, some (.atSecond 20)⟩ ∧
      (B.entries.find? 9).map (·.modifiedAt) = some (.atSecond 10) ∧ C.entries.find? 9 = none ∧
      ingestPeer fieldMerge .insertion ⟨"C", view A, view C, .atSecond 30⟩ A = .ok st₁ ∧
      st₁.1.tombstones.find? 9 = some ⟨9, some (.atSecond 5)⟩ ∧
      ingestPeer fieldMerge .insertion ⟨"B", view st₁.1, view B, .atSecond 30⟩ st₁.1 = .ok st₂ ∧
      (st₂.1.entries.find? 9).isSome = true := by
  intro A B C st₁ st₂
  exact ⟨by decide +kernel, by decide +kernel, by decide +kernel, by decide +kernel,
    ingestPeer_afterPull (by decide +kernel), by decide +kernel,
    ingestPeer_afterPull (by decide +kernel), by decide +kernel⟩

end KeysCore.Verify
