import KeysCore.Reconcile
import KeysCore.Verify.HeldConflict
import KeysCore.Verify.HistoryRows
import KeysCore.Verify.HistoryShortcut
import KeysCore.Verify.LiveTombstones
import KeysCore.Verify.PullSucceeds
import KeysCore.Verify.SettledRows
import KeysCore.Verify.SyncRuns

/-!
# What a settled vault file holds

A disk reconcile of a clean mirror settles the watermark when the digests of the file and of the mirror
agree. The digest sees neither histories nor tombstones, so the file need not hold what the mirror holds:
the pull keeps the mirror's own records and tombstones, and an auto-merge adds the version it replaces.
`settled_file_holds_iff` says what the file has to have held before.

Records are compared as rows keep them (`EntryVersion.rowRecord`). When the digests agree, every entry of
the mirror is one the file has, shared or added from it (`settled_entry`), and a tombstone goes with the
entry the pull adds or the group it leaves standing (`ingestPeer_tombstone_iff`).
-/

namespace KeysCore

/-- The record of a version as the mirror stores it: at whole seconds, its custom fields keyed by name and
its attachments unprotected. -/
def EntryVersion.rowRecord (v : EntryVersion) : RecordKey :=
  ((HistorySnapshot.fromEntry v).toVersion v.id).record

/-- The stored records of a history. -/
def rowRecords (history : List EntryVersion) : List RecordKey := history.map (·.rowRecord)

/-- The history a pull leaves of an entry both sides hold: the folded one when the fold changed it. -/
def PeerPull.leftHistory (M : MergeLib) (P : PeerPull) (l p : Entry) : List EntryVersion :=
  match Verify.historyResult M (P.historyFold M) (Verify.armBase M P l p) l p with
  | .ok (some merged) => merged.history
  | _ => ((P.writtenEntry M p).getD l).history

/-- The version of local's that an auto-merge snapshots before it replaces it. -/
def replacedVersions (M : MergeLib) (l p : Entry) : List EntryVersion :=
  match M.classify l p with
  | .autoMerged merged changes =>
    if movesLocal l merged changes && !alreadyRecorded l p then [l.toEntryVersion] else []
  | _ => []

end KeysCore

namespace KeysCore.Verify

open Lib

/-! ## Records as stored -/

/-- A record does not depend on the entry it is read back for, and reading it back is final. -/
theorem record_reencoded (s : HistorySnapshot) (h : (s.customFields.map (·.key)).Nodup) (u w : Uuid) :
    (s.reencoded.toVersion u).record = (s.toVersion w).record := by
  have hfields : (s.reencoded.customFields.insertionSort fun a b => a.key ≤ b.key).Perm
      (s.customFields.insertionSort fun a b => a.key ≤ b.key) :=
    ((List.perm_insertionSort _ _).trans (reencoded_customFields s h)).trans
      (List.perm_insertionSort _ _).symm
  unfold EntryVersion.record
  rw [RecordKey.mk.injEq]
  refine ⟨?_, rfl, Multiset.coe_eq_coe.2 hfields, rfl, rfl⟩
  simp [HistorySnapshot.reencoded, HistorySnapshot.toVersion, buildTimes, EpochMs.floored]

theorem rowRecord_toVersion (v : EntryVersion) (u : Uuid) :
    ((HistorySnapshot.fromEntry v).toVersion u).rowRecord = v.rowRecord := by
  unfold EntryVersion.rowRecord
  rw [fromEntry_of_toVersion]
  exact record_reencoded _ (putFields_nodup v.customFields) _ _

/-- The entry a record is read back for plays no part in it. -/
theorem rowRecords_toVersion (history : List HistorySnapshot) (u w : Uuid) :
    rowRecords (history.map (HistorySnapshot.toVersion u)) =
      rowRecords (history.map (HistorySnapshot.toVersion w)) := by
  unfold rowRecords
  rw [List.map_map, List.map_map]
  rfl

theorem rowRecords_written (u : Uuid) (history : List EntryVersion) :
    rowRecords ((history.map HistorySnapshot.fromEntry).map (HistorySnapshot.toVersion u)) =
      rowRecords history := by
  unfold rowRecords
  rw [List.map_map, List.map_map]
  exact List.map_congr_left fun v _ => rowRecord_toVersion v u

/-! ## The history a pull leaves -/

/-- What the reconcile relies on of the calls of keepass-merge that rewrite a history: a fold takes the
records of the two sides, the caps and the deletions only drop records. -/
structure UnitesHistories (M : MergeLib) : Prop where
  fold {b o e : Entry} {c : Bool} : M.foldEntryHistory b o = .ok (e, c) →
    e.history ⊆ b.history ++ o.history
  all {b o e : Entry} {c : Bool} : M.foldEntryHistory b o = .ok (e, c) →
    b.records ++ o.records ⊆ e.records
  prune {b e : Entry} {i s : Int} {t : DateTime} {n : Nat} :
    M.pruneHistoryWithTombstones b i s t = .ok (e, n) → e.history ⊆ b.history
  tombstones {b o e : Entry} {c : Bool} : M.reconcileHistoryTombstones b o = .ok (e, c) →
    e.history ⊆ b.history

section History

variable {M : MergeLib} {P : PeerPull} {l p : Entry}

theorem foldedHistory_subset (hU : UnitesHistories M) {ctx : HistoryFoldContext} {b o e : Entry} {c : Bool}
    (h : foldedHistory M ctx b o = .ok (e, c)) : e.history ⊆ b.history ++ o.history := by
  unfold foldedHistory at h
  obtain ⟨⟨e₁, c₁⟩, h₁, h⟩ := except_bind_ok.1 h
  obtain ⟨⟨e₂, n⟩, h₂, h⟩ := except_bind_ok.1 h
  obtain ⟨rfl, -⟩ := Prod.mk.inj (Except.ok.inj h)
  exact fun x hx => hU.fold (serialised_ok.1 h₁) (hU.prune (serialised_ok.1 h₂) hx)

/-- What the history pass writes are records of the base and of the two sides. -/
theorem historyResult_subset (hU : UnitesHistories M) {ctx : HistoryFoldContext} {base : HistoryBase}
    {e : Entry} (h : historyResult M ctx base l p = .ok (some e)) {x : EntryVersion}
    (hx : x ∈ e.history) :
    x ∈ (baseEntry base l p).history ∨ x ∈ l.history ∨ x ∈ p.history := by
  have hfold : ∀ b o : Entry,
      (if !hasHistoryTombstone b && !hasHistoryTombstone o && historiesIdentical b o &&
          M.computeHistoryDropCount b.history ctx.maxItems ctx.maxSize = 0 then .ok none
        else (foldedHistory M ctx b o).map fun r => if r.2 then some r.1 else none) = .ok (some e) →
      x ∈ b.history ∨ x ∈ o.history := by
    intro b o h
    split at h
    · cases h
    · obtain ⟨⟨e', c⟩, hr, he⟩ := except_map_ok.1 h
      cases c with
      | false => cases he
      | true =>
        obtain rfl := Option.some.inj he
        exact List.mem_append.1 (foldedHistory_subset hU hr hx)
  cases base with
  | held =>
    simp only [historyResult] at h
    split at h
    · cases h
    · obtain ⟨⟨e', c⟩, hr, he⟩ := except_map_ok.1 h
      cases c with
      | false => cases he
      | true =>
        obtain rfl := Option.some.inj he
        exact .inl (hU.tombstones (serialised_ok.1 hr) hx)
  | ofLocal => exact .inr (hfold l p h)
  | autoMerged merged => exact (hfold merged p h).imp_right .inr
  | ofPeer => exact .inr (hfold p l h).symm

theorem autoMergedEntry_history (hM : Lawful M) {merged : Entry} {changes : List AttachmentChange}
    (hc : M.classify l p = .autoMerged merged changes) :
    (autoMergedEntry l p merged changes).history = l.history ++ replacedVersions M l p := by
  have htimes : ∀ moves, (withAdvancedMtime merged moves l p).history = merged.history := by
    intro moves
    unfold withAdvancedMtime
    split <;> rfl
  unfold autoMergedEntry withPreMergeSnapshot replacedVersions
  rw [hc]
  dsimp only
  split
  · rw [htimes, hM.merged_history hc]
  · rw [htimes, hM.merged_history hc, List.append_nil]

/-- The history pass starts from the entry the verdict arm wrote, or from the local one. -/
theorem baseEntry_armBase (hM : Lawful M) (hl : P.localEntry p.id = some l) :
    baseEntry (armBase M P l p) l p = (P.writtenEntry M p).getD l := by
  unfold armBase PeerPull.writtenEntry
  simp only [hl]
  cases hc : M.classify l p with
  | inSync => rfl
  | autoMerged merged changes => rfl
  | conflict remote =>
    obtain rfl := hM.remote hc
    cases P.conflictVerdict M l remote <;> rfl

theorem baseEntry_history (hM : Lawful M) {x : EntryVersion}
    (hx : x ∈ (baseEntry (armBase M P l p) l p).history) :
    x ∈ l.history ++ replacedVersions M l p ∨ x ∈ p.history := by
  unfold armBase at hx
  cases hc : M.classify l p with
  | inSync =>
    rw [hc] at hx
    exact .inl (List.mem_append_left _ hx)
  | autoMerged merged changes =>
    rw [hc] at hx
    rw [← autoMergedEntry_history hM hc]
    exact .inl hx
  | conflict remote =>
    simp only [hc] at hx
    cases hd : P.conflictVerdict M l p with
    | adoptPeer =>
      simp only [hd] at hx
      exact .inr hx
    | localHolds | holdOpen =>
      simp only [hd] at hx
      exact .inl (List.mem_append_left _ hx)

/-- **Where the records a pull leaves come from.** -/
theorem leftHistory_subset (hM : Lawful M) (hU : UnitesHistories M) (hl : P.localEntry p.id = some l)
    {x : EntryVersion} (hx : x ∈ P.leftHistory M l p) :
    x ∈ l.history ++ replacedVersions M l p ∨ x ∈ p.history := by
  unfold PeerPull.leftHistory at hx
  split at hx
  · rename_i merged hresult
    rcases historyResult_subset hU hresult hx with hx | hx | hx
    · exact baseEntry_history hM hx
    · exact .inl (List.mem_append_left _ hx)
    · exact .inr hx
  · rw [← baseEntry_armBase hM hl] at hx
    exact baseEntry_history hM hx

/-- The row of a shared entry after a pull stores the history the pull leaves. -/
theorem sharedRow_records (hM : Lawful M) {g : Mirror} {r : EntryRow} {parent : Uuid}
    {result : Option Entry} (hl : P.localEntry p.id = some r.toEntry)
    (hresult : historyResult M (P.historyFold M) (armBase M P r.toEntry p) r.toEntry p = .ok result) :
    rowRecords (sharedRow M P g r.toEntry p parent result r).toEntry.history =
      rowRecords (P.leftHistory M r.toEntry p) := by
  have hrow := sharedRow_history (m := g) hM hl parent result r
  show rowRecords ((sharedRow M P g r.toEntry p parent result r).history.map
    (HistorySnapshot.toVersion _)) = _
  unfold PeerPull.leftHistory
  rw [hrow, hresult]
  cases result with
  | some merged => exact rowRecords_written _ _
  | none =>
    cases hw : P.writtenEntry M p with
    | none => exact rowRecords_toVersion r.history _ _
    | some e => exact rowRecords_written _ _

end History

/-! ## A sweep with nothing to land -/

/-- No parked version of the mirror is one the sweep would land. -/
def NothingToLand (L : VaultMergeLib) (m : Mirror) : Prop :=
  ∀ v owner u merged, m.project = .ok v → ¬ Carries L m v owner u merged

section Sweep

variable {L : VaultMergeLib} {m m' : Mirror} {v v' : Vault} {u : Uuid}

theorem carries_congr {owner : String} {merged : Vault}
    (h : m'.conflicts.find? (owner, u) = m.conflicts.find? (owner, u)) :
    Carries L m' v owner u merged ↔ Carries L m v owner u merged := by
  unfold Carries Adopts
  rw [theirsVault_congr h]

theorem Carries.parked {owner : String} {merged : Vault} (h : Carries L m v owner u merged) :
    Parked m owner u := by
  obtain ⟨l, -, ⟨theirs, outcome, htheirs, -⟩, -⟩ := h
  unfold theirsVault Mirror.reconstructPeerEntry at htheirs
  unfold Parked
  cases hrow : m.conflicts.find? (owner, u) with
  | none =>
    rw [hrow] at htheirs
    cases htheirs
  | some r => rfl

/-- Settling the rows of an entry none of which is to be landed drops rows only. -/
theorem settleEntryRows_idle (hidle : ∀ owner merged, ¬ Carries L m v owner u merged) {landed : Bool}
    (h : settleEntryRows L u m v = .ok (m', v', landed)) :
    landed = false ∧ v' = v ∧ SameContent m m' ∧ RowsLeft u m m' := by
  unfold settleEntryRows settleLoop at h
  dsimp only at h
  split at h
  · obtain ⟨rfl, he⟩ := Prod.mk.inj (Except.ok.inj h)
    obtain ⟨rfl, rfl⟩ := Prod.mk.inj he
    exact ⟨rfl, rfl, .refl _, .refl _ _⟩
  · obtain ⟨d, hd, h⟩ := except_bind_ok.1 h
    obtain ⟨⟨mid, again⟩, happly, h⟩ := except_bind_ok.1 h
    cases again with
    | true =>
      obtain ⟨p, hlands⟩ := lands_of_landed hd happly
      exact absurd hlands.spec.2.2.2.1 (hidle _ _)
    | false =>
      obtain ⟨rfl, he⟩ := Prod.mk.inj (Except.ok.inj h)
      obtain ⟨rfl, rfl⟩ := Prod.mk.inj he
      have hends := (ends_of_unlanded hd happly).spec
      exact ⟨rfl, rfl, hends.1, hends.2.1⟩

theorem sweepRows_idle {parked : List Uuid} (hidle : ∀ owner u merged, ¬ Carries L m v owner u merged)
    {adopted adopted' : List Uuid} (h : sweepRows L parked (m, v, adopted) = .ok (m', v', adopted')) :
    adopted' = adopted ∧ SameContent m m' := by
  induction parked generalizing m adopted with
  | nil =>
    obtain ⟨rfl, he⟩ := Prod.mk.inj (Except.ok.inj h)
    exact ⟨(Prod.mk.inj he).2.symm, .refl _⟩
  | cons u parked ih =>
    unfold sweepRows at h
    obtain ⟨⟨mid, w, landed⟩, hmid, hrest⟩ := except_bind_ok.1 h
    obtain ⟨rfl, rfl, hsame, hleft⟩ := settleEntryRows_idle (fun o => hidle o u) hmid
    have hidle' : ∀ owner x merged, ¬ Carries L mid w owner x merged := by
      intro o x merged hc
      -- a row that is left is the row that was there
      have hrow : mid.conflicts.find? (o, x) = m.conflicts.find? (o, x) := by
        by_cases hx : x = u
        · subst hx
          exact hleft.kept o hc.parked
        · exact hleft.others o x hx
      exact hidle o x merged ((carries_congr hrow).1 hc)
    obtain ⟨hadopted, hsame'⟩ := ih hidle' hrest
    exact ⟨hadopted, hsame.trans hsame'⟩

theorem reconcileAllConflictRows_idle (hidle : NothingToLand L m) {adopted : List Uuid}
    (h : reconcileAllConflictRows L m = .ok (m', adopted)) : adopted = [] ∧ SameContent m m' := by
  unfold reconcileAllConflictRows at h
  split at h
  · obtain ⟨rfl, rfl⟩ := Prod.mk.inj (Except.ok.inj h)
    exact ⟨rfl, .refl _⟩
  · obtain ⟨v, hv, h⟩ := except_bind_ok.1 h
    obtain ⟨⟨mid, w, as⟩, hmid, h⟩ := except_bind_ok.1 h
    obtain ⟨rfl, rfl⟩ := Prod.mk.inj (Except.ok.inj h)
    exact sweepRows_idle (fun o u merged => hidle v o u merged hv) hmid

end Sweep

/-! ## The tombstones a pull keeps -/

section Tombstones

variable {M : MergeLib} {P : PeerPull} {m : Mirror} {st st' : Mirror × IngestPeerOutcome} {u : Uuid}

/-- The walk over the peer's entries takes the tombstone of `u` when it adds `u`. -/
def Adds (P : PeerPull) (u : Uuid) : Prop :=
  P.localEntry u = none ∧ ∃ p ∈ P.peer.entries, p.id = u ∧ ¬ Blocked P p

theorem exists_entriesWithParent {v : Vault} {e : Entry} (he : e ∈ v.entries) :
    ∃ g, (e, g) ∈ v.entriesWithParent := by
  rw [← entriesWithParent_map_fst] at he
  obtain ⟨⟨e, g⟩, hmem, rfl⟩ := List.mem_map.1 he
  exact ⟨g, hmem⟩

theorem ingestEntries_tombstone (hM : Lawful M) (hnd : (P.peer.entries.map (·.id)).Nodup)
    (hv : m.project = .ok P.localVault) (hst : st.1.tombstones = m.tombstones)
    (h : P.peer.entriesWithParent.foldlM (P.ingestEntry M) st = .ok st') :
    u ∈ st'.1.tombstones.keys ↔ u ∈ m.tombstones.keys ∧ ¬ Adds P u := by
  by_cases hu : ∃ p ∈ P.peer.entries, p.id = u
  · obtain ⟨p, hp, rfl⟩ := hu
    obtain ⟨parent, hpe⟩ := exists_entriesWithParent hp
    obtain ⟨a, b, hbefore, hstep, hafter⟩ :=
      ingestEntries_at hM (nodup_entriesWithParent hnd) hpe h
    have hold : a.1.tombstones.find? p.id = m.tombstones.find? p.id := by
      rw [hbefore.rows.tombstone, hst]
    have hadds : Adds P p.id ↔ P.localEntry p.id = none ∧ ¬ Blocked P p := by
      refine and_congr_right fun _ => ⟨?_, fun hb => ⟨p, hp, rfl, hb⟩⟩
      rintro ⟨q, hq, hid, hb⟩
      rwa [List.inj_on_of_nodup_map hnd hq hp hid] at hb
    rw [hadds, ← Table.find?_isSome, hafter.rows.tombstone, ← Table.find?_isSome]
    unfold PeerPull.ingestEntry at hstep
    split at hstep
    · rename_i hnone
      rcases ingestPeerOnly_spec hstep with ⟨hb, rfl⟩ | ⟨hb, -, -, -, -, ht, -, -⟩
      · rw [hold]
        simp [hb]
      · rw [ht, hold, project_tombstoneTime hv, hnone]
        cases m.tombstones.find? p.id <;> simp [hb]
    · rename_i l hl
      rw [(ingestShared_spec hM (localEntry_id hl) hstep).2.1, hold, hl]
      simp
  · have hstill := ingestEntries_unmoved hM h fun pe hpe e => hu ⟨pe.1, mem_entries (g := pe.2) hpe, e⟩
    have hadds : ¬ Adds P u := by
      rintro ⟨-, p, hp, e, -⟩
      exact hu ⟨p, hp, e⟩
    rw [← Table.find?_isSome, hstill.rows.tombstone, hst, Table.find?_isSome]
    simp [hadds]

/-- **The tombstones of a mirror the peer does not have**: a pull keeps that of `u` unless it adds the entry
`u` or leaves the group `u` standing. -/
theorem ingestPeer_tombstone_iff (hM : Lawful M) (hnd : (P.peer.entries.map (·.id)).Nodup)
    (hv : m.project = .ok P.localVault) {ord : HashOrder} (h : ingestPeer M ord P m = .ok st)
    (hu : u ∉ P.peer.deletedObjects.map (·.uuid)) :
    u ∈ st.1.tombstones.keys ↔ u ∈ m.tombstones.keys ∧ ¬ Adds P u ∧ u ∉ st.1.groups.keys := by
  unfold ingestPeer at h
  obtain ⟨st₁, h₁, h⟩ := except_bind_ok.1 h
  obtain ⟨st₂, h₂, h⟩ := except_bind_ok.1 h
  obtain ⟨st₄, h₄, h⟩ := except_bind_ok.1 h
  obtain rfl := Except.ok.inj h
  have hwalk := ingestEntries_tombstone (u := u) hM hnd hv
    (GroupPass.of_reconcilePeerGroups h₁).rest.tombstones h₂
  obtain ⟨-, hdt, -⟩ := reconcilePeerDeletes_spec (P := P) st₂
  obtain ⟨-, hunion⟩ :=
    unionPeerTombstones_spec P.peer.deletedObjects (P.reconcilePeerDeletes st₂).1
  obtain ⟨-, hicont⟩ := unionPeerCustomIcons_same P.peer.metadata.customIcons
    (unionPeerTombstones P.peer.deletedObjects (P.reconcilePeerDeletes st₂).1)
  obtain ⟨-, hft, -, hfl⟩ := reconcilePeerMeta_same P.localVault.metadata (P.mergedMeta M) st₄.1
  rw [materializeGroupTombstones_eq] at h₄
  obtain ⟨-, -, -, hmt⟩ := materializeGroupTombstonesIn_spec (.refl _) h₄
  have hgroups : u ∈ (reconcilePeerMeta P.localVault.metadata (P.mergedMeta M) st₄.1).groups.keys ↔
      u ∈ st₄.1.groups.keys := by
    rw [← locationOf_isSome, hfl, locationOf_isSome]
  show u ∈ (reconcilePeerMeta _ _ st₄.1).tombstones.keys ↔ _ ∧ _ ∧
    u ∉ (reconcilePeerMeta _ _ st₄.1).groups.keys
  rw [hgroups, hft, ← Table.find?_isSome, hmt u]
  by_cases hg : u ∈ st₄.1.groups.keys
  · simp [hg]
  · rw [if_neg hg, hicont, hunion u, tombstoneTime_none hu]
    show ((P.reconcilePeerDeletes st₂).1.tombstones.find? u).isSome = true ↔ _
    rw [hdt, Table.find?_isSome, hwalk]
    simp [hg]

end Tombstones

/-! ## A settled reconcile -/

/-- What a digest may depend on: not on histories, times or tombstones. -/
def visibleContent (v : Vault) : List FlatGroup × Meta :=
  (v.groups.map fun f => { f with
    info := { f.info with times := {} }
    entries := f.entries.map fun e => { e with times := {}, history := [] } }, v.metadata)

/-- `vault_content_digest` as documented: it leaves histories, times and tombstones out, and tells trees
and the places of entries apart. -/
structure ContentDigest {D : Type} (digest : Vault → D) : Prop where
  visible {v w : Vault} : visibleContent v = visibleContent w → digest v = digest w
  groups {v w : Vault} : digest v = digest w → ∀ u,
    u ∈ v.groups.map (·.info.id) ↔ u ∈ w.groups.map (·.info.id)
  entries {v w : Vault} : digest v = digest w → ∀ u,
    u ∈ v.entries.map (·.id) ↔ u ∈ w.entries.map (·.id)

/-- The reconcile of a clean mirror with the file `disk` settled the watermark. -/
def SettlesWatermark {D : Type} [DecidableEq D] (M : MergeLib) (L : VaultMergeLib) (digest : Vault → D)
    (ord : HashOrder) (disk : Vault) (now : DateTime) (m m' : Mirror) : Prop :=
  m.isDirty = false ∧ ∃ result,
    reconcileWithDiskKdfPolicy M L digest ord disk now m = .ok (m', result) ∧ result.isWritten = true

/-- A file holds a vault: its content, each history record and each tombstone. -/
structure FileHolds {D : Type} (digest : Vault → D) (file v : Vault) : Prop where
  content : digest file = digest v
  records : ∀ e ∈ v.entries, ∃ p ∈ file.entries, p.id = e.id ∧
    rowRecords e.history ⊆ rowRecords p.history
  tombstones : v.deletedObjects.map (·.uuid) ⊆ file.deletedObjects.map (·.uuid)

/-- What the mirror was to keep, the file had: of an entry both hold each record of local's that the pull
leaves, a replaced version included; of the tombstones each, or the group it names, or the entry it names
where the mirror has none of that id. -/
structure FileCovers (M : MergeLib) (P : PeerPull) (m : Mirror) : Prop where
  records : ∀ p ∈ P.peer.entries, ∀ l, P.localEntry p.id = some l →
    ∀ x ∈ l.history ++ replacedVersions M l p, x.rowRecord ∈ rowRecords (P.leftHistory M l p) →
      x.rowRecord ∈ rowRecords p.history
  tombstones : ∀ u ∈ m.tombstones.keys, u ∈ P.peer.deletedObjects.map (·.uuid) ∨
    u ∈ P.peer.groups.map (·.info.id) ∨ u ∈ P.peer.entries.map (·.id) ∧ u ∉ m.entries.keys

section Settled

variable {D : Type} [DecidableEq D] {M : MergeLib} {L : VaultMergeLib} {digest : Vault → D}
  {ord : HashOrder} {disk v v' : Vault} {now : DateTime} {m m' : Mirror}

/-- The pull behind a reconcile that settled, when the sweep has nothing to land. -/
theorem SettlesWatermark.pulled (h : SettlesWatermark M L digest ord disk now m m')
    (hv : m.project = .ok v) (hv' : m'.project = .ok v')
    (hland : ∀ st, ingestPeer M ord ⟨fileOwner, v, disk, now⟩ m = .ok st → NothingToLand L st.1) :
    m'.isDirty = false ∧ digest disk = digest v' ∧
      ∃ st, ingestPeer M ord ⟨fileOwner, v, disk, now⟩ m = .ok st ∧ st.1.project = .ok v' := by
  obtain ⟨hclean, result, hrun, hwritten⟩ := h
  unfold reconcileWithDiskKdfPolicy at hrun
  obtain ⟨⟨m₂, result'⟩, hingest, hrun⟩ := except_bind_ok.1 hrun
  dsimp only at hrun
  rw [hclean] at hrun
  split at hrun
  · obtain ⟨rfl, rfl⟩ := Prod.mk.inj (Except.ok.inj hrun)
    refine ⟨by simp [Mirror.isDirty], ?_⟩
    have hv₂ : m₂.project = .ok v' := hv'
    unfold ingestKdbxAsOwner at hingest
    obtain ⟨⟨m₃, outcome⟩, hpull, hingest⟩ := except_bind_ok.1 hingest
    dsimp only at hingest
    split at hingest
    · obtain ⟨-, rfl⟩ := Prod.mk.inj (Except.ok.inj hingest)
      cases hwritten
    · obtain ⟨w, hw, hingest⟩ := except_bind_ok.1 hingest
      obtain ⟨rfl, rfl⟩ := Prod.mk.inj (Except.ok.inj hingest)
      obtain rfl : w = v' := Except.ok.inj (hw.symm.trans hv₂)
      refine ⟨by simpa [ParkConflictsResult.isWritten] using hwritten, ?_⟩
      unfold engineIngestPeer at hpull
      obtain ⟨-, -, hpull⟩ := except_bind_ok.1 hpull
      obtain ⟨w', hw', hpull⟩ := except_bind_ok.1 hpull
      obtain rfl : w' = v := Except.ok.inj (hw'.symm.trans hv)
      obtain ⟨⟨m₄, o⟩, hst, hpull⟩ := except_bind_ok.1 hpull
      obtain ⟨⟨m₅, adopted⟩, hsweep, hpull⟩ := except_bind_ok.1 hpull
      obtain ⟨rfl, -⟩ := Prod.mk.inj (Except.ok.inj hpull)
      refine ⟨_, hst, ?_⟩
      rw [← (reconcileAllConflictRows_idle (hland _ hst) hsweep).2.project]
      exact hv₂
  · rename_i hnot
    obtain ⟨-, rfl⟩ := Prod.mk.inj (Except.ok.inj hrun)
    simp [hwritten] at hnot

theorem Attached.mem_group_ids (ha : Attached m v) {u : Uuid} :
    u ∈ v.groups.map (·.info.id) ↔ u ∈ m.groups.keys := by
  have h := ha.groups.map fun x : GroupInfo × Option Uuid => x.1.id
  rw [List.map_map, List.map_map] at h
  exact h.mem_iff

theorem mem_deletedObjects (hv : m.project = .ok v) {u : Uuid} :
    u ∈ v.deletedObjects.map (·.uuid) ↔ u ∈ m.tombstones.keys := by
  rw [project_deletedObjects hv, Mirror.readDeletedObjects, List.map_map, Table.mem_keys]
  simp [List.mem_insertionSort]

/-- The entries of the settled mirror are the file's, each shared or added from it. -/
theorem settled_entry (hM : Lawful M) (hr : RootedAt m disk.root.id) (hfile : FileOf disk.root.id disk)
    (hv : m.project = .ok v) {st : Mirror × IngestPeerOutcome}
    (hst : ingestPeer M ord ⟨fileOwner, v, disk, now⟩ m = .ok st) {p : Entry} (hp : p ∈ disk.entries)
    {row : EntryRow} (hrow : st.1.entries.find? p.id = some row) :
    (∃ l, PeerPull.localEntry ⟨fileOwner, v, disk, now⟩ p.id = some l ∧
        rowRecords row.toEntry.history =
          rowRecords (PeerPull.leftHistory M ⟨fileOwner, v, disk, now⟩ l p)) ∨
      PeerPull.localEntry ⟨fileOwner, v, disk, now⟩ p.id = none ∧
        ¬ Blocked ⟨fileOwner, v, disk, now⟩ p ∧
        rowRecords row.toEntry.history = rowRecords p.history := by
  have ha := project_attaches (groupTree_iff.2 ⟨_, hr⟩) hv
  have hlocal := ha.localEntry (P := ⟨fileOwner, v, disk, now⟩) rfl p.id
  obtain ⟨parent, hpe⟩ := exists_entriesWithParent hp
  cases hl : PeerPull.localEntry ⟨fileOwner, v, disk, now⟩ p.id with
  | some l =>
    obtain ⟨st₁, -, hshared⟩ := ingestPeer_shared hM hfile.entries hpe hl hst
    obtain ⟨result, hresult, hfind⟩ := hshared.row
    rw [hl] at hlocal
    obtain ⟨r, hr, rfl⟩ := Option.map_eq_some_iff.1 hlocal.symm
    rw [hrow, hr] at hfind
    obtain rfl := Option.some.inj hfind
    exact .inl ⟨_, rfl, sharedRow_records hM hl hresult⟩
  | none =>
    rw [hl] at hlocal
    have habsent : m.entries.find? p.id = none := Option.map_eq_none_iff.1 hlocal.symm
    obtain ⟨st₁, -, ⟨-, hfind, -⟩ | ⟨hb, hfind, -⟩⟩ :=
      ingestPeer_peerOnly hM hfile.entries hpe hl hst
    · rw [hrow, habsent] at hfind
      cases hfind
    · rw [hrow] at hfind
      obtain rfl := Option.some.inj hfind
      exact .inr ⟨rfl, hb, rowRecords_written _ _⟩

/-- When every entry of the file is here after the pull, the pull added those that were not here before. -/
theorem adds_iff (hM : Lawful M) (hr : RootedAt m disk.root.id) (hfile : FileOf disk.root.id disk)
    (hv : m.project = .ok v) {st : Mirror × IngestPeerOutcome}
    (hst : ingestPeer M ord ⟨fileOwner, v, disk, now⟩ m = .ok st)
    (hentry : ∀ p ∈ disk.entries, ∃ row, st.1.entries.find? p.id = some row) (u : Uuid) :
    Adds ⟨fileOwner, v, disk, now⟩ u ↔ u ∈ disk.entries.map (·.id) ∧ u ∉ m.entries.keys := by
  have hnone : PeerPull.localEntry ⟨fileOwner, v, disk, now⟩ u = none ↔ u ∉ m.entries.keys := by
    rw [(project_attaches (groupTree_iff.2 ⟨_, hr⟩) hv).localEntry (P := ⟨fileOwner, v, disk, now⟩) rfl u,
      Option.map_eq_none_iff, Table.find?_eq_none]
  constructor
  · rintro ⟨hl, p, hp, rfl, -⟩
    exact ⟨List.mem_map_of_mem hp, hnone.1 hl⟩
  · rintro ⟨hu, habsent⟩
    obtain ⟨p, hp, rfl⟩ := List.mem_map.1 hu
    obtain ⟨row, hrow⟩ := hentry p hp
    refine ⟨hnone.2 habsent, p, hp, rfl, ?_⟩
    rcases settled_entry hM hr hfile hv hst hp hrow with ⟨l, hl, -⟩ | ⟨-, hb, -⟩
    · rw [hnone.2 habsent] at hl
      cases hl
    · exact hb

/-- **What a settled file has to have held**: when the sweep has nothing to land, the file a reconcile settled
on holds what the mirror projects to exactly when it had each record and each tombstone the mirror was
to keep. -/
theorem settled_file_holds_iff (hM : Lawful M) (hU : UnitesHistories M) (hdigest : ContentDigest digest)
    (hr : RootedAt m disk.root.id) (hfile : FileOf disk.root.id disk) (hv : m.project = .ok v)
    (hv' : m'.project = .ok v') (h : SettlesWatermark M L digest ord disk now m m')
    (hland : ∀ st, ingestPeer M ord ⟨fileOwner, v, disk, now⟩ m = .ok st → NothingToLand L st.1) :
    FileHolds digest disk v' ↔ FileCovers M ⟨fileOwner, v, disk, now⟩ m := by
  obtain ⟨-, hcontent, st, hst, hview⟩ := h.pulled hv hv' hland
  have hrooted : RootedAt st.1 disk.root.id :=
    ReplicaOf.rooted (ingestPeer_rooted hM (hfile.peerOf hr) hst) hview
  have ha' := project_attaches (groupTree_iff.2 ⟨_, hrooted⟩) hview
  -- the file's entries and groups are those of the mirror
  have hentries : ∀ u, u ∈ disk.entries.map (·.id) ↔ u ∈ st.1.entries.keys := fun u =>
    (hdigest.entries hcontent u).trans ha'.mem_entry_ids
  have hgroups : ∀ u, u ∈ disk.groups.map (·.info.id) ↔ u ∈ st.1.groups.keys := fun u =>
    (hdigest.groups hcontent u).trans ha'.mem_group_ids
  have hentry : ∀ p ∈ disk.entries, ∃ row, st.1.entries.find? p.id = some row := fun p hp => by
    rw [← Option.isSome_iff_exists, Table.find?_isSome, ← hentries]
    exact List.mem_map_of_mem hp
  have hadds := adds_iff hM hr hfile hv hst hentry
  have htombs := fun u hu => ingestPeer_tombstone_iff (u := u) hM hfile.entries hv hst hu
  constructor
  · intro hholds
    refine ⟨fun p hp l hl x _ hleft => ?_, fun u hu => ?_⟩
    · obtain ⟨row, hrow⟩ := hentry p hp
      rcases settled_entry hM hr hfile hv hst hp hrow with ⟨l', hl', hrecords⟩ | ⟨hnone, -⟩
      · obtain rfl : l' = l := Option.some.inj (hl'.symm.trans hl)
        have hmem : row.toEntry ∈ v'.entries :=
          ha'.entries_perm.mem_iff.2 (List.mem_map_of_mem (Table.find?_mem hrow))
        obtain ⟨q, hq, hid, hsub⟩ := hholds.records _ hmem
        have hkey : row.uuid = p.id := Table.find?_key hrow
        obtain rfl : q = p := List.inj_on_of_nodup_map hfile.entries hq hp (hid.trans hkey)
        rw [← hrecords] at hleft
        exact hsub hleft
      · have hl : PeerPull.localEntry _ p.id = some l := hl
        rw [hnone] at hl
        cases hl
    · by_contra hlost
      simp only [not_or] at hlost
      obtain ⟨hdeleted, hgroup, hadded⟩ := hlost
      have hkept : u ∈ st.1.tombstones.keys := by
        rw [htombs u hdeleted, hadds, ← hgroups]
        exact ⟨hu, hadded, hgroup⟩
      exact hdeleted (hholds.tombstones ((mem_deletedObjects hview).2 hkept))
  · intro hcovers
    refine ⟨hcontent, fun e he => ?_, fun u hu => ?_⟩
    · obtain ⟨row, hrow, rfl⟩ := project_entry_row hview he
      obtain ⟨p, hp, hid⟩ := List.mem_map.1 ((hentries row.uuid).2 (Table.key_mem hrow))
      have hfind : st.1.entries.find? p.id = some row := by
        rw [hid]
        exact Table.find?_of_mem hrow
      refine ⟨p, hp, hid, ?_⟩
      rcases settled_entry hM hr hfile hv hst hp hfind with ⟨l, hl, hrecords⟩ | ⟨-, -, hrecords⟩
      · intro k hk
        have hleft := hrecords ▸ hk
        obtain ⟨x, hx, rfl⟩ := List.mem_map.1 hleft
        rcases leftHistory_subset hM hU hl hx with hlocal | hpeer
        · exact hcovers.records p hp l hl x hlocal hleft
        · exact List.mem_map_of_mem hpeer
      · exact hrecords ▸ List.Subset.refl _
    · by_contra hdeleted
      obtain ⟨hold, hadd, hgroup⟩ := (htombs u hdeleted).1 ((mem_deletedObjects hview).1 hu)
      rw [hadds] at hadd
      rw [← hgroups] at hgroup
      rcases hcovers.tombstones u hold with h | h | h
      · exact hdeleted h
      · exact hgroup h
      · exact hadd h

/-- The rows an ingest writes for the entries of the vault. -/
theorem ingested_entry {vault : Vault} {source : Source}
    (h : ingestVaultWithHeader vault source m = .ok m') {e : Entry} (he : e ∈ vault.entries) :
    ∃ row ∈ m'.entries.rows, row.uuid = e.id ∧
      row.history = e.history.map HistorySnapshot.fromEntry := by
  obtain ⟨g, hmem⟩ := exists_entriesWithParent he
  have hwalk : (vault.root.placed vault.metadata.recycleBinUuid false).map (fun p => (p.1, p.2.1)) =
      vault.entriesWithParent := placed_collect _ false none 0 vault.root
  rw [← hwalk] at hmem
  obtain ⟨p, hp, hpe⟩ := List.mem_map.1 hmem
  obtain ⟨rfl, -⟩ := Prod.mk.inj hpe
  refine ⟨p.1.toRow p.2.1 p.2.2, ?_, rfl, rfl⟩
  rw [(ingestVaultWithHeader_tree h).2]
  exact List.mem_map_of_mem hp

omit [DecidableEq D] in
/-- **A later ingest of a file that holds the mirror takes no record and no tombstone from it.** -/
theorem FileHolds.reingested (h : FileHolds digest disk v) (hr : RootedAt m disk.root.id)
    (hv : m.project = .ok v) {source : Source} (hingest : ingestVaultWithHeader disk source m = .ok m') :
    (∀ row ∈ m.entries.rows, ∃ row' ∈ m'.entries.rows, row'.uuid = row.uuid ∧
      rowRecords row.toEntry.history ⊆ rowRecords row'.toEntry.history) ∧
      m.tombstones.keys ⊆ m'.tombstones.keys := by
  have ha := project_attaches (groupTree_iff.2 ⟨_, hr⟩) hv
  refine ⟨fun row hrow => ?_, fun u hu => ?_⟩
  · obtain ⟨p, hp, hid, hsub⟩ := h.records row.toEntry
      (ha.entries_perm.mem_iff.2 (List.mem_map_of_mem hrow))
    obtain ⟨row', hrow', huuid, hhistory⟩ := ingested_entry hingest hp
    refine ⟨row', hrow', huuid.trans hid, ?_⟩
    show _ ⊆ rowRecords (row'.history.map (HistorySnapshot.toVersion row'.uuid))
    rw [hhistory, rowRecords_written]
    exact hsub
  · have hmem := h.tombstones ((mem_deletedObjects hv).2 hu)
    rw [Table.mem_keys, (ingestVaultWithHeader_meta hingest).1.tombstones]
    obtain ⟨d, hd, rfl⟩ := List.mem_map.1 hmem
    exact ⟨d.toRow, List.mem_map_of_mem hd, rfl⟩

end Settled

/-! ## A file that was trimmed -/

theorem fieldMerge_unitesHistories : UnitesHistories fieldMerge where
  fold {b o e c} h := by
    obtain ⟨rfl, -⟩ := Prod.mk.inj (Except.ok.inj h)
    refine List.append_subset.2 ⟨List.subset_append_left _ _, fun x hx => ?_⟩
    exact List.mem_append_right _ (List.mem_filter.1 hx).1
  all {b o e c} h := by
    obtain ⟨rfl, -⟩ := Prod.mk.inj (Except.ok.inj h)
    unfold Entry.records uniteHistories
    rw [List.map_append]
    refine List.append_subset.2 ⟨List.subset_append_left _ _, fun k hk => ?_⟩
    obtain ⟨x, hx, rfl⟩ := List.mem_map.1 hk
    by_cases htwin : b.history.any fun y => sameContent x y &&
        x.times.lastModificationTime = y.times.lastModificationTime
    · obtain ⟨y, hy, hxy⟩ := List.any_eq_true.1 htwin
      rw [Bool.and_eq_true, decide_eq_true_eq] at hxy
      rw [record_eq_iff.2 ⟨congrArg _ hxy.2, hxy.1⟩]
      exact List.mem_append_left _ (List.mem_map_of_mem hy)
    · refine List.mem_append_right _ (List.mem_map_of_mem (List.mem_filter.2 ⟨hx, ?_⟩))
      simpa using htwin
  prune {b e i s t n} h := by
    obtain ⟨rfl, -⟩ := Prod.mk.inj (Except.ok.inj h)
    exact List.Subset.refl _
  tombstones {b o e c} h := by
    obtain ⟨rfl, -⟩ := Prod.mk.inj (Except.ok.inj h)
    exact List.Subset.refl _

theorem visibleContent_digest : ContentDigest visibleContent where
  visible h := h
  groups {v w} h u := by
    have hids : v.groups.map (·.info.id) = w.groups.map (·.info.id) := by
      have hrows := congrArg (fun c => c.1.map (·.info.id)) h
      simp only [visibleContent, List.map_map] at hrows
      exact hrows
    rw [hids]
  entries {v w} h u := by
    have hids : v.entries.map (·.id) = w.entries.map (·.id) := by
      have hrows := congrArg (fun c => c.1.flatMap fun f => f.entries.map (·.id)) h
      simp only [visibleContent, List.flatMap_map, List.map_map] at hrows
      unfold Vault.entries
      rw [List.map_flatMap, List.map_flatMap]
      exact hrows
    rw [hids]

/-- Entry `9` under its second title, with a record of the first, and a deletion of entry `5`. -/
def twiceTitled : Mirror :=
  { loneRoot with
    entries := ⟨[{
      uuid := 9, groupUuid := 1, title := "Mail", modifiedAt := .atSecond 10
      history := [{ title := "Post", modifiedAt := .atSecond 5 }] }], List.nodup_singleton _⟩
    tombstones := ⟨[⟨5, some (.atSecond 7)⟩], List.nodup_singleton _⟩
    fkGroup := by decide }

/-- The file of `twiceTitled` once another client gave the entry a third title, with the history and the
deletions it left in it. -/
def retitledFile (titles : List (String × DateTime)) (deleted : List Uuid) : Vault :=
  { view twiceTitled with
    root := .node (view twiceTitled).root.info [{
      id := 9, title := "Letters", times := { lastModificationTime := some (.atSecond 20) }
      history := titles.map fun t =>
        { id := 9, title := t.1, times := { lastModificationTime := some t.2 } } }] []
    deletedObjects := deleted.map (⟨·, none⟩) }

/-- The reconcile with the field-wise libraries, the mirror itself when it fails. -/
def afterSettle (file : Vault) (m : Mirror) : Mirror :=
  ((reconcileWithDiskKdfPolicy fieldMerge fieldVaults visibleContent .insertion file (.atSecond 30)
    m).toOption.map (·.1)).getD m

theorem settles_afterSettle {file : Vault} {m : Mirror} (hclean : m.isDirty = false)
    (h : (reconcileWithDiskKdfPolicy fieldMerge fieldVaults visibleContent .insertion file (.atSecond 30)
      m).toOption.any (·.2.isWritten) = true) :
    SettlesWatermark fieldMerge fieldVaults visibleContent .insertion file (.atSecond 30) m
      (afterSettle file m) := by
  unfold afterSettle
  cases hrun : reconcileWithDiskKdfPolicy fieldMerge fieldVaults visibleContent .insertion file
      (.atSecond 30) m with
  | error e =>
    rw [hrun] at h
    cases h
  | ok p =>
    rw [hrun] at h
    exact ⟨hclean, p.2, hrun, h⟩

/-- The titles of the history of entry `9`. -/
def recordTitles (m : Mirror) : List String :=
  ((m.entries.find? 9).map fun row => row.history.map (·.title)).getD []

theorem twiceTitled_rooted : RootedAt twiceTitled 1 := .of_walks (by decide) (by decide) (by decide +kernel)

/-- A pull into `twiceTitled` parks nothing, so there is nothing to land. -/
theorem twiceTitled_nothingToLand {P : PeerPull}
    (hparked : (ingestPeer fieldMerge .insertion P twiceTitled).toOption.map (·.1.conflicts.rows) =
      some [])
    {st : Mirror × IngestPeerOutcome} (hst : ingestPeer fieldMerge .insertion P twiceTitled = .ok st) :
    NothingToLand fieldVaults st.1 := by
  intro v owner u merged _ hc
  rw [hst] at hparked
  have hnone : st.1.conflicts.rows = [] := Option.some.inj hparked
  have hmem := Table.find?_isSome.1 hc.parked
  rw [Table.keys, hnone] at hmem
  cases hmem

/-- The other client kept every record and the deletion. -/
theorem settled_file_holds_complete :
    let m := twiceTitled
    let file := retitledFile [("Post", .atSecond 5), ("Mail", .atSecond 10)] [5]
    let m' := afterSettle file m
    SettlesWatermark fieldMerge fieldVaults visibleContent .insertion file (.atSecond 30) m m' ∧
      FileHolds visibleContent file (view m') := by
  intro m file m'
  have hsettles : SettlesWatermark fieldMerge fieldVaults visibleContent .insertion file (.atSecond 30)
      m m' := settles_afterSettle rfl (by decide +kernel)
  have hfile : FileOf file.root.id file := ⟨by decide +kernel, by decide +kernel, rfl⟩
  refine ⟨hsettles, (settled_file_holds_iff fieldMerge_lawful fieldMerge_unitesHistories
    visibleContent_digest twiceTitled_rooted hfile (project_view (by decide +kernel))
    (project_view (by decide +kernel)) hsettles
    fun st hst => twiceTitled_nothingToLand (by decide +kernel) hst).2 ⟨?_, ?_⟩⟩
  · intro p hp l hl
    obtain rfl := List.mem_singleton.1 hp
    obtain rfl := Option.some.inj hl
    decide +kernel
  · decide +kernel

/-- The other client kept one record and no deletions: the settled mirror is clean, so that the file can be
ingested, and loses the other record and the deletion to it. -/
theorem settled_file_lacks_record :
    let m := twiceTitled
    let file := retitledFile [("Mail", .atSecond 10)] []
    let m' := afterSettle file m
    Lawful fieldMerge ∧ UnitesHistories fieldMerge ∧ ContentDigest visibleContent ∧
      SettlesWatermark fieldMerge fieldVaults visibleContent .insertion file (.atSecond 30) m m' ∧
      m.project = .ok (view m) ∧ m'.project = .ok (view m') ∧ m'.isDirty = false ∧
      ¬ FileHolds visibleContent file (view m') ∧
      ∃ m'', ingestVaultWithHeader file (.vaultFile true) m' = .ok m'' ∧
        recordTitles m' = ["Post", "Mail"] ∧ recordTitles m'' = ["Mail"] ∧
        m'.tombstones.keys = [5] ∧ m''.tombstones.keys = [] := by
  intro m file m'
  refine ⟨fieldMerge_lawful, fieldMerge_unitesHistories, visibleContent_digest,
    settles_afterSettle rfl (by decide +kernel), project_view (by decide +kernel),
    project_view (by decide +kernel), by decide +kernel, fun h => ?_, ?_⟩
  · have hheld : (5 : Uuid) ∈ file.deletedObjects.map (·.uuid) := h.tombstones (by decide +kernel)
    cases hheld
  · have hlost : (ingestVaultWithHeader file (.vaultFile true) m').toOption.map
        (fun x => (recordTitles x, x.tombstones.keys)) = some (["Mail"], []) := by decide +kernel
    cases hrun : ingestVaultWithHeader file (.vaultFile true) m' with
    | error e =>
      rw [hrun] at hlost
      cases hlost
    | ok m'' =>
      rw [hrun] at hlost
      obtain ⟨htitles, hkeys⟩ := Prod.mk.inj (Option.some.inj hlost)
      exact ⟨m'', rfl, by decide +kernel, htitles, by decide +kernel, hkeys⟩

end KeysCore.Verify
