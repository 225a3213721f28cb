import KeysCore.Verify.GroupRelocation
import KeysCore.Verify.PeerIngest

/-!
# What a whole peer ingest does to one entry

The passes around the entry walk of `ingest_peer` and their effect on the tables of entries,
tombstones and parked versions; then the effect of the whole on one entry, by which side holds it
(`ingestPeer_shared`, `ingestPeer_peerOnly`, `ingestPeer_absent`).
-/

namespace KeysCore.Verify

open Lib

/-! ## The group passes leave the entries -/

theorem insertGroup_same {m m' : Mirror} {g : GroupRow} (h : m.insertGroup g = .ok m') :
    SameButGroups m m' := by
  unfold Mirror.insertGroup at h
  split at h
  · cases h
  · split at h
    · obtain rfl := Except.ok.inj h
      exact ⟨rfl, rfl, rfl, rfl⟩
    · cases h

theorem setParent_same {m m' : Mirror} {u p : Uuid} {f : GroupRow → GroupRow}
    {hu : ∀ r, (f r).uuid = r.uuid} (h : m.setParent u p f hu = .ok m') : SameButGroups m m' := by
  unfold Mirror.setParent at h
  split at h
  · obtain rfl := Except.ok.inj h
    exact ⟨rfl, rfl, rfl, rfl⟩
  · split at h
    · cases h
    · obtain rfl := Except.ok.inj h
      exact .refl m

theorem createRecycleBinGroup_entries {m m' : Mirror} {now : EpochMs} {u : Uuid}
    (h : m.createRecycleBinGroup now u = .ok m') : m'.entries = m.entries := by
  unfold Mirror.createRecycleBinGroup at h
  split at h
  · cases h
  · obtain ⟨a, ha, h⟩ := except_bind_ok.1 h
    obtain rfl := Except.ok.inj h
    exact (insertGroup_same ha).entries

/-- A pass over groups: no other table changes, and no entry is reported. -/
structure GroupPass (st st' : Mirror × IngestPeerOutcome) : Prop where
  rest : SameButGroups st.1 st'.1
  conflicted : st'.2.conflicted = st.2.conflicted
  autoMerged : st'.2.autoMerged = st.2.autoMerged

namespace GroupPass

variable {st st' st'' : Mirror × IngestPeerOutcome} {f : FlatGroup}

theorem refl (st : Mirror × IngestPeerOutcome) : GroupPass st st := ⟨.refl _, rfl, rfl⟩

theorem trans (h : GroupPass st st') (h' : GroupPass st' st'') : GroupPass st st'' :=
  ⟨h.rest.trans h'.rest, h'.conflicted.trans h.conflicted, h'.autoMerged.trans h.autoMerged⟩

theorem of_adoptGroup (h : adoptGroup st f = .ok st') : GroupPass st st' := by
  unfold adoptGroup at h
  split at h
  · obtain rfl := Except.ok.inj h
    exact .refl _
  · obtain ⟨m, hm, h⟩ := except_bind_ok.1 h
    obtain rfl := Except.ok.inj h
    exact ⟨insertGroup_same hm, rfl, rfl⟩

theorem of_reconcileGroupMetadata {g : GroupInfo} (h : reconcileGroupMetadata g st = .ok st') :
    GroupPass st st' := by
  unfold reconcileGroupMetadata at h
  split at h
  · obtain rfl := Except.ok.inj h
    exact .refl _
  · split at h
    · cases h
    · split at h
      · obtain rfl := Except.ok.inj h
        exact .refl _
      · obtain rfl := Except.ok.inj h
        exact ⟨⟨rfl, rfl, rfl, rfl⟩, rfl, rfl⟩

theorem of_reconcileGroupLocation {g : GroupInfo} {p : Uuid}
    (h : reconcileGroupLocation g p st = .ok st') : GroupPass st st' := by
  unfold reconcileGroupLocation at h
  split at h
  · obtain rfl := Except.ok.inj h
    exact .refl _
  · split at h
    · obtain rfl := Except.ok.inj h
      exact .refl _
    · split at h
      · obtain rfl := Except.ok.inj h
        exact .refl _
      · obtain ⟨m, hm, h⟩ := except_bind_ok.1 h
        obtain rfl := Except.ok.inj h
        exact ⟨setParent_same hm, rfl, rfl⟩

theorem of_reconcileGroup (h : reconcileGroup st f = .ok st') : GroupPass st st' := by
  unfold reconcileGroup at h
  obtain ⟨st₁, h₁, h⟩ := except_bind_ok.1 h
  refine (of_reconcileGroupMetadata h₁).trans ?_
  split at h
  · obtain rfl := Except.ok.inj h
    exact .refl _
  · exact of_reconcileGroupLocation h

theorem of_breakGroupCycles {ord : HashOrder} {root : Uuid} {fuel n : Nat}
    (h : breakGroupCycles ord root fuel n st = .ok st') : GroupPass st st' := by
  induction fuel generalizing n st with
  | zero => cases h
  | succ fuel ih =>
    unfold breakGroupCycles at h
    split at h
    · obtain rfl := Except.ok.inj h
      exact .refl _
    · split at h
      · cases h
      · obtain ⟨m, hm, h⟩ := except_bind_ok.1 h
        have hnext := ih h
        exact ⟨(setParent_same hm).trans hnext.rest, hnext.conflicted, hnext.autoMerged⟩

/-- **Reconciling the peer's groups touches no entry.** -/
theorem of_reconcilePeerGroups {ord : HashOrder} {peer : Vault}
    (h : reconcilePeerGroups ord peer st = .ok st') : GroupPass st st' := by
  unfold reconcilePeerGroups at h
  obtain ⟨st₁, h₁, h⟩ := except_bind_ok.1 h
  obtain ⟨st₂, h₂, h⟩ := except_bind_ok.1 h
  have hadopt := foldlM_rel refl trans (fun _ _ _ _ => of_adoptGroup) h₁
  have hrec := foldlM_rel refl trans (fun _ _ _ _ => of_reconcileGroup) h₂
  exact (hadopt.trans hrec).trans (of_breakGroupCycles h)

end GroupPass

/-! ## The entry walk -/

theorem entriesWithParent_map_fst (v : Vault) : v.entriesWithParent.map (·.1) = v.entries := by
  unfold Vault.entriesWithParent Vault.entries
  rw [List.map_flatMap]
  simp [Function.comp_def]

theorem mem_entries {v : Vault} {e : Entry} {g : Uuid} (h : (e, g) ∈ v.entriesWithParent) :
    e ∈ v.entries := by
  rw [← entriesWithParent_map_fst]
  exact List.mem_map.2 ⟨_, h, rfl⟩

/-- The rows of the entry `u` are the same in both mirrors, and so are the groups. -/
structure SameAt (u : Uuid) (m m' : Mirror) : Prop where
  groups : m'.groups = m.groups
  entry : m'.entries.find? u = m.entries.find? u
  tombstone : m'.tombstones.find? u = m.tombstones.find? u
  conflict : ∀ o, m'.conflicts.find? (o, u) = m.conflicts.find? (o, u)

theorem SameAt.refl (u : Uuid) (m : Mirror) : SameAt u m m := ⟨rfl, rfl, rfl, fun _ => rfl⟩

theorem SameAt.trans {u : Uuid} {a b c : Mirror} (h : SameAt u a b) (h' : SameAt u b c) :
    SameAt u a c :=
  ⟨h'.groups.trans h.groups, h'.entry.trans h.entry, h'.tombstone.trans h.tombstone,
    fun o => (h'.conflict o).trans (h.conflict o)⟩

theorem Touches.sameAt {u v : Uuid} {m m' : Mirror} (h : Touches v m m') (hu : u ≠ v) :
    SameAt u m m' :=
  ⟨h.groups, h.entries u hu, h.tombstones u hu, fun o => h.conflicts o u hu⟩

/-- The rows of `u` and the reports on `u` are the same in both states. -/
structure Unmoved (u : Uuid) (st st' : Mirror × IngestPeerOutcome) : Prop where
  rows : SameAt u st.1 st'.1
  conflicted : u ∈ st'.2.conflicted ↔ u ∈ st.2.conflicted
  autoMerged : u ∈ st'.2.autoMerged ↔ u ∈ st.2.autoMerged

theorem Unmoved.refl (u : Uuid) (st : Mirror × IngestPeerOutcome) : Unmoved u st st :=
  ⟨.refl _ _, Iff.rfl, Iff.rfl⟩

theorem Unmoved.trans {u : Uuid} {a b c : Mirror × IngestPeerOutcome} (h : Unmoved u a b)
    (h' : Unmoved u b c) : Unmoved u a c :=
  ⟨h.rows.trans h'.rows, h'.conflicted.trans h.conflicted, h'.autoMerged.trans h.autoMerged⟩

section Walk

variable {M : MergeLib} {P : PeerPull} {u : Uuid} {st st' : Mirror × IngestPeerOutcome}
  {l : List (Entry × Uuid)}

/-- Entries of other uuids leave `u`. -/
theorem ingestEntries_unmoved (hM : Lawful M) (h : l.foldlM (P.ingestEntry M) st = .ok st')
    (hu : ∀ pe ∈ l, pe.1.id ≠ u) : Unmoved u st st' := by
  refine foldlM_rel (Unmoved.refl u) Unmoved.trans (fun a pe hpe b hb => ?_) h
  obtain ⟨htouch, hrep⟩ := ingestEntry_touches hM hb
  have hne := (hu pe hpe).symm
  exact ⟨htouch.sameAt hne, hrep.conflicted u hne, hrep.autoMerged u hne⟩

/-- The walk acts on an entry through that entry's own step. -/
theorem ingestEntries_at (hM : Lawful M) (hnd : (l.map (·.1.id)).Nodup) {pe : Entry × Uuid}
    (hpe : pe ∈ l) (h : l.foldlM (P.ingestEntry M) st = .ok st') :
    ∃ a b, Unmoved pe.1.id st a ∧ P.ingestEntry M a pe = .ok b ∧ Unmoved pe.1.id b st' := by
  obtain ⟨l₁, l₂, a, b, rfl, h₁, hab, h₂⟩ := foldlM_split hpe h
  rw [List.map_append, List.map_cons, List.nodup_append, List.nodup_cons] at hnd
  obtain ⟨-, ⟨hnot, -⟩, hdisj⟩ := hnd
  refine ⟨a, b, ingestEntries_unmoved hM h₁ fun q hq e => ?_, hab,
    ingestEntries_unmoved hM h₂ fun q hq e => hnot (e ▸ List.mem_map_of_mem hq)⟩
  exact hdisj q.1.id (List.mem_map_of_mem hq) pe.1.id (by simp) e

end Walk

/-! ## The passes after the walk -/

section Deletes

variable {P : PeerPull}

/-- The peer deleted an entry of ours, and we did not edit it since. -/
def DeletedByPeer (P : PeerPull) (u : Uuid) : Prop :=
  ∃ l d, P.localEntry u = some l ∧ tombstoneTime P.peer.deletedObjects u = some d ∧
    u ∉ P.peer.entries.map (·.id) ∧ liveEditWins l.times.lastModificationTime d = false

open Classical in
theorem reconcileDelete_spec (st : Mirror × IngestPeerOutcome) (v : Uuid) :
    RowOnly v st.1 (P.reconcileDelete st v).1 ∧
      (P.reconcileDelete st v).1.entries.find? v =
        (if DeletedByPeer P v then none else st.1.entries.find? v) ∧
      (P.reconcileDelete st v).2.conflicted = st.2.conflicted ∧
      (P.reconcileDelete st v).2.autoMerged = st.2.autoMerged := by
  unfold PeerPull.reconcileDelete
  split
  · rename_i l d hl hd
    split
    · rename_i hkeep
      rw [if_neg]
      · exact ⟨.refl _ _, rfl, rfl, rfl⟩
      · rintro ⟨l', d', hl', hd', hnot, hwin⟩
        rw [hl, Option.some.injEq] at hl'
        rw [hd, Option.some.injEq] at hd'
        subst hl' hd'
        rcases hkeep with hmem | hkeep
        · exact hnot hmem
        · rw [hwin] at hkeep
          cases hkeep
    · rename_i hkeep
      rw [not_or, Bool.not_eq_true] at hkeep
      obtain ⟨hone, hfind⟩ := deleteEntry_row st.1 v
      rw [if_pos ⟨l, d, hl, hd, hkeep.1, hkeep.2⟩]
      exact ⟨hone, hfind, rfl, rfl⟩
  · rename_i hno
    rw [if_neg]
    · exact ⟨.refl _ _, rfl, rfl, rfl⟩
    · rintro ⟨l, d, hl, hd, -⟩
      exact hno l d hl hd

open Classical in
/-- **Delete propagation, entry by entry.** -/
theorem reconcilePeerDeletes_spec (st : Mirror × IngestPeerOutcome) :
    (P.reconcilePeerDeletes st).1.groups = st.1.groups ∧
      (P.reconcilePeerDeletes st).1.tombstones = st.1.tombstones ∧
      (P.reconcilePeerDeletes st).1.conflicts = st.1.conflicts ∧
      (P.reconcilePeerDeletes st).2.conflicted = st.2.conflicted ∧
      (P.reconcilePeerDeletes st).2.autoMerged = st.2.autoMerged ∧
      ∀ u, (P.reconcilePeerDeletes st).1.entries.find? u =
        if DeletedByPeer P u then none else st.1.entries.find? u := by
  have hlist : ∀ (vs : List Uuid) (st : Mirror × IngestPeerOutcome),
      (vs.foldl P.reconcileDelete st).1.groups = st.1.groups ∧
        (vs.foldl P.reconcileDelete st).1.tombstones = st.1.tombstones ∧
        (vs.foldl P.reconcileDelete st).1.conflicts = st.1.conflicts ∧
        (vs.foldl P.reconcileDelete st).2.conflicted = st.2.conflicted ∧
        (vs.foldl P.reconcileDelete st).2.autoMerged = st.2.autoMerged ∧
        ∀ u, (vs.foldl P.reconcileDelete st).1.entries.find? u =
          if u ∈ vs ∧ DeletedByPeer P u then none else st.1.entries.find? u := by
    intro vs
    induction vs with
    | nil => intro st; simp
    | cons v vs ih =>
      intro st
      obtain ⟨hone, hfind, hc, ha⟩ := reconcileDelete_spec (P := P) st v
      obtain ⟨hg, ht, hcf, hc', ha', hent⟩ := ih (P.reconcileDelete st v)
      rw [List.foldl_cons]
      refine ⟨hg.trans hone.groups, ht.trans hone.tombstones, hcf.trans hone.conflicts,
        hc'.trans hc, ha'.trans ha, fun u => ?_⟩
      rw [hent u]
      by_cases e : u = v
      · subst e
        rw [hfind]
        by_cases hd : DeletedByPeer P u
        · simp [hd]
        · simp [hd]
      · rw [hone.entries u e]
        simp [e]
  obtain ⟨hg, ht, hcf, hc, ha, hent⟩ := hlist (P.localVault.entries.map (·.id)).dedup st
  refine ⟨hg, ht, hcf, hc, ha, fun u => (hent u).trans ?_⟩
  by_cases hd : DeletedByPeer P u
  · obtain ⟨l, d, hl, hrest⟩ := hd
    have hmem : u ∈ (P.localVault.entries.map (·.id)).dedup := by
      rw [List.mem_dedup]
      have hin := List.mem_of_find?_eq_some hl
      rw [List.mem_reverse] at hin
      exact List.mem_map.2 ⟨l, hin, localEntry_id hl⟩
    rw [if_pos ⟨hmem, l, d, hl, hrest⟩, if_pos ⟨l, d, hl, hrest⟩]
  · rw [if_neg fun h => hd h.2, if_neg hd]

end Deletes

/-- Only the tombstones change. -/
structure TombstonesOnly (m m' : Mirror) : Prop where
  groups : m'.groups = m.groups
  entries : m'.entries = m.entries
  conflicts : m'.conflicts = m.conflicts

theorem TombstonesOnly.refl (m : Mirror) : TombstonesOnly m m := ⟨rfl, rfl, rfl⟩

theorem TombstonesOnly.trans {a b c : Mirror} (h : TombstonesOnly a b) (h' : TombstonesOnly b c) :
    TombstonesOnly a c :=
  ⟨h'.groups.trans h.groups, h'.entries.trans h.entries, h'.conflicts.trans h.conflicts⟩

/-- The tombstone kept of an old one, if any, and the peer's. -/
def joinedTombstone (u : Uuid) (old : Option TombstoneRow) (deletedAt : Option DateTime) :
    TombstoneRow :=
  ⟨u, match old with
    | none => deletedAt.map (·.timestampMillis)
    | some row => earliest row.deletedAt (deletedAt.map (·.timestampMillis))⟩

theorem unionTombstone_spec (m : Mirror) (u : Uuid) (deletedAt : Option DateTime) :
    TombstonesOnly m (unionTombstone m u deletedAt) ∧
      ∀ v, (unionTombstone m u deletedAt).tombstones.find? v =
        if v = u then some (joinedTombstone u (m.tombstones.find? u) deletedAt)
        else m.tombstones.find? v := by
  unfold unionTombstone joinedTombstone
  have hput : ∀ (r : TombstoneRow) (v : Uuid), (m.putTombstone r).tombstones.find? v =
      if r.uuid = v then some r else m.tombstones.find? v :=
    fun r v => Table.find?_put m.tombstones r v
  cases hrow : m.tombstones.find? u with
  | none =>
    refine ⟨⟨rfl, rfl, rfl⟩, fun v => (hput _ v).trans ?_⟩
    by_cases e : v = u
    · rw [if_pos e.symm, if_pos e]
    · rw [if_neg (Ne.symm e), if_neg e]
  | some row =>
    by_cases hsame : earliest row.deletedAt (deletedAt.map (·.timestampMillis)) = row.deletedAt
    · simp only [if_pos hsame]
      refine ⟨.refl m, fun v => ?_⟩
      by_cases e : v = u
      · rw [if_pos e, e, hrow, hsame, ← Table.find?_key hrow]
      · rw [if_neg e]
    · simp only [if_neg hsame]
      refine ⟨⟨rfl, rfl, rfl⟩, fun v => (hput _ v).trans ?_⟩
      by_cases e : v = u
      · rw [if_pos e.symm, if_pos e]
      · rw [if_neg (Ne.symm e), if_neg e]

theorem unionPeerTombstone_spec (deleted : List DeletedObject) (m : Mirror) (u : Uuid) :
    TombstonesOnly m (unionPeerTombstone deleted m u) ∧
      ∀ v, (unionPeerTombstone deleted m u).tombstones.find? v =
        if v = u then (match tombstoneTime deleted u with
          | none => m.tombstones.find? u
          | some t => if m.entryExists u then m.tombstones.find? u
            else some (joinedTombstone u (m.tombstones.find? u) t))
        else m.tombstones.find? v := by
  unfold unionPeerTombstone
  have hid : TombstonesOnly m m ∧ ∀ v, m.tombstones.find? v =
      if v = u then m.tombstones.find? u else m.tombstones.find? v :=
    ⟨.refl m, fun v => by split <;> simp_all⟩
  cases tombstoneTime deleted u with
  | none => exact hid
  | some t =>
    by_cases hex : m.entryExists u = true
    · simp only [if_pos hex]
      exact hid
    · simp only [if_neg hex]
      exact unionTombstone_spec m u t

/-- **The union of the peer's tombstones, uuid by uuid.** -/
theorem unionPeerTombstones_spec (deleted : List DeletedObject) (m : Mirror) :
    TombstonesOnly m (unionPeerTombstones deleted m) ∧
      ∀ u, (unionPeerTombstones deleted m).tombstones.find? u =
        match tombstoneTime deleted u with
        | none => m.tombstones.find? u
        | some t => if m.entryExists u then m.tombstones.find? u
          else some (joinedTombstone u (m.tombstones.find? u) t) := by
  have hlist : ∀ (vs : List Uuid) (m : Mirror), vs.Nodup →
      TombstonesOnly m (vs.foldl (unionPeerTombstone deleted) m) ∧
        ∀ u, (vs.foldl (unionPeerTombstone deleted) m).tombstones.find? u =
          if u ∈ vs then (match tombstoneTime deleted u with
            | none => m.tombstones.find? u
            | some t => if m.entryExists u then m.tombstones.find? u
              else some (joinedTombstone u (m.tombstones.find? u) t))
          else m.tombstones.find? u := by
    intro vs
    induction vs with
    | nil => exact fun m _ => ⟨.refl m, fun u => by simp⟩
    | cons v vs ih =>
      intro m hnd
      rw [List.nodup_cons] at hnd
      obtain ⟨hone, hfind⟩ := unionPeerTombstone_spec deleted m v
      obtain ⟨hrest, hfind'⟩ := ih (unionPeerTombstone deleted m v) hnd.2
      refine ⟨hone.trans hrest, fun u => ?_⟩
      rw [List.foldl_cons, hfind' u]
      by_cases e : u = v
      · subst e
        rw [if_neg hnd.1, hfind u, if_pos rfl, if_pos (List.mem_cons_self ..)]
      · have hex : (unionPeerTombstone deleted m v).entryExists u = m.entryExists u := by
          rw [Mirror.entryExists, Mirror.entryExists, hone.entries]
        rw [hfind u, if_neg e, hex]
        by_cases hmem : u ∈ vs
        · rw [if_pos hmem, if_pos (List.mem_cons_of_mem _ hmem)]
        · rw [if_neg hmem, if_neg (by simp [e, hmem])]
  obtain ⟨hone, hfind⟩ := hlist (deleted.map (·.uuid)).dedup m (List.nodup_dedup _)
  refine ⟨hone, fun u => (hfind u).trans ?_⟩
  by_cases hmem : u ∈ (deleted.map (·.uuid)).dedup
  · rw [if_pos hmem]
  · rw [if_neg hmem]
    have hnone : tombstoneTime deleted u = none := by
      unfold tombstoneTime
      rw [List.filter_eq_nil_iff.2]
      · rfl
      · intro d hd e
        refine hmem (List.mem_dedup.2 (List.mem_map.2 ⟨d, hd, ?_⟩))
        simpa using e
    rw [hnone]

/-- Only icons of the settings change. -/
theorem unionPeerCustomIcons_same (icons : List CustomIcon) (m : Mirror) :
    TombstonesOnly m (unionPeerCustomIcons icons m) ∧
      (unionPeerCustomIcons icons m).tombstones = m.tombstones := by
  refine foldl_rel (R := fun a b : Mirror => TombstonesOnly a b ∧ b.tombstones = a.tombstones)
    (fun _ => ⟨.refl _, rfl⟩) (fun h h' => ⟨h.1.trans h'.1, h'.2.trans h.2⟩) (fun m icon _ => ?_) m
  unfold unionIcon
  split
  · exact ⟨.refl _, rfl⟩
  · exact ⟨⟨rfl, rfl, rfl⟩, rfl⟩

/-! ## Group tombstones and meta -/

theorem deleteGroupRow_same {m m' : Mirror} {u : Uuid} (h : m.deleteGroupRow u = .ok m') :
    SameButGroups m m' ∧ ∀ v, m'.groups.find? v = if v = u then none else m.groups.find? v := by
  unfold Mirror.deleteGroupRow at h
  split at h
  · obtain rfl := Except.ok.inj h
    exact ⟨⟨rfl, rfl, rfl, rfl⟩, fun v => Table.find?_erase m.groups u v⟩
  · cases h

/-- What deleting groups one after the other leaves. -/
theorem deleteGroupRows_same {us : List Uuid} {m m' : Mirror}
    (h : us.foldlM (fun (m : Mirror) g => m.deleteGroupRow g) m = .ok m') :
    SameButGroups m m' ∧
      ∀ v, m'.groups.find? v = if v ∈ us then none else m.groups.find? v := by
  induction us generalizing m with
  | nil =>
    obtain rfl := Except.ok.inj h
    exact ⟨.refl m, by simp⟩
  | cons u us ih =>
    rw [List.foldlM_cons] at h
    obtain ⟨mid, hmid, h⟩ := except_bind_ok.1 h
    obtain ⟨hsame, hfind⟩ := deleteGroupRow_same hmid
    obtain ⟨hrest, hfinds⟩ := ih h
    refine ⟨hsame.trans hrest, fun v => ?_⟩
    rw [hfinds v, hfind v]
    by_cases e : v = u
    · simp [e]
    · simp [e]

theorem removeTombstones_spec (us : List Uuid) (m : Mirror) :
    TombstonesOnly m (us.foldl Mirror.removeTombstone m) ∧
      ∀ v, v ∉ us → (us.foldl Mirror.removeTombstone m).tombstones.find? v = m.tombstones.find? v := by
  induction us generalizing m with
  | nil => exact ⟨.refl m, fun v _ => rfl⟩
  | cons u us ih =>
    obtain ⟨hrest, hfind⟩ := ih (m.removeTombstone u)
    have hone : TombstonesOnly m (m.removeTombstone u) := ⟨rfl, rfl, rfl⟩
    refine ⟨hone.trans hrest, fun v hv => ?_⟩
    rw [List.mem_cons, not_or] at hv
    exact (hfind v hv.2).trans ((removeTombstone_touches m u).1.tombstones v hv.1)

/-- **Group tombstones are settled on groups and their tombstones only.** -/
theorem materializeGroupTombstones_spec {st st' : Mirror × IngestPeerOutcome}
    (h : materializeGroupTombstones st = .ok st') :
    st'.1.entries = st.1.entries ∧ st'.1.conflicts = st.1.conflicts ∧
      st'.2.conflicted = st.2.conflicted ∧ st'.2.autoMerged = st.2.autoMerged ∧
      (∀ u, u ∉ st.1.groups.keys → st'.1.tombstones.find? u = st.1.tombstones.find? u) ∧
      (∀ u, u ∉ st.1.tombstones.keys → st'.1.groups.find? u = st.1.groups.find? u) ∧
      ∀ u, st'.1.groups.find? u = none ∨ st'.1.groups.find? u = st.1.groups.find? u := by
  unfold materializeGroupTombstones at h
  obtain ⟨m, hm, h⟩ := except_bind_ok.1 h
  obtain rfl := Except.ok.inj h
  obtain ⟨hscrub, hfind⟩ := removeTombstones_spec
    (st.1.tombstonedGroups.filter fun g => st.1.groupAlive st.1.groups.rows.length g) st.1
  obtain ⟨hsame, hgroups⟩ := deleteGroupRows_same hm
  have hdead : ∀ g ∈ st.1.deadGroups, g ∈ st.1.tombstonedGroups := fun g hg =>
    (List.mem_filter.1 ((List.mem_insertionSort _).1 hg)).1
  refine ⟨hsame.entries.trans hscrub.entries, hsame.conflicts.trans hscrub.conflicts, rfl, rfl,
    fun u hu => ?_, fun u hu => ?_, fun u => ?_⟩
  · show m.tombstones.find? u = _
    rw [hsame.tombstones]
    exact hfind u fun hmem => hu (List.mem_filter.1 (List.mem_filter.1 hmem).1).1
  · show m.groups.find? u = _
    rw [hgroups u, hscrub.groups, if_neg]
    intro hmem
    exact hu (by simpa using (List.mem_filter.1 (hdead u hmem)).2)
  · show m.groups.find? u = none ∨ m.groups.find? u = _
    rw [hgroups u, hscrub.groups]
    split
    · exact .inl rfl
    · exact .inr rfl

theorem updateGroups_location (m : Mirror) {p : GroupRow → Prop} [DecidablePred p]
    {f : GroupRow → GroupRow} {hu : ∀ r, (f r).uuid = r.uuid}
    {hp : ∀ r, (f r).parentUuid = r.parentUuid} (hloc : ∀ r, (f r).location = r.location)
    (u : Uuid) : locationOf (m.updateGroups p f hu hp) u = locationOf m u := by
  have hfind := Table.find?_update (p := p) (f := f) hu m.groups u
  rw [locationOf, show (m.updateGroups p f hu hp).groups.find? u = _ from hfind, locationOf,
    Option.map_map]
  congr 1
  funext r
  simp only [Function.comp_apply]
  split
  · exact hloc r
  · rfl

theorem writeRecycleBinGroup_location (m : Mirror) (g u : Uuid) :
    locationOf (m.writeRecycleBinGroup g) u = locationOf m u := by
  unfold Mirror.writeRecycleBinGroup
  rw [updateGroups_location _ (by intro r; rfl), updateGroups_location _ (by intro r; rfl)]

theorem clearRecycleBinGroup_location (m : Mirror) (u : Uuid) :
    locationOf m.clearRecycleBinGroup u = locationOf m u := by
  unfold Mirror.clearRecycleBinGroup
  rw [updateGroups_location _ (by intro r; rfl)]

/-- **The meta pass moves the bin flag and writes settings.** -/
theorem reconcilePeerMeta_same (a b : Meta) (m : Mirror) :
    (reconcilePeerMeta a b m).entries = m.entries ∧
      (reconcilePeerMeta a b m).tombstones = m.tombstones ∧
      (reconcilePeerMeta a b m).conflicts = m.conflicts ∧
      ∀ u, locationOf (reconcilePeerMeta a b m) u = locationOf m u := by
  unfold reconcilePeerMeta
  split
  · exact ⟨rfl, rfl, rfl, fun _ => rfl⟩
  · dsimp only
    split
    · split
      · exact ⟨rfl, rfl, rfl, fun u => writeRecycleBinGroup_location _ _ u⟩
      · exact ⟨rfl, rfl, rfl, fun u => clearRecycleBinGroup_location _ u⟩
    · exact ⟨rfl, rfl, rfl, fun u => clearRecycleBinGroup_location _ u⟩

/-! ## The whole pull -/

section Pull

variable {M : MergeLib} {ord : HashOrder} {P : PeerPull} {m : Mirror}
  {st : Mirror × IngestPeerOutcome}

/-- The tombstone of `u` after the peer's are joined in, in a mirror where `u` had `old`. -/
def tombstoneAfter (P : PeerPull) (live : Bool) (u : Uuid) (old : Option TombstoneRow) :
    Option TombstoneRow :=
  match tombstoneTime P.peer.deletedObjects u with
  | none => old
  | some t => if live then old else some (joinedTombstone u old t)

open Classical in
/-- **The passes of a pull that returned.** -/
theorem ingestPeer_steps (hM : Lawful M) (h : ingestPeer M ord P m = .ok st) :
    ∃ st₁ st₂, reconcilePeerGroups ord P.peer (m, {}) = .ok st₁ ∧ SameButGroups m st₁.1 ∧
      st₁.2.conflicted = [] ∧ st₁.2.autoMerged = [] ∧
      P.peer.entriesWithParent.foldlM (P.ingestEntry M) st₁ = .ok st₂ ∧
      st.1.conflicts = st₂.1.conflicts ∧ st.2.conflicted = st₂.2.conflicted ∧
      st.2.autoMerged = st₂.2.autoMerged ∧
      (∀ u, st.1.entries.find? u = if DeletedByPeer P u then none else st₂.1.entries.find? u) ∧
      (∀ u, u ∉ st₁.1.groups.keys → st.1.tombstones.find? u =
        tombstoneAfter P (st.1.entryExists u) u (st₂.1.tombstones.find? u)) ∧
      (∀ u, m.tombstones.find? u = none → tombstoneTime P.peer.deletedObjects u = none →
        locationOf st.1 u = locationOf st₁.1 u) ∧
      ∀ u, locationOf st.1 u = none ∨ locationOf st.1 u = locationOf st₁.1 u := by
  unfold ingestPeer at h
  obtain ⟨st₁, h₁, h⟩ := except_bind_ok.1 h
  obtain ⟨st₂, h₂, h⟩ := except_bind_ok.1 h
  obtain ⟨st₄, h₄, h⟩ := except_bind_ok.1 h
  obtain rfl := Except.ok.inj h
  have hpass := GroupPass.of_reconcilePeerGroups h₁
  have hgroups : st₂.1.groups = st₁.1.groups :=
    foldlM_rel (R := fun a b : Mirror × IngestPeerOutcome => b.1.groups = a.1.groups)
      (fun _ => rfl) (fun h h' => h'.trans h)
      (fun _ _ _ _ hs => (ingestEntry_touches hM hs).1.groups) h₂
  obtain ⟨hdg, hdt, hdc, hdcf, hda, hdel⟩ := reconcilePeerDeletes_spec (P := P) st₂
  obtain ⟨htomb, hunion⟩ :=
    unionPeerTombstones_spec P.peer.deletedObjects (P.reconcilePeerDeletes st₂).1
  obtain ⟨hicon, hicont⟩ := unionPeerCustomIcons_same P.peer.metadata.customIcons
    (unionPeerTombstones P.peer.deletedObjects (P.reconcilePeerDeletes st₂).1)
  obtain ⟨hme, hmc, hmcf, hma, hmt, hmg, hmsub⟩ := materializeGroupTombstones_spec h₄
  obtain ⟨hfe, hft, hfc, hfl⟩ :=
    reconcilePeerMeta_same P.localVault.metadata (P.mergedMeta M) st₄.1
  have hentries : (reconcilePeerMeta P.localVault.metadata (P.mergedMeta M) st₄.1).entries =
      (P.reconcilePeerDeletes st₂).1.entries := by
    rw [hfe, hme, hicon.entries, htomb.entries]
  refine ⟨st₁, st₂, h₁, hpass.rest, hpass.conflicted, hpass.autoMerged, h₂, ?_, ?_, ?_, fun u => ?_,
    fun u hu => ?_, fun u hold hpeer => ?_, fun u => ?_⟩
  · show (reconcilePeerMeta _ _ st₄.1).conflicts = _
    rw [hfc, hmc, hicon.conflicts, htomb.conflicts, hdc]
  · exact hmcf.trans hdcf
  · exact hma.trans hda
  · show (reconcilePeerMeta _ _ st₄.1).entries.find? u = _
    rw [hentries, hdel u]
  · show (reconcilePeerMeta _ _ st₄.1).tombstones.find? u =
      tombstoneAfter P ((reconcilePeerMeta _ _ st₄.1).entryExists u) u _
    rw [hft, hmt u, hicont, hunion u, hdt, tombstoneAfter, Mirror.entryExists, Mirror.entryExists,
      hentries]
    rw [hicon.groups, htomb.groups, hdg, hgroups]
    exact hu
  · show locationOf (reconcilePeerMeta _ _ st₄.1) u = _
    rw [hfl u, locationOf, hmg u, hicon.groups, htomb.groups, hdg, hgroups, locationOf]
    rw [hicont, ← Table.find?_eq_none, hunion u, hdt, hpeer]
    refine foldlM_rel (R := fun a b : Mirror × IngestPeerOutcome =>
      a.1.tombstones.find? u = none → b.1.tombstones.find? u = none) (fun _ h => h)
      (fun h h' ha => h' (h ha)) (fun _ _ _ _ hs ha => ingestEntry_untombstoned hM hs ha) h₂ ?_
    rw [hpass.rest.tombstones]
    exact hold
  · show locationOf (reconcilePeerMeta _ _ st₄.1) u = none ∨
      locationOf (reconcilePeerMeta _ _ st₄.1) u = _
    have hsub := hmsub u
    rw [hicon.groups, htomb.groups, hdg, hgroups] at hsub
    rw [hfl u, locationOf, locationOf]
    exact hsub.imp (fun e => by rw [e]; rfl) (fun e => by rw [e])

variable {p : Entry} {parent : Uuid}

/-- The peer holds the entry, so its deletion is not propagated. -/
theorem not_deletedByPeer (hpe : (p, parent) ∈ P.peer.entriesWithParent) :
    ¬ DeletedByPeer P p.id := by
  rintro ⟨l, d, -, -, hnot, -⟩
  exact hnot (List.mem_map.2 ⟨p, mem_entries hpe, rfl⟩)

/-- What a pull leaves of an entry both sides hold. -/
structure SharedResult (M : MergeLib) (P : PeerPull) (m : Mirror) (l p : Entry) (parent : Uuid)
    (groups : Mirror) (st : Mirror × IngestPeerOutcome) : Prop where
  row : ∃ result, historyResult M (P.historyFold M) (armBase M P l p) l p = .ok result ∧
    st.1.entries.find? p.id =
      (m.entries.find? p.id).map (sharedRow M P groups l p parent result)
  parked : Decides M P l p .holdOpen →
    st.1.conflicts.find? (P.owner, p.id) = some (parkedRow P.owner p)
  cleared : ¬ Decides M P l p .holdOpen → st.1.conflicts.find? (P.owner, p.id) = none
  conflicted : p.id ∈ st.2.conflicted ↔ Decides M P l p .holdOpen
  autoMerged : p.id ∈ st.2.autoMerged ↔
    (∃ merged changes, M.classify l p = .autoMerged merged changes) ∨ Decides M P l p .adoptPeer
  tombstone : p.id ∉ groups.groups.keys → st.1.tombstones.find? p.id =
    tombstoneAfter P (st.1.entryExists p.id) p.id (m.tombstones.find? p.id)

theorem armOutcome_conflicted {l : Entry} {out : IngestPeerOutcome} (hout : p.id ∉ out.conflicted) :
    p.id ∈ (armOutcome M P l p out).conflicted ↔ Decides M P l p .holdOpen := by
  unfold armOutcome Decides
  cases M.classify l p with
  | inSync => simp [hout]
  | autoMerged _ _ => simp [hout]
  | conflict _ => cases P.conflictVerdict M l p <;> simp [hout]

theorem armOutcome_autoMerged {l : Entry} {out : IngestPeerOutcome} (hout : p.id ∉ out.autoMerged) :
    p.id ∈ (armOutcome M P l p out).autoMerged ↔
      (∃ merged changes, M.classify l p = .autoMerged merged changes) ∨
        Decides M P l p .adoptPeer := by
  unfold armOutcome Decides
  cases M.classify l p with
  | inSync => simp [hout]
  | autoMerged _ _ => simp
  | conflict _ => cases P.conflictVerdict M l p <;> simp [hout]

theorem nodup_entriesWithParent {v : Vault} (h : (v.entries.map (·.id)).Nodup) :
    (v.entriesWithParent.map (·.1.id)).Nodup := by
  rw [← entriesWithParent_map_fst, List.map_map] at h
  exact h

/-- **A pull and an entry both sides hold.** -/
theorem ingestPeer_shared (hM : Lawful M) (hnd : (P.peer.entries.map (·.id)).Nodup)
    (hpe : (p, parent) ∈ P.peer.entriesWithParent) {l : Entry} (hl : P.localEntry p.id = some l)
    (h : ingestPeer M ord P m = .ok st) :
    ∃ st₁, reconcilePeerGroups ord P.peer (m, {}) = .ok st₁ ∧
      SharedResult M P m l p parent st₁.1 st := by
  obtain ⟨st₁, st₂, h₁, hsame, hc₁, ha₁, h₂, hconf, hc, ha, hent, htomb, -, -⟩ :=
    ingestPeer_steps hM h
  obtain ⟨a, b, hbefore, hstep, hafter⟩ :=
    ingestEntries_at hM (nodup_entriesWithParent hnd) hpe h₂
  simp only [PeerPull.ingestEntry, hl] at hstep
  obtain ⟨-, htomb', ⟨result, hres, hrow⟩, hpark, hclear, hcf, ham⟩ :=
    ingestShared_spec hM (localEntry_id hl) hstep
  have hgroups : a.1.groups = st₁.1.groups := hbefore.rows.groups
  have hentry : a.1.entries.find? p.id = m.entries.find? p.id := by
    rw [hbefore.rows.entry, hsame.entries]
  refine ⟨st₁, h₁, ⟨result, hres, ?_⟩, fun hd => ?_, fun hd => ?_, ?_, ?_, fun hg => ?_⟩
  · rw [hent, if_neg (not_deletedByPeer hpe), hafter.rows.entry, hrow, hentry]
    unfold sharedRow
    rw [locatedRow_congr hgroups]
  · rw [hconf, hafter.rows.conflict, hpark hd]
  · rw [hconf, hafter.rows.conflict, hclear hd]
  · rw [hc, hafter.conflicted, hcf]
    refine armOutcome_conflicted fun hmem => ?_
    rw [hbefore.conflicted, hc₁] at hmem
    cases hmem
  · rw [ha, hafter.autoMerged, ham]
    refine armOutcome_autoMerged fun hmem => ?_
    rw [hbefore.autoMerged, ha₁] at hmem
    cases hmem
  · rw [htomb p.id hg, hafter.rows.tombstone, htomb', hbefore.rows.tombstone, hsame.tombstones]

/-- **A pull and an entry only the peer holds**: it stays away when it was deleted here since, and is
added otherwise. -/
theorem ingestPeer_peerOnly (hM : Lawful M) (hnd : (P.peer.entries.map (·.id)).Nodup)
    (hpe : (p, parent) ∈ P.peer.entriesWithParent) (hl : P.localEntry p.id = none)
    (h : ingestPeer M ord P m = .ok st) :
    ∃ st₁, reconcilePeerGroups ord P.peer (m, {}) = .ok st₁ ∧
      ((Blocked P p ∧ st.1.entries.find? p.id = m.entries.find? p.id ∧
          (p.id ∉ st₁.1.groups.keys → st.1.tombstones.find? p.id =
            tombstoneAfter P (st.1.entryExists p.id) p.id (m.tombstones.find? p.id))) ∨
        (¬ Blocked P p ∧ st.1.entries.find? p.id = some
            (p.toRow (if st₁.1.groupExists parent then parent else P.localVault.root.id) false) ∧
          (p.id ∉ st₁.1.groups.keys → st.1.tombstones.find? p.id =
            if (tombstoneTime P.localVault.deletedObjects p.id).isSome then none
            else m.tombstones.find? p.id))) := by
  obtain ⟨st₁, st₂, h₁, hsame, -, -, h₂, -, -, -, hent, htomb, -, -⟩ :=
    ingestPeer_steps hM h
  obtain ⟨a, b, hbefore, hstep, hafter⟩ :=
    ingestEntries_at hM (nodup_entriesWithParent hnd) hpe h₂
  simp only [PeerPull.ingestEntry, hl] at hstep
  have hrow : st.1.entries.find? p.id = b.1.entries.find? p.id := by
    rw [hent, if_neg (not_deletedByPeer hpe), hafter.rows.entry]
  have hold : a.1.tombstones.find? p.id = m.tombstones.find? p.id := by
    rw [hbefore.rows.tombstone, hsame.tombstones]
  refine ⟨st₁, h₁, ?_⟩
  have hex : a.1.groupExists parent = st₁.1.groupExists parent := by
    rw [Mirror.groupExists, Mirror.groupExists, hbefore.rows.groups]
  rcases ingestPeerOnly_spec hstep with ⟨hb, rfl⟩ | ⟨hb, -, -, -, hg, ht, -, -⟩
  · refine .inl ⟨hb, ?_, fun hng => ?_⟩
    · rw [hrow, hbefore.rows.entry, hsame.entries]
    · rw [htomb p.id hng, hafter.rows.tombstone, hold]
  · rw [hex] at hg
    refine .inr ⟨hb, hrow.trans hg, fun hng => ?_⟩
    have hlive : st.1.entryExists p.id = true := by
      rw [Mirror.entryExists, hrow, hg]
      rfl
    rw [htomb p.id hng, hafter.rows.tombstone, ht, hold, tombstoneAfter, hlive]
    split <;> rfl

open Classical in
/-- **A pull and an entry the peer does not hold**: it goes when the peer deleted it since. -/
theorem ingestPeer_absent (hM : Lawful M) {u : Uuid} (hu : u ∉ P.peer.entries.map (·.id))
    (h : ingestPeer M ord P m = .ok st) :
    ∃ st₁, reconcilePeerGroups ord P.peer (m, {}) = .ok st₁ ∧
      st.1.entries.find? u = (if DeletedByPeer P u then none else m.entries.find? u) ∧
      (u ∉ st₁.1.groups.keys → st.1.tombstones.find? u =
        tombstoneAfter P (st.1.entryExists u) u (m.tombstones.find? u)) := by
  obtain ⟨st₁, st₂, h₁, hsame, -, -, h₂, -, -, -, hent, htomb, -, -⟩ :=
    ingestPeer_steps hM h
  have hstill := ingestEntries_unmoved hM h₂ fun pe hpe e =>
    hu (List.mem_map.2 ⟨pe.1, mem_entries (g := pe.2) hpe, e⟩)
  refine ⟨st₁, h₁, ?_, fun hng => ?_⟩
  · rw [hent, hstill.rows.entry, hsame.entries]
  · rw [htomb u hng, hstill.rows.tombstone, hsame.tombstones]

end Pull

end KeysCore.Verify
