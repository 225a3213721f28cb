import KeysCore.Verify.Cascade
import KeysCore.Verify.FieldMerge
import KeysCore.Verify.GroupTombstones
import KeysCore.Verify.Replicas
import KeysCore.Verify.RoundTrip
import KeysCore.Verify.RowKeys

/-!
# A pull between two replicas goes through

Between two mirrors of one vault whose rows can be read and written again, no step of `ingest_peer`
fails: the group passes decode every row, every insert finds its key free and its parent there, and
the tombstoned groups are deleted children first (`ingestPeer_ok`). Every transaction whose group rows
are readable leaves such a mirror (`Syncable.step`).

The children come first because the deletes are ordered by `group_depth`. That walk stops after
100 001 parents, so the two replicas may hold no more groups than that.
-/

namespace KeysCore.Verify

open Lib Lib.Forest

/-! ## Statements that go through -/

theorem insertEntry_ok {m : Mirror} {e : Entry} {g : Uuid} {b : Bool} (hnew : e.id ∉ m.entries.keys)
    (hg : g ∈ m.groups.keys) (hkeys : e.SideKeys) : ∃ m', m.insertEntry e g b = .ok m' := by
  unfold Mirror.insertEntry Mirror.insertEntryRow
  split
  · rename_i hT
    exact absurd (Table.insert?_eq_none.1 hT) hnew
  · rw [dif_pos (show (e.toRow g b).groupUuid ∈ m.groups.keys from hg)]
    simp only [bind, Except.bind, if_pos hkeys]
    exact ⟨_, rfl⟩

theorem advanceLocalEntry_ok {m : Mirror} {e : Entry} {row : EntryRow}
    (hrow : m.entries.find? e.id = some row) (hkeys : e.SideKeys) :
    ∃ m', m.advanceLocalEntry e = .ok m' := by
  unfold Mirror.advanceLocalEntry
  rw [hrow]
  refine insertEntry_ok ?_ (m.fkGroup row (Table.find?_mem hrow)) hkeys
  rw [← Table.find?_eq_none]
  exact (deleteEntry_row m e.id).2

theorem persistEntryHistory_ok {m : Mirror} {e : Entry} (h : e.id ∈ m.entries.keys) :
    ∃ m', m.persistEntryHistory e = .ok m' := by
  unfold Mirror.persistEntryHistory
  rw [if_pos]
  · exact ⟨_, rfl⟩
  · rw [Bool.or_eq_true]
    exact .inl (Table.find?_isSome.2 h)

theorem writePeerEntry_ok {m : Mirror} {o : String} {e : Entry}
    (h : m.conflicts.find? (o, e.id) = none) : ∃ m', m.writePeerEntry o e = .ok m' := by
  unfold Mirror.writePeerEntry Mirror.insertConflictRow
  split
  · rename_i hT
    exact absurd (Table.insert?_eq_none.1 hT) (Table.find?_eq_none.1 h)
  · exact ⟨_, rfl⟩

/-! ## The entry walk -/

/-- What a pull needs of keepass-merge: its calls return, and it merges two entries whose fields and
custom data are keyed by name into one. -/
structure Returns (M : MergeLib) : Prop where
  fold (b o : Entry) : ∃ r, M.foldEntryHistory b o = .ok r
  prune (b : Entry) (i s : Int) (t : DateTime) : ∃ r, M.pruneHistoryWithTombstones b i s t = .ok r
  tombstones (b o : Entry) : ∃ r, M.reconcileHistoryTombstones b o = .ok r
  merged_keys {l p merged : Entry} {changes : List AttachmentChange} :
    M.classify l p = .autoMerged merged changes → l.SideKeys → p.SideKeys → merged.SideKeys

theorem autoMergedEntry_sideKeys {merged : Entry} (h : merged.SideKeys) (l p : Entry)
    (changes : List AttachmentChange) : (autoMergedEntry l p merged changes).SideKeys := by
  have hsame : ∀ {a b : Entry}, a.customFields = b.customFields → a.customData = b.customData →
      b.SideKeys → a.SideKeys := by
    intro a b hf hd hb
    unfold Entry.SideKeys Entry.protectedRows Entry.plainRows at hb ⊢
    rwa [hf, hd]
  refine hsame ?_ ?_ h
  · rw [show (autoMergedEntry l p merged changes).customFields = _ from
      congrArg EntryVersion.customFields autoMergedEntry_version, withAdvancedMtime]
    split <;> rfl
  · rw [show (autoMergedEntry l p merged changes).customData = _ from
      congrArg EntryVersion.customData autoMergedEntry_version, withAdvancedMtime]
    split <;> rfl

section Walk

variable {M : MergeLib} (hM : Lawful M) (hR : Returns M) {P : PeerPull} {l p : Entry}
  {st : Mirror × IngestPeerOutcome}

include hM hR

theorem verdictArm_ok (hid : l.id = p.id) (hl : l.SideKeys) (hp : p.SideKeys) {row : EntryRow}
    (hrow : st.1.entries.find? p.id = some row) : ∃ r, P.verdictArm M l p st = .ok r := by
  unfold PeerPull.verdictArm
  dsimp only
  cases hc : M.classify l p with
  | inSync => exact ⟨_, rfl⟩
  | autoMerged merged changes =>
    have hmid : (autoMergedEntry l p merged changes).id = p.id := by
      rw [autoMergedEntry_id, hM.merged_id hc, hid]
    obtain ⟨m, hm⟩ := advanceLocalEntry_ok (hmid ▸ hrow)
      (autoMergedEntry_sideKeys (hR.merged_keys hc hl hp) l p changes)
    simp only [hm, bind, Except.bind]
    exact ⟨_, rfl⟩
  | conflict r =>
    obtain rfl := hM.remote hc
    dsimp only
    cases P.conflictVerdict M l r with
    | localHolds => exact ⟨_, rfl⟩
    | adoptPeer =>
      obtain ⟨m, hm⟩ := advanceLocalEntry_ok (m := st.1.dropConflictRow P.owner r.id) hrow hp
      simp only [hm, bind, Except.bind]
      exact ⟨_, rfl⟩
    | holdOpen =>
      obtain ⟨m, hm⟩ := writePeerEntry_ok (dropConflictRow_touches st.1 P.owner r.id).2
      simp only [hm, bind, Except.bind]
      exact ⟨_, rfl⟩

theorem foldEntryHistoryIntoMirror_ok {m : Mirror} {b : Entry} (hb : b.id ∈ m.entries.keys)
    (ctx : HistoryFoldContext) (o : Entry) : ∃ r, foldEntryHistoryIntoMirror M ctx b o m = .ok r := by
  unfold foldEntryHistoryIntoMirror
  split
  · exact ⟨_, rfl⟩
  · obtain ⟨⟨folded, c⟩, hfold⟩ := hR.fold b o
    obtain ⟨⟨merged, n⟩, hprune⟩ := hR.prune folded ctx.maxItems ctx.maxSize ctx.now
    have hid : merged.id = b.id := by rw [hM.prune_id hprune, hM.fold_id hfold]
    obtain ⟨m', hm'⟩ := persistEntryHistory_ok (m := m) (hid ▸ hb)
    have hfolded : ∃ changed, foldedHistory M ctx b o = .ok (merged, changed) := by
      unfold foldedHistory
      simp only [serialised_ok.2 hfold, bind, Except.bind, serialised_ok.2 hprune]
      exact ⟨_, rfl⟩
    obtain ⟨changed, hfolded⟩ := hfolded
    rw [hfolded]
    cases changed with
    | false => exact ⟨_, rfl⟩
    | true =>
      simp only [bind, Except.bind, hm']
      exact ⟨_, rfl⟩

theorem reconcileHistory_ok {m : Mirror} {base : HistoryBase}
    (hb : (baseEntry base l p).id ∈ m.entries.keys) (ctx : HistoryFoldContext) :
    ∃ r, reconcileHistory M ctx base l p m = .ok r := by
  cases base with
  | held =>
    show ∃ r, reconcileEntryHistoryTombstones M l p m = .ok r
    unfold reconcileEntryHistoryTombstones
    split
    · exact ⟨_, rfl⟩
    · obtain ⟨⟨merged, changed⟩, hr⟩ := hR.tombstones l p
      obtain ⟨m', hm'⟩ := persistEntryHistory_ok (m := m) ((hM.tombstones_id hr).symm ▸ hb)
      rw [serialised_ok.2 hr]
      cases changed with
      | false => exact ⟨_, rfl⟩
      | true =>
        simp only [bind, Except.bind, hm']
        exact ⟨_, rfl⟩
  | ofLocal => exact foldEntryHistoryIntoMirror_ok hM hR hb ctx p
  | autoMerged merged => exact foldEntryHistoryIntoMirror_ok hM hR hb ctx p
  | ofPeer => exact foldEntryHistoryIntoMirror_ok hM hR hb ctx l

omit hM hR in
theorem reconcileEntryLocation_ok (p : Entry) (parent : Uuid) (st : Mirror × IngestPeerOutcome) :
    ∃ st', reconcileEntryLocation p parent st = .ok st' := by
  unfold reconcileEntryLocation
  split
  · exact ⟨_, rfl⟩
  · split
    · exact ⟨_, rfl⟩
    · split
      · rename_i hex
        obtain ⟨m, hm⟩ := placeEntry_ok (m := st.1) (u := p.id)
          (f := fun r => { r with
            previousParentUuid := p.previousParentGroup
            isRecycled := st.1.groupInBinSubtree parent
            locationChangedAt := p.locationMs }) (fun _ => rfl) (groupExists_iff.1 hex)
        simp only [hm, bind, Except.bind]
        exact ⟨_, rfl⟩
      · exact ⟨_, rfl⟩

theorem ingestShared_ok (hid : l.id = p.id) (hl : l.SideKeys) (hp : p.SideKeys)
    (hrow : p.id ∈ st.1.entries.keys) (parent : Uuid) :
    ∃ st', P.ingestShared M l p parent st = .ok st' := by
  obtain ⟨row, hrow⟩ := Table.exists_find?.2 hrow
  obtain ⟨⟨st₁, base⟩, h₁⟩ := verdictArm_ok hM hR (P := P) hid hl hp hrow
  obtain ⟨st₂, h₂⟩ := reconcileEntryLocation_ok p parent st₁
  obtain ⟨-, hfind₁, -, hbase, -⟩ := verdictArm_spec hM hid h₁
  obtain ⟨-, hfind₂, -⟩ := reconcileEntryLocation_spec h₂
  -- the row is still there when the history pass comes to it
  have hstill : p.id ∈ st₂.1.entries.keys := by
    rw [← Table.find?_isSome, hfind₂, hfind₁, hrow]
    rfl
  have hb : (baseEntry base l p).id ∈ st₂.1.entries.keys := by
    rw [hbase, baseEntry_armBase_id hM hid]
    exact hstill
  obtain ⟨⟨m, changed⟩, h₃⟩ := reconcileHistory_ok hM hR hb (P.historyFold M)
  unfold PeerPull.ingestShared
  simp only [h₁, h₂, h₃, bind, Except.bind]
  exact ⟨_, rfl⟩

omit hM hR in
theorem ingestPeerOnly_ok (hp : p.SideKeys) (hnew : p.id ∉ st.1.entries.keys)
    (hroot : P.localVault.root.id ∈ st.1.groups.keys) (parent : Uuid) :
    ∃ st', P.ingestPeerOnly p parent st = .ok st' := by
  unfold PeerPull.ingestPeerOnly
  dsimp only
  split
  · exact ⟨_, rfl⟩
  · have hins : ∀ {m : Mirror}, m.groups = st.1.groups → m.entries = st.1.entries → ∃ m',
        m.insertEntry p (if m.groupExists parent then parent else P.localVault.root.id) false =
          .ok m' := by
      intro m hg he
      refine insertEntry_ok (by rwa [he]) ?_ hp
      split
      · rename_i hex
        exact groupExists_iff.1 hex
      · rwa [hg]
    split
    · obtain ⟨m', hm'⟩ := hins (m := st.1.removeTombstone p.id) rfl rfl
      simp only [hm', bind, Except.bind]
      exact ⟨_, rfl⟩
    · obtain ⟨m', hm'⟩ := hins (m := st.1) rfl rfl
      simp only [hm', bind, Except.bind]
      exact ⟨_, rfl⟩

/-- **The walk over a peer's entries goes through.** Each step leaves what the later ones need: their
own rows are as they were. -/
theorem ingestEntries_ok {A : Mirror} {v : Vault} (ha : Attached A v) (hv : P.localVault = v)
    (hA : ∀ e ∈ A.entries.rows, EntryRow.Keyed e) {l : List (Entry × Uuid)}
    (hnd : (l.map (·.1.id)).Nodup) (hkeys : ∀ pe ∈ l, pe.1.SideKeys)
    (hroot : P.localVault.root.id ∈ st.1.groups.keys)
    (hrows : ∀ pe ∈ l, st.1.entries.find? pe.1.id = A.entries.find? pe.1.id) :
    ∃ st', l.foldlM (P.ingestEntry M) st = .ok st' := by
  induction l generalizing st with
  | nil => exact ⟨st, rfl⟩
  | cons pe l ih =>
    rw [List.map_cons, List.nodup_cons] at hnd
    have hrow := hrows pe List.mem_cons_self
    have hpe := hkeys pe List.mem_cons_self
    obtain ⟨mid, hmid⟩ : ∃ mid, P.ingestEntry M st pe = .ok mid := by
      unfold PeerPull.ingestEntry
      rw [ha.localEntry hv]
      cases hfind : A.entries.find? pe.1.id with
      | none =>
        refine ingestPeerOnly_ok hpe ?_ hroot pe.2
        rw [← Table.find?_eq_none, hrow, hfind]
      | some row =>
        refine ingestShared_ok hM hR ?_ (toEntry_sideKeys (hA row (Table.find?_mem hfind))) hpe ?_ pe.2
        · show row.uuid = pe.1.id
          exact Table.find?_key hfind
        · rw [← Table.exists_find?, hrow, hfind]
          exact ⟨row, rfl⟩
    have htouch := (ingestEntry_touches hM hmid).1
    have hrows' : ∀ q ∈ l, mid.1.entries.find? q.1.id = A.entries.find? q.1.id := by
      intro q hq
      rw [htouch.entries _ fun e => hnd.1 (e ▸ List.mem_map_of_mem hq)]
      exact hrows q (List.mem_cons_of_mem _ hq)
    obtain ⟨st', hst'⟩ := ih hnd.2 (fun q hq => hkeys q (List.mem_cons_of_mem _ hq))
      (by rwa [htouch.groups]) hrows'
    exact ⟨st', by rw [List.foldlM_cons, hmid]; exact hst'⟩

end Walk

/-! ## The pull -/

theorem length_le_of_keys {T : Table GroupRow.uuid} {ids : List Uuid} (h : ∀ u ∈ T.keys, u ∈ ids) :
    T.rows.length ≤ ids.length := by
  have hlen := (List.subperm_of_subset T.nodup h).length_le
  rwa [List.length_map] at hlen

/-- The groups after the reconcile are those of the two sides. -/
theorem PeerOf.reconcile_length {m : Mirror} {peer : Vault} (h : PeerOf m peer) {ord : HashOrder}
    {out : IngestPeerOutcome} {st : Mirror × IngestPeerOutcome}
    (hst : reconcilePeerGroups ord peer (m, out) = .ok st) :
    st.1.groups.rows.length ≤ m.groups.rows.length + peer.groups.length := by
  obtain ⟨st', hst', -, -, hfind⟩ :=
    h.reconcile_spec ord out ((h.reconcile_ok_iff ord out).1 ⟨st, hst⟩)
  rw [hst, Except.ok.injEq] at hst'
  subst hst'
  have hkeys : ∀ u ∈ st.1.groups.keys, u ∈ m.groups.keys ++ peer.groups.map (·.info.id) := by
    intro u hu
    rw [← Table.find?_isSome, hfind, Option.isSome_map, mergedRow, Option.isSome_map,
      Option.isSome_or, Bool.or_eq_true] at hu
    rcases hu with hu | hu
    · exact List.mem_append_left _ (Table.find?_isSome.1 hu)
    · rw [adoptedRow, Option.isSome_map] at hu
      obtain ⟨f, hf⟩ := Option.isSome_iff_exists.1 hu
      refine List.mem_append_right _ (List.mem_map.2 ⟨f, ?_, by simpa using List.find?_some hf⟩)
      rw [groups_eq_cons]
      exact List.mem_cons_of_mem _ (List.mem_of_find?_eq_some hf)
  have hle := length_le_of_keys hkeys
  rwa [List.length_append, Table.keys, List.length_map, List.length_map] at hle

/-- A mirror whose groups are a tree and whose rows can be read and written again. -/
structure Syncable (m : Mirror) : Prop where
  tree : GroupTree m
  writable : Writable m

theorem Syncable.project_ok {m : Mirror} (h : Syncable m) : ∃ v, m.project = .ok v :=
  (project_ok_iff h.tree).2 fun g hg => ⟨(h.writable.groups g hg).nonneg, (h.writable.groups g hg).fits⟩

/-- **Between two syncable mirrors under one root a pull goes through.** -/
theorem ingestPeer_ok {M : MergeLib} (hM : Lawful M) (hR : Returns M) {A B : Mirror}
    (hA : Syncable A) (hB : Syncable B) (hroot : A.rootUuid? = B.rootUuid?)
    (hlen : A.groups.rows.length + B.groups.rows.length ≤ 100001) (ord : HashOrder) (owner : String)
    (now : DateTime) :
    ∃ v w st, A.project = .ok v ∧ B.project = .ok w ∧
      ingestPeer M ord ⟨owner, v, w, now⟩ A = .ok st := by
  obtain ⟨r, hrA⟩ := groupTree_iff.1 hA.tree
  obtain ⟨r', hrB⟩ := groupTree_iff.1 hB.tree
  obtain rfl : r = r' := by
    rw [GroupTree.rootUuid? hrA, GroupTree.rootUuid? hrB] at hroot
    exact Option.some.inj hroot
  obtain ⟨v, hv⟩ := hA.project_ok
  obtain ⟨w, hw⟩ := hB.project_ok
  have haA := project_attaches hA.tree hv
  have haB := project_attaches hB.tree hw
  have hpeer : PeerOf A w := .of_project hrA hrB hw
  let P : PeerPull := ⟨owner, v, w, now⟩
  obtain ⟨st₁, h₁⟩ := (hpeer.reconcile_ok_iff ord {}).2 fun f _ row hrow =>
    (hA.writable.groups row (Table.find?_mem hrow)).icon
  have hrooted := hpeer.reconcile_rooted h₁
  have hwlen : w.groups.length = B.groups.rows.length := by
    have := haB.groups.length_eq
    rwa [List.length_map, List.length_map] at this
  have hlen₁ : st₁.1.groups.rows.length ≤ 100001 := by
    have := hpeer.reconcile_length h₁
    omega
  obtain ⟨st₂, h₂⟩ := ingestEntries_ok hM hR (P := P) haA rfl hA.writable.entries
    (nodup_entriesWithParent haB.entry_ids_nodup)
    (fun pe hpe => by
      obtain ⟨row, hrow, he, -⟩ := haB.mem_entriesWithParent.1 hpe
      rw [he]
      exact toEntry_sideKeys (hB.writable.entries row hrow))
    (by
      show v.root.id ∈ st₁.1.groups.keys
      rw [haA.root_eq hrA, ← haB.root_eq hrB]
      exact hrooted.root_mem)
    fun pe _ => by rw [(GroupPass.of_reconcilePeerGroups h₁).rest.entries]
  have hgroups₂ : st₂.1.groups = st₁.1.groups :=
    foldlM_rel (R := fun a b : Mirror × IngestPeerOutcome => b.1.groups = a.1.groups)
      (fun _ => rfl) (fun h h' => h'.trans h)
      (fun _ _ _ _ hs => (ingestEntry_touches hM hs).1.groups) h₂
  -- the passes in between touch no group
  let m₃ := unionPeerCustomIcons w.metadata.customIcons
    (unionPeerTombstones w.deletedObjects (P.reconcilePeerDeletes st₂).1)
  have hgroups₃ : m₃.groups = st₁.1.groups := by
    rw [(unionPeerCustomIcons_same _ _).1.groups, (unionPeerTombstones_spec _ _).1.groups,
      (reconcilePeerDeletes_spec (P := P) st₂).1, hgroups₂]
  obtain ⟨st₄, h₄⟩ := materializeGroupTombstones_ok ((SameParents.of_groups hgroups₃).rooted hrooted)
    (by rw [hgroups₃]; exact hlen₁) (P.reconcilePeerDeletes st₂).2
  refine ⟨v, w, (reconcilePeerMeta v.metadata (P.mergedMeta M) st₄.1, st₄.2), hv, hw, ?_⟩
  unfold ingestPeer
  simp only [bind, Except.bind, h₁]
  rw [show w.entriesWithParent.foldlM (P.ingestEntry M) st₁ = .ok st₂ from h₂]
  dsimp only
  rw [h₄]
  rfl

/-! ## Runs -/

theorem EngineOp.run_groupTree {E : EngineEnv} {m m' : Mirror} {op : EngineOp} (ht : GroupTree m)
    (hsafe : ∀ o, op = .structural o → o.Safe m) (h : op.run E m = .ok m') : GroupTree m' := by
  have hsame : ∀ {a : Mirror}, a.groups = m.groups → GroupTree a := fun hg =>
    (SameParents.of_groups hg).groupTree ht
  cases run_commits h with
  | structural h => exact (StructuralOp.run_groupTree_iff h ht).2 (hsafe _ rfl)
  | @updateGroup u upd now =>
    have hsp := SameParents.updateGroups m (fun g => g.uuid = u) (Mirror.applyGroupUpdate upd now)
      (fun _ => rfl) (fun _ => rfl)
    exact (hsp.trans (c := Mirror.bump _ _) (.of_groups rfl)).groupTree ht
  | createEntry h => exact hsame (createEntry_row h).1.groups
  | editEntry h => exact hsame (EntryEdit.run_editsRow h).rowOnly.groups
  | deleteEntry => exact hsame rfl
  | binPresent => exact ht
  | binCreated _ _ h =>
    obtain ⟨r, hr⟩ := groupTree_iff.1 ht
    exact groupTree_iff.2 ⟨r, createRecycleBinGroup_rooted h hr⟩
  | binDisabled => exact ht
  | iconPresent => exact ht
  | iconAdded => exact hsame rfl
  | setHistoryMaxItems => exact hsame rfl
  | setHistoryMaxSize => exact hsame rfl

/-- A transaction keeps the tree and writes group rows that can be read. A pull keeps the tree unless
the root is tombstoned on one side, when the root may be deleted as an empty group. -/
def KeepsReadable {Λ : Libs} (s : EngineState Λ.vaults) : EngineTxn → Prop
  | .mutate op => op.WritesReadable s.mirror ∧ ∀ o, op = .structural o → o.Safe s.mirror
  | .pull _ _ peer _ => (peer.groups.map (·.info.id)).Nodup ∧
      peer.root.id ∉ s.mirror.tombstones.keys ∧ peer.root.id ∉ peer.deletedObjects.map (·.uuid)
  | _ => True

theorem ingestVaultWithHeader_syncable {vault : Vault} {source : Source} {m m' : Mirror}
    (h : ingestVaultWithHeader vault source m = .ok m') : Syncable m' :=
  ⟨groupTree_iff.2 ⟨_, ingestVaultWithHeader_rooted h⟩, ingestVaultWithHeader_writable h⟩

theorem Syncable.of_sameContent {m m' : Mirror} (h : Syncable m) (hs : SameContent m m') :
    Syncable m' :=
  ⟨(SameParents.of_groups hs.groups).groupTree h.tree, h.writable.of_same hs.groups hs.entries⟩

theorem tombstoneTime_none {deleted : List DeletedObject} {u : Uuid}
    (h : u ∉ deleted.map (·.uuid)) : tombstoneTime deleted u = none := by
  have hnil : deleted.filter (·.uuid = u) = [] := by
    rw [List.filter_eq_nil_iff]
    intro d hd hdu
    exact h (List.mem_map.2 ⟨d, hd, by simpa using hdu⟩)
  rw [tombstoneTime, hnil]
  rfl

theorem Syncable.pull {M : MergeLib} (hM : Lawful M) {ord : HashOrder} {P : PeerPull} {m : Mirror}
    {st : Mirror × IngestPeerOutcome} (h : Syncable m)
    (hnd : (P.peer.groups.map (·.info.id)).Nodup) (hroot : RootedAt m P.peer.root.id)
    (hlocal : P.peer.root.id ∉ m.tombstones.keys)
    (hpeer : P.peer.root.id ∉ P.peer.deletedObjects.map (·.uuid))
    (hst : ingestPeer M ord P m = .ok st) : Syncable st.1 := by
  have hpeerOf : PeerOf m P.peer := ⟨hnd, hroot⟩
  refine ⟨groupTree_iff.2 ⟨P.peer.root.id, ?_⟩, h.writable.ingestPeer hst⟩
  refine (ingestPeer_rooted hM hpeerOf hst).resolve_right fun hempty => ?_
  obtain ⟨st₁, -, h₁, -, -, -, -, -, -, -, -, -, hkeep, -⟩ := ingestPeer_steps hM hst
  have hloc := hkeep P.peer.root.id (Table.find?_eq_none.2 hlocal) (tombstoneTime_none hpeer)
  have hmem : P.peer.root.id ∈ st.1.groups.keys := by
    rw [mem_keys_of_locationOf, hloc, ← mem_keys_of_locationOf]
    exact (hpeerOf.reconcile_rooted h₁).root_mem
  rw [hempty] at hmem
  cases hmem

/-- **A transaction whose group rows are readable leaves a mirror a pull can work on.** -/
theorem Syncable.step {Λ : Libs} (hM : Lawful Λ.merge) {s s' : EngineState Λ.vaults}
    {txn : EngineTxn} (hs : Syncable s.mirror) (hC : KeepsReadable s txn)
    (h : txn.run Λ s = .ok s') : Syncable s'.mirror := by
  cases EngineTxn.run_step h with
  | mutate hop => exact ⟨EngineOp.run_groupTree hs.tree hC.2 hop, hs.writable.mutate hC.1 hop⟩
  | @pull ord owner peer v now st hsame hv hst =>
    obtain ⟨hnd, hlocal, hpeer⟩ := hC
    obtain ⟨r, hr⟩ := groupTree_iff.1 hs.tree
    have hid : peer.root.id = r := by
      unfold ensureSameReplica at hsame
      rw [GroupTree.rootUuid? hr] at hsame
      dsimp only at hsame
      split at hsame
      · rename_i hvault
        unfold isSameVault at hvault
        simp only [Bool.and_eq_true, decide_eq_true_eq] at hvault
        exact hvault.2
      · cases hsame
    exact hs.pull hM (P := ⟨owner, v, peer, now⟩) hnd (hid ▸ hr) hlocal hpeer hst
  | ingestFile hm => exact ingestVaultWithHeader_syncable hm
  | settle hv hd hm =>
    unfold applyDissolve at hm
    split at hm
    · obtain ⟨rfl, -⟩ := Prod.mk.inj (Except.ok.inj hm)
      exact hs.of_sameContent ⟨rfl, rfl, rfl, rfl⟩
    · obtain ⟨rfl, -⟩ := Prod.mk.inj (Except.ok.inj hm)
      exact hs.of_sameContent (dropConflictOwners_sameContent _ _ _)
    · obtain ⟨a, ha, hm⟩ := except_bind_ok.1 hm
      obtain ⟨rfl, -⟩ := Prod.mk.inj (Except.ok.inj hm)
      exact (ingestVaultWithHeader_syncable ha).of_sameContent ⟨rfl, rfl, rfl, rfl⟩
  | noConflict _ _ => exact hs
  | opened _ _ => exact hs
  | resolve _ hm =>
    unfold applyConflictResolution at hm
    obtain ⟨v, -, hm⟩ := except_bind_ok.1 hm
    obtain ⟨a, ha, hm⟩ := except_bind_ok.1 hm
    obtain rfl := Except.ok.inj hm
    exact (ingestVaultWithHeader_syncable ha).of_sameContent (dropResolvedRows_sameContent a _)
  | discard => exact hs
  | dismiss => exact hs.of_sameContent ⟨rfl, rfl, rfl, rfl⟩

/-- **Two mirrors of one vault, each reached from an ingest by transactions that write readable group
rows, can pull each other's projection.** -/
theorem pull_between_runs_succeeds {Λ : Libs} (hM : Lawful Λ.merge) (hR : Returns Λ.merge)
    {vaultA vaultB : Vault} {sourceA sourceB : Source} {mA mB : Mirror}
    {a a' b b' : EngineState Λ.vaults}
    (hA : ingestVaultWithHeader vaultA sourceA mA = .ok a.mirror)
    (hB : ingestVaultWithHeader vaultB sourceB mB = .ok b.mirror)
    (hrunA : EngineRun Λ KeepsReadable a a') (hrunB : EngineRun Λ KeepsReadable b b')
    (hroot : a'.mirror.rootUuid? = b'.mirror.rootUuid?)
    (hlen : a'.mirror.groups.rows.length + b'.mirror.groups.rows.length ≤ 100001)
    (ord : HashOrder) (owner : String) (now : DateTime) :
    ∃ v w st, a'.mirror.project = .ok v ∧ b'.mirror.project = .ok w ∧
      ingestPeer Λ.merge ord ⟨owner, v, w, now⟩ a'.mirror = .ok st := by
  have hsync : ∀ {s t : EngineState Λ.vaults}, Syncable s.mirror → EngineRun Λ KeepsReadable s t →
      Syncable t.mirror := fun hs hrun =>
    hrun.invariant (I := fun s => Syncable s.mirror) hs fun _ _ _ hs hC h => hs.step hM hC h
  exact ingestPeer_ok hM hR (hsync (ingestVaultWithHeader_syncable hA) hrunA)
    (hsync (ingestVaultWithHeader_syncable hB) hrunB) hroot hlen ord owner now

theorem fieldMerge_returns : Returns fieldMerge where
  fold _ _ := ⟨_, rfl⟩
  prune _ _ _ _ := ⟨_, rfl⟩
  tombstones _ _ := ⟨_, rfl⟩
  merged_keys h hl _ := by
    obtain ⟨base, hm⟩ := classifyFields_autoMerged h
    unfold mergedFields at hm
    simp only [Option.bind_eq_bind, Option.bind_eq_some_iff, Option.pure_def, Option.some.injEq] at hm
    obtain ⟨_, -, _, -, _, -, _, -, _, -, rfl⟩ := hm
    exact hl

/-- One replica renames the group `2` and gives it a builtin icon, the other deletes the entry in it. -/
theorem pull_between_runs_succeeds_ledger :
    let start := ingested ledgerVault (nestedMirror false)
    let rename := EngineOp.updateGroup 2 { name := some "Office", icon := some (.builtin 7) }
      (.atSecond 40)
    let delete := EngineOp.deleteEntry 9 (.atSecond 60)
    let A := rename.next plainEnv start
    let B := delete.next plainEnv start
    ingestVault ledgerVault (nestedMirror false) = .ok start ∧
      ∃ v w st, A.project = .ok v ∧ B.project = .ok w ∧
        ingestPeer fieldMerge .insertion ⟨"phone", v, w, .atSecond 70⟩ A = .ok st := by
  intro start rename delete A B
  let Λ : Libs := ⟨plainEnv, fieldMerge, fieldVaults⟩
  have hstart : ingestVault ledgerVault (nestedMirror false) = .ok start :=
    ingestVault_ingested (by decide +kernel)
  have hrename : ∀ s : EngineState Λ.vaults, KeepsReadable s (.mutate rename) := by
    refine fun s => ⟨fun icon hicon => ?_, fun _ ho => EngineOp.noConfusion ho⟩
    rw [← Option.some.inj hicon]
    decide
  have hdelete : ∀ s : EngineState Λ.vaults, KeepsReadable s (.mutate delete) :=
    fun s => ⟨trivial, fun _ ho => EngineOp.noConfusion ho⟩
  have hrunA : EngineRun Λ KeepsReadable ⟨start, []⟩ ⟨A, []⟩ :=
    .step .refl (hrename _) (EngineTxn.run_mutate (EngineOp.run_next (by decide +kernel)))
  have hrunB : EngineRun Λ KeepsReadable ⟨start, []⟩ ⟨B, []⟩ :=
    .step .refl (hdelete _) (EngineTxn.run_mutate (EngineOp.run_next (by decide +kernel)))
  exact ⟨hstart, pull_between_runs_succeeds (Λ := Λ) fieldMerge_lawful fieldMerge_returns
    (a := ⟨start, []⟩) (b := ⟨start, []⟩) hstart hstart hrunA hrunB (by decide +kernel)
    (by decide +kernel) .insertion "phone" (.atSecond 70)⟩

/-- One replica gives the group `2` a custom icon. Its `icon_index` is NULL from then on, and pulling
the other replica, which has done nothing, fails. -/
theorem custom_icon_stops_pull :
    let start := ingested ledgerVault (nestedMirror false)
    let op := EngineOp.updateGroup 2 { icon := some (.custom 7) } (.atSecond 40)
    let A := op.next plainEnv start
    ingestVault ledgerVault (nestedMirror false) = .ok start ∧ op.run plainEnv start = .ok A ∧
      A.project = .ok (view A) ∧ start.project = .ok (view start) ∧
      (ingestPeer fieldMerge .insertion ⟨"phone", view A, view start, .atSecond 70⟩ A).map
        (fun st => st.1.groups.keys) = .error (.sqlite (.invalidColumnType "icon_index")) := by
  intro start op A
  exact ⟨ingestVault_ingested (by decide +kernel), EngineOp.run_next (by decide +kernel),
    project_view (by decide +kernel), project_view (by decide +kernel), by decide +kernel⟩

end KeysCore.Verify
