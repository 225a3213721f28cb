import KeysCore.Reconcile
import KeysCore.Verify.EngineRuns
import KeysCore.Verify.FieldMerge
import KeysCore.Verify.LiveTombstones
import KeysCore.Verify.Replicas
import KeysCore.Verify.WholeSeconds

/-!
# What a reconcile reports as no change

`ingest_kdbx_as_owner` answers `NoChange` when nine buckets are empty. Every pass over groups,
entries and deletions that writes content fills one of them (`Silent`), but the union of tombstones
and icons, the scrubbing of group tombstones and the merge of the meta fill none. So the projection
is the same after a `NoChange` exactly when those passes found nothing to write
(`noChange_keeps_projection_iff`).
-/

namespace KeysCore.Verify

open Lib

/-! ## Passes that report what they write -/

/-- With nothing reported at the end, nothing was before and no content changed in between. -/
def Silent (a b : Mirror × IngestPeerOutcome) : Prop :=
  b.2.isNoChange = true → a.2.isNoChange = true ∧ SameContent a.1 b.1

namespace Silent

variable {a b c : Mirror × IngestPeerOutcome}

theorem refl (a : Mirror × IngestPeerOutcome) : Silent a a := fun h => ⟨h, .refl _⟩

theorem trans (h : Silent a b) (h' : Silent b c) : Silent a c := by
  intro hc
  obtain ⟨hb, hbc⟩ := h' hc
  obtain ⟨ha, hab⟩ := h hb
  exact ⟨ha, hab.trans hbc⟩

theorem of_reported (h : b.2.isNoChange = false) : Silent a b := fun hb => by
  rw [h] at hb
  cases hb

theorem of_same (h : SameContent a.1 b.1) (ho : a.2.isNoChange = b.2.isNoChange) : Silent a b :=
  fun hb => ⟨ho.trans hb, h⟩

end Silent

section Passes

variable {st st' : Mirror × IngestPeerOutcome}

theorem adoptGroup_silent {f : FlatGroup} (h : adoptGroup st f = .ok st') : Silent st st' := by
  unfold adoptGroup at h
  split at h
  · obtain rfl := Except.ok.inj h
    exact .refl _
  · obtain ⟨m, -, h⟩ := except_bind_ok.1 h
    obtain rfl := Except.ok.inj h
    exact .of_reported (by simp [IngestPeerOutcome.isNoChange])

theorem reconcileGroupMetadata_silent {g : GroupInfo} (h : reconcileGroupMetadata g st = .ok st') :
    Silent st st' := by
  unfold reconcileGroupMetadata at h
  split at h
  · obtain rfl := Except.ok.inj h
    exact .refl _
  · split at h
    · cases h
    · split at h
      · obtain rfl := Except.ok.inj h
        exact .refl _
      · obtain rfl := Except.ok.inj h
        exact .of_reported (by simp [IngestPeerOutcome.isNoChange])

theorem reconcileGroupLocation_silent {g : GroupInfo} {p : Uuid}
    (h : reconcileGroupLocation g p st = .ok st') : Silent st st' := by
  unfold reconcileGroupLocation at h
  split at h
  · obtain rfl := Except.ok.inj h
    exact .refl _
  · split at h
    · obtain rfl := Except.ok.inj h
      exact .refl _
    · split at h
      · obtain rfl := Except.ok.inj h
        exact .refl _
      · obtain ⟨m, -, h⟩ := except_bind_ok.1 h
        obtain rfl := Except.ok.inj h
        exact .of_reported (by simp [IngestPeerOutcome.isNoChange])

theorem reconcileGroup_silent {f : FlatGroup} (h : reconcileGroup st f = .ok st') :
    Silent st st' := by
  unfold reconcileGroup at h
  obtain ⟨mid, hmid, h⟩ := except_bind_ok.1 h
  have hmeta := reconcileGroupMetadata_silent hmid
  split at h
  · obtain rfl := Except.ok.inj h
    exact hmeta
  · exact hmeta.trans (reconcileGroupLocation_silent h)

theorem breakGroupCycles_silent {ord : HashOrder} {root : Uuid} {fuel n : Nat}
    (h : breakGroupCycles ord root fuel n st = .ok st') : Silent st st' := by
  induction fuel generalizing n st with
  | zero => cases h
  | succ fuel ih =>
    unfold breakGroupCycles at h
    split at h
    · obtain rfl := Except.ok.inj h
      exact .refl _
    · split at h
      · cases h
      · obtain ⟨m, -, h⟩ := except_bind_ok.1 h
        exact Silent.trans (.of_reported (by simp [IngestPeerOutcome.isNoChange])) (ih h)

theorem reconcilePeerGroups_silent {ord : HashOrder} {peer : Vault}
    (h : reconcilePeerGroups ord peer st = .ok st') : Silent st st' := by
  unfold reconcilePeerGroups at h
  obtain ⟨st₁, h₁, h⟩ := except_bind_ok.1 h
  obtain ⟨st₂, h₂, h⟩ := except_bind_ok.1 h
  have hadopt := foldlM_rel Silent.refl Silent.trans (fun _ _ _ _ h => adoptGroup_silent h) h₁
  have hmerge := foldlM_rel Silent.refl Silent.trans (fun _ _ _ _ h => reconcileGroup_silent h) h₂
  exact (hadopt.trans hmerge).trans (breakGroupCycles_silent h)

variable {M : MergeLib} {P : PeerPull}

theorem verdictArm_silent {l p : Entry} {base : HistoryBase}
    (h : P.verdictArm M l p st = .ok (st', base)) : Silent st st' := by
  unfold PeerPull.verdictArm at h
  dsimp only at h
  split at h
  · obtain ⟨rfl, -⟩ := Prod.mk.inj (Except.ok.inj h)
    exact .of_same ⟨rfl, rfl, rfl, rfl⟩ rfl
  · obtain ⟨m, -, h⟩ := except_bind_ok.1 h
    obtain ⟨rfl, -⟩ := Prod.mk.inj (Except.ok.inj h)
    exact .of_reported (by simp [IngestPeerOutcome.isNoChange])
  · split at h
    · obtain ⟨rfl, -⟩ := Prod.mk.inj (Except.ok.inj h)
      exact .of_same ⟨rfl, rfl, rfl, rfl⟩ rfl
    · obtain ⟨m, -, h⟩ := except_bind_ok.1 h
      obtain ⟨rfl, -⟩ := Prod.mk.inj (Except.ok.inj h)
      exact .of_reported (by simp [IngestPeerOutcome.isNoChange])
    · -- the parked row is not content
      obtain ⟨m, hm, h⟩ := except_bind_ok.1 h
      obtain ⟨rfl, -⟩ := Prod.mk.inj (Except.ok.inj h)
      refine .of_same ?_ rfl
      unfold Mirror.writePeerEntry Mirror.insertConflictRow at hm
      split at hm
      · cases hm
      · obtain rfl := Except.ok.inj hm
        exact ⟨rfl, rfl, rfl, rfl⟩

theorem reconcileEntryLocation_silent {p : Entry} {parent : Uuid}
    (h : reconcileEntryLocation p parent st = .ok st') : Silent st st' := by
  unfold reconcileEntryLocation at h
  split at h
  · obtain rfl := Except.ok.inj h
    exact .refl _
  · split at h
    · obtain rfl := Except.ok.inj h
      exact .refl _
    · split at h
      · obtain ⟨m, -, h⟩ := except_bind_ok.1 h
        obtain rfl := Except.ok.inj h
        exact .of_reported (by simp [IngestPeerOutcome.isNoChange])
      · obtain rfl := Except.ok.inj h
        exact .refl _

/-- A history pass that reports no change made none. -/
theorem reconcileHistory_unchanged {ctx : HistoryFoldContext} {base : HistoryBase} {l p : Entry}
    {m m' : Mirror} (h : reconcileHistory M ctx base l p m = .ok (m', false)) : m' = m := by
  have htomb : ∀ {b o : Entry},
      reconcileEntryHistoryTombstones M b o m = .ok (m', false) → m' = m := by
    intro b o h
    unfold reconcileEntryHistoryTombstones at h
    split at h
    · exact (Prod.mk.inj (Except.ok.inj h)).1.symm
    · obtain ⟨⟨merged, changed⟩, -, h⟩ := except_bind_ok.1 h
      cases changed with
      | false => exact (Prod.mk.inj (Except.ok.inj h)).1.symm
      | true =>
        obtain ⟨x, -, h⟩ := except_bind_ok.1 h
        cases h
  have hfold : ∀ {b o : Entry},
      foldEntryHistoryIntoMirror M ctx b o m = .ok (m', false) → m' = m := by
    intro b o h
    unfold foldEntryHistoryIntoMirror at h
    split at h
    · exact (Prod.mk.inj (Except.ok.inj h)).1.symm
    · obtain ⟨⟨merged, changed⟩, -, h⟩ := except_bind_ok.1 h
      cases changed with
      | false => exact (Prod.mk.inj (Except.ok.inj h)).1.symm
      | true =>
        obtain ⟨x, -, h⟩ := except_bind_ok.1 h
        cases h
  cases base with
  | held => exact htomb h
  | ofLocal => exact hfold h
  | autoMerged merged => exact hfold h
  | ofPeer => exact hfold h

theorem ingestEntry_silent {pe : Entry × Uuid} (h : P.ingestEntry M st pe = .ok st') :
    Silent st st' := by
  unfold PeerPull.ingestEntry at h
  split at h
  · unfold PeerPull.ingestPeerOnly at h
    dsimp only at h
    split at h
    · obtain rfl := Except.ok.inj h
      exact .refl _
    · obtain ⟨m, -, h⟩ := except_bind_ok.1 h
      obtain rfl := Except.ok.inj h
      exact .of_reported (by simp [IngestPeerOutcome.isNoChange])
  · unfold PeerPull.ingestShared at h
    obtain ⟨⟨st₁, base⟩, h₁, h⟩ := except_bind_ok.1 h
    obtain ⟨st₂, h₂, h⟩ := except_bind_ok.1 h
    obtain ⟨⟨m, changed⟩, h₃, h⟩ := except_bind_ok.1 h
    obtain rfl := Except.ok.inj h
    refine ((verdictArm_silent h₁).trans (reconcileEntryLocation_silent h₂)).trans ?_
    cases changed with
    | false =>
      obtain rfl := reconcileHistory_unchanged h₃
      exact .refl _
    | true => exact .of_reported (by simp [IngestPeerOutcome.isNoChange])

theorem reconcilePeerDeletes_silent (st : Mirror × IngestPeerOutcome) :
    Silent st (P.reconcilePeerDeletes st) := by
  refine foldl_rel Silent.refl Silent.trans (fun a u _ => ?_) st
  unfold PeerPull.reconcileDelete
  split
  · split
    · exact .refl _
    · exact .of_reported (by simp [IngestPeerOutcome.isNoChange])
  · exact .refl _

end Passes

/-! ## The sweep -/

theorem applyDissolve_unlanded {u : Uuid} {m m' : Mirror} {d : DissolveDecision}
    (h : applyDissolve u m d = .ok (m', false)) : SameContent m m' := by
  unfold applyDissolve at h
  split at h
  · obtain ⟨rfl, -⟩ := Prod.mk.inj (Except.ok.inj h)
    exact ⟨rfl, rfl, rfl, rfl⟩
  · obtain ⟨rfl, -⟩ := Prod.mk.inj (Except.ok.inj h)
    exact dropConflictOwners_sameContent m u _
  · obtain ⟨a, -, h⟩ := except_bind_ok.1 h
    cases h

/-- Settling that landed no merge only dropped rows. -/
theorem settleLoop_unlanded {L : VaultMergeLib} {u : Uuid} {fuel : Nat} {m m' : Mirror}
    {v v' : Vault} {adopted : Bool}
    (h : settleLoop L u fuel (m, v, adopted) = .ok (m', v', false)) :
    adopted = false ∧ SameContent m m' := by
  induction fuel generalizing m v adopted with
  | zero => cases h
  | succ fuel ih =>
    unfold settleLoop at h
    dsimp only at h
    split at h
    · obtain ⟨rfl, he⟩ := Prod.mk.inj (Except.ok.inj h)
      exact ⟨(Prod.mk.inj he).2, .refl _⟩
    · obtain ⟨d, -, h⟩ := except_bind_ok.1 h
      obtain ⟨⟨mid, landed⟩, hmid, h⟩ := except_bind_ok.1 h
      cases landed with
      | true =>
        obtain ⟨w, -, h⟩ := except_bind_ok.1 h
        exact absurd (ih h).1 (by decide)
      | false =>
        obtain ⟨rfl, he⟩ := Prod.mk.inj (Except.ok.inj h)
        exact ⟨(Prod.mk.inj he).2, applyDissolve_unlanded hmid⟩

theorem sweepRows_unlanded {L : VaultMergeLib} {parked : List Uuid} {m m' : Mirror} {v v' : Vault}
    {adopted : List Uuid} (h : sweepRows L parked (m, v, adopted) = .ok (m', v', [])) :
    adopted = [] ∧ SameContent m m' := by
  induction parked generalizing m v adopted with
  | nil =>
    obtain ⟨rfl, he⟩ := Prod.mk.inj (Except.ok.inj h)
    exact ⟨(Prod.mk.inj he).2, .refl _⟩
  | cons u parked ih =>
    unfold sweepRows at h
    obtain ⟨⟨mid, w, landed⟩, hmid, h⟩ := except_bind_ok.1 h
    obtain ⟨hadopted, hrest⟩ := ih h
    cases landed with
    | true => exact absurd hadopted (by simp)
    | false => exact ⟨hadopted, (settleLoop_unlanded hmid).2.trans hrest⟩

theorem reconcileAllConflictRows_unlanded {L : VaultMergeLib} {m m' : Mirror}
    (h : reconcileAllConflictRows L m = .ok (m', [])) : SameContent m m' := by
  unfold reconcileAllConflictRows at h
  split at h
  · obtain ⟨rfl, -⟩ := Prod.mk.inj (Except.ok.inj h)
    exact .refl _
  · obtain ⟨v, -, h⟩ := except_bind_ok.1 h
    obtain ⟨⟨mid, w, adopted⟩, hmid, h⟩ := except_bind_ok.1 h
    obtain ⟨rfl, rfl⟩ := Prod.mk.inj (Except.ok.inj h)
    exact (sweepRows_unlanded hmid).2

/-- The bucket of merges stays empty only when the sweep adds nothing to it. -/
theorem foldl_adopted_isEmpty {adopted us : List Uuid}
    (h : (adopted.foldl (fun us u => if u ∈ us then us else us ++ [u]) us).isEmpty = true) :
    adopted = [] ∧ us.isEmpty = true := by
  induction adopted generalizing us with
  | nil => exact ⟨rfl, h⟩
  | cons u adopted ih =>
    have hus : (if u ∈ us then us else us ++ [u]).isEmpty = true := (ih h).2
    split at hus
    · rename_i hu
      rw [List.isEmpty_iff.1 hus] at hu
      cases hu
    · simp at hus

/-! ## Projections that differ in the bin flags only -/

/-- A group row without its bin flag. -/
def GroupRow.unflagged (g : GroupRow) : GroupRow := { g with isRecycleBin := false }

theorem findRoot_unflagged (rows : List GroupRow) (found : Option Uuid) :
    findRoot found (rows.map GroupRow.unflagged) = findRoot found rows := by
  induction rows generalizing found with
  | nil => rfl
  | cons g rows ih =>
    rw [List.map_cons]
    unfold findRoot
    have hparent : (GroupRow.unflagged g).parentUuid = g.parentUuid := rfl
    rw [hparent]
    split
    · exact ih _
    · exact ih _
    · rfl

theorem childrenOf_unflagged (rows : List GroupRow) (u : Uuid) :
    childrenOf (rows.map GroupRow.unflagged) u = childrenOf rows u := by
  unfold childrenOf
  rw [List.filter_map, List.map_map]
  rfl

/-- One child in the loop of `buildSubtree`. -/
def buildChild (rows : List GroupRow) (fuel : Nat) (acc : List Group × List GroupRow) (c : Uuid) :
    Except EngineError (List Group × List GroupRow) := do
  let (g, rest) ← buildSubtree rows fuel c acc.2
  return (acc.1 ++ [g], rest)

theorem buildSubtree_unflagged (rows : List GroupRow) (fuel : Nat) (u : Uuid)
    (byUuid : List GroupRow) :
    buildSubtree (rows.map GroupRow.unflagged) fuel u (byUuid.map GroupRow.unflagged) =
      (buildSubtree rows fuel u byUuid).map fun p => (p.1, p.2.map GroupRow.unflagged) := by
  induction fuel generalizing u byUuid with
  | zero => rfl
  | succ fuel ih =>
    have hfind : (byUuid.map GroupRow.unflagged).find? (fun g => decide (g.uuid = u)) =
        (byUuid.find? fun g => decide (g.uuid = u)).map GroupRow.unflagged := by
      rw [List.find?_map]
      rfl
    have hrest : (byUuid.map GroupRow.unflagged).filter (fun g => decide (g.uuid ≠ u)) =
        (byUuid.filter fun g => decide (g.uuid ≠ u)).map GroupRow.unflagged := by
      rw [List.filter_map]
      rfl
    unfold buildSubtree
    rw [hfind]
    cases byUuid.find? fun g => decide (g.uuid = u) with
    | none => rfl
    | some row =>
      dsimp only [Option.map_some]
      rw [childrenOf_unflagged, hrest]
      -- the loop over the children, with the rows left over unflagged
      have hloop := foldlM_image
        (fun acc : List Group × List GroupRow => (acc.1, acc.2.map GroupRow.unflagged))
        (buildChild rows fuel) (buildChild (rows.map GroupRow.unflagged) fuel)
        (fun acc c => by
          unfold buildChild
          rw [ih]
          cases buildSubtree rows fuel c acc.2 with
          | error e => rfl
          | ok p => rfl)
        (childrenOf rows u) ([], byUuid.filter fun g => decide (g.uuid ≠ u))
      change ((childrenOf rows u).foldlM (buildChild _ fuel) _ >>= _) = _
      rw [hloop]
      change _ = Except.map _ ((childrenOf rows u).foldlM (buildChild rows fuel) _ >>= _)
      cases (childrenOf rows u).foldlM (buildChild rows fuel)
        ([], byUuid.filter fun g => decide (g.uuid ≠ u)) with
      | error e => rfl
      | ok p => rfl

/-- The tree does not depend on the bin flags. -/
theorem buildGroupTree_unflagged (rows : List GroupRow) :
    (buildGroupTree (rows.map GroupRow.unflagged)).map (·.1) = (buildGroupTree rows).map (·.1) := by
  unfold buildGroupTree
  rw [findRoot_unflagged]
  cases findRoot none rows with
  | error e => rfl
  | ok root =>
    cases root with
    | none => rfl
    | some root =>
      dsimp only [bind, Except.bind]
      rw [List.length_map, buildSubtree_unflagged]
      cases buildSubtree rows rows.length root rows with
      | error e => rfl
      | ok p => rfl

theorem sortRows_unflagged (rows : List GroupRow) :
    Mirror.sortRows (rows.map GroupRow.unflagged) = (Mirror.sortRows rows).map GroupRow.unflagged :=
  (List.map_insertionSort _ _ GroupRow.unflagged rows fun _ _ _ _ => Iff.rfl).symm

/-- **A mirror whose groups differ in the bin flags only projects to the same tree.** -/
theorem project_unflagged {m m' : Mirror} {v : Vault}
    (hg : m'.groups.rows.map GroupRow.unflagged = m.groups.rows.map GroupRow.unflagged)
    (he : m'.entries = m.entries) (hv : m.project = .ok v) :
    m'.project = .ok
      ⟨v.root, m'.readMeta (findRecycleBin (Mirror.sortRows m'.groups.rows)), m'.readDeletedObjects⟩ := by
  obtain ⟨hrange, g, htree, rfl⟩ := project_ok hv
  have hrange' : ∀ g ∈ m'.groups.rows, 0 ≤ g.sortOrder ∧ g.sortOrder < 2 ^ 32 := by
    intro g hg'
    have hmem : GroupRow.unflagged g ∈ m.groups.rows.map GroupRow.unflagged :=
      hg ▸ List.mem_map_of_mem hg'
    obtain ⟨r, hr, e⟩ := List.mem_map.1 hmem
    have horder : (GroupRow.unflagged r).sortOrder = (GroupRow.unflagged g).sortOrder := by rw [e]
    exact (show r.sortOrder = g.sortOrder from horder) ▸ hrange r hr
  have htree' : (buildGroupTree (Mirror.sortRows m'.groups.rows)).map (·.1) = .ok g := by
    rw [← buildGroupTree_unflagged, ← sortRows_unflagged, hg, sortRows_unflagged,
      buildGroupTree_unflagged, htree]
    rfl
  obtain ⟨⟨g', bin'⟩, hbuilt, rfl⟩ := except_map_ok.1 htree'
  have hbin := (buildGroupTree_ok hbuilt).2
  have hload : loadGroupRows m' = .ok (Mirror.sortRows m'.groups.rows) := if_pos hrange'
  have hentries : m'.entriesOf = m.entriesOf := by
    unfold Mirror.entriesOf
    rw [he]
  unfold Mirror.project
  rw [hload]
  dsimp only [bind, Except.bind]
  rw [hbuilt, hbin, hentries]
  rfl

/-! ## Reading the merged meta back -/

/-- The bin that is found when the flagged rows are all of `u`. -/
theorem findRecycleBin_of_flagged {rows : List GroupRow} {u : Uuid}
    (h : ∀ g ∈ rows, g.isRecycleBin = true → g.uuid = u) :
    findRecycleBin rows = if rows.any (·.isRecycleBin) then some u else none := by
  have hfrom : ∀ (rows : List GroupRow) (bin : Option Uuid),
      (∀ g ∈ rows, g.isRecycleBin = true → g.uuid = u) →
      rows.foldl (fun bin g => if g.isRecycleBin then some g.uuid else bin) bin =
        if rows.any (·.isRecycleBin) then some u else bin := by
    intro rows
    induction rows with
    | nil => intro bin _; rfl
    | cons g rows ih =>
      intro bin hrows
      rw [List.foldl_cons, ih _ fun r hr => hrows r (List.mem_cons_of_mem _ hr), List.any_cons]
      cases hflag : g.isRecycleBin with
      | false => simp
      | true => simp [hrows g (by simp) hflag]
  exact hfrom rows none h

theorem findRecycleBin_mem {rows : List GroupRow} {b : Uuid} (h : findRecycleBin rows = some b) :
    ∃ g ∈ rows, g.uuid = b := by
  have hfrom : ∀ (rows : List GroupRow) (bin : Option Uuid),
      rows.foldl (fun bin g => if g.isRecycleBin then some g.uuid else bin) bin = some b →
      bin = some b ∨ ∃ g ∈ rows, g.uuid = b := by
    intro rows
    induction rows with
    | nil => exact fun bin h => .inl h
    | cons g rows ih =>
      intro bin h
      rcases ih _ h with hbin | ⟨r, hr, e⟩
      · dsimp only at hbin
        split at hbin
        · exact .inr ⟨g, by simp, Option.some.inj hbin⟩
        · exact .inl hbin
      · exact .inr ⟨r, List.mem_cons_of_mem _ hr, e⟩
  rcases hfrom rows none h with h | h
  · cases h
  · exact h

/-- The meta that stands in the mirror after `reconcile_peer_meta` wrote `merged`: instants at the
resolution of their column, the icons and custom data of before, and no bin that is not here. -/
def Meta.landed (merged localMeta : Meta) (m : Mirror) : Meta :=
  { merged with
    masterKeyChanged := merged.masterKeyChanged.map (·.timestampMillis.toDateTime)
    databaseNameChanged := merged.databaseNameChanged.map (·.timestampMillis.toDateTime)
    databaseDescriptionChanged :=
      merged.databaseDescriptionChanged.map (·.timestampMillis.toDateTime)
    defaultUsernameChanged := merged.defaultUsernameChanged.map (·.timestampMillis.toDateTime)
    recycleBinUuid := merged.recycleBinUuid.filter m.groupExists
    recycleBinChanged := merged.recycleBinChanged.map (·.timestampMillis.toDateTime)
    settingsChanged := merged.settingsChanged.map (·.timestampMillis.toDateTime)
    customIcons := localMeta.customIcons
    customData := localMeta.customData }

theorem unpack_pack (p : MemoryProtection) : unpackMemoryProtection p.pack = p := by
  rcases p with ⟨_ | _, _ | _, _ | _, _ | _, _ | _⟩ <;> decide

/-- Reading the written scalars, with the bin found among the groups. -/
theorem readMeta_written {m m' : Mirror} {merged : Meta} (bin : Option Uuid)
    {found : Option Uuid} (hs : m'.settings =
      { merged.toSettings m.settings.customIcons m.settings.customData with
        recycleBinEnabled := some merged.recycleBinEnabled })
    (hfound : found = merged.recycleBinUuid.filter m.groupExists) :
    m'.readMeta found = Meta.landed merged (m.readMeta bin) m := by
  unfold Mirror.readMeta Meta.landed
  rw [hs, hfound]
  simp only [Meta.toSettings, Option.map_map, unpack_pack, Option.getD_some, Function.comp_def]

theorem updateGroups_unflagged (m : Mirror) (p : GroupRow → Prop) [DecidablePred p] (b : Bool) :
    (m.updateGroups p (fun g => { g with isRecycleBin := b }) (fun _ => rfl)
      (fun _ => rfl)).groups.rows.map GroupRow.unflagged = m.groups.rows.map GroupRow.unflagged := by
  show (m.groups.rows.map _).map _ = _
  rw [List.map_map]
  refine List.map_congr_left fun g _ => ?_
  simp only [Function.comp]
  split
  · rfl
  · rfl

theorem mem_updateGroups {m : Mirror} {p : GroupRow → Prop} [DecidablePred p] {f : GroupRow → GroupRow}
    {hu : ∀ r, (f r).uuid = r.uuid} {hp : ∀ r, (f r).parentUuid = r.parentUuid} {s : GroupRow} :
    s ∈ (m.updateGroups p f hu hp).groups.rows ↔ ∃ r ∈ m.groups.rows, (if p r then f r else r) = s :=
  Table.mem_update hu

theorem clearRecycleBinGroup_finds (m : Mirror) :
    findRecycleBin (Mirror.sortRows m.clearRecycleBinGroup.groups.rows) = none := by
  have hclear : ∀ g ∈ Mirror.sortRows m.clearRecycleBinGroup.groups.rows, ¬ g.isRecycleBin = true := by
    intro g hg
    obtain ⟨r, -, rfl⟩ := mem_updateGroups.1 ((List.mem_insertionSort _).1 hg)
    split
    · exact Bool.false_ne_true
    · assumption
  have hnone := findRecycleBin_of_flagged (u := 0) fun g hg h => absurd h (hclear g hg)
  rw [hnone, if_neg]
  intro h
  obtain ⟨g, hg, hflag⟩ := List.any_eq_true.1 h
  exact hclear g hg hflag

theorem writeRecycleBinGroup_finds {m : Mirror} {u : Uuid} (hu : m.groupExists u = true) :
    findRecycleBin (Mirror.sortRows (m.writeRecycleBinGroup u).groups.rows) = some u := by
  have hrow : ∀ g ∈ Mirror.sortRows (m.writeRecycleBinGroup u).groups.rows,
      g.isRecycleBin = true → g.uuid = u := by
    intro g hg hflag
    obtain ⟨r, hr, rfl⟩ := mem_updateGroups.1 ((List.mem_insertionSort _).1 hg)
    split at hflag
    · rename_i e
      rw [if_pos e]
      exact e
    · rename_i e
      obtain ⟨s, -, rfl⟩ := mem_updateGroups.1 hr
      split at hflag
      · cases hflag
      · rename_i hs
        rw [if_neg hs] at e ⊢
        exact absurd ⟨hflag, e⟩ hs
  have hany : (Mirror.sortRows (m.writeRecycleBinGroup u).groups.rows).any (·.isRecycleBin) = true := by
    have hmem : u ∈ (m.updateGroups (fun g => g.isRecycleBin ∧ g.uuid ≠ u)
        (fun g => { g with isRecycleBin := false }) (fun _ => rfl) (fun _ => rfl)).groups.keys := by
      rw [updateGroups_keys]
      exact Table.find?_isSome.1 hu
    obtain ⟨g, hg, e⟩ := Table.mem_keys.1 hmem
    refine List.any_eq_true.2 ⟨{ g with isRecycleBin := true }, (List.mem_insertionSort _).2 ?_, rfl⟩
    exact mem_updateGroups.2 ⟨g, hg, if_pos e⟩
  rw [findRecycleBin_of_flagged hrow, if_pos hany]

/-- **Writing a merged meta that differs leaves the merged meta to be read.** -/
theorem reconcilePeerMeta_reads {localMeta merged : Meta} {m : Mirror} (bin : Option Uuid)
    (hne : merged ≠ localMeta) :
    (reconcilePeerMeta localMeta merged m).groups.rows.map GroupRow.unflagged =
        m.groups.rows.map GroupRow.unflagged ∧
      (reconcilePeerMeta localMeta merged m).readMeta
          (findRecycleBin (Mirror.sortRows (reconcilePeerMeta localMeta merged m).groups.rows)) =
        Meta.landed merged (m.readMeta bin) m := by
  unfold reconcilePeerMeta
  rw [if_neg hne]
  dsimp only
  cases hbin : merged.recycleBinUuid with
  | none =>
    refine ⟨updateGroups_unflagged _ _ _, ?_⟩
    dsimp only
    refine readMeta_written bin rfl ?_
    rw [clearRecycleBinGroup_finds, hbin]
    rfl
  | some g =>
    dsimp only
    split
    · rename_i hg
      refine ⟨(updateGroups_unflagged _ _ _).trans (updateGroups_unflagged _ _ _), ?_⟩
      have hexists : m.groupExists g = true := hg
      refine readMeta_written bin rfl ?_
      rw [writeRecycleBinGroup_finds hg, hbin, Option.filter_some, if_pos hexists]
    · rename_i hg
      refine ⟨updateGroups_unflagged _ _ _, ?_⟩
      have hexists : ¬ m.groupExists g = true := hg
      refine readMeta_written bin rfl ?_
      rw [clearRecycleBinGroup_finds, hbin, Option.filter_some, if_neg hexists]

/-- A projected meta stands as it is. -/
theorem landed_self {m : Mirror} {v : Vault} (hv : m.project = .ok v) :
    Meta.landed v.metadata v.metadata m = v.metadata := by
  obtain ⟨-, g, -, rfl⟩ := project_ok hv
  have hexists : (findRecycleBin (Mirror.sortRows m.groups.rows)).filter m.groupExists =
      findRecycleBin (Mirror.sortRows m.groups.rows) := by
    cases hbin : findRecycleBin (Mirror.sortRows m.groups.rows) with
    | none => rfl
    | some b =>
      obtain ⟨r, hr, e⟩ := findRecycleBin_mem hbin
      have hb : m.groupExists b = true :=
        Table.find?_isSome.2 (e ▸ Table.key_mem ((List.mem_insertionSort _).1 hr))
      rw [Option.filter_some, if_pos hb]
  unfold Meta.landed Mirror.readMeta
  simp only [Option.map_map, Function.comp_def, EpochMs.timestampMillis_toDateTime, hexists]

/-! ## Icons and tombstones -/

/-- The union adds an icon for each uuid of the peer's that is not in the pool. -/
theorem unionPeerCustomIcons_icons (icons : List CustomIcon) (m : Mirror) :
    (∀ i ∈ icons, i.uuid ∈ (unionPeerCustomIcons icons m).settings.customIcons.keys) ∧
      ((∀ i ∈ icons, i.uuid ∈ m.settings.customIcons.keys) → unionPeerCustomIcons icons m = m) ∧
      (unionPeerCustomIcons icons m).settings =
        { m.settings with customIcons := (unionPeerCustomIcons icons m).settings.customIcons } ∧
      ∀ u ∈ m.settings.customIcons.keys,
        u ∈ (unionPeerCustomIcons icons m).settings.customIcons.keys := by
  unfold unionPeerCustomIcons
  induction icons generalizing m with
  | nil => exact ⟨fun _ h => absurd h List.not_mem_nil, fun _ => rfl, rfl, fun _ h => h⟩
  | cons i icons ih =>
    rw [List.foldl_cons]
    obtain ⟨hmem, hsame, hsettings, hkeep⟩ := ih (unionIcon m i)
    have hone : i.uuid ∈ (unionIcon m i).settings.customIcons.keys ∧
        (i.uuid ∈ m.settings.customIcons.keys → unionIcon m i = m) ∧
        (unionIcon m i).settings =
          { m.settings with customIcons := (unionIcon m i).settings.customIcons } ∧
        ∀ u ∈ m.settings.customIcons.keys, u ∈ (unionIcon m i).settings.customIcons.keys := by
      unfold unionIcon
      cases hT : m.settings.customIcons.insert? i.toRow with
      | none => exact ⟨Table.insert?_eq_none.1 hT, fun _ => rfl, rfl, fun _ h => h⟩
      | some T =>
        have hkeys : T.keys = m.settings.customIcons.keys ++ [i.uuid] := Table.keys_insert hT
        refine ⟨?_, fun hi => absurd hi (Table.insert?_eq_some.1 hT).1, rfl, fun u hu => ?_⟩
        · show i.uuid ∈ T.keys
          rw [hkeys]
          simp
        · show u ∈ T.keys
          rw [hkeys]
          exact List.mem_append_left _ hu
    obtain ⟨hi, hisame, hisettings, hikeep⟩ := hone
    refine ⟨fun j hj => ?_, fun hall => ?_, ?_, fun u hu => hkeep u (hikeep u hu)⟩
    · rcases List.mem_cons.1 hj with rfl | hj
      · exact hkeep _ hi
      · exact hmem j hj
    · have hid := hisame (hall i (by simp))
      rw [hid] at hsame ⊢
      exact hsame fun j hj => hall j (List.mem_cons_of_mem _ hj)
    · rw [hsettings, hisettings]

/-- The icons as a projection lists them. -/
def iconsRead (T : Table CustomIconRow.uuid) : List CustomIcon :=
  (T.rows.insertionSort fun a b => a.uuid ≤ b.uuid).map fun r =>
    ⟨r.uuid, r.bytes, r.name, r.lastModifiedAt.map (·.toDateTime)⟩

theorem mem_keys_of_iconsRead {T : Table CustomIconRow.uuid} {u : Uuid} :
    u ∈ (iconsRead T).map (·.uuid) ↔ u ∈ T.keys := by
  unfold iconsRead Table.keys
  rw [List.map_map, List.mem_map, List.mem_map]
  simp only [List.mem_insertionSort, Function.comp]

/-- **The projected pool is the same exactly when the peer brings no new icon.** -/
theorem iconsRead_union_iff (icons : List CustomIcon) (m : Mirror) :
    iconsRead (unionPeerCustomIcons icons m).settings.customIcons = iconsRead m.settings.customIcons ↔
      ∀ i ∈ icons, i.uuid ∈ m.settings.customIcons.keys := by
  obtain ⟨hmem, hsame, -, -⟩ := unionPeerCustomIcons_icons icons m
  constructor
  · intro h i hi
    rw [← mem_keys_of_iconsRead, ← h, mem_keys_of_iconsRead]
    exact hmem i hi
  · intro h
    rw [hsame h]

/-- Deleted objects are read alike exactly when the rows are the same. -/
theorem readDeletedObjects_eq_iff {m m' : Mirror} :
    m'.readDeletedObjects = m.readDeletedObjects ↔
      ∀ u, m'.tombstones.find? u = m.tombstones.find? u := by
  constructor
  · intro h u
    have hmem : ∀ (a b : Mirror), a.readDeletedObjects = b.readDeletedObjects → ∀ r,
        r ∈ a.tombstones.rows → r ∈ b.tombstones.rows := by
      intro a b hab r hr
      have hread : (⟨r.uuid, r.deletedAt.map (·.toDateTime)⟩ : DeletedObject) ∈
          a.readDeletedObjects :=
        List.mem_map.2 ⟨r, (List.mem_insertionSort _).2 hr, rfl⟩
      rw [hab] at hread
      obtain ⟨s, hs, e⟩ := List.mem_map.1 hread
      obtain ⟨hu, hd⟩ := DeletedObject.mk.inj e
      have hd : s.deletedAt = r.deletedAt := Option.map_injective EpochMs.toDateTime_injective hd
      have hrow : s = r := by
        cases s
        cases r
        exact TombstoneRow.mk.injEq .. ▸ ⟨hu, hd⟩
      exact hrow ▸ (List.mem_insertionSort _).1 hs
    apply Option.ext
    intro r
    rw [Table.find?_eq_some, Table.find?_eq_some]
    exact and_congr_left fun _ => ⟨hmem m' m h r, hmem m m' h.symm r⟩
  · intro h
    unfold Mirror.readDeletedObjects
    rw [Table.insertionSort_eq h]

theorem unionPeerTombstones_settings (deleted : List DeletedObject) (m : Mirror) :
    (unionPeerTombstones deleted m).settings = m.settings := by
  refine foldl_rel (R := fun a b : Mirror => b.settings = a.settings) (fun _ => rfl)
    (fun h h' => h'.trans h) (fun a u _ => ?_) m
  unfold unionPeerTombstone
  split
  · rfl
  · split
    · rfl
    · unfold unionTombstone
      dsimp only
      split
      · rfl
      · split
        · rfl
        · rfl

theorem removeTombstones_settings (us : List Uuid) (m : Mirror) :
    (us.foldl Mirror.removeTombstone m).settings = m.settings := by
  induction us generalizing m with
  | nil => rfl
  | cons u us ih => exact ih (m.removeTombstone u)

/-- The last pass over groups, when it reports no deletion, only scrubs tombstones. -/
theorem materializeGroupTombstones_unreported {st st' : Mirror × IngestPeerOutcome}
    (h : materializeGroupTombstones st = .ok st') (hq : st'.2.isNoChange = true) :
    st.2.isNoChange = true ∧ st'.1.groups = st.1.groups ∧ st'.1.settings = st.1.settings := by
  unfold materializeGroupTombstones at h
  obtain ⟨m, hm, h⟩ := except_bind_ok.1 h
  obtain rfl := Except.ok.inj h
  have hdead : st.1.deadGroups = [] := by
    simp only [IngestPeerOutcome.isNoChange, Bool.and_eq_true, List.isEmpty_iff,
      List.append_eq_nil_iff] at hq
    exact hq.1.2.2
  rw [hdead] at hm hq
  obtain rfl := Except.ok.inj hm
  rw [List.append_nil] at hq
  exact ⟨hq, (removeTombstones_spec _ st.1).1.groups, removeTombstones_settings _ st.1⟩

/-! ## The reconcile -/

/-- A pull of `peer` into `m`, projected as `v`, finds nothing to write in the passes that report
nothing: the merged meta is the local one, the peer has no new icon, no group here has a tombstone to
scrub, and every deletion the peer knows, of an object not live here, is held at its instant or an
earlier one. -/
structure NothingUnreported (M : MergeLib) (peer : Vault) (m : Mirror) (v : Vault) : Prop where
  metadata : Meta.landed (M.mergeMetaScalars v.metadata peer.metadata) v.metadata m = v.metadata
  icons : ∀ i ∈ peer.metadata.customIcons, i.uuid ∈ m.settings.customIcons.keys
  groups : ∀ g ∈ m.groups.keys, g ∉ m.tombstones.keys
  tombstones : ∀ u t, tombstoneTime peer.deletedObjects u = some t → u ∉ m.groups.keys →
    u ∉ m.entries.keys → ∃ row, m.tombstones.find? u = some row ∧
      earliest row.deletedAt (t.map (·.timestampMillis)) = row.deletedAt

section Pull

variable {M : MergeLib} {ord : HashOrder} {owner : String} {peer v : Vault} {now : DateTime}
  {m : Mirror} {st : Mirror × IngestPeerOutcome}

/-- **What a pull that reports nothing leaves**: the tree, the merged meta with the united icons, and
the united tombstones without those of live groups. -/
theorem ingestPeer_unreported (hv : m.project = .ok v)
    (h : ingestPeer M ord ⟨owner, v, peer, now⟩ m = .ok st) (hq : st.2.isNoChange = true) :
    st.1.groups.rows.map GroupRow.unflagged = m.groups.rows.map GroupRow.unflagged ∧
      st.1.entries = m.entries ∧
      (∃ m₄ : Mirror, m₄.settings = m.settings ∧
        st.1.readMeta (findRecycleBin (Mirror.sortRows st.1.groups.rows)) =
          { Meta.landed (M.mergeMetaScalars v.metadata peer.metadata) v.metadata m with
            customIcons := iconsRead
              (unionPeerCustomIcons peer.metadata.customIcons m₄).settings.customIcons }) ∧
      ∀ u, st.1.tombstones.find? u = if u ∈ m.groups.keys then none else
        match tombstoneTime peer.deletedObjects u with
        | none => m.tombstones.find? u
        | some t => if u ∈ m.entries.keys then m.tombstones.find? u
          else some (joinedTombstone u (m.tombstones.find? u) t) := by
  unfold ingestPeer at h
  obtain ⟨st₁, h₁, h⟩ := except_bind_ok.1 h
  obtain ⟨st₂, h₂, h⟩ := except_bind_ok.1 h
  obtain ⟨st₅, h₅, h⟩ := except_bind_ok.1 h
  obtain rfl := Except.ok.inj h
  dsimp only at h₁ h₂ h₅ hq ⊢
  generalize hP : (⟨owner, v, peer, now⟩ : PeerPull) = P at h₂ h₅
  generalize hst₃ : P.reconcilePeerDeletes st₂ = st₃ at h₅
  -- the passes up to here have written nothing
  obtain ⟨hq₃, hgroups₅, hsettings₅⟩ := materializeGroupTombstones_unreported h₅ hq
  have hsilent : Silent (m, {}) st₃ :=
    ((reconcilePeerGroups_silent h₁).trans
      (foldlM_rel Silent.refl Silent.trans (fun _ _ _ _ h => ingestEntry_silent h) h₂)).trans
      (hst₃ ▸ reconcilePeerDeletes_silent st₂)
  have hsame : SameContent m st₃.1 := (hsilent hq₃).2
  -- then the tombstones and icons
  set m₄ := unionPeerTombstones peer.deletedObjects st₃.1 with hm₄
  obtain ⟨htomb, hunion⟩ := unionPeerTombstones_spec peer.deletedObjects st₃.1
  obtain ⟨hicon, hicont⟩ := unionPeerCustomIcons_same peer.metadata.customIcons m₄
  have hgroups : st₅.1.groups = m.groups := by
    rw [hgroups₅, hicon.groups, htomb.groups, hsame.groups]
  have hentries : st₅.1.entries = m.entries := by
    rw [(materializeGroupTombstones_spec h₅).1, hicon.entries, htomb.entries, hsame.entries]
  have hsettings₄ : m₄.settings = m.settings :=
    (unionPeerTombstones_settings _ _).trans hsame.settings
  have hsettings : st₅.1.settings = { m.settings with customIcons :=
      (unionPeerCustomIcons peer.metadata.customIcons m₄).settings.customIcons } := by
    rw [hsettings₅, (unionPeerCustomIcons_icons peer.metadata.customIcons m₄).2.2.1, hsettings₄]
  -- and the meta
  obtain ⟨hfe, hft, -, -⟩ :=
    reconcilePeerMeta_same v.metadata (M.mergeMetaScalars v.metadata peer.metadata) st₅.1
  have hmerged : P.mergedMeta M = M.mergeMetaScalars v.metadata peer.metadata := by rw [← hP]; rfl
  obtain ⟨bin, hbin⟩ := project_metadata hv
  have hread : ∀ b, st₅.1.readMeta b = { m.readMeta b with
      customIcons :=
        iconsRead (unionPeerCustomIcons peer.metadata.customIcons m₄).settings.customIcons } := by
    intro b
    unfold Mirror.readMeta
    rw [hsettings]
    rfl
  have hexists : st₅.1.groupExists = m.groupExists := by
    unfold Mirror.groupExists
    rw [hgroups]
  rw [hmerged]
  refine ⟨?_, hfe.trans hentries, ⟨m₄, hsettings₄, ?_⟩, fun u => ?_⟩
  · by_cases hne : M.mergeMetaScalars v.metadata peer.metadata = v.metadata
    · unfold reconcilePeerMeta
      rw [if_pos hne, hgroups]
    · rw [(reconcilePeerMeta_reads none hne).1, hgroups]
  · by_cases hne : M.mergeMetaScalars v.metadata peer.metadata = v.metadata
    · rw [hne, landed_self hv]
      unfold reconcilePeerMeta
      rw [if_pos rfl, hread, hgroups]
      have hself := project_unflagged (m := m) rfl rfl hv
      rw [hv] at hself
      have hmeta : v.metadata = m.readMeta (findRecycleBin (Mirror.sortRows m.groups.rows)) :=
        congrArg Vault.metadata (Except.ok.inj hself)
      rw [← hmeta]
    · rw [(reconcilePeerMeta_reads bin hne).2, hread]
      unfold Meta.landed
      rw [hbin, hexists]
  · rw [hft]
    obtain ⟨hclean, -⟩ := materializeGroupTombstones_untombstoned h₅
    by_cases hg : u ∈ m.groups.keys
    · rw [if_pos hg, Table.find?_eq_none]
      exact hclean u (hgroups ▸ hg)
    · have hout : u ∉ (unionPeerCustomIcons peer.metadata.customIcons m₄).groups.keys := by
        rw [hicon.groups, htomb.groups, hsame.groups]
        exact hg
      rw [if_neg hg, (materializeGroupTombstones_spec h₅).2.2.2.2.1 u hout, hicont, hunion u,
        hsame.tombstones]
      have hlive : st₃.1.entryExists u = true ↔ u ∈ m.entries.keys := by
        unfold Mirror.entryExists
        rw [hsame.entries]
        exact Table.find?_isSome
      cases tombstoneTime peer.deletedObjects u with
      | none => rfl
      | some t =>
        dsimp only
        by_cases he : u ∈ m.entries.keys
        · rw [if_pos he, if_pos (hlive.2 he)]
        · rw [if_neg he, if_neg fun h => he (hlive.1 h)]

/-- The tombstones are those of before exactly when the peer's were held and no live group had one. -/
theorem tombstones_kept_iff {find : Uuid → Option TombstoneRow}
    (hfind : ∀ u, find u = if u ∈ m.groups.keys then none else
      match tombstoneTime peer.deletedObjects u with
      | none => m.tombstones.find? u
      | some t => if u ∈ m.entries.keys then m.tombstones.find? u
        else some (joinedTombstone u (m.tombstones.find? u) t)) :
    (∀ u, find u = m.tombstones.find? u) ↔
      (∀ g ∈ m.groups.keys, g ∉ m.tombstones.keys) ∧
        ∀ u t, tombstoneTime peer.deletedObjects u = some t → u ∉ m.groups.keys →
          u ∉ m.entries.keys → ∃ row, m.tombstones.find? u = some row ∧
            earliest row.deletedAt (t.map (·.timestampMillis)) = row.deletedAt := by
  constructor
  · intro h
    refine ⟨fun g hg => ?_, fun u t ht hg he => ?_⟩
    · rw [← Table.find?_eq_none, ← h g, hfind g, if_pos hg]
    · have hu := h u
      rw [hfind u, if_neg hg, ht] at hu
      simp only [if_neg he] at hu
      refine ⟨_, hu.symm, ?_⟩
      cases hrow : m.tombstones.find? u with
      | none =>
        rw [hrow] at hu
        cases hu
      | some row =>
        rw [hrow] at hu
        have hjoin : joinedTombstone u (some row) t = row := Option.some.inj hu
        rw [hjoin]
        exact congrArg TombstoneRow.deletedAt hjoin
  · rintro ⟨hgroups, hheld⟩ u
    rw [hfind u]
    by_cases hg : u ∈ m.groups.keys
    · rw [if_pos hg, Table.find?_eq_none.2 (hgroups u hg)]
    · rw [if_neg hg]
      cases ht : tombstoneTime peer.deletedObjects u with
      | none => rfl
      | some t =>
        dsimp only
        by_cases he : u ∈ m.entries.keys
        · rw [if_pos he]
        · obtain ⟨row, hrow, hearly⟩ := hheld u t ht hg he
          rw [if_neg he, hrow]
          have huuid : row.uuid = u := Table.find?_key hrow
          simp only [joinedTombstone, hearly, ← huuid]

end Pull

/-- The pull and the sweep behind a reconcile that answered `NoChange`. -/
theorem ingestKdbxAsOwner_noChange {D : Type} [DecidableEq D] {M : MergeLib} {L : VaultMergeLib}
    {digest : Vault → D} {ord : HashOrder} {owner : String} {peer : Vault} {now : DateTime}
    {m m' : Mirror} (h : ingestKdbxAsOwner M L digest ord owner peer now m = .ok (m', .noChange)) :
    ∃ v st, m.project = .ok v ∧ ingestPeer M ord ⟨owner, v, peer, now⟩ m = .ok st ∧
      st.2.isNoChange = true ∧ SameContent st.1 m' := by
  unfold ingestKdbxAsOwner at h
  obtain ⟨⟨m₂, outcome⟩, h₂, h⟩ := except_bind_ok.1 h
  dsimp only at h
  split at h
  · rename_i hq
    obtain ⟨rfl, -⟩ := Prod.mk.inj (Except.ok.inj h)
    unfold engineIngestPeer at h₂
    obtain ⟨-, -, h₂⟩ := except_bind_ok.1 h₂
    obtain ⟨v, hv, h₂⟩ := except_bind_ok.1 h₂
    obtain ⟨⟨m₁, o⟩, hpull, h₂⟩ := except_bind_ok.1 h₂
    obtain ⟨⟨m₃, adopted⟩, hsweep, h₂⟩ := except_bind_ok.1 h₂
    obtain ⟨rfl, rfl⟩ := Prod.mk.inj (Except.ok.inj h₂)
    simp only [IngestPeerOutcome.isNoChange, Bool.and_eq_true] at hq
    obtain ⟨rfl, hmerged⟩ := foldl_adopted_isEmpty hq.1.1.1.1.1.1.1.1
    refine ⟨v, _, hv, hpull, ?_, reconcileAllConflictRows_unlanded hsweep⟩
    simp only [IngestPeerOutcome.isNoChange, Bool.and_eq_true]
    exact ⟨⟨⟨⟨⟨⟨⟨⟨hmerged, hq.1.1.1.1.1.1.1.2⟩, hq.1.1.1.1.1.1.2⟩, hq.1.1.1.1.1.2⟩, hq.1.1.1.1.2⟩,
      hq.1.1.1.2⟩, hq.1.1.2⟩, hq.1.2⟩, hq.2⟩
  · obtain ⟨w, -, h⟩ := except_bind_ok.1 h
    cases h

/-- **After a `NoChange` the projection is the one from before exactly when the pull had nothing to
write that it does not report.** -/
theorem noChange_keeps_projection_iff {D : Type} [DecidableEq D] {M : MergeLib} {L : VaultMergeLib}
    {digest : Vault → D} {ord : HashOrder} {owner : String} {peer v : Vault} {now : DateTime}
    {m m' : Mirror} (hv : m.project = .ok v)
    (h : ingestKdbxAsOwner M L digest ord owner peer now m = .ok (m', .noChange)) :
    m'.project = .ok v ↔ NothingUnreported M peer m v := by
  obtain ⟨v', st, hv', hpull, hq, hsweep⟩ := ingestKdbxAsOwner_noChange h
  obtain rfl : v' = v := Except.ok.inj (hv'.symm.trans hv)
  obtain ⟨hgroups, hentries, ⟨m₄, hsettings, hmeta⟩, htombs⟩ := ingestPeer_unreported hv hpull hq
  have hproject : m'.project = .ok v' ↔
      st.1.readMeta (findRecycleBin (Mirror.sortRows st.1.groups.rows)) = v'.metadata ∧
        st.1.readDeletedObjects = m.readDeletedObjects := by
    rw [hsweep.project, project_unflagged hgroups hentries hv, ← project_deletedObjects hv]
    constructor
    · intro e
      have e := Except.ok.inj e
      exact ⟨congrArg Vault.metadata e, congrArg Vault.deletedObjects e⟩
    · rintro ⟨h₁, h₂⟩
      rw [h₁, h₂]
  have hicons : (Meta.landed (M.mergeMetaScalars v'.metadata peer.metadata) v'.metadata m).customIcons =
      iconsRead m₄.settings.customIcons := by
    obtain ⟨bin, hbin⟩ := project_metadata hv
    rw [hsettings]
    exact congrArg Meta.customIcons hbin
  have hkeys : m₄.settings.customIcons.keys = m.settings.customIcons.keys := by rw [hsettings]
  rw [hproject, hmeta, readDeletedObjects_eq_iff, tombstones_kept_iff htombs]
  constructor
  · rintro ⟨hread, hlive, hheld⟩
    have hunion : iconsRead (unionPeerCustomIcons peer.metadata.customIcons m₄).settings.customIcons =
        iconsRead m₄.settings.customIcons := by
      rw [← hicons]
      exact congrArg Meta.customIcons hread
    refine ⟨?_, fun i hi => hkeys ▸ (iconsRead_union_iff _ m₄).1 hunion i hi, hlive, hheld⟩
    rw [hunion, ← hicons] at hread
    exact hread
  · rintro ⟨hmerged, hnew, hlive, hheld⟩
    refine ⟨?_, hlive, hheld⟩
    rw [(iconsRead_union_iff _ m₄).2 fun i hi => hkeys ▸ hnew i hi, ← hicons]
    exact hmerged

/-- The reconcile with the field-wise libraries and the entries for a digest, the mirror itself when
it fails. -/
def afterReconcile (owner : String) (peer : Vault) (now : DateTime) (m : Mirror) : Mirror :=
  ((ingestKdbxAsOwner fieldMerge fieldVaults Vault.entries .insertion owner peer now m).toOption.map
    (·.1)).getD m

theorem ingestKdbxAsOwner_afterReconcile {owner : String} {peer : Vault} {now : DateTime} {m : Mirror}
    (h : (ingestKdbxAsOwner fieldMerge fieldVaults Vault.entries .insertion owner peer now
      m).toOption.map (·.2) = some .noChange) :
    ingestKdbxAsOwner fieldMerge fieldVaults Vault.entries .insertion owner peer now m =
      .ok (afterReconcile owner peer now m, .noChange) := by
  unfold afterReconcile
  cases hrun : ingestKdbxAsOwner fieldMerge fieldVaults Vault.entries .insertion owner peer now m with
  | error e => rw [hrun] at h; cases h
  | ok p =>
    rw [hrun] at h
    obtain ⟨m', result⟩ := p
    obtain rfl : result = .noChange := Option.some.inj h
    rfl

/-- A mirror reconciled with its own projection. -/
theorem noChange_keeps_projection_nested :
    let m := nestedMirror false
    let m' := afterReconcile "B" (view m) (.atSecond 30) m
    ingestKdbxAsOwner fieldMerge fieldVaults Vault.entries .insertion "B" (view m) (.atSecond 30) m =
      .ok (m', .noChange) ∧ m'.project = .ok (view m) := by
  intro m m'
  have hv : m.project = .ok (view m) := project_view (by decide +kernel)
  have hrun : ingestKdbxAsOwner fieldMerge fieldVaults Vault.entries .insertion "B" (view m)
      (.atSecond 30) m = .ok (m', .noChange) := ingestKdbxAsOwner_afterReconcile (by decide +kernel)
  refine ⟨hrun, (noChange_keeps_projection_iff hv hrun).2 ⟨?_, ?_, ?_, ?_⟩⟩
  · exact landed_self hv
  · decide +kernel
  · decide +kernel
  · intro u t ht
    cases ht

/-- The peer holds the icon `7`, which no entry uses, and a deletion of the entry `5`, which was never
here. The reconcile answers `NoChange`, and the projection has gained both. -/
theorem noChange_gains_icon_and_tombstone :
    let m := nestedMirror false
    let peer : Vault := { view m with
      metadata := { (view m).metadata with customIcons := [⟨7, [1, 2, 3], "", none⟩] }
      deletedObjects := [⟨5, some (.atSecond 20)⟩] }
    let m' := afterReconcile "B" peer (.atSecond 30) m
    ingestKdbxAsOwner fieldMerge fieldVaults Vault.entries .insertion "B" peer (.atSecond 30) m =
        .ok (m', .noChange) ∧
      m.project = .ok (view m) ∧ m'.project = .ok (view m') ∧
      (view m).metadata.customIcons = [] ∧
      (view m').metadata.customIcons = [⟨7, [1, 2, 3], "", none⟩] ∧
      (view m).deletedObjects = [] ∧ (view m').deletedObjects = [⟨5, some (.atSecond 20)⟩] := by
  intro m peer m'
  exact ⟨ingestKdbxAsOwner_afterReconcile (by decide +kernel), project_view (by decide +kernel),
    project_view (by decide +kernel), by decide +kernel, by decide +kernel, by decide +kernel,
    by decide +kernel⟩

end KeysCore.Verify
