import KeysCore.Verify.ConflictSettling

/-!
# The location of an entry after a pull

The location pass takes the larger of the row's location and the peer's (`locatedRow_location`), but
it runs after the verdict arm. Every arm leaves the row's location, except the one that adopts the
peer's version of a conflict: it writes the peer's stamp and previous parent over the row's and
keeps its group (`armRow_location`). `entry_location_join_iff` says exactly when the result still is
the larger of the two locations.
-/

namespace KeysCore.Verify

open Lib

/-! ## The location pass -/

theorem locationMs_floored (e : Entry) :
    (e.times.locationChanged.map (·.timestampMillis)).map (·.floorSecond) = e.locationMs := by
  simp [Entry.locationMs, DateTime.floorToSecond, Option.map_map, Function.comp_def]

theorem floorSecond_locationMs (e : Entry) : e.locationMs.map (·.floorSecond) = e.locationMs := by
  simp [Entry.locationMs, DateTime.floorToSecond, Option.map_map, Function.comp_def]

/-- The location pass takes the larger location when the peer's group is here. -/
theorem locatedRow_location {m : Mirror} {p : Entry} {parent : Uuid}
    (hex : m.groupExists parent = true) (r : EntryRow) :
    (locatedRow m p parent r).location = max r.location (p.location parent) := by
  unfold locatedRow
  by_cases hle : p.location parent ≤ r.location
  · rw [if_pos hle, max_eq_left hle]
  · rw [if_neg hle, if_pos hex, max_eq_right (le_of_not_ge hle)]
    show toLex (optKey (p.locationMs.map (·.floorSecond)),
      toLex (parent, optKey p.previousParentGroup)) = p.location parent
    rw [floorSecond_locationMs]
    rfl

/-- A projected entry shows its row's location. -/
theorem toEntry_location (r : EntryRow) : r.toEntry.location r.groupUuid = r.location := by
  have hms : r.toEntry.locationMs = r.locationChangedAt.map (·.floorSecond) := by
    simp [Entry.locationMs, EntryRow.toEntry, EntryRow.toVersion, buildTimes, Option.map_map,
      Function.comp_def]
  rw [Entry.location, hms]
  rfl

/-- A row written from an entry has the entry's location, under its own group. -/
theorem toRow_location (e : Entry) (g : Uuid) (b : Bool) : (e.toRow g b).location = e.location g := by
  show toLex (optKey ((e.times.locationChanged.map (·.timestampMillis)).map (·.floorSecond)),
    toLex (g, optKey e.previousParentGroup)) = _
  rw [locationMs_floored]
  rfl

/-- The location the verdict arm leaves. -/
theorem armRow_location {M : MergeLib} (hM : Lawful M) (P : PeerPull) (p : Entry) (r : EntryRow) :
    (Decides M P r.toEntry p .adoptPeer →
        (armRow M P r.toEntry p r).location = p.location r.groupUuid) ∧
      (¬ Decides M P r.toEntry p .adoptPeer →
        (armRow M P r.toEntry p r).location = r.location) := by
  unfold armRow Decides
  cases hc : M.classify r.toEntry p with
  | inSync => exact ⟨fun h => by simp at h, fun _ => rfl⟩
  | autoMerged merged changes =>
    refine ⟨fun h => by simp at h, fun _ => ?_⟩
    show ((autoMergedEntry r.toEntry p merged changes).toRow r.groupUuid r.isRecycled).location = _
    rw [toRow_location, ← toEntry_location r, Entry.location, Entry.location, Entry.locationMs,
      autoMergedEntry_locationChanged, autoMergedEntry_previousParentGroup, hM.merged_times hc,
      hM.merged_previousParent hc]
    rfl
  | conflict _ =>
    cases P.conflictVerdict M r.toEntry p with
    | localHolds => exact ⟨fun h => by simp at h, fun _ => rfl⟩
    | holdOpen => exact ⟨fun h => by simp at h, fun _ => rfl⟩
    | adoptPeer => exact ⟨fun _ => toRow_location p _ _, fun h => absurd ⟨⟨_, rfl⟩, rfl⟩ h⟩

/-! ## The join -/

/-- Writing the first and last component of `q` over those of `l` does not change which is the
larger exactly when they agree there already or `q` is larger in the middle too. -/
theorem max_overwritten_iff {α β γ : Type} [LinearOrder α] [LinearOrder β] [LinearOrder γ]
    {l q : α ×ₗ β ×ₗ γ} {la qa : α} {lb qb : β} {lc qc : γ} (hl : l = toLex (la, toLex (lb, lc)))
    (hq : q = toLex (qa, toLex (qb, qc))) :
    max (toLex (qa, toLex (lb, qc))) q = max l q ↔ (qa = la ∧ qc = lc) ∨ (lb ≤ qb ∧ l ≤ q) := by
  have hmid : toLex (qa, toLex (lb, qc)) ≤ q ↔ lb ≤ qb := by
    rw [hq]
    simp only [Prod.Lex.toLex_le_toLex, lt_irrefl, false_or, true_and, le_refl, and_true]
    exact le_iff_lt_or_eq.symm
  constructor
  · intro h
    rcases le_or_gt l q with hle | hlt
    · rw [max_eq_right hle] at h
      exact .inr ⟨hmid.1 (h ▸ le_max_left _ _), hle⟩
    · left
      rw [max_eq_left hlt.le] at h
      rcases max_cases (toLex (qa, toLex (lb, qc))) q with ⟨hm, -⟩ | ⟨hm, -⟩
      · rw [hm, hl] at h
        have h := Prod.mk.inj (congrArg ofLex h)
        exact ⟨h.1, (Prod.mk.inj (congrArg ofLex h.2)).2⟩
      · rw [hm] at h
        exact absurd h hlt.ne
  · rintro (⟨ha, hc⟩ | ⟨hb, hle⟩)
    · rw [ha, hc, hl]
    · rw [max_eq_right hle, max_eq_right (hmid.2 hb)]

theorem PeerOf.group_mem {m : Mirror} {peer : Vault} (h : PeerOf m peer) {ord : HashOrder}
    {out : IngestPeerOutcome} {st : Mirror × IngestPeerOutcome}
    (hst : reconcilePeerGroups ord peer (m, out) = .ok st) {f : FlatGroup} (hf : f ∈ peer.groups) :
    st.1.groupExists f.info.id = true := by
  obtain ⟨st', hst', -, -, hfind⟩ :=
    h.reconcile_spec ord out ((h.reconcile_ok_iff ord out).1 ⟨st, hst⟩)
  rw [hst, Except.ok.injEq] at hst'
  subst hst'
  rw [Mirror.groupExists, hfind, Option.isSome_map, mergedRow, Option.isSome_map, Option.isSome_or,
    Bool.or_eq_true]
  rw [groups_eq_cons] at hf
  rcases List.mem_cons.1 hf with rfl | hf
  · exact .inl (Table.find?_isSome.2 h.rooted.root_mem)
  · refine .inr ?_
    rw [adoptedRow, Option.isSome_map, List.find?_isSome]
    exact ⟨f, hf, by simp⟩

theorem mem_groups_of_entry {v : Vault} {e : Entry} {g : Uuid} (h : (e, g) ∈ v.entriesWithParent) :
    ∃ f ∈ v.groups, f.info.id = g := by
  unfold Vault.entriesWithParent at h
  obtain ⟨f, hf, hmem⟩ := List.mem_flatMap.1 h
  obtain ⟨x, -, hx⟩ := List.mem_map.1 hmem
  exact ⟨f, hf, (Prod.mk.inj hx).2⟩

/-- The location of the entry `u`. -/
def entryLocationOf (m : Mirror) (u : Uuid) : Option EntryLocation :=
  (m.entries.find? u).map (·.location)

/-- The location of a shared entry after a pull, whatever the verdict. -/
theorem pull_entryLocation {M : MergeLib} (hM : Lawful M) {m : Mirror} {peer v : Vault}
    (hpeer : PeerOf m peer) (hv : m.project = .ok v) (hnd : (peer.entries.map (·.id)).Nodup)
    {p : Entry} {parent : Uuid} (hpe : (p, parent) ∈ peer.entriesWithParent) {row : EntryRow}
    (hrow : m.entries.find? p.id = some row) {ord : HashOrder} {owner : String} {now : DateTime}
    {st : Mirror × IngestPeerOutcome} (h : ingestPeer M ord ⟨owner, v, peer, now⟩ m = .ok st) :
    entryLocationOf st.1 p.id =
      some (max (armRow M ⟨owner, v, peer, now⟩ row.toEntry p row).location (p.location parent)) := by
  have hat := project_attaches (groupTree_iff.2 ⟨_, hpeer.rooted⟩) hv
  have hl : PeerPull.localEntry ⟨owner, v, peer, now⟩ p.id = some row.toEntry := by
    rw [hat.localEntry rfl, hrow]
    rfl
  obtain ⟨st₁, h₁, hres⟩ := ingestPeer_shared hM hnd hpe hl h
  obtain ⟨result, -, hfind⟩ := hres.row
  obtain ⟨f, hf, hfg⟩ := mem_groups_of_entry hpe
  have hex : st₁.1.groupExists parent = true := hfg ▸ hpeer.group_mem h₁ hf
  rw [entryLocationOf, hfind, hrow, Option.map_some, Option.map_some, sharedRow,
    historyRow_location, locatedRow_location hex]

/-- The verdict on an entry leaves the larger of the two locations to be found: the peer's version
is not adopted as the resolution of a conflict, or the two sides agree on stamp and previous parent,
or neither the location nor the group of the peer is the smaller one. -/
def KeepsLocation (M : MergeLib) (P : PeerPull) (row : EntryRow) (p : Entry) (parent : Uuid) : Prop :=
  ¬ Decides M P row.toEntry p .adoptPeer ∨
    (p.locationMs = row.locationChangedAt.map (·.floorSecond) ∧
      p.previousParentGroup = row.previousParentUuid) ∨
    (row.groupUuid ≤ parent ∧ row.location ≤ p.location parent)

theorem KeepsLocation.of_inSync {M : MergeLib} {P : PeerPull} {row : EntryRow} {p : Entry}
    {parent : Uuid} (h : M.classify row.toEntry p = .inSync) : KeepsLocation M P row p parent := by
  refine .inl ?_
  rintro ⟨⟨r, hr⟩, -⟩
  rw [h] at hr
  cases hr

theorem pull_location_iff {M : MergeLib} (hM : Lawful M) {m : Mirror} {peer v : Vault}
    (hpeer : PeerOf m peer) (hv : m.project = .ok v) (hnd : (peer.entries.map (·.id)).Nodup)
    {p : Entry} {parent : Uuid} (hpe : (p, parent) ∈ peer.entriesWithParent) {row : EntryRow}
    (hrow : m.entries.find? p.id = some row) {ord : HashOrder} {owner : String} {now : DateTime}
    {st : Mirror × IngestPeerOutcome} (h : ingestPeer M ord ⟨owner, v, peer, now⟩ m = .ok st) :
    entryLocationOf st.1 p.id = some (max row.location (p.location parent)) ↔
      KeepsLocation M ⟨owner, v, peer, now⟩ row p parent := by
  rw [pull_entryLocation hM hpeer hv hnd hpe hrow h, Option.some.injEq, KeepsLocation]
  obtain ⟨hadopt, hkeep⟩ := armRow_location hM ⟨owner, v, peer, now⟩ p row
  by_cases hd : Decides M ⟨owner, v, peer, now⟩ row.toEntry p .adoptPeer
  · rw [hadopt hd, show p.location row.groupUuid = toLex (optKey p.locationMs,
      toLex (row.groupUuid, optKey p.previousParentGroup)) from rfl,
      max_overwritten_iff (l := row.location) (q := p.location parent) rfl rfl,
      optKey_injective.eq_iff, optKey_injective.eq_iff]
    simp [hd]
  · rw [hkeep hd]
    simp [hd]

/-- **After a pull an entry both sides hold is at the larger of the two locations exactly when the
verdict on it keeps the location, and two replicas that pull each other's state, both verdicts
keeping it, agree.** -/
theorem entry_location_join_iff {M : MergeLib} (hM : Lawful M) {m : Mirror} {peer v : Vault}
    (hpeer : PeerOf m peer) (hv : m.project = .ok v) (hnd : (peer.entries.map (·.id)).Nodup)
    {p : Entry} {parent : Uuid} (hpe : (p, parent) ∈ peer.entriesWithParent) {row : EntryRow}
    (hrow : m.entries.find? p.id = some row) {ord : HashOrder} {owner : String} {now : DateTime}
    {st : Mirror × IngestPeerOutcome} (h : ingestPeer M ord ⟨owner, v, peer, now⟩ m = .ok st) :
    (entryLocationOf st.1 p.id = some (max row.location (p.location parent)) ↔
        KeepsLocation M ⟨owner, v, peer, now⟩ row p parent) ∧
      ∀ (m' : Mirror) (row' : EntryRow), GroupTree m' → m'.project = .ok peer →
        m'.entries.find? p.id = some row' → ∀ (ord' : HashOrder) (owner' : String) (now' : DateTime)
        (st' : Mirror × IngestPeerOutcome), ingestPeer M ord' ⟨owner', peer, v, now'⟩ m' = .ok st' →
        KeepsLocation M ⟨owner, v, peer, now⟩ row p parent →
        KeepsLocation M ⟨owner', peer, v, now'⟩ row' row.toEntry row.groupUuid →
        entryLocationOf st'.1 p.id = entryLocationOf st.1 p.id := by
  have hiff := pull_location_iff hM hpeer hv hnd hpe hrow h
  refine ⟨hiff, fun m' row' ht' hv' hrow' ord' owner' now' st' h' hk hk' => ?_⟩
  obtain ⟨r', hr'⟩ := groupTree_iff.1 ht'
  have ha := project_attaches (groupTree_iff.2 ⟨_, hpeer.rooted⟩) hv
  have ha' := project_attaches ht' hv'
  -- the peer shows the row of the other mirror, and the other way round
  obtain ⟨row'', hmem, rfl, rfl⟩ := ha'.mem_entriesWithParent.1 hpe
  obtain rfl : row'' = row' := Option.some.inj ((Table.find?_of_mem hmem).symm.trans hrow')
  have hid : row.uuid = row''.uuid := Table.find?_key hrow
  have hpe' : (row.toEntry, row.groupUuid) ∈ v.entriesWithParent :=
    ha.mem_entriesWithParent.2 ⟨row, Table.find?_mem hrow, rfl, rfl⟩
  have hpeer' : PeerOf m' v := PeerOf.of_project hr' (ha'.root_eq hr' ▸ hpeer.rooted) hv
  have hiff' := pull_location_iff hM hpeer' hv' ha.entry_ids_nodup hpe'
    (show m'.entries.find? row.uuid = some row'' from hid ▸ hrow') h'
  rw [show row.toEntry.id = row''.toEntry.id from hid] at hiff'
  rw [hiff.2 hk, hiff'.2 hk', toEntry_location, toEntry_location, max_comm]

/-! ## Two replicas -/

theorem two_filed : (2 : Uuid) ∈ [(1 : Uuid), 2, 3] := by decide

/-- Groups `2` and `3` under root `1`, and entry `9` in one of them since `stamp`. -/
def filedMirror (title : String) (group : Uuid) (hgroup : group ∈ [(1 : Uuid), 2, 3])
    (stamp mtime : EpochMs) (resolved : Option EpochMs) : Mirror where
  groups := ⟨[
    { uuid := 1, parentUuid := none },
    { uuid := 2, parentUuid := some 1 },
    { uuid := 3, parentUuid := some 1 }], by decide⟩
  entries := ⟨[
    { uuid := 9, groupUuid := group, title, modifiedAt := mtime, locationChangedAt := some stamp }],
    List.nodup_singleton _⟩
  settings := { customData :=
    ⟨(resolved.map fun t => ⟨"keys.conflict_resolutions.v1", "9", some t⟩).toList,
      resolutionRow_nodup resolved⟩ }
  fkParent := by decide
  fkGroup := by
    intro e he
    rw [List.mem_singleton.1 he]
    exact hgroup

theorem filedMirror_rooted (title : String) (group : Uuid) (hgroup : group ∈ [(1 : Uuid), 2, 3])
    (stamp mtime : EpochMs) (resolved : Option EpochMs) :
    RootedAt (filedMirror title group hgroup stamp mtime resolved) 1 := by
  refine ⟨List.mem_cons_self .., rfl, fun _ hp => (mem_keys_of_parentOf hp).2, fun {x} hx => ?_⟩
  have hx : x = 1 ∨ x = 2 ∨ x = 3 := by simpa [filedMirror, Table.keys] using hx
  rcases hx with rfl | rfl | rfl
  · exact ⟨0, rfl⟩
  · exact ⟨1, rfl⟩
  · exact ⟨1, rfl⟩

/-- The entry moved at the second `20` on one replica and at `10` on the other, with the same content:
the later move wins on both. -/
theorem entry_location_join_two_moves :
    let A := filedMirror "a" 2 (by decide) (.atSecond 20) (.atSecond 5) none
    let B := filedMirror "a" 3 (by decide) (.atSecond 10) (.atSecond 5) none
    let stA := afterPull fieldMerge .insertion "B" (.atSecond 30) (view B) A
    let stB := afterPull fieldMerge .insertion "A" (.atSecond 30) (view A) B
    entryLocationOf stA.1 9 = entryLocationOf A 9 ∧ entryLocationOf stB.1 9 = entryLocationOf A 9 := by
  intro A B stA stB
  have hvA : A.project = .ok (view A) := project_view (by decide +kernel)
  have hvB : B.project = .ok (view B) := project_view (by decide +kernel)
  have hstA : ingestPeer fieldMerge .insertion ⟨"B", view A, view B, .atSecond 30⟩ A = .ok stA :=
    ingestPeer_afterPull (by decide +kernel)
  have hstB : ingestPeer fieldMerge .insertion ⟨"A", view B, view A, .atSecond 30⟩ B = .ok stB :=
    ingestPeer_afterPull (by decide +kernel)
  have hA := filedMirror_rooted "a" 2 (by decide) (.atSecond 20) (.atSecond 5) none
  have hB := filedMirror_rooted "a" 3 (by decide) (.atSecond 10) (.atSecond 5) none
  have hpe : (B.entries.rows[0].toEntry, 3) ∈ (view B).entriesWithParent := by decide +kernel
  have hrow : A.entries.find? 9 = some A.entries.rows[0] := by decide +kernel
  obtain ⟨hjoin, hagree⟩ := entry_location_join_iff fieldMerge_lawful (PeerOf.of_project hA hB hvB)
    hvA (by decide +kernel) hpe hrow hstA
  have hcA : fieldMerge.classify A.entries.rows[0].toEntry B.entries.rows[0].toEntry = .inSync := by
    decide +kernel
  have hcB : fieldMerge.classify B.entries.rows[0].toEntry A.entries.rows[0].toEntry = .inSync := by
    decide +kernel
  have hA' : entryLocationOf stA.1 9 = entryLocationOf A 9 :=
    (hjoin.2 (.of_inSync hcA)).trans (by decide +kernel)
  exact ⟨hA', (hagree B B.entries.rows[0] (groupTree_iff.2 ⟨1, hB⟩) hvB (by decide +kernel)
    .insertion "A" (.atSecond 30) stB hstB (.of_inSync hcA) (.of_inSync hcB)).trans hA'⟩

/-- The entry was moved to group `2` at the second `20` here, and the peer, which has it in group `3`
since `10`, resolved a clash of the contents: the resolution brings the older stamp, and with it the
older location. -/
theorem adopted_resolution_reverts_move :
    let A := filedMirror "a" 2 (by decide) (.atSecond 20) (.atSecond 5) none
    let B := filedMirror "b" 3 (by decide) (.atSecond 10) (.atSecond 6) (some (.atSecond 15))
    let stA := afterPull fieldMerge .insertion "B" (.atSecond 30) (view B) A
    ingestPeer fieldMerge .insertion ⟨"B", view A, view B, .atSecond 30⟩ A = .ok stA ∧
      B.entries.rows[0].location < A.entries.rows[0].location ∧
      entryLocationOf stA.1 9 = entryLocationOf B 9 := by
  intro A B stA
  exact ⟨ingestPeer_afterPull (by decide +kernel), by decide +kernel, by decide +kernel⟩

end KeysCore.Verify
