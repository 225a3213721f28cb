import KeysCore.Verify.EntryRows
import KeysCore.Verify.FieldMerge
import KeysCore.Verify.Replicas

/-!
# A held conflict is a frame

A pull that holds a clash open parks the peer's version and leaves the entry's content alone. The
passes behind the verdict still write its rows: the location pass moves it, and the history pass takes
over deletions. When there are any, the whole history is written back from the versions it projects
to, so that a record which stays is not left as it was (`HistorySnapshot.reencoded`): its times are at
whole seconds, its last use is its last access and its built-in icon has a number. `held_conflict_frame`
says what such a pull leaves of the entry and of the versions parked for it.
-/

namespace KeysCore

/-- A record written back from the version it projects to: a version has no last use of its own, and
a number where the column of the built-in icon was empty. -/
def HistorySnapshot.reencoded (s : HistorySnapshot) : HistorySnapshot :=
  { s with
    createdAt := s.createdAt.floorSecond
    modifiedAt := s.modifiedAt.floorSecond
    accessedAt := s.accessedAt.floorSecond
    lastUsedAt := some s.accessedAt.floorSecond
    expiresAt := s.expiresAt.map (·.floorSecond)
    iconIndex := some (builtinIconIndex s.iconIndex)
    customFields := (s.customFields.insertionSort fun a b => a.key ≤ b.key).foldl putField []
    customData := s.customData.map fun r =>
      { r with lastModifiedAt := r.lastModifiedAt.map (·.floorSecond) } }

/-- The list of history tombstones an entry carries. -/
def Entry.tombstoneList (e : Entry) : Option String := e.historyTombstones.map (·.value)

/-- `reconcile_history_tombstones` as documented: the item of the merged entry stands for the union of
the two lists, exactly the records it covers go, and `false` is reported when that changes nothing.
`listed` reads a list, `covers` tells whether a tombstone is for a record. -/
structure UnitesTombstones {T : Type} [DecidableEq T] (M : MergeLib)
    (listed : Option String → Finset T) (covers : T → EntryVersion → Bool) : Prop where
  noList : listed none = ∅
  united {b o e : Entry} {c : Bool} : M.reconcileHistoryTombstones b o = .ok (e, c) →
    listed e.tombstoneList = listed b.tombstoneList ∪ listed o.tombstoneList
  uncovered {b o e : Entry} {c : Bool} : M.reconcileHistoryTombstones b o = .ok (e, c) →
    e.history = b.history.filter fun v => ∀ t ∈ listed e.tombstoneList, covers t v = false
  unchanged {b o e : Entry} : M.reconcileHistoryTombstones b o = .ok (e, false) → e = b

end KeysCore

namespace KeysCore.Verify

open Lib

/-! ## Records written back -/

theorem expiryMs_buildTimes (c m a : EpochMs) (e l : Option EpochMs) :
    expiryMs (buildTimes c m a e l) = e.map (·.floorSecond) := by
  cases e with
  | none => rfl
  | some e => simp [expiryMs, buildTimes]

theorem toItem_toRow (r : CustomDataRow) :
    r.toItem.toRow = { r with lastModifiedAt := r.lastModifiedAt.map (·.floorSecond) } := by
  obtain ⟨key, value, t⟩ := r
  cases t with
  | none => rfl
  | some t => simp [CustomDataRow.toItem, CustomDataItem.toRow]

/-- **A record written back from its own version.** -/
theorem fromEntry_of_toVersion (u : Uuid) (s : HistorySnapshot) :
    HistorySnapshot.fromEntry (s.toVersion u) = s.reencoded := by
  have hdata : (s.customData.map (·.toItem)).map (·.toRow) =
      s.customData.map fun r => { r with lastModifiedAt := r.lastModifiedAt.map (·.floorSecond) } := by
    rw [List.map_map]
    exact List.map_congr_left fun r _ => toItem_toRow r
  have hfiles : (s.attachments.map fun a => (⟨a.1, a.2, false⟩ : Attachment)).map
      (fun a => (a.name, a.data)) = s.attachments := by
    rw [List.map_map]
    exact List.map_id _
  unfold HistorySnapshot.fromEntry HistorySnapshot.toVersion HistorySnapshot.reencoded
  dsimp only
  rw [hdata, hfiles, expiryMs_buildTimes]
  simp [buildTimes, dtToMs]

/-- The custom fields of a record written back are those it had: they are keyed by name. -/
theorem reencoded_customFields (s : HistorySnapshot) (h : (s.customFields.map (·.key)).Nodup) :
    s.reencoded.customFields.Perm s.customFields := by
  have hperm := List.perm_insertionSort (fun a b : CustomField => a.key ≤ b.key) s.customFields
  have hnd : ((s.customFields.insertionSort fun a b => a.key ≤ b.key).map (·.key)).Nodup :=
    (hperm.map _).nodup_iff.2 h
  have hput := putFields_of_nodup _ [] hnd
  exact (List.Perm.of_eq hput).trans hperm

/-! ## Rows parked for others -/

/-- Only versions parked for `owner` change. -/
def ParksFor (owner : String) (m m' : Mirror) : Prop :=
  ∀ o, o ≠ owner → ∀ u, m'.conflicts.find? (o, u) = m.conflicts.find? (o, u)

namespace ParksFor

variable {owner : String} {m m' m'' : Mirror}

theorem refl (owner : String) (m : Mirror) : ParksFor owner m m := fun _ _ _ => rfl

theorem trans (h : ParksFor owner m m') (h' : ParksFor owner m' m'') : ParksFor owner m m'' :=
  fun o ho u => (h' o ho u).trans (h o ho u)

theorem of_eq (h : m'.conflicts = m.conflicts) : ParksFor owner m m' := fun _ _ _ => by rw [h]

theorem of_rowOnly {u : Uuid} (h : RowOnly u m m') : ParksFor owner m m' := .of_eq h.conflicts

theorem dropConflictRow (m : Mirror) (owner : String) (u : Uuid) :
    ParksFor owner m (m.dropConflictRow owner u) := by
  intro o ho v
  have hne : (o, v) ≠ (owner, u) := fun e => ho (Prod.mk.inj e).1
  exact (Table.find?_erase m.conflicts (owner, u) (o, v)).trans (if_neg hne)

theorem writePeerEntry {e : Entry} (h : m.writePeerEntry owner e = .ok m') :
    ParksFor owner m m' := by
  unfold Mirror.writePeerEntry Mirror.insertConflictRow at h
  split at h
  · cases h
  · rename_i T hT
    obtain rfl := Except.ok.inj h
    intro o ho v
    have hne : (owner, e.id) ≠ (o, v) := fun e => ho (Prod.mk.inj e).1.symm
    exact (Table.find?_insert hT (o, v)).trans (if_neg hne)

end ParksFor

section Walk

variable {M : MergeLib} {P : PeerPull} {l p : Entry} {parent : Uuid}
  {st st' : Mirror × IngestPeerOutcome} {base : HistoryBase}

theorem verdictArm_parksFor (h : P.verdictArm M l p st = .ok (st', base)) :
    ParksFor P.owner st.1 st'.1 := by
  have hdrop := ParksFor.dropConflictRow st.1 P.owner p.id
  unfold PeerPull.verdictArm at h
  cases hc : M.classify l p with
  | inSync =>
    simp only [hc, Except.ok.injEq, Prod.mk.injEq] at h
    obtain ⟨rfl, -⟩ := h
    exact hdrop
  | autoMerged merged changes =>
    simp only [hc] at h
    obtain ⟨m, hm, h⟩ := except_bind_ok.1 h
    obtain ⟨rfl, -⟩ := Prod.mk.inj (Except.ok.inj h)
    obtain ⟨r, hr, hadv, -⟩ := advanceLocalEntry_row hm
    have hfiles := (applyAttachmentChanges_row p.id changes m).1
    exact ((ParksFor.of_rowOnly hadv).trans (.of_rowOnly hfiles)).trans (.dropConflictRow _ _ _)
  | conflict remote =>
    simp only [hc] at h
    cases hv : P.conflictVerdict M l p with
    | localHolds =>
      simp only [hv, Except.ok.injEq, Prod.mk.injEq] at h
      obtain ⟨rfl, -⟩ := h
      exact hdrop
    | adoptPeer =>
      simp only [hv] at h
      obtain ⟨m, hm, h⟩ := except_bind_ok.1 h
      obtain ⟨rfl, -⟩ := Prod.mk.inj (Except.ok.inj h)
      obtain ⟨r, hr, hadv, -⟩ := advanceLocalEntry_row hm
      exact hdrop.trans (.of_rowOnly hadv)
    | holdOpen =>
      simp only [hv] at h
      obtain ⟨m, hm, h⟩ := except_bind_ok.1 h
      obtain ⟨rfl, -⟩ := Prod.mk.inj (Except.ok.inj h)
      exact hdrop.trans (.writePeerEntry hm)

/-- **A step of the entry walk parks for the owner of the pull only.** -/
theorem ingestEntry_parksFor {pe : Entry × Uuid} (h : P.ingestEntry M st pe = .ok st') :
    ParksFor P.owner st.1 st'.1 := by
  unfold PeerPull.ingestEntry at h
  cases hl : P.localEntry pe.1.id with
  | none =>
    rw [hl] at h
    rcases ingestPeerOnly_spec h with ⟨-, rfl⟩ | ⟨-, -, hconf, -⟩
    · exact .refl _ _
    · exact .of_eq hconf
  | some l =>
    rw [hl] at h
    obtain ⟨⟨st₁, base⟩, h₁, h⟩ := except_bind_ok.1 h
    obtain ⟨st₂, h₂, h⟩ := except_bind_ok.1 h
    obtain ⟨⟨m₃, changed⟩, h₃, h⟩ := except_bind_ok.1 h
    obtain rfl := Except.ok.inj h
    refine ((verdictArm_parksFor h₁).trans (.of_rowOnly (reconcileEntryLocation_spec h₂).1)).trans ?_
    rcases reconcileHistory_spec h₃ with ⟨-, rfl, -⟩ | ⟨e, -, hpers, -⟩
    · exact .refl _ _
    · exact .of_rowOnly (persistEntryHistory_row hpers).1

theorem ingestPeer_parksFor {ord : HashOrder} {m : Mirror} (hM : Lawful M)
    (h : ingestPeer M ord P m = .ok st) : ParksFor P.owner m st.1 := by
  obtain ⟨st₁, st₂, -, hsame, -, -, hwalk, hconf, -⟩ := ingestPeer_steps hM h
  refine (ParksFor.of_eq hsame.conflicts).trans (.trans ?_ (.of_eq hconf))
  exact foldlM_rel (R := fun a b : Mirror × IngestPeerOutcome => ParksFor P.owner a.1 b.1)
    (fun _ => .refl _ _) (fun h h' => h.trans h') (fun _ _ _ _ hs => ingestEntry_parksFor hs) hwalk

end Walk

/-! ## The entry -/

/-- What a pull that holds `p` open leaves of the entry and of the versions parked for it, `l` being
local's version. -/
structure HeldFrame {T : Type} [DecidableEq T] (listed : Option String → Finset T)
    (covers : T → EntryVersion → Bool) (owner : String) (l p : Entry) (m m' : Mirror) : Prop where
  /-- Content and times are as before, and no record of the history is new. -/
  row : ∃ row row', m.entries.find? p.id = some row ∧ m'.entries.find? p.id = some row' ∧
    row' = { row with
      groupUuid := row'.groupUuid
      isRecycled := row'.isRecycled
      previousParentUuid := row'.previousParentUuid
      locationChangedAt := row'.locationChangedAt
      customData := row'.customData
      history := row'.history } ∧
    (row'.customData.filter (·.key ≠ tombstoneCustomDataKey)) =
      row.customData.filter (·.key ≠ tombstoneCustomDataKey) ∧
    listed row'.toEntry.tombstoneList = listed l.tombstoneList ∪ listed p.tombstoneList ∧
    ∃ write, (write = id ∨ write = HistorySnapshot.reencoded) ∧
      row'.history = (row.history.filter fun s =>
        ∀ t ∈ listed l.tombstoneList ∪ listed p.tombstoneList,
          covers t (s.toVersion row.uuid) = false).map write
  others : ∀ o, o ≠ owner → m'.conflicts.find? (o, p.id) = m.conflicts.find? (o, p.id)
  parked : m'.conflicts.rows.filter (fun r => r.owner = owner ∧ r.uuid = p.id) = [parkedRow owner p]

theorem tombstoneList_eq_none {e : Entry} (h : hasHistoryTombstone e = false) :
    e.tombstoneList = none := by
  unfold Entry.tombstoneList Entry.historyTombstones
  rw [Option.map_eq_none_iff, List.find?_eq_none]
  intro c hc hk
  rw [hasHistoryTombstone, List.any_eq_false] at h
  exact h c hc hk

/-- The item written back is the one the entry then projects. -/
theorem withHistoryOf_tombstoneList (r : EntryRow) (e : Entry) :
    (r.withHistoryOf e).toEntry.tombstoneList = e.tombstoneList := by
  have hmem : ∀ c, c ∈ (r.withHistoryOf e).toEntry.customData ↔
      (∃ d ∈ r.customData, d.key ≠ tombstoneCustomDataKey ∧ d.toItem = c) ∨
        ∃ i, e.historyTombstones = some i ∧ i.toRow.toItem = c := by
    intro c
    show c ∈ (List.insertionSort _ (r.withHistoryOf e).customData).map (·.toItem) ↔ _
    simp only [EntryRow.withHistoryOf, List.mem_map, List.mem_insertionSort, List.mem_append,
      List.mem_filter, decide_eq_true_eq, Option.mem_toList, Option.map_eq_some_iff]
    constructor
    · rintro ⟨d, ⟨hd, hk⟩ | ⟨i, hi, rfl⟩, rfl⟩
      · exact .inl ⟨d, hd, hk, rfl⟩
      · exact .inr ⟨i, hi, rfl⟩
    · rintro (⟨d, hd, hk, rfl⟩ | ⟨i, hi, rfl⟩)
      · exact ⟨d, .inl ⟨hd, hk⟩, rfl⟩
      · exact ⟨i.toRow, .inr ⟨i, hi, rfl⟩, rfl⟩
  have hfound : ∀ c, (r.withHistoryOf e).toEntry.historyTombstones = some c →
      ∃ i, e.historyTombstones = some i ∧ i.toRow.toItem = c := by
    intro c hc
    have hkey : c.key = tombstoneCustomDataKey := by simpa using List.find?_some hc
    rcases (hmem c).1 (List.mem_of_find?_eq_some hc) with ⟨d, -, hd, rfl⟩ | hi
    · exact absurd hkey hd
    · exact hi
  unfold Entry.tombstoneList
  cases he : e.historyTombstones with
  | none =>
    rw [Option.map_none, Option.map_eq_none_iff, Option.eq_none_iff_forall_ne_some]
    intro c hc
    obtain ⟨i, hi, -⟩ := hfound c hc
    rw [he] at hi
    cases hi
  | some i =>
    have hkey : i.key = tombstoneCustomDataKey := by simpa using List.find?_some he
    cases hc : (r.withHistoryOf e).toEntry.historyTombstones with
    | none =>
      have hne : i.toRow.toItem.key ≠ tombstoneCustomDataKey := by
        simpa using List.find?_eq_none.1 hc _ ((hmem _).2 (.inr ⟨i, he, rfl⟩))
      exact absurd hkey hne
    | some c =>
      obtain ⟨i', hi', rfl⟩ := hfound c hc
      rw [he] at hi'
      obtain rfl := Option.some.inj hi'
      rfl

section Held

variable {T : Type} [DecidableEq T] {listed : Option String → Finset T}
  {covers : T → EntryVersion → Bool} {M : MergeLib} {P : PeerPull} {ctx : HistoryFoldContext}
  {l p : Entry} {row : EntryRow}

/-- What the history pass of a held conflict leaves of the row it is given. -/
theorem heldHistory_spec (hlaw : UnitesTombstones M listed covers) {result : Option Entry}
    (h : historyResult M ctx .held l p = .ok result) (hl : l = row.toEntry) {r : EntryRow}
    (hdata : r.customData = row.customData) (hhist : r.history = row.history) :
    listed (historyRow result r).toEntry.tombstoneList =
        listed l.tombstoneList ∪ listed p.tombstoneList ∧
      ∃ write, (write = id ∨ write = HistorySnapshot.reencoded) ∧
        (historyRow result r).history = (row.history.filter fun s =>
          ∀ t ∈ listed l.tombstoneList ∪ listed p.tombstoneList,
            covers t (s.toVersion row.uuid) = false).map write := by
  subst hl
  have hsame : r.toEntry.tombstoneList = row.toEntry.tombstoneList := by
    unfold Entry.tombstoneList Entry.historyTombstones EntryRow.toEntry EntryRow.toVersion
    rw [hdata]
  simp only [historyResult] at h
  split at h
  · -- neither side has a list, so there is nothing to unite and nothing covered
    rename_i hnone
    obtain rfl := Except.ok.inj h
    simp only [Bool.and_eq_true, Bool.not_eq_true'] at hnone
    rw [tombstoneList_eq_none hnone.1, tombstoneList_eq_none hnone.2, hlaw.noList, Finset.union_empty]
    refine ⟨?_, id, .inl rfl, ?_⟩
    · rw [show historyRow none r = r from rfl, hsame, tombstoneList_eq_none hnone.1, hlaw.noList]
    · rw [List.map_id, List.filter_eq_self.2 fun s _ => by simp]
      exact hhist
  · obtain ⟨⟨e, c⟩, hr, he⟩ := except_map_ok.1 h
    have hr := serialised_ok.1 hr
    have hunion := hlaw.united hr
    have hkept := hlaw.uncovered hr
    rw [hunion] at hkept
    cases c with
    | false =>
      obtain rfl : result = none := he.symm
      obtain rfl := hlaw.unchanged hr
      refine ⟨(congrArg listed hsame).trans hunion, id, .inl rfl, ?_⟩
      have hall := List.filter_eq_self.1 hkept.symm
      rw [List.map_id, List.filter_eq_self.2 fun s hs => hall _ (List.mem_map_of_mem hs)]
      exact hhist
    | true =>
      obtain rfl : result = some e := he.symm
      refine ⟨(congrArg listed (withHistoryOf_tombstoneList r e)).trans hunion,
        HistorySnapshot.reencoded, .inr rfl, ?_⟩
      show e.history.map HistorySnapshot.fromEntry = _
      rw [hkept, show row.toEntry.history = row.history.map (HistorySnapshot.toVersion row.uuid) from rfl,
        List.filter_map, List.map_map]
      exact List.map_congr_left fun s _ => fromEntry_of_toVersion row.uuid s

/-- **What a held conflict leaves.** -/
theorem held_conflict_frame (hM : Lawful M) (hlaw : UnitesTombstones M listed covers)
    {ord : HashOrder} {m : Mirror} {st : Mirror × IngestPeerOutcome} {parent : Uuid}
    (hv : m.project = .ok P.localVault) (hnd : (P.peer.entries.map (·.id)).Nodup)
    (hpe : (p, parent) ∈ P.peer.entriesWithParent) (hl : P.localEntry p.id = some l)
    (hheld : Decides M P l p .holdOpen) (h : ingestPeer M ord P m = .ok st) :
    HeldFrame listed covers P.owner l p m st.1 := by
  obtain ⟨st₁, -, hshared⟩ := ingestPeer_shared hM hnd hpe hl h
  obtain ⟨result, hres, hrow⟩ := hshared.row
  obtain ⟨row, hfind, hlrow⟩ := localEntry_row hv hl
  obtain ⟨⟨remote, hc⟩, hverdict⟩ := hheld
  have hbase : armBase M P l p = .held := by simp [armBase, hc, hverdict]
  have harm : armRow M P l p row = row := by simp [armRow, hc, hverdict]
  rw [hbase] at hres
  rw [hfind, Option.map_some, sharedRow, harm] at hrow
  obtain ⟨g, inBin, parent', stamp, hlocated⟩ : ∃ g inBin parent' stamp,
      locatedRow st₁.1 p parent row = { row with
        groupUuid := g
        isRecycled := inBin
        previousParentUuid := parent'
        locationChangedAt := stamp } := by
    unfold locatedRow
    split
    · exact ⟨_, _, _, _, rfl⟩
    · split <;> exact ⟨_, _, _, _, rfl⟩
  rw [hlocated] at hrow
  obtain ⟨hlist, hhist⟩ := heldHistory_spec hlaw hres hlrow (r := { row with
    groupUuid := g
    isRecycled := inBin
    previousParentUuid := parent'
    locationChangedAt := stamp }) rfl rfl
  refine ⟨⟨row, _, hfind, hrow, ?_, ?_, hlist, hhist⟩, fun o ho => ?_, ?_⟩
  · cases result <;> rfl
  · cases result with
    | none => rfl
    | some e =>
      have hitem : (e.historyTombstones.map (·.toRow)).toList.filter
          (·.key ≠ tombstoneCustomDataKey) = [] := by
        refine List.filter_eq_nil_iff.2 fun r hr => ?_
        obtain ⟨i, hi, rfl⟩ := Option.map_eq_some_iff.1 (Option.mem_toList.1 hr)
        have hkey : i.key = tombstoneCustomDataKey := by simpa using List.find?_some hi
        simp [CustomDataItem.toRow, hkey]
      simp only [historyRow, EntryRow.withHistoryOf, List.filter_append, List.filter_filter,
        Bool.and_self, hitem, List.append_nil]
  · exact ingestPeer_parksFor hM h o ho p.id
  · have hpark := hshared.parked ⟨⟨remote, hc⟩, hverdict⟩
    rw [← Table.filter_key hpark]
    refine List.filter_congr fun r _ => ?_
    simp [ConflictRow.key]

end Held

/-! ## A held entry with a last use -/

/-- `b` with the tombstone list of either side; a list scrubs the records called so. -/
def scrub (b o : Entry) : Entry :=
  if b.tombstoneList = none ∧ o.tombstoneList = none then b
  else { b with
    customData :=
      if b.tombstoneList = none then b.customData ++ o.historyTombstones.toList else b.customData
    history := b.history.filter fun v => v.title ≠ "scrubbed" }

/-- The field-wise library, which also takes over deletions of records. -/
def scrubMerge : MergeLib :=
  { fieldMerge with reconcileHistoryTombstones := fun b o => .ok (scrub b o, scrub b o ≠ b) }

theorem scrub_id (b o : Entry) : (scrub b o).id = b.id := by
  unfold scrub
  split <;> rfl

theorem scrubMerge_lawful : Lawful scrubMerge where
  merged_id h := fieldMerge_lawful.merged_id h
  merged_times h := fieldMerge_lawful.merged_times h
  merged_previousParent h := fieldMerge_lawful.merged_previousParent h
  merged_history h := fieldMerge_lawful.merged_history h
  remote h := fieldMerge_lawful.remote h
  fold_id h := fieldMerge_lawful.fold_id h
  prune_id {b merged i s t n} h := @fieldMerge_lawful.prune_id b merged i s t n h
  tombstones_id h := by
    obtain ⟨rfl, -⟩ := Prod.mk.inj (Except.ok.inj h)
    exact scrub_id _ _

/-- There is one tombstone, which every list holds. -/
def scrubListed (v : Option String) : Finset Unit := if v = none then ∅ else {()}

def scrubCovers (_ : Unit) (v : EntryVersion) : Bool := v.title = "scrubbed"

theorem scrub_tombstoneList (b o : Entry) :
    (scrub b o).tombstoneList = b.tombstoneList.or o.tombstoneList := by
  unfold scrub
  split
  · rename_i h
    rw [h.1, h.2]
    rfl
  · unfold Entry.tombstoneList Entry.historyTombstones
    cases hb : b.customData.find? (·.key = tombstoneCustomDataKey) with
    | some i => simp [hb]
    | none =>
      cases ho : o.customData.find? (·.key = tombstoneCustomDataKey) with
      | none => simp [hb]
      | some i =>
        have hkey : i.key = tombstoneCustomDataKey := by simpa using List.find?_some ho
        simp [hb, List.find?_append, hkey]

theorem scrubMerge_unites : UnitesTombstones scrubMerge scrubListed scrubCovers where
  noList := rfl
  united {b o e c} h := by
    obtain ⟨rfl, -⟩ := Prod.mk.inj (Except.ok.inj h)
    rw [scrub_tombstoneList]
    unfold scrubListed
    cases b.tombstoneList <;> cases o.tombstoneList <;> rfl
  uncovered {b o e c} h := by
    obtain ⟨rfl, -⟩ := Prod.mk.inj (Except.ok.inj h)
    rw [scrub_tombstoneList]
    unfold scrub scrubListed scrubCovers
    cases hb : b.tombstoneList <;> cases ho : o.tombstoneList <;> simp
  unchanged {b o e} h := by
    obtain ⟨rfl, hc⟩ := Prod.mk.inj (Except.ok.inj h)
    simpa using hc

/-- Entry `9`, used at the second `8`, with a record of its first version: accessed at `6`, under an
icon of the pool. -/
def usedMirror : Mirror :=
  { loneRoot with
    entries := ⟨[{
      uuid := 9, groupUuid := 1, title := "here", modifiedAt := .atSecond 10
      history := [
        { title := "first", accessedAt := .atSecond 6, lastUsedAt := some (.atSecond 8)
          iconIndex := none, iconCustomUuid := some 7 },
        { title := "scrubbed" }] }], List.nodup_singleton _⟩
    fkGroup := by decide }

/-- A peer with another title of entry `9`, which scrubbed a record. -/
def scrubbingPeer : Vault where
  root := .node { id := 1 } [{
    id := 9, title := "there", times := { lastModificationTime := some (.atSecond 11) }
    customData := [⟨tombstoneCustomDataKey, "scrubbed", none⟩] }] []

def usedPull : PeerPull := ⟨"peer", view usedMirror, scrubbingPeer, .atSecond 20⟩

/-- The pull above holds the entry open. -/
theorem held_conflict_frame_used :
    HeldFrame scrubListed scrubCovers "peer" (usedMirror.entries.rows[0].toEntry)
      scrubbingPeer.entries[0] usedMirror
      (afterPull scrubMerge .insertion "peer" (.atSecond 20) scrubbingPeer usedMirror).1 := by
  have hv : usedMirror.project = .ok usedPull.localVault := project_view (by decide +kernel)
  have hl : usedPull.localEntry 9 = some usedMirror.entries.rows[0].toEntry := by decide +kernel
  have hheld : Decides scrubMerge usedPull usedMirror.entries.rows[0].toEntry scrubbingPeer.entries[0]
      .holdOpen := ⟨⟨scrubbingPeer.entries[0], by decide +kernel⟩, by decide +kernel⟩
  exact held_conflict_frame (P := usedPull) scrubMerge_lawful scrubMerge_unites hv
    (by decide +kernel) (by decide +kernel : (scrubbingPeer.entries[0], (1 : Uuid)) ∈ _) hl hheld
    (ingestPeer_afterPull (by decide +kernel))

/-- **A record that stays is not left as it was.** The scrub of one record gives the other the last
access as its last use, and a built-in icon beside its own. -/
theorem held_record_reencoded :
    let st := afterPull scrubMerge .insertion "peer" (.atSecond 20) scrubbingPeer usedMirror
    let records := fun m : Mirror => (m.entries.find? 9).map fun r =>
      r.history.map fun s => (s.title, s.lastUsedAt, s.iconIndex)
    ingestPeer scrubMerge .insertion usedPull usedMirror = .ok st ∧ st.2.conflicted = [9] ∧
      records usedMirror =
        some [("first", some (.atSecond 8), none), ("scrubbed", none, some 0)] ∧
      records st.1 = some [("first", some (.atSecond 6), some 0)] := by
  intro st records
  exact ⟨ingestPeer_afterPull (by decide +kernel), by decide +kernel, by decide +kernel,
    by decide +kernel⟩

end KeysCore.Verify
