import KeysCore.PeerIngest
import KeysCore.Verify.GroupConvergence

/-!
# What a peer ingest does to one entry

Every step of the entry walk of `ingest_peer` touches the rows of its own entry only
(`ingestEntry_touches`), so what becomes of an entry can be read off its own step
(`ingestPeer_shared`, `ingestPeer_peerOnly`, `ingestPeer_absent`), with the group tables the reconcile
of groups left.
-/

namespace KeysCore.Verify

open Lib

/-! ## Statements on one entry -/

/-- Nothing but the row of the entry `u` changes. -/
structure RowOnly (u : Uuid) (m m' : Mirror) : Prop where
  groups : m'.groups = m.groups
  tombstones : m'.tombstones = m.tombstones
  conflicts : m'.conflicts = m.conflicts
  settings : m'.settings = m.settings
  entries : ∀ v, v ≠ u → m'.entries.find? v = m.entries.find? v

namespace RowOnly

variable {u : Uuid} {m m' m'' : Mirror}

theorem refl (u : Uuid) (m : Mirror) : RowOnly u m m := ⟨rfl, rfl, rfl, rfl, fun _ _ => rfl⟩

theorem trans (h : RowOnly u m m') (h' : RowOnly u m' m'') : RowOnly u m m'' :=
  ⟨h'.groups.trans h.groups, h'.tombstones.trans h.tombstones, h'.conflicts.trans h.conflicts,
    h'.settings.trans h.settings, fun v hv => (h'.entries v hv).trans (h.entries v hv)⟩

end RowOnly

theorem deleteEntry_row (m : Mirror) (u : Uuid) :
    RowOnly u m (m.deleteEntries (fun e => e.uuid = u)) ∧
      (m.deleteEntries (fun e => e.uuid = u)).entries.find? u = none := by
  have hfind : ∀ v, (m.deleteEntries (fun e => e.uuid = u)).entries.find? v =
      if v = u then none else m.entries.find? v := fun v => Table.find?_erase m.entries u v
  refine ⟨⟨rfl, rfl, rfl, rfl, fun v hv => ?_⟩, ?_⟩
  · rw [hfind, if_neg hv]
  · rw [hfind, if_pos rfl]

theorem insertEntry_row {m m' : Mirror} {e : Entry} {g : Uuid} {b : Bool}
    (h : m.insertEntry e g b = .ok m') :
    RowOnly e.id m m' ∧ m'.entries.find? e.id = some (e.toRow g b) ∧
      m.entries.find? e.id = none ∧ g ∈ m.groups.keys := by
  unfold Mirror.insertEntry at h
  obtain ⟨m₁, h₁, h⟩ := except_bind_ok.1 h
  have hm : m₁ = m' := by
    split at h
    · exact Except.ok.inj h
    · cases h
  subst hm
  unfold Mirror.insertEntryRow at h₁
  split at h₁
  · cases h₁
  · rename_i T hT
    split at h₁
    · rename_i hg
      obtain rfl := Except.ok.inj h₁
      have hfind := Table.find?_insert hT
      refine ⟨⟨rfl, rfl, rfl, rfl, fun v hv => ?_⟩, ?_, ?_, hg⟩
      · exact (hfind v).trans (if_neg (Ne.symm hv))
      · exact (hfind e.id).trans (if_pos rfl)
      · exact Table.find?_eq_none.2 (Table.insert?_eq_some.1 hT).1
    · cases h₁

theorem updateEntry_row (m : Mirror) (u : Uuid) (f : EntryRow → EntryRow)
    (hu : ∀ r, (f r).uuid = r.uuid) (hg : ∀ r, (f r).groupUuid = r.groupUuid) :
    RowOnly u m (m.updateEntry u f hu hg) ∧
      (m.updateEntry u f hu hg).entries.find? u = (m.entries.find? u).map f := by
  have hfind := Table.find?_modify (f := f) hu m.entries u
  refine ⟨⟨rfl, rfl, rfl, rfl, fun v hv => ?_⟩, ?_⟩
  · exact (hfind v).trans (if_neg hv)
  · exact (hfind u).trans (if_pos rfl)

theorem placeEntry_ok {m : Mirror} {u g : Uuid} {f : EntryRow → EntryRow}
    (hu : ∀ r, (f r).uuid = r.uuid) (hg : g ∈ m.groups.keys) : ∃ m', m.placeEntry u g f hu = .ok m' := by
  unfold Mirror.placeEntry
  rw [dif_pos hg]
  exact ⟨_, rfl⟩

theorem placeEntry_row {m m' : Mirror} {u g : Uuid} {f : EntryRow → EntryRow}
    {hu : ∀ r, (f r).uuid = r.uuid} (h : m.placeEntry u g f hu = .ok m') :
    RowOnly u m m' ∧
      m'.entries.find? u = (m.entries.find? u).map fun r => { f r with groupUuid := g } := by
  unfold Mirror.placeEntry at h
  split at h
  · obtain rfl := Except.ok.inj h
    have hfind := Table.find?_modify (f := fun r => { f r with groupUuid := g }) hu m.entries u
    refine ⟨⟨rfl, rfl, rfl, rfl, fun v hv => ?_⟩, ?_⟩
    · exact (hfind v).trans (if_neg hv)
    · exact (hfind u).trans (if_pos rfl)
  · split at h
    · cases h
    · rename_i hnone
      obtain rfl := Except.ok.inj h
      refine ⟨.refl u m, ?_⟩
      have : m.entries.find? u = none := by simpa [Mirror.entryExists] using hnone
      rw [this]
      rfl

theorem advanceLocalEntry_row {m m' : Mirror} {e : Entry} (h : m.advanceLocalEntry e = .ok m') :
    ∃ row, m.entries.find? e.id = some row ∧ RowOnly e.id m m' ∧
      m'.entries.find? e.id = some (e.toRow row.groupUuid row.isRecycled) := by
  unfold Mirror.advanceLocalEntry at h
  split at h
  · cases h
  · rename_i row hrow
    obtain ⟨hins, hfind, -⟩ := insertEntry_row h
    exact ⟨row, hrow, (deleteEntry_row m e.id).1.trans hins, hfind⟩

theorem applyAttachmentChanges_row (u : Uuid) (changes : List AttachmentChange) (m : Mirror) :
    RowOnly u m (changes.foldl (Mirror.applyAttachmentChange u) m) ∧
      (changes.foldl (Mirror.applyAttachmentChange u) m).entries.find? u =
        (m.entries.find? u).map fun r =>
          { r with attachments := changes.foldl AttachmentChange.apply r.attachments } := by
  induction changes generalizing m with
  | nil =>
    refine ⟨.refl u m, ?_⟩
    cases h : m.entries.find? u with
    | none => simp [h]
    | some r => simp [h]
  | cons c changes ih =>
    obtain ⟨hrow, hfind⟩ := updateEntry_row m u
      (fun r => { r with attachments := c.apply r.attachments }) (fun _ => rfl) (fun _ => rfl)
    obtain ⟨hrest, hfind'⟩ := ih (m.applyAttachmentChange u c)
    refine ⟨hrow.trans hrest, hfind'.trans ?_⟩
    rw [show (m.applyAttachmentChange u c).entries.find? u = _ from hfind, Option.map_map]
    rfl

theorem persistEntryHistory_row {m m' : Mirror} {e : Entry} (h : m.persistEntryHistory e = .ok m') :
    RowOnly e.id m m' ∧ m'.entries.find? e.id = (m.entries.find? e.id).map (·.withHistoryOf e) := by
  unfold Mirror.persistEntryHistory at h
  split at h
  · obtain rfl := Except.ok.inj h
    exact updateEntry_row m e.id _ _ _
  · cases h

/-- Only rows of the entry `u`, its tombstone and its parked versions change. -/
structure Touches (u : Uuid) (m m' : Mirror) : Prop where
  groups : m'.groups = m.groups
  settings : m'.settings = m.settings
  entries : ∀ v, v ≠ u → m'.entries.find? v = m.entries.find? v
  tombstones : ∀ v, v ≠ u → m'.tombstones.find? v = m.tombstones.find? v
  conflicts : ∀ o v, v ≠ u → m'.conflicts.find? (o, v) = m.conflicts.find? (o, v)

namespace Touches

variable {u : Uuid} {m m' m'' : Mirror}

theorem refl (u : Uuid) (m : Mirror) : Touches u m m :=
  ⟨rfl, rfl, fun _ _ => rfl, fun _ _ => rfl, fun _ _ _ => rfl⟩

theorem trans (h : Touches u m m') (h' : Touches u m' m'') : Touches u m m'' :=
  ⟨h'.groups.trans h.groups, h'.settings.trans h.settings,
    fun v hv => (h'.entries v hv).trans (h.entries v hv),
    fun v hv => (h'.tombstones v hv).trans (h.tombstones v hv),
    fun o v hv => (h'.conflicts o v hv).trans (h.conflicts o v hv)⟩

theorem of_rowOnly (h : RowOnly u m m') : Touches u m m' :=
  ⟨h.groups, h.settings, h.entries, fun v _ => by rw [h.tombstones],
    fun o v _ => by rw [h.conflicts]⟩

theorem groupExists (h : Touches u m m') (g : Uuid) : m'.groupExists g = m.groupExists g := by
  rw [Mirror.groupExists, Mirror.groupExists, h.groups]

end Touches

theorem dropConflictRow_touches (m : Mirror) (o : String) (u : Uuid) :
    Touches u m (m.dropConflictRow o u) ∧ (m.dropConflictRow o u).conflicts.find? (o, u) = none := by
  have hfind : ∀ k, (m.dropConflictRow o u).conflicts.find? k =
      if k = (o, u) then none else m.conflicts.find? k :=
    fun k => Table.find?_erase m.conflicts (o, u) k
  refine ⟨⟨rfl, rfl, fun _ _ => rfl, fun _ _ => rfl, fun o' v hv => ?_⟩, ?_⟩
  · rw [hfind, if_neg]
    intro e
    exact hv (Prod.mk.inj e).2
  · rw [hfind, if_pos rfl]

theorem removeTombstone_touches (m : Mirror) (u : Uuid) :
    Touches u m (m.removeTombstone u) ∧ (m.removeTombstone u).tombstones.find? u = none := by
  have hfind : ∀ v, (m.removeTombstone u).tombstones.find? v =
      if v = u then none else m.tombstones.find? v := fun v => Table.find?_erase m.tombstones u v
  refine ⟨⟨rfl, rfl, fun _ _ => rfl, fun v hv => ?_, fun _ _ _ => rfl⟩, ?_⟩
  · rw [hfind, if_neg hv]
  · rw [hfind, if_pos rfl]

/-- The row `write_peer_entry` parks. -/
def parkedRow (owner : String) (e : Entry) : ConflictRow :=
  ⟨owner, e.id, .fromEntry e.toEntryVersion, e.history.map HistorySnapshot.fromEntry⟩

theorem writePeerEntry_touches {m m' : Mirror} {o : String} {e : Entry}
    (h : m.writePeerEntry o e = .ok m') :
    Touches e.id m m' ∧ m'.entries = m.entries ∧ m'.tombstones = m.tombstones ∧
      m'.conflicts.find? (o, e.id) = some (parkedRow o e) := by
  unfold Mirror.writePeerEntry Mirror.insertConflictRow at h
  split at h
  · cases h
  · rename_i T hT
    obtain rfl := Except.ok.inj h
    have hfind := Table.find?_insert hT
    refine ⟨⟨rfl, rfl, fun _ _ => rfl, fun _ _ => rfl, fun o' v hv => ?_⟩, rfl, rfl, ?_⟩
    · refine (hfind (o', v)).trans (if_neg fun e => hv ?_)
      exact (Prod.mk.inj e).2.symm
    · exact (hfind (o, e.id)).trans (if_pos rfl)

/-! ## The merge library -/

/-- What the ingest relies on of keepass-merge: an entry keeps its id; an auto-merge inherits
local's times, previous parent and history; a conflict carries the peer's entry. -/
structure Lawful (M : MergeLib) : Prop where
  merged_id {l p merged : Entry} {changes : List AttachmentChange} :
    M.classify l p = .autoMerged merged changes → merged.id = l.id
  merged_times {l p merged : Entry} {changes : List AttachmentChange} :
    M.classify l p = .autoMerged merged changes → merged.times = l.times
  merged_previousParent {l p merged : Entry} {changes : List AttachmentChange} :
    M.classify l p = .autoMerged merged changes → merged.previousParentGroup = l.previousParentGroup
  merged_history {l p merged : Entry} {changes : List AttachmentChange} :
    M.classify l p = .autoMerged merged changes → merged.history = l.history
  remote {l p r : Entry} : M.classify l p = .conflict r → r = p
  fold_id {b o merged : Entry} {c : Bool} :
    M.foldEntryHistory b o = .ok (merged, c) → merged.id = b.id
  prune_id {b merged : Entry} {i s : Int} {t : DateTime} {n : Nat} :
    M.pruneHistoryWithTombstones b i s t = .ok (merged, n) → merged.id = b.id
  tombstones_id {b o merged : Entry} {c : Bool} :
    M.reconcileHistoryTombstones b o = .ok (merged, c) → merged.id = b.id

/-! ## The verdict arms -/

section Arm

variable (M : MergeLib) (P : PeerPull) (l p : Entry)

/-- The row of a shared entry after its verdict arm. -/
def armRow (r : EntryRow) : EntryRow :=
  match M.classify l p with
  | .inSync => r
  | .autoMerged merged changes =>
    let row := (autoMergedEntry l p merged changes).toRow r.groupUuid r.isRecycled
    { row with attachments := changes.foldl AttachmentChange.apply row.attachments }
  | .conflict _ =>
    match P.conflictVerdict M l p with
    | .adoptPeer => p.toRow r.groupUuid r.isRecycled
    | _ => r

/-- The history the arm leaves. -/
def armBase : HistoryBase :=
  match M.classify l p with
  | .inSync => .ofLocal
  | .autoMerged merged changes => .autoMerged (autoMergedEntry l p merged changes)
  | .conflict _ =>
    match P.conflictVerdict M l p with
    | .adoptPeer => .ofPeer
    | _ => .held

/-- The verdict is a conflict, decided as `d`. -/
def Decides (d : ConflictVerdict) : Prop :=
  (∃ r, M.classify l p = .conflict r) ∧ P.conflictVerdict M l p = d

/-- The report of the arm. -/
def armOutcome (out : IngestPeerOutcome) : IngestPeerOutcome :=
  match M.classify l p with
  | .inSync => { out with inSync := out.inSync + 1 }
  | .autoMerged _ _ => { out with autoMerged := out.autoMerged ++ [p.id] }
  | .conflict _ =>
    match P.conflictVerdict M l p with
    | .localHolds => out
    | .adoptPeer => { out with autoMerged := out.autoMerged ++ [p.id] }
    | .holdOpen => { out with conflicted := out.conflicted ++ [p.id] }

end Arm

section AutoMerged

variable {l p merged : Entry} {changes : List AttachmentChange}

theorem withPreMergeSnapshot_version (e : Entry) (moves : Bool) :
    (withPreMergeSnapshot e moves l p).toEntryVersion = e.toEntryVersion := by
  unfold withPreMergeSnapshot
  split <;> rfl

/-- The live version the auto-merge arm writes is the merge at its new time. -/
theorem autoMergedEntry_version :
    (autoMergedEntry l p merged changes).toEntryVersion =
      (withAdvancedMtime merged (movesLocal l merged changes) l p).toEntryVersion :=
  withPreMergeSnapshot_version _ _

theorem autoMergedEntry_id : (autoMergedEntry l p merged changes).id = merged.id := by
  rw [show (autoMergedEntry l p merged changes).id = _ from
    congrArg EntryVersion.id autoMergedEntry_version, withAdvancedMtime]
  split <;> rfl

theorem autoMergedEntry_previousParentGroup :
    (autoMergedEntry l p merged changes).previousParentGroup = merged.previousParentGroup := by
  rw [show (autoMergedEntry l p merged changes).previousParentGroup = _ from
    congrArg EntryVersion.previousParentGroup autoMergedEntry_version, withAdvancedMtime]
  split <;> rfl

theorem autoMergedEntry_locationChanged :
    (autoMergedEntry l p merged changes).times.locationChanged = merged.times.locationChanged := by
  rw [show (autoMergedEntry l p merged changes).times = _ from
    congrArg EntryVersion.times autoMergedEntry_version, withAdvancedMtime]
  split <;> rfl

end AutoMerged

section VerdictArm

variable {M : MergeLib} {P : PeerPull} {l p : Entry} {st st' : Mirror × IngestPeerOutcome}
  {base : HistoryBase}

/-- **What a verdict arm leaves.** -/
theorem verdictArm_spec (hM : Lawful M) (hid : l.id = p.id)
    (h : P.verdictArm M l p st = .ok (st', base)) :
    Touches p.id st.1 st'.1 ∧
      st'.1.entries.find? p.id = (st.1.entries.find? p.id).map (armRow M P l p) ∧
      st'.1.tombstones = st.1.tombstones ∧ base = armBase M P l p ∧
      st'.2 = armOutcome M P l p st.2 ∧
      (Decides M P l p .holdOpen →
        st'.1.conflicts.find? (P.owner, p.id) = some (parkedRow P.owner p)) ∧
      (¬ Decides M P l p .holdOpen → st'.1.conflicts.find? (P.owner, p.id) = none) := by
  obtain ⟨hdrop, hgone⟩ := dropConflictRow_touches st.1 P.owner p.id
  have hsame : ∀ T : Table EntryRow.uuid, T.find? p.id = (T.find? p.id).map fun r => r := fun T => by
    rw [Option.map_id']
  unfold PeerPull.verdictArm at h
  unfold armBase armOutcome Decides
  rw [show armRow M P l p = fun r => armRow M P l p r from rfl]
  unfold armRow
  cases hc : M.classify l p with
  | inSync =>
    simp only [hc, Except.ok.injEq, Prod.mk.injEq] at h
    obtain ⟨rfl, rfl⟩ := h
    exact ⟨hdrop, hsame _, rfl, rfl, rfl, fun hd => by simp at hd, fun _ => hgone⟩
  | autoMerged merged changes =>
    simp only [hc] at h
    obtain ⟨m, hm, h⟩ := except_bind_ok.1 h
    obtain ⟨rfl, rfl⟩ := Prod.mk.inj (Except.ok.inj h)
    have hmid : (autoMergedEntry l p merged changes).id = p.id := by
      rw [autoMergedEntry_id, hM.merged_id hc, hid]
    obtain ⟨r, hr, hadv, hfind⟩ := advanceLocalEntry_row hm
    rw [hmid] at hr hadv hfind
    obtain ⟨hatt, hfind'⟩ := applyAttachmentChanges_row p.id changes m
    obtain ⟨hdrop', hgone'⟩ := dropConflictRow_touches
      (changes.foldl (Mirror.applyAttachmentChange p.id) m) P.owner p.id
    refine ⟨(Touches.of_rowOnly (hadv.trans hatt)).trans hdrop', ?_,
      (hadv.trans hatt).tombstones, rfl, rfl, fun hd => by simp at hd, fun _ => hgone'⟩
    show (changes.foldl (Mirror.applyAttachmentChange p.id) m).entries.find? p.id = _
    rw [hfind', hfind, hr]
    rfl
  | conflict r =>
    obtain rfl := hM.remote hc
    simp only [hc] at h
    cases hv : P.conflictVerdict M l r with
    | localHolds =>
      simp only [hv, Except.ok.injEq, Prod.mk.injEq] at h
      obtain ⟨rfl, rfl⟩ := h
      exact ⟨hdrop, hsame _, rfl, rfl, rfl, fun hd => by simp at hd, fun _ => hgone⟩
    | adoptPeer =>
      simp only [hv] at h
      obtain ⟨m, hm, h⟩ := except_bind_ok.1 h
      obtain ⟨rfl, rfl⟩ := Prod.mk.inj (Except.ok.inj h)
      obtain ⟨r', hr', hadv, hfind⟩ := advanceLocalEntry_row hm
      refine ⟨hdrop.trans (.of_rowOnly hadv), ?_, hadv.tombstones, rfl, rfl,
        fun hd => by simp at hd, fun _ => ?_⟩
      · show m.entries.find? r.id = _
        rw [hfind, show st.1.entries.find? r.id = some r' from hr']
        rfl
      · show m.conflicts.find? (P.owner, r.id) = none
        rw [hadv.conflicts]
        exact hgone
    | holdOpen =>
      simp only [hv] at h
      obtain ⟨m, hm, h⟩ := except_bind_ok.1 h
      obtain ⟨rfl, rfl⟩ := Prod.mk.inj (Except.ok.inj h)
      obtain ⟨htouch, hent, htomb, hpark⟩ := writePeerEntry_touches hm
      refine ⟨hdrop.trans htouch, ?_, htomb, rfl, rfl, fun _ => hpark, fun hd => ?_⟩
      · show m.entries.find? r.id = _
        rw [hent]
        exact hsame _
      · exact absurd ⟨⟨r, rfl⟩, rfl⟩ hd

end VerdictArm

/-! ## Location and history -/

/-- A row after the location pass, over the groups of `m`. -/
def locatedRow (m : Mirror) (p : Entry) (parent : Uuid) (r : EntryRow) : EntryRow :=
  if p.location parent ≤ r.location then r
  else if m.groupExists parent then
    { r with
      groupUuid := parent
      previousParentUuid := p.previousParentGroup
      isRecycled := m.groupInBinSubtree parent
      locationChangedAt := p.locationMs }
  else r

theorem reconcileEntryLocation_spec {p : Entry} {parent : Uuid}
    {st st' : Mirror × IngestPeerOutcome} (h : reconcileEntryLocation p parent st = .ok st') :
    RowOnly p.id st.1 st'.1 ∧
      st'.1.entries.find? p.id = (st.1.entries.find? p.id).map (locatedRow st.1 p parent) ∧
      st'.2.conflicted = st.2.conflicted ∧ st'.2.autoMerged = st.2.autoMerged := by
  unfold reconcileEntryLocation at h
  cases hrow : st.1.entries.find? p.id with
  | none =>
    simp only [hrow, Except.ok.injEq] at h
    subst h
    exact ⟨.refl _ _, hrow, rfl, rfl⟩
  | some row =>
    simp only [hrow] at h
    rw [Option.map_some, locatedRow]
    split at h
    · rename_i hle
      obtain rfl := Except.ok.inj h
      rw [if_pos hle]
      exact ⟨.refl _ _, hrow, rfl, rfl⟩
    · rename_i hle
      rw [if_neg hle]
      split at h
      · rename_i hex
        rw [if_pos hex]
        obtain ⟨m, hm, h⟩ := except_bind_ok.1 h
        obtain rfl := Except.ok.inj h
        obtain ⟨hone, hfind⟩ := placeEntry_row hm
        refine ⟨hone, ?_, rfl, rfl⟩
        rw [hfind, hrow]
        rfl
      · rename_i hex
        obtain rfl := Except.ok.inj h
        rw [if_neg hex]
        exact ⟨.refl _ _, hrow, rfl, rfl⟩

/-- What the history pass writes, if anything. -/
def historyResult (M : MergeLib) (ctx : HistoryFoldContext) (base : HistoryBase) (l p : Entry) :
    Except EngineError (Option Entry) :=
  let fold (b o : Entry) : Except EngineError (Option Entry) :=
    if !hasHistoryTombstone b && !hasHistoryTombstone o && historiesIdentical b o &&
        M.computeHistoryDropCount b.history ctx.maxItems ctx.maxSize = 0 then .ok none
    else (foldedHistory M ctx b o).map fun r => if r.2 then some r.1 else none
  match base with
  | .held =>
    if !hasHistoryTombstone l && !hasHistoryTombstone p then .ok none
    else (serialised (M.reconcileHistoryTombstones l p)).map fun r => if r.2 then some r.1 else none
  | .ofLocal => fold l p
  | .autoMerged merged => fold merged p
  | .ofPeer => fold p l

/-- The entry whose history the pass starts from. -/
def baseEntry (base : HistoryBase) (l p : Entry) : Entry :=
  match base with
  | .held => l
  | .ofLocal => l
  | .autoMerged merged => merged
  | .ofPeer => p

theorem serialised_ok {α : Type} {x : Except String α} {a : α} :
    serialised x = .ok a ↔ x = .ok a := by
  cases x with
  | error e => simp [serialised]
  | ok b => simp [serialised]

theorem foldedHistory_id {M : MergeLib} (hM : Lawful M) {ctx : HistoryFoldContext} {b o e : Entry}
    {c : Bool} (h : foldedHistory M ctx b o = .ok (e, c)) : e.id = b.id := by
  unfold foldedHistory at h
  obtain ⟨⟨e₁, c₁⟩, h₁, h⟩ := except_bind_ok.1 h
  obtain ⟨⟨e₂, n⟩, h₂, h⟩ := except_bind_ok.1 h
  obtain ⟨rfl, -⟩ := Prod.mk.inj (Except.ok.inj h)
  rw [hM.prune_id (serialised_ok.1 h₂), hM.fold_id (serialised_ok.1 h₁)]

theorem historyResult_id {M : MergeLib} (hM : Lawful M) {ctx : HistoryFoldContext}
    {base : HistoryBase} {l p e : Entry} (h : historyResult M ctx base l p = .ok (some e)) :
    e.id = (baseEntry base l p).id := by
  have hfold : ∀ b o : Entry,
      (if !hasHistoryTombstone b && !hasHistoryTombstone o && historiesIdentical b o &&
          M.computeHistoryDropCount b.history ctx.maxItems ctx.maxSize = 0 then .ok none
        else (foldedHistory M ctx b o).map fun r => if r.2 then some r.1 else none) = .ok (some e) →
      e.id = b.id := by
    intro b o h
    split at h
    · cases h
    · obtain ⟨⟨e', c⟩, hr, he⟩ := except_map_ok.1 h
      cases c with
      | false => cases he
      | true =>
        obtain rfl := Option.some.inj he
        exact foldedHistory_id hM hr
  cases base with
  | held =>
    simp only [historyResult] at h
    split at h
    · cases h
    · obtain ⟨⟨e', c⟩, hr, he⟩ := except_map_ok.1 h
      cases c with
      | false => cases he
      | true =>
        obtain rfl := Option.some.inj he
        exact hM.tombstones_id (serialised_ok.1 hr)
  | ofLocal => exact hfold l p h
  | autoMerged merged => exact hfold merged p h
  | ofPeer => exact hfold p l h

/-- A folded history is written when it changed. -/
def persistFolded (m : Mirror) (folded : Except EngineError (Entry × Bool)) :
    Except EngineError (Mirror × Bool) := do
  let (merged, changed) ← folded
  if changed then return (← m.persistEntryHistory merged, true) else return (m, false)

/-- The history pass persists its result. -/
theorem reconcileHistory_spec {M : MergeLib} {ctx : HistoryFoldContext} {base : HistoryBase}
    {l p : Entry} {m m' : Mirror} {changed : Bool}
    (h : reconcileHistory M ctx base l p m = .ok (m', changed)) :
    (historyResult M ctx base l p = .ok none ∧ m' = m ∧ changed = false) ∨
      ∃ e, historyResult M ctx base l p = .ok (some e) ∧ m.persistEntryHistory e = .ok m' ∧
        changed = true := by
  have hpersist : ∀ {x : Except EngineError (Entry × Bool)}, persistFolded m x = .ok (m', changed) →
      (x.map (fun r => if r.2 then some r.1 else none) = .ok none ∧ m' = m ∧ changed = false) ∨
        ∃ e, x.map (fun r => if r.2 then some r.1 else none) = .ok (some e) ∧
          m.persistEntryHistory e = .ok m' ∧ changed = true := by
    intro x hx
    cases x with
    | error e => cases hx
    | ok r =>
      obtain ⟨e, c⟩ := r
      cases c with
      | false =>
        obtain ⟨rfl, rfl⟩ := Prod.mk.inj (Except.ok.inj hx)
        exact .inl ⟨rfl, rfl, rfl⟩
      | true =>
        have hx : (do let m₁ ← m.persistEntryHistory e; return (m₁, true)) = .ok (m', changed) := hx
        obtain ⟨m₁, hm₁, hret⟩ := except_bind_ok.1 hx
        obtain ⟨rfl, rfl⟩ := Prod.mk.inj (Except.ok.inj hret)
        exact .inr ⟨e, rfl, hm₁, rfl⟩
  have hfold : ∀ {b o : Entry}, foldEntryHistoryIntoMirror M ctx b o m = .ok (m', changed) →
      historyResult M ctx (.autoMerged b) l o = .ok none ∧ m' = m ∧ changed = false ∨
        ∃ e, historyResult M ctx (.autoMerged b) l o = .ok (some e) ∧
          m.persistEntryHistory e = .ok m' ∧ changed = true := by
    intro b o hf
    unfold foldEntryHistoryIntoMirror at hf
    simp only [historyResult]
    split at hf
    · rename_i hsame
      obtain ⟨rfl, rfl⟩ := Prod.mk.inj (Except.ok.inj hf)
      rw [if_pos hsame]
      exact .inl ⟨rfl, rfl, rfl⟩
    · rename_i hsame
      rw [if_neg hsame]
      exact hpersist hf
  cases base with
  | held =>
    have h : reconcileEntryHistoryTombstones M l p m = .ok (m', changed) := h
    unfold reconcileEntryHistoryTombstones at h
    simp only [historyResult]
    split at h
    · rename_i hsame
      obtain ⟨rfl, rfl⟩ := Prod.mk.inj (Except.ok.inj h)
      rw [if_pos hsame]
      exact .inl ⟨rfl, rfl, rfl⟩
    · rename_i hsame
      rw [if_neg hsame]
      exact hpersist h
  | ofLocal => exact hfold h
  | autoMerged merged => exact hfold h
  | ofPeer => exact hfold h

/-- A row after the history pass. -/
def historyRow (result : Option Entry) (r : EntryRow) : EntryRow :=
  match result with
  | none => r
  | some e => r.withHistoryOf e

@[simp] theorem historyRow_location (result : Option Entry) (r : EntryRow) :
    (historyRow result r).location = r.location := by cases result <;> rfl

@[simp] theorem historyRow_modifiedAt (result : Option Entry) (r : EntryRow) :
    (historyRow result r).modifiedAt = r.modifiedAt := by cases result <;> rfl

@[simp] theorem locatedRow_modifiedAt (m : Mirror) (p : Entry) (parent : Uuid) (r : EntryRow) :
    (locatedRow m p parent r).modifiedAt = r.modifiedAt := by
  unfold locatedRow
  split
  · rfl
  · split <;> rfl

theorem binWalk_congr {m m' : Mirror} (h : m'.groups = m.groups) (bin : Uuid) (n : Nat)
    (g : Option Uuid) : m'.binWalk bin n g = m.binWalk bin n g := by
  induction n generalizing g with
  | zero => rfl
  | succ n ih =>
    cases g with
    | none => rfl
    | some g =>
      unfold Mirror.binWalk
      rw [ih, Mirror.parentOf, Mirror.parentOf, h]

theorem locatedRow_congr {m m' : Mirror} (h : m'.groups = m.groups) (p : Entry) (parent : Uuid) :
    locatedRow m' p parent = locatedRow m p parent := by
  have hbin : m'.groupInBinSubtree parent = m.groupInBinSubtree parent := by
    unfold Mirror.groupInBinSubtree Mirror.recycleBinUuid
    rw [h]
    split
    · rfl
    · exact binWalk_congr h _ _ _
  funext r
  rw [locatedRow, locatedRow, Mirror.groupExists, Mirror.groupExists, h, hbin]

/-! ## One entry of the peer -/

section Step

variable {M : MergeLib} {P : PeerPull} {l p : Entry} {parent : Uuid}
  {st st' : Mirror × IngestPeerOutcome}

theorem baseEntry_armBase_id (hM : Lawful M) (hid : l.id = p.id) :
    (baseEntry (armBase M P l p) l p).id = p.id := by
  unfold armBase
  cases hc : M.classify l p with
  | inSync => exact hid
  | autoMerged merged changes =>
    show (autoMergedEntry l p merged changes).id = p.id
    rw [autoMergedEntry_id, hM.merged_id hc, hid]
  | conflict r => cases P.conflictVerdict M l p <;> first | exact hid | rfl

/-- A row of a shared entry after its step. -/
def sharedRow (M : MergeLib) (P : PeerPull) (m : Mirror) (l p : Entry) (parent : Uuid)
    (result : Option Entry) (r : EntryRow) : EntryRow :=
  historyRow result (locatedRow m p parent (armRow M P l p r))

/-- **What the step of a shared entry leaves.** -/
theorem ingestShared_spec (hM : Lawful M) (hid : l.id = p.id)
    (h : P.ingestShared M l p parent st = .ok st') :
    Touches p.id st.1 st'.1 ∧ st'.1.tombstones = st.1.tombstones ∧
      (∃ result, historyResult M (P.historyFold M) (armBase M P l p) l p = .ok result ∧
        st'.1.entries.find? p.id =
          (st.1.entries.find? p.id).map (sharedRow M P st.1 l p parent result)) ∧
      (Decides M P l p .holdOpen →
        st'.1.conflicts.find? (P.owner, p.id) = some (parkedRow P.owner p)) ∧
      (¬ Decides M P l p .holdOpen → st'.1.conflicts.find? (P.owner, p.id) = none) ∧
      st'.2.conflicted = (armOutcome M P l p st.2).conflicted ∧
      st'.2.autoMerged = (armOutcome M P l p st.2).autoMerged := by
  unfold PeerPull.ingestShared at h
  obtain ⟨⟨st₁, base⟩, h₁, h⟩ := except_bind_ok.1 h
  obtain ⟨st₂, h₂, h⟩ := except_bind_ok.1 h
  obtain ⟨⟨m₃, changed⟩, h₃, h⟩ := except_bind_ok.1 h
  obtain rfl := Except.ok.inj h
  obtain ⟨htouch, hrow, htomb, rfl, hout, hpark, hclear⟩ := verdictArm_spec hM hid h₁
  obtain ⟨hloc, hrow₂, hconf, hauto⟩ := reconcileEntryLocation_spec h₂
  rw [locatedRow_congr htouch.groups] at hrow₂
  -- the history pass writes the rows of this entry, or nothing
  obtain ⟨result, hres, hhist, hrow₃⟩ : ∃ result,
      historyResult M (P.historyFold M) (armBase M P l p) l p = .ok result ∧
        RowOnly p.id st₂.1 m₃ ∧
        m₃.entries.find? p.id = (st₂.1.entries.find? p.id).map (historyRow result) := by
    rcases reconcileHistory_spec h₃ with ⟨hres, rfl, -⟩ | ⟨e, hres, hpers, -⟩
    · refine ⟨none, hres, .refl _ _, ?_⟩
      rw [show historyRow none = fun r => r from rfl, Option.map_id']
    · obtain ⟨hone, hfind⟩ := persistEntryHistory_row hpers
      have he : e.id = p.id := by rw [historyResult_id hM hres, baseEntry_armBase_id hM hid]
      rw [he] at hone hfind
      exact ⟨some e, hres, hone, hfind⟩
  have hlater : RowOnly p.id st₁.1 m₃ := hloc.trans hhist
  refine ⟨htouch.trans (.of_rowOnly hlater), hlater.tombstones.trans htomb, ⟨result, hres, ?_⟩,
    fun hd => ?_, fun hd => ?_, ?_, ?_⟩
  · show m₃.entries.find? p.id = _
    rw [hrow₃, hrow₂, hrow, Option.map_map, Option.map_map]
    rfl
  · show m₃.conflicts.find? _ = _
    rw [hlater.conflicts, hpark hd]
  · show m₃.conflicts.find? _ = _
    rw [hlater.conflicts, hclear hd]
  · rw [← hout, ← hconf]
    dsimp only
    split <;> rfl
  · rw [← hout, ← hauto]
    dsimp only
    split <;> rfl

/-- A peer's entry that a deletion here is at least as recent as. -/
def Blocked (P : PeerPull) (p : Entry) : Prop :=
  ∃ d, tombstoneTime P.localVault.deletedObjects p.id = some d ∧
    liveEditWins p.times.lastModificationTime d = false

theorem blocked_iff {p : Entry} : (tombstoneTime P.localVault.deletedObjects p.id).any
    (fun d => !liveEditWins p.times.lastModificationTime d) = true ↔ Blocked P p := by
  rw [Option.any_eq_true]
  simp only [Blocked, Bool.not_eq_true']

/-- **What the step of a peer's own entry leaves.** -/
theorem ingestPeerOnly_spec (h : P.ingestPeerOnly p parent st = .ok st') :
    (Blocked P p ∧ st' = st) ∨
      (¬ Blocked P p ∧ Touches p.id st.1 st'.1 ∧ st'.1.conflicts = st.1.conflicts ∧
        st.1.entries.find? p.id = none ∧
        st'.1.entries.find? p.id = some
          (p.toRow (if st.1.groupExists parent then parent else P.localVault.root.id) false) ∧
        st'.1.tombstones.find? p.id =
          (if (tombstoneTime P.localVault.deletedObjects p.id).isSome then none
            else st.1.tombstones.find? p.id) ∧
        st'.2.conflicted = st.2.conflicted ∧ st'.2.autoMerged = st.2.autoMerged) := by
  unfold PeerPull.ingestPeerOnly at h
  dsimp only at h
  split at h
  · rename_i hb
    obtain rfl := Except.ok.inj h
    exact .inl ⟨blocked_iff.1 hb, rfl⟩
  · rename_i hb
    obtain ⟨m, hm, h⟩ := except_bind_ok.1 h
    obtain rfl := Except.ok.inj h
    obtain ⟨hone, hfind, hnone, -⟩ := insertEntry_row hm
    refine .inr ⟨fun hbl => hb (blocked_iff.2 hbl), ?_⟩
    by_cases hd : (tombstoneTime P.localVault.deletedObjects p.id).isSome = true
    · rw [if_pos hd] at hone hnone ⊢
      obtain ⟨hrm, hgone⟩ := removeTombstone_touches st.1 p.id
      rw [if_pos hd, hrm.groupExists] at hfind
      refine ⟨hrm.trans (.of_rowOnly hone), hone.conflicts, hnone, hfind, ?_, rfl, rfl⟩
      show m.tombstones.find? p.id = none
      rw [hone.tombstones, hgone]
    · rw [if_neg hd] at hone hnone ⊢
      rw [if_neg hd] at hfind
      exact ⟨.of_rowOnly hone, hone.conflicts, hnone, hfind, by rw [hone.tombstones], rfl, rfl⟩

/-- The reports on entries other than `u` are as before. -/
structure ReportsOnly (u : Uuid) (out out' : IngestPeerOutcome) : Prop where
  conflicted : ∀ v, v ≠ u → (v ∈ out'.conflicted ↔ v ∈ out.conflicted)
  autoMerged : ∀ v, v ≠ u → (v ∈ out'.autoMerged ↔ v ∈ out.autoMerged)

theorem ReportsOnly.of_eq {u : Uuid} {out out' : IngestPeerOutcome}
    (hc : out'.conflicted = out.conflicted) (ha : out'.autoMerged = out.autoMerged) :
    ReportsOnly u out out' := ⟨fun v _ => by rw [hc], fun v _ => by rw [ha]⟩

theorem armOutcome_reportsOnly (out : IngestPeerOutcome) :
    ReportsOnly p.id out (armOutcome M P l p out) := by
  unfold armOutcome
  cases M.classify l p with
  | inSync => exact .of_eq rfl rfl
  | autoMerged _ _ => exact ⟨fun _ _ => Iff.rfl, fun v hv => by simp [hv]⟩
  | conflict _ =>
    cases P.conflictVerdict M l p with
    | localHolds => exact .of_eq rfl rfl
    | adoptPeer => exact ⟨fun _ _ => Iff.rfl, fun v hv => by simp [hv]⟩
    | holdOpen => exact ⟨fun v hv => by simp [hv], fun _ _ => Iff.rfl⟩

theorem localEntry_id {u : Uuid} (h : P.localEntry u = some l) : l.id = u := by
  simpa using List.find?_some h

/-- **A step of the entry walk touches its own entry only.** -/
theorem ingestEntry_touches (hM : Lawful M) {pe : Entry × Uuid}
    (h : P.ingestEntry M st pe = .ok st') :
    Touches pe.1.id st.1 st'.1 ∧ ReportsOnly pe.1.id st.2 st'.2 := by
  unfold PeerPull.ingestEntry at h
  split at h
  · rcases ingestPeerOnly_spec h with ⟨-, rfl⟩ | ⟨-, htouch, -, -, -, -, hc, ha⟩
    · exact ⟨.refl _ _, .of_eq rfl rfl⟩
    · exact ⟨htouch, .of_eq hc ha⟩
  · rename_i l hl
    obtain ⟨htouch, -, -, -, -, hc, ha⟩ := ingestShared_spec hM (localEntry_id hl) h
    have harm := armOutcome_reportsOnly (M := M) (P := P) (l := l) (p := pe.1) st.2
    exact ⟨htouch, ⟨fun v hv => by rw [hc]; exact harm.conflicted v hv,
      fun v hv => by rw [ha]; exact harm.autoMerged v hv⟩⟩

/-- A step of the entry walk writes no tombstone. -/
theorem ingestEntry_untombstoned (hM : Lawful M) {pe : Entry × Uuid}
    (h : P.ingestEntry M st pe = .ok st') {u : Uuid} (hu : st.1.tombstones.find? u = none) :
    st'.1.tombstones.find? u = none := by
  by_cases hne : u = pe.1.id
  · subst hne
    unfold PeerPull.ingestEntry at h
    split at h
    · rcases ingestPeerOnly_spec h with ⟨-, rfl⟩ | ⟨-, -, -, -, -, ht, -, -⟩
      · exact hu
      · rw [ht, hu, ite_self]
    · rename_i l hl
      obtain ⟨-, ht, -⟩ := ingestShared_spec hM (localEntry_id hl) h
      rw [ht, hu]
  · rw [(ingestEntry_touches hM h).1.tombstones u hne, hu]

end Step

end KeysCore.Verify
