import KeysCore.EngineCalls
import KeysCore.Verify.CascadeOutcome
import KeysCore.Verify.EngineRuns
import KeysCore.Verify.Portable
import KeysCore.Verify.RecycledFlag

/-!
# What an engine call leaves and what it tells

The calls of the engine over its mutations (`EngineCall`). On a mirror without parked conflicts a call
leaves what its mutation commits and gives its observer the events of that mutation
(`EngineOp.call_yields`); one that fails leaves the mirror as it was and tells nothing, but for an
import, which keeps what it committed (`importEntry_runFrom`).
-/

namespace KeysCore.Verify

open Lib

/-! ## Parts of a call -/

section Parts

variable {α β : Type} {m m' : Mirror} {log : List ChangeEvent} {e : EngineError}

@[simp] theorem runFrom_emit (ev : ChangeEvent) (s : Observed) :
    (Call.emit ev).runFrom s = (.ok ⟨⟩, { s with heard := s.heard ++ [ev] }) := rfl

@[simp] theorem runFrom_read (f : Mirror → Except EngineError α) (s : Observed) :
    (Call.read f).runFrom s = (f s.mirror, s) := rfl

theorem transaction_ok {f : Mirror → Except EngineError (Mirror × α)} {a : α}
    (h : f m = .ok (m', a)) : (Call.transaction f).runFrom ⟨m, log⟩ = (.ok a, ⟨m', log⟩) := by
  unfold Call.transaction
  refine Committing.runFrom_transact ?_
  rw [h]
  rfl

theorem transaction_error {f : Mirror → Except EngineError (Mirror × α)} (h : f m = .error e) :
    (Call.transaction f).runFrom ⟨m, log⟩ = (.error e, ⟨m, log⟩) := by
  unfold Call.transaction
  refine Committing.runFrom_transact_error ?_
  rw [h]
  rfl

/-- A mirror without parked conflicts has none to settle. -/
theorem reconcileConflictRows_idle {L : VaultMergeLib} (u : Uuid) (h : m.conflicts.rows = []) :
    (Engine.reconcileConflictRows L u).runFrom ⟨m, log⟩ = (.ok ⟨⟩, ⟨m, log⟩) := by
  have howners : m.conflictOwnersFor u = [] := by simp [Mirror.conflictOwnersFor, sortStrings, h]
  have hread : (Call.read fun m : Mirror => .ok (m.conflictOwnersFor u)).runFrom ⟨m, log⟩ =
      (.ok [], ⟨m, log⟩) := by rw [runFrom_read, howners]
  unfold Engine.reconcileConflictRows
  rw [Committing.runFrom_bind_ok hread]
  unfold Engine.settleRows
  rw [Committing.runFrom_bind_ok hread]
  rfl

theorem forM_reconcile_idle {L : VaultMergeLib} (ds : List (Uuid × Uuid))
    (h : m.conflicts.rows = []) :
    (ds.forM fun d => Engine.reconcileConflictRows L d.1).runFrom ⟨m, log⟩ =
      (.ok ⟨⟩, ⟨m, log⟩) := by
  induction ds with
  | nil => rfl
  | cons d ds ih =>
    change (Engine.reconcileConflictRows L d.1 >>= fun _ =>
      ds.forM fun d => Engine.reconcileConflictRows L d.1).runFrom _ = _
    rw [Committing.runFrom_bind_ok (reconcileConflictRows_idle d.1 h)]
    exact ih

theorem forM_emit (es : List ChangeEvent) :
    (es.forM Call.emit).runFrom ⟨m, log⟩ = (.ok ⟨⟩, ⟨m, log ++ es⟩) := by
  induction es generalizing log with
  | nil => simp [List.forM, Committing.runFrom_pure]
  | cons ev es ih =>
    change (Call.emit ev >>= fun _ => es.forM Call.emit).runFrom _ = _
    rw [Committing.runFrom_bind_ok (runFrom_emit ev _), ih]
    simp

/-- From `m` the call leaves what the mutation returns and tells `es`, or fails as it does and leaves no
trace. -/
def Yields (x : Call α) (m : Mirror) : Except EngineError Mirror → List ChangeEvent → Prop
  | .ok m', es => ∀ log, ∃ a, x.runFrom ⟨m, log⟩ = (.ok a, ⟨m', log ++ es⟩)
  | .error e, _ => ∀ log, x.runFrom ⟨m, log⟩ = (.error e, ⟨m, log⟩)

theorem transaction_yields {g : Mirror → Except EngineError (Mirror × α)} {k : α → Call β}
    {es : List ChangeEvent} (hk : ∀ m' a, g m = .ok (m', a) →
      ∀ log, ∃ b, (k a).runFrom ⟨m', log⟩ = (.ok b, ⟨m', log ++ es⟩)) :
    Yields (Call.transaction g >>= k) m ((g m).map (·.1)) es := by
  cases hg : g m with
  | ok r =>
    intro log
    obtain ⟨m', a⟩ := r
    obtain ⟨b, hb⟩ := hk m' a hg log
    exact ⟨b, (Committing.runFrom_bind_ok (transaction_ok hg)).trans hb⟩
  | error e =>
    intro log
    rw [Committing.runFrom_bind, transaction_error hg]

theorem Yields.of_eq {x : Call α} {r r' : Except EngineError Mirror} {es : List ChangeEvent}
    (h : Yields x m r es) (hr : r = r') : Yields x m r' es := hr ▸ h

theorem map_unit (r : Except EngineError Mirror) :
    (r.map fun m' => (m', PUnit.unit)).map (·.1) = r := by
  cases r <;> rfl

theorem plainEdit_yields (f : Mirror → Except EngineError Mirror) (ev : ChangeEvent) :
    Yields (Engine.plainEdit f ev) m (f m) [ev] :=
  (transaction_yields fun _ _ _ _ => ⟨_, runFrom_emit ev _⟩).of_eq (map_unit (f m))

theorem settledEdit_yields {L : VaultMergeLib} {u : Uuid} {f : Mirror → Except EngineError Mirror}
    (es : List ChangeEvent) (hf : ∀ m', f m = .ok m' → m'.conflicts.rows = []) :
    Yields (Engine.settledEdit L u f es) m (f m) es := by
  refine (transaction_yields fun m' a hm log => ?_).of_eq (map_unit (f m))
  obtain ⟨a', ha', heq⟩ := except_map_ok.1 hm
  obtain ⟨rfl, -⟩ := Prod.mk.inj heq
  exact ⟨_, (Committing.runFrom_bind_ok (reconcileConflictRows_idle u (hf a' ha'))).trans
    (forM_emit es)⟩

end Parts

/-! ## The calls -/

/-- The call of an edit of `u`. -/
def EntryEdit.call (Λ : Libs) (u : Uuid) : EntryEdit → Call PUnit
  | updateEntry upd now => Engine.updateEntry Λ.env.history Λ.vaults u upd now
  | saveEntry save now => Engine.saveEntry Λ.env.history Λ.vaults u save now
  | setProtectedField name value now =>
    Engine.setProtectedField Λ.env.history Λ.vaults u name value now
  | setNonProtectedCustomField name value now =>
    Engine.setNonProtectedCustomField Λ.env.history Λ.vaults u name value now
  | removeCustomField name now => Engine.removeCustomField Λ.env.history Λ.vaults u name now
  | setTags tags now => Engine.setTags Λ.env.history Λ.vaults u tags now
  | setAttachment name bytes now => Engine.setAttachment Λ.env.history Λ.vaults u name bytes now
  | removeAttachment name now => Engine.removeAttachment Λ.env.history Λ.vaults u name now
  | clearEntryCustomIcon now => Engine.clearEntryCustomIcon Λ.env.history Λ.vaults u now
  | linkEntryCustomIcon icon => Engine.linkEntryCustomIcon u icon
  | touchEntry (some now) => Engine.touchEntry u now
  | touchEntry none => Engine.clearEntryLastAccess u
  | deleteHistoryAt index now => Engine.deleteHistoryAt Λ.env.history u index now
  | restoreEntryFromHistory index now =>
    Engine.restoreEntryFromHistory Λ.env.history Λ.vaults u index now

/-- What an edit of `u` tells when it returns. -/
def EntryEdit.events (m : Mirror) (u : Uuid) : EntryEdit → List ChangeEvent
  | updateEntry upd _ =>
    if Engine.contentChanged u (EntryRow.applyUpdate upd) m then [.entriesUpdated [u]] else []
  | saveEntry save _ =>
    if Engine.contentChanged u (EntryRow.applySave save) m then [.entriesUpdated [u]] else []
  | setProtectedField name _ _ => [.protectedFieldChanged u name]
  | setTags _ _ => [.tagsChanged [u], .entriesUpdated [u]]
  | setAttachment _ _ _ => [.attachmentsChanged [u]]
  | removeAttachment _ _ => [.attachmentsChanged [u]]
  | touchEntry (some _) => [.entryTouched u]
  | setNonProtectedCustomField _ _ _ => [.entriesUpdated [u]]
  | removeCustomField _ _ => [.entriesUpdated [u]]
  | clearEntryCustomIcon _ => [.entriesUpdated [u]]
  | linkEntryCustomIcon _ => [.entriesUpdated [u]]
  | touchEntry none => [.entriesUpdated [u]]
  | deleteHistoryAt _ _ => [.entriesUpdated [u]]
  | restoreEntryFromHistory _ _ => [.entriesUpdated [u]]

/-- The call of a mutation. -/
def EngineOp.call (Λ : Libs) : EngineOp → Call PUnit
  | structural (.createGroup p fields now u) => discard (Engine.createGroup p fields now u)
  | structural (.moveGroup u p now) => Engine.moveGroup u p now
  | structural (.recycleGroup u now) => Engine.recycleGroup u now
  | structural (.reorderGroup u pos now) => Engine.reorderGroup u pos now
  | structural (.deleteGroup u now) => Engine.deleteGroup Λ.vaults u now
  | structural (.emptyRecycleBin now) => Engine.emptyRecycleBin Λ.vaults now
  | structural (.setRecycleBin enabled g now) => Engine.setRecycleBin enabled g now
  | structural (.moveEntry u g now) => Engine.moveEntry u g now
  | structural (.recycleEntry u now bin) => Engine.recycleEntry Λ.vaults u now bin
  | structural (.restoreEntry u now) => Engine.restoreEntry u now
  | updateGroup u upd now => Engine.updateGroup u upd now
  | createEntry g fields now u => discard (Engine.createEntry g fields now u)
  | editEntry u edit => edit.call Λ u
  | deleteEntry u now => Engine.deleteEntry Λ.vaults u now
  | ensureRecycleBin now bin => Engine.ensureRecycleBin now bin
  | addCustomIcon bytes now => discard (Engine.addCustomIcon Λ.env.iconUuid bytes now)
  | setHistoryMaxItems n => Engine.setHistoryMaxItems n
  | setHistoryMaxSize n => Engine.setHistoryMaxSize n

/-- The events of a group deletion. -/
def deletionEvents (out : DeleteGroupOutcome) : List ChangeEvent :=
  (if out.deletedEntries.isEmpty then [] else [.entriesDeleted (Engine.deletedEntryInfos out)]) ++
    [.groupsDeleted (Engine.deletedGroupInfos out)]

/-- The events of emptying the bin. -/
def emptyingEvents (out : DeleteGroupOutcome) : List ChangeEvent :=
  (if out.deletedEntries.isEmpty then [] else [.entriesDeleted (Engine.deletedEntryInfos out)]) ++
    if out.deletedGroups.isEmpty then [] else [.groupsDeleted (Engine.deletedGroupInfos out)]

/-- `ev` of what a mutation returns. -/
def told {α : Type} (r : Except EngineError (Mirror × α)) (ev : α → List ChangeEvent) :
    List ChangeEvent :=
  match r with
  | .ok (_, a) => ev a
  | .error _ => []

/-- What a mutation tells when it returns. -/
def EngineOp.events (m : Mirror) : EngineOp → List ChangeEvent
  | structural (.createGroup _ _ _ u) => [.groupsAdded [u]]
  | structural (.moveGroup u p now) =>
    told (m.moveGroup u p now) fun out => [.groupsMoved [⟨u, out.fromParent, out.toParent⟩]]
  | structural (.recycleGroup u _) => [.groupsRecycled [u]]
  | structural (.reorderGroup u pos now) =>
    told (m.reorderGroup u pos now) fun siblings => [.groupsReordered siblings]
  | structural (.deleteGroup u now) => told (m.deleteGroup u now) deletionEvents
  | structural (.emptyRecycleBin now) => told (m.emptyRecycleBin now) emptyingEvents
  | structural (.setRecycleBin _ _ _) => [.metaUpdated [keyRecycleBinEnabled, keyRecycleBinUuid]]
  | structural (.moveEntry u g now) =>
    told (m.moveEntry u g now) fun out => [.entriesMoved [⟨u, out.fromGroup, out.toGroup⟩]]
  | structural (.recycleEntry u _ _) => [.entriesRecycled [u]]
  | structural (.restoreEntry u _) => [.entriesRestored [u]]
  | updateGroup u _ _ => [.groupsUpdated [u]]
  | createEntry _ _ _ u => [.entriesAdded [u]]
  | editEntry u edit => edit.events m u
  | deleteEntry u now => told (m.deleteEntry u now) fun g => [.entriesDeleted [⟨u, g⟩]]
  | ensureRecycleBin _ bin =>
    if m.recycleBinUuid.isNone && m.readRecycleBinEnabled then [.groupsAdded [bin]] else []
  | addCustomIcon bytes _ =>
    if Engine.iconPooled m bytes then [] else [.metaUpdated [keyCustomIcons]]
  | setHistoryMaxItems _ => [.metaUpdated [keyHistoryMaxItems]]
  | setHistoryMaxSize _ => [.metaUpdated [keyHistoryMaxSize]]

/-! ## Cascades -/

/-- A deletion that goes on from `st` lists every row it takes, and writes no row that stays. -/
structure Lists (st st' : Mirror × DeleteGroupOutcome) : Prop where
  groups : ∀ u, st'.1.groups.find? u ≠ st.1.groups.find? u → u ∈ st'.2.deletedGroups.map (·.1)
  entries : ∀ u, st'.1.entries.find? u ≠ st.1.entries.find? u → u ∈ st'.2.deletedEntries.map (·.1)
  moreGroups : ∀ u ∈ st.2.deletedGroups.map (·.1), u ∈ st'.2.deletedGroups.map (·.1)
  moreEntries : ∀ u ∈ st.2.deletedEntries.map (·.1), u ∈ st'.2.deletedEntries.map (·.1)
  settings : st'.1.settings = st.1.settings
  conflicts : st'.1.conflicts = st.1.conflicts

namespace Lists

variable {st st' st'' : Mirror × DeleteGroupOutcome}

theorem refl (st : Mirror × DeleteGroupOutcome) : Lists st st :=
  ⟨fun _ h => absurd rfl h, fun _ h => absurd rfl h, fun _ h => h, fun _ h => h, rfl, rfl⟩

theorem trans (h : Lists st st') (h' : Lists st' st'') : Lists st st'' where
  groups u hne := by
    by_cases e : st'.1.groups.find? u = st.1.groups.find? u
    · exact h'.groups u (e ▸ hne)
    · exact h'.moreGroups u (h.groups u e)
  entries u hne := by
    by_cases e : st'.1.entries.find? u = st.1.entries.find? u
    · exact h'.entries u (e ▸ hne)
    · exact h'.moreEntries u (h.entries u e)
  moreGroups u hu := h'.moreGroups u (h.moreGroups u hu)
  moreEntries u hu := h'.moreEntries u (h.moreEntries u hu)
  settings := h'.settings.trans h.settings
  conflicts := h'.conflicts.trans h.conflicts

end Lists

theorem deleteDirectChildEntries_lists (now : EpochMs) (g a : Uuid)
    (st : Mirror × DeleteGroupOutcome) :
    Lists st (Mirror.deleteDirectChildEntries now g a st) := by
  have hframe := recordTombstones_frame now
    ((st.1.entries.rows.filter (·.groupUuid = g)).map (·.uuid)) st.1
  refine ⟨fun u hne => absurd ?_ hne, fun u hne => ?_, fun _ h => h, fun u hu => ?_, ?_, ?_⟩
  · rw [deleteDirectChildEntries_groups]
  · have hfind : (Mirror.deleteDirectChildEntries now g a st).1.entries.find? u =
        (st.1.entries.delete fun e => e.groupUuid = g).find? u := by
      unfold Mirror.deleteDirectChildEntries Mirror.deleteEntries
      dsimp only
      rw [recordTombstones_entries]
    rw [hfind, Table.find?_delete] at hne
    cases hrow : st.1.entries.find? u with
    | none => simp [hrow] at hne
    | some row =>
      have hg : row.groupUuid = g := by
        by_contra hn
        simp [hrow, hn] at hne
      unfold Mirror.deleteDirectChildEntries
      simp only [List.map_append, List.mem_append, List.map_map, List.mem_map, List.mem_filter]
      exact .inr ⟨row, ⟨Table.find?_mem hrow, by simpa using hg⟩, Table.find?_key hrow⟩
  · unfold Mirror.deleteDirectChildEntries
    rw [List.map_append]
    exact List.mem_append_left _ hu
  · exact hframe.2
  · exact hframe.1

theorem deleteGroupRow_frame {m m' : Mirror} {u : Uuid} (h : m.deleteGroupRow u = .ok m') :
    m'.entries = m.entries ∧ m'.settings = m.settings ∧ m'.conflicts = m.conflicts ∧
      ∀ v, v ≠ u → m'.groups.find? v = m.groups.find? v := by
  unfold Mirror.deleteGroupRow at h
  split at h
  · obtain rfl := Except.ok.inj h
    refine ⟨rfl, rfl, rfl, fun v hv => ?_⟩
    exact (Table.find?_erase m.groups u v).trans (if_neg hv)
  · cases h

/-- **A cascade lists what it takes**, in a tree or not. -/
theorem deleteGroupRecursive_lists {now : EpochMs} {fuel : Nat} {u : Uuid} {parent : Option Uuid}
    {st st' : Mirror × DeleteGroupOutcome}
    (h : Mirror.deleteGroupRecursive now fuel u parent st = .ok st') : Lists st st' := by
  induction fuel generalizing u parent st st' with
  | zero => cases h
  | succ fuel ih =>
    unfold Mirror.deleteGroupRecursive at h
    obtain ⟨mid, hmid, h⟩ := except_bind_ok.1 h
    obtain ⟨m, hm, h⟩ := except_bind_ok.1 h
    obtain rfl := Except.ok.inj h
    have hkids : Lists st mid := foldlM_rel Lists.refl Lists.trans (fun _ _ _ _ hc => ih hc) hmid
    obtain ⟨he, hs, hc, hg⟩ := deleteGroupRow_frame hm
    refine (hkids.trans (deleteDirectChildEntries_lists now u u mid)).trans
      ⟨fun v hne => ?_, fun v hne => absurd ?_ hne, fun v hv => ?_, fun _ hv => hv, hs, hc⟩
    · have hvu : v = u := by
        by_contra hn
        exact hne (hg v hn)
      simp [hvu]
    · show m.entries.find? v = _
      rw [he]
    · rw [List.map_append]
      exact List.mem_append_left _ hv

theorem emptyRecycleBin_lists {m : Mirror} {now : EpochMs} {st : Mirror × DeleteGroupOutcome}
    (h : m.emptyRecycleBin now = .ok st) : Lists (m, {}) st := by
  unfold Mirror.emptyRecycleBin at h
  split at h
  · obtain rfl := Except.ok.inj h
    exact .refl _
  · rename_i bin _
    obtain ⟨mid, hmid, h⟩ := except_bind_ok.1 h
    obtain rfl := Except.ok.inj h
    exact (foldlM_rel Lists.refl Lists.trans (fun _ _ _ _ hc => deleteGroupRecursive_lists hc)
      hmid).trans (deleteDirectChildEntries_lists now bin bin mid)

theorem deleteGroup_lists {m : Mirror} {u : Uuid} {now : EpochMs} {st : Mirror × DeleteGroupOutcome}
    (h : m.deleteGroup u now = .ok st) : Lists (m, {}) st := by
  unfold Mirror.deleteGroup at h
  split at h
  · cases h
  · exact deleteGroupRecursive_lists h

/-! ## Conflicts stay as they are -/

theorem createRecycleBinGroup_conflicts {m m' : Mirror} {now : EpochMs} {u : Uuid}
    (h : m.createRecycleBinGroup now u = .ok m') : m'.conflicts = m.conflicts := by
  unfold Mirror.createRecycleBinGroup at h
  split at h
  · cases h
  · obtain ⟨a, ha, h⟩ := except_bind_ok.1 h
    obtain rfl := Except.ok.inj h
    exact (insertGroup_same ha).conflicts

theorem StructuralOp.run_conflicts {m m' : Mirror} {op : StructuralOp} (h : op.run m = .ok m') :
    m'.conflicts = m.conflicts := by
  have hrun := h
  cases run_commits h with
  | createGroup _ hins => exact (insertGroup_same hins).conflicts
  | moveGroup _ _ hset => exact (setParent_same hset).conflicts
  | recycleGroup _ _ hset => exact (setParent_same hset).conflicts
  | reorderGroup _ _ => exact (renumber_same _ 0 m).conflicts
  | deleteGroup _ hdel => exact (deleteGroupRecursive_lists hdel).conflicts
  | noBin => rfl
  | emptyBin =>
    obtain ⟨st, hst, heq⟩ := except_map_ok.1 hrun
    rw [← heq]
    exact (emptyRecycleBin_lists hst).conflicts
  | setBin => rfl
  | clearBin => rfl
  | moveEntry _ hplace => exact (placeEntry_row hplace).1.conflicts
  | inBin => rfl
  | recycled _ _ _ hplace => exact (placeEntry_row hplace).1.conflicts
  | recycledNew _ _ _ _ hnew hplace =>
    exact (placeEntry_row hplace).1.conflicts.trans (createRecycleBinGroup_conflicts hnew)
  | deleted => rfl
  | restored _ _ _ hplace => exact (placeEntry_row hplace).1.conflicts
  | unflagged => rfl
  | outside => rfl

/-- **No mutation parks or drops a conflict.** -/
theorem EngineOp.run_conflicts {E : EngineEnv} {m m' : Mirror} {op : EngineOp}
    (h : op.run E m = .ok m') : m'.conflicts = m.conflicts := by
  cases run_commits h with
  | structural h => exact StructuralOp.run_conflicts h
  | updateGroup => rfl
  | createEntry h => exact (createEntry_row h).1.conflicts
  | editEntry h => exact (EntryEdit.run_editsRow h).rowOnly.conflicts
  | deleteEntry => rfl
  | binPresent => rfl
  | binCreated _ _ h => exact createRecycleBinGroup_conflicts h
  | binDisabled => rfl
  | iconPresent => rfl
  | iconAdded => rfl
  | setHistoryMaxItems => rfl
  | setHistoryMaxSize => rfl

/-! ## What a call leaves -/

section Calls

variable {Λ : Libs} {m : Mirror}

theorem contentEdit_yields {H : HistoryLib} {L : VaultMergeLib} {u : Uuid} {f : EntryRow → EntryRow}
    {now : EpochMs} (hf : ∀ m', m.contentEdit H u now f = .ok m' → m'.conflicts.rows = []) :
    Yields (Engine.contentEdit H L u f now) m (m.contentEdit H u now f)
      (if Engine.contentChanged u f m then [.entriesUpdated [u]] else []) := by
  refine (transaction_yields fun m' changed hm log => ?_).of_eq (by
    cases m.contentEdit H u now f <;> rfl)
  obtain ⟨a, ha, heq⟩ := except_map_ok.1 hm
  obtain ⟨rfl, rfl⟩ := Prod.mk.inj heq
  cases Engine.contentChanged u f m with
  | false => exact ⟨_, by rw [if_neg (by simp), if_neg (by simp), List.append_nil]; rfl⟩
  | true =>
    rw [if_pos rfl, if_pos rfl]
    exact ⟨_, (Committing.runFrom_bind_ok (reconcileConflictRows_idle u (hf a ha))).trans
      (runFrom_emit _ _)⟩

theorem EntryEdit.call_yields (hc : m.conflicts.rows = []) (u : Uuid) (e : EntryEdit) :
    Yields (e.call Λ u) m (e.run Λ.env.history m u) (e.events m u) := by
  have hrun : ∀ m', e.run Λ.env.history m u = .ok m' → m'.conflicts.rows = [] := fun m' h => by
    rw [(EntryEdit.run_editsRow h).rowOnly.conflicts, hc]
  cases e with
  | updateEntry upd now => exact contentEdit_yields hrun
  | saveEntry save now => exact contentEdit_yields hrun
  | setProtectedField name value now => exact settledEdit_yields _ hrun
  | setNonProtectedCustomField name value now => exact settledEdit_yields _ hrun
  | removeCustomField name now => exact settledEdit_yields _ hrun
  | setTags tags now => exact settledEdit_yields _ hrun
  | setAttachment name bytes now => exact settledEdit_yields _ hrun
  | removeAttachment name now => exact settledEdit_yields _ hrun
  | clearEntryCustomIcon now => exact settledEdit_yields _ hrun
  | linkEntryCustomIcon icon => exact plainEdit_yields _ _
  | touchEntry usedAt =>
    cases usedAt with
    | none => exact plainEdit_yields _ _
    | some now => exact plainEdit_yields _ _
  | deleteHistoryAt index now => exact plainEdit_yields _ _
  | restoreEntryFromHistory index now => exact settledEdit_yields _ hrun

theorem told_ok {α : Type} {r : Except EngineError (Mirror × α)} {m' : Mirror} {a : α}
    {ev : α → List ChangeEvent} (h : r = .ok (m', a)) : told r ev = ev a := by
  rw [h]
  rfl

/-- A transaction whose result is told. -/
theorem told_yields {α : Type} {g : Mirror → Except EngineError (Mirror × α)} (ev : α → ChangeEvent) :
    Yields (do
      let a ← Call.transaction g
      Call.emit (ev a)) m ((g m).map (·.1)) (told (g m) fun a => [ev a]) :=
  transaction_yields fun _ a hg log => by
    rw [told_ok hg]
    exact ⟨_, runFrom_emit (ev a) _⟩

theorem emitDeletedEntries_runFrom (out : DeleteGroupOutcome) (s : Observed) :
    (Engine.emitDeletedEntries out).runFrom s = (.ok ⟨⟩, { s with
      heard := s.heard ++ if out.deletedEntries.isEmpty then [] else
        [.entriesDeleted (Engine.deletedEntryInfos out)] }) := by
  unfold Engine.emitDeletedEntries
  split
  · rw [Committing.runFrom_pure, List.append_nil]
  · rw [runFrom_emit]

theorem emitDeletedGroups_runFrom (out : DeleteGroupOutcome) (s : Observed) :
    (Engine.emitDeletedGroups out).runFrom s = (.ok ⟨⟩, { s with
      heard := s.heard ++ if out.deletedGroups.isEmpty then [] else
        [.groupsDeleted (Engine.deletedGroupInfos out)] }) := by
  unfold Engine.emitDeletedGroups
  split
  · rw [Committing.runFrom_pure, List.append_nil]
  · rw [runFrom_emit]

theorem discard_yields {x : Call Uuid} {r : Except EngineError Mirror} {es : List ChangeEvent}
    (h : Yields x m r es) : Yields (discard x) m r es := by
  cases r with
  | ok m' =>
    intro log
    obtain ⟨a, ha⟩ := h log
    exact ⟨⟨⟩, Committing.runFrom_bind_ok ha⟩
  | error e =>
    intro log
    show (x >>= fun _ => pure PUnit.unit).runFrom _ = _
    rw [Committing.runFrom_bind, h log]

theorem deletion_yields {u : Uuid} {now : EpochMs}
    (hf : ∀ st, m.deleteGroup u now = .ok st → st.1.conflicts.rows = []) :
    Yields (Engine.deleteGroup Λ.vaults u now) m ((m.deleteGroup u now).map (·.1))
      (told (m.deleteGroup u now) deletionEvents) := by
  refine transaction_yields fun m' out hg log => ?_
  rw [told_ok hg]
  refine ⟨⟨⟩, ?_⟩
  rw [Committing.runFrom_bind_ok (emitDeletedEntries_runFrom out _),
    Committing.runFrom_bind_ok (runFrom_emit _ _), deletionEvents, ← List.append_assoc]
  exact forM_reconcile_idle _ (hf _ hg)

theorem emptying_yields {now : EpochMs}
    (hf : ∀ st, m.emptyRecycleBin now = .ok st → st.1.conflicts.rows = []) :
    Yields (Engine.emptyRecycleBin Λ.vaults now) m ((m.emptyRecycleBin now).map (·.1))
      (told (m.emptyRecycleBin now) emptyingEvents) := by
  refine transaction_yields fun m' out hg log => ?_
  rw [told_ok hg]
  refine ⟨⟨⟩, ?_⟩
  rw [Committing.runFrom_bind_ok (emitDeletedEntries_runFrom out _),
    Committing.runFrom_bind_ok (emitDeletedGroups_runFrom out _), emptyingEvents, ← List.append_assoc]
  exact forM_reconcile_idle _ (hf _ hg)

/-- The bin a call finds when it has created one is the one it created. -/
theorem ensureRecycleBin_yields {now : EpochMs} {bin : Uuid} :
    Yields (Engine.ensureRecycleBin now bin) m (m.ensureRecycleBin now bin)
      (if m.recycleBinUuid.isNone && m.readRecycleBinEnabled then [.groupsAdded [bin]] else []) := by
  unfold Engine.ensureRecycleBin
  have hbefore : ∀ log, (Call.read fun m : Mirror => .ok m.recycleBinUuid).runFrom ⟨m, log⟩ =
      (.ok m.recycleBinUuid, ⟨m, log⟩) := fun log => runFrom_read _ _
  cases hens : m.ensureRecycleBin now bin with
  | error e =>
    intro log
    have htx : (Call.transaction fun m : Mirror =>
        (m.ensureRecycleBin now bin).map (·, PUnit.unit)).runFrom ⟨m, log⟩ = (.error e, ⟨m, log⟩) :=
      transaction_error (by rw [hens]; rfl)
    rw [Committing.runFrom_bind_ok (hbefore log), Committing.runFrom_bind, htx]
  | ok m' =>
    intro log
    refine ⟨⟨⟩, ?_⟩
    have htx : (Call.transaction fun m : Mirror =>
        (m.ensureRecycleBin now bin).map (·, PUnit.unit)).runFrom ⟨m, log⟩ = (.ok ⟨⟩, ⟨m', log⟩) :=
      transaction_ok (by rw [hens]; rfl)
    have hafter : (Call.read fun m : Mirror => .ok m.recycleBinUuid).runFrom ⟨m', log⟩ =
      (.ok m'.recycleBinUuid, ⟨m', log⟩) := runFrom_read _ _
    rw [Committing.runFrom_bind_ok (hbefore log), Committing.runFrom_bind_ok htx,
      Committing.runFrom_bind_ok hafter]
    unfold Mirror.ensureRecycleBin at hens
    cases hbin : m.recycleBinUuid with
    | some u => simp
    | none =>
      rw [hbin] at hens
      dsimp only at hens
      split at hens
      · rename_i hen
        simp [createRecycleBinGroup_bin hens, hen]
      · rename_i hen
        obtain rfl := Except.ok.inj hens
        simp [hbin, hen]

theorem addCustomIcon_yields {iconUuid : List UInt8 → Uuid} {bytes : List UInt8} {now : EpochMs} :
    Yields (Engine.addCustomIcon iconUuid bytes now) m
      ((m.addCustomIcon iconUuid bytes now).map (·.1))
      (if Engine.iconPooled m bytes then [] else [.metaUpdated [keyCustomIcons]]) := by
  unfold Engine.addCustomIcon
  have hread : ∀ log, (Call.read fun m : Mirror => .ok (Engine.iconPooled m bytes)).runFrom ⟨m, log⟩ =
      (.ok (Engine.iconPooled m bytes), ⟨m, log⟩) := fun log => runFrom_read _ _
  cases hadd : m.addCustomIcon iconUuid bytes now with
  | error e =>
    intro log
    rw [Committing.runFrom_bind_ok (hread log), Committing.runFrom_bind,
      transaction_error (f := fun m : Mirror => m.addCustomIcon iconUuid bytes now) hadd]
  | ok r =>
    obtain ⟨m', u⟩ := r
    intro log
    rw [Committing.runFrom_bind_ok (hread log), Committing.runFrom_bind_ok (transaction_ok hadd)]
    cases Engine.iconPooled m bytes with
    | true => exact ⟨u, by simp⟩
    | false => exact ⟨u, rfl⟩

theorem createGroup_uuid {m' : Mirror} {p u v : Uuid} {fields : NewGroupFields} {now : EpochMs}
    (h : m.createGroup p fields now u = .ok (m', v)) : v = u := by
  unfold Mirror.createGroup at h
  split at h
  · obtain ⟨a, -, h⟩ := except_bind_ok.1 h
    exact (Prod.mk.inj (Except.ok.inj h)).2.symm
  · cases h

/-- A transaction that returns the uuid told. -/
theorem added_yields {g : Mirror → Except EngineError (Mirror × Uuid)} {u : Uuid}
    {ev : Uuid → ChangeEvent} (hg : ∀ m' v, g m = .ok (m', v) → v = u) :
    Yields (do
      let v ← Call.transaction g
      Call.emit (ev v)
      return v) m ((g m).map (·.1)) [ev u] := by
  refine transaction_yields fun m' v h log => ⟨v, ?_⟩
  obtain rfl := hg m' v h
  rw [Committing.runFrom_bind_ok (runFrom_emit _ _), Committing.runFrom_pure]

theorem deleteEntry_yields {L : VaultMergeLib} {u : Uuid} {now : EpochMs}
    (hf : ∀ m' g, m.deleteEntry u now = .ok (m', g) → m'.conflicts.rows = []) :
    Yields (Engine.deleteEntry L u now) m ((m.deleteEntry u now).map (·.1))
      (told (m.deleteEntry u now) fun g => [.entriesDeleted [⟨u, g⟩]]) := by
  refine transaction_yields fun m' g hg log => ⟨⟨⟩, ?_⟩
  rw [told_ok hg, Committing.runFrom_bind_ok (reconcileConflictRows_idle u (hf m' g hg))]
  exact runFrom_emit _ _

theorem StructuralOp.call_yields (hc : m.conflicts.rows = []) (op : StructuralOp) :
    Yields ((EngineOp.structural op).call Λ) m (op.run m) ((EngineOp.structural op).events m) := by
  have hrun : ∀ m', op.run m = .ok m' → m'.conflicts.rows = [] := fun m' h => by
    rw [run_conflicts h, hc]
  cases op with
  | createGroup p fields now u =>
    exact discard_yields (added_yields fun _ _ => createGroup_uuid)
  | moveGroup u p now => exact told_yields _
  | recycleGroup u now => exact plainEdit_yields _ _
  | reorderGroup u pos now => exact told_yields _
  | deleteGroup u now =>
    exact deletion_yields fun st h => hrun st.1 (except_map_ok.2 ⟨st, h, rfl⟩)
  | emptyRecycleBin now =>
    exact emptying_yields fun st h => hrun st.1 (except_map_ok.2 ⟨st, h, rfl⟩)
  | setRecycleBin enabled g now => exact plainEdit_yields _ _
  | moveEntry u g now => exact told_yields _
  | recycleEntry u now bin => exact settledEdit_yields _ hrun
  | restoreEntry u now => exact plainEdit_yields _ _

/-- **A call on a mirror without parked conflicts leaves what its mutation commits and tells its
events.** -/
theorem EngineOp.call_yields (hc : m.conflicts.rows = []) (op : EngineOp) :
    Yields (op.call Λ) m (op.run Λ.env m) (op.events m) := by
  have hrun : ∀ m', op.run Λ.env m = .ok m' → m'.conflicts.rows = [] := fun m' h => by
    rw [run_conflicts h, hc]
  cases op with
  | structural op => exact StructuralOp.call_yields hc op
  | updateGroup u upd now => exact plainEdit_yields _ _
  | createEntry g fields now u => exact discard_yields (added_yields fun _ _ => createEntry_uuid)
  | editEntry u edit => exact EntryEdit.call_yields hc u edit
  | deleteEntry u now =>
    exact deleteEntry_yields fun m' g h => hrun m' (except_map_ok.2 ⟨(m', g), h, rfl⟩)
  | ensureRecycleBin now bin => exact ensureRecycleBin_yields
  | addCustomIcon bytes now => exact discard_yields addCustomIcon_yields
  | setHistoryMaxItems n => exact plainEdit_yields _ _
  | setHistoryMaxSize n => exact plainEdit_yields _ _

/-! ## Imports -/

/-- What an import tells: the entry and, when it added one, the icon, once all has returned. -/
theorem importEntry_runFrom (H : HistoryLib) (iconUuid : List UInt8 → Uuid) (group u : Uuid)
    (p : PortableEntry) (now clock : EpochMs) (m : Mirror) (log : List ChangeEvent) :
    (Engine.importEntry H iconUuid group p now clock u).runFrom ⟨m, log⟩ =
      match (Mirror.importEntry H iconUuid group p now clock u).runFrom m with
      | (.ok v, m') => (.ok v, ⟨m', log ++ .entriesAdded [v] ::
          if Engine.iconInserted m p then [.metaUpdated [keyCustomIcons]] else []⟩)
      | (.error e, m') => (.error e, ⟨m', log⟩) := by
  unfold Engine.importEntry
  have hread : (Call.read fun m : Mirror => .ok (Engine.iconInserted m p)).runFrom ⟨m, log⟩ =
      (.ok (Engine.iconInserted m p), ⟨m, log⟩) := runFrom_read _ _
  rw [Committing.runFrom_bind_ok hread]
  have htx : (Call.transactions (Mirror.importEntry H iconUuid group p now clock u)).runFrom ⟨m, log⟩ =
      (((Mirror.importEntry H iconUuid group p now clock u).runFrom m).1,
        ⟨((Mirror.importEntry H iconUuid group p now clock u).runFrom m).2, log⟩) := rfl
  rw [Committing.runFrom_bind, htx]
  cases (Mirror.importEntry H iconUuid group p now clock u).runFrom m with
  | mk r m' =>
    cases r with
    | error e => rfl
    | ok v =>
      dsimp only
      rw [Committing.runFrom_bind_ok (runFrom_emit _ _)]
      cases Engine.iconInserted m p with
      | false => simp
      | true =>
        have hlog := List.append_cons log (ChangeEvent.entriesAdded [v]) [.metaUpdated [keyCustomIcons]]
        rw [if_pos rfl, if_pos rfl, hlog]
        rfl

end Calls

end KeysCore.Verify
