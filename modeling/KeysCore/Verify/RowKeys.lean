import KeysCore.Verify.EngineRuns
import KeysCore.Verify.VaultIngest

/-!
# Rows that can be written again

A row is keyed when the primary keys of its side tables hold and no history record has two custom
fields of one name. Every write of the engine leaves keyed rows, and the entry a keyed row projects to
can be inserted into another mirror (`toEntry_sideKeys`).

A group row is decodable when its icon is not NULL and its position fits the `u32` it is read as.
Ingests and pulls leave decodable rows; of the mutations, `create_group` and `update_group` write NULL
for a custom icon, and the position of a new group is one past the largest among its siblings
(`EngineOp.WritesReadable`).
-/

namespace KeysCore.Verify

open KeysCore Lib Lib.Forest

/-! ## Lists by name -/

theorem upsertRow_nodup {β : Type} {rows : List (String × β)} (h : (rows.map (·.1)).Nodup)
    (r : String × β) : ((upsertRow rows r).map (·.1)).Nodup := by
  unfold upsertRow
  split
  · rename_i hmem
    have hnames : (rows.map fun a => if a.1 = r.1 then r else a).map (·.1) = rows.map (·.1) := by
      rw [List.map_map]
      refine List.map_congr_left fun a _ => ?_
      simp only [Function.comp]
      split
      · rename_i e
        exact e.symm
      · rfl
    rw [hnames]
    exact h
  · rename_i hmem
    rw [List.map_append, List.nodup_append]
    refine ⟨h, by simp, fun a ha b hb hab => ?_⟩
    simp only [List.map_cons, List.map_nil, List.mem_singleton] at hb
    exact hmem (hb ▸ hab ▸ ha)

theorem upsertRows_nodup {β : Type} (rows : List (String × β)) :
    ((rows.foldl upsertRow []).map (·.1)).Nodup := by
  refine List.foldlRecOn (motive := fun acc : List (String × β) => (acc.map (·.1)).Nodup) rows _ ?_
    fun _ h r _ => upsertRow_nodup h r
  exact List.nodup_nil

/-- A row that replaces the one of its key. -/
theorem replace_nodup {ρ : Type} {κ : ρ → String} {rows : List ρ} (h : (rows.map κ).Nodup) (r : ρ) :
    ((rows.filter (fun x => κ x ≠ κ r) ++ [r]).map κ).Nodup := by
  rw [List.map_append, List.nodup_append]
  refine ⟨h.sublist (List.filter_sublist.map _), by simp, fun a ha b hb hab => ?_⟩
  obtain ⟨x, hx, rfl⟩ := List.mem_map.1 ha
  simp only [List.map_cons, List.map_nil, List.mem_singleton] at hb
  have hne := (List.mem_filter.1 hx).2
  simp [hab, hb] at hne

theorem putFields_nodup (fields : List CustomField) :
    ((fields.foldl putField []).map (·.key)).Nodup := by
  refine List.foldlRecOn (motive := fun acc : List CustomField => (acc.map (·.key)).Nodup) fields _ ?_
    fun _ h f _ => replace_nodup h f
  exact List.nodup_nil

/-! ## Entry rows -/

/-- The rows of the side tables have distinct keys. -/
structure EntryRow.Keyed (r : EntryRow) : Prop where
  protectedFields : (r.protectedFields.map (·.1)).Nodup
  customFields : (r.customFields.map (·.1)).Nodup
  customData : (r.customData.map (·.key)).Nodup
  history : ∀ s ∈ r.history, (s.customFields.map (·.key)).Nodup

theorem protectedOf_names (fields : List CustomField) :
    ((protectedOf fields).map (·.1)).Sublist (fields.map (·.key)) := by
  unfold protectedOf
  rw [List.map_map]
  exact List.filter_sublist.map _

theorem plainOf_names (fields : List CustomField) :
    ((plainOf fields).map (·.1)).Sublist (fields.map (·.key)) := by
  unfold plainOf
  rw [List.map_map]
  exact List.filter_sublist.map _

theorem toRow_keyed {e : Entry} (h : e.SideKeys) (g : Uuid) (b : Bool) :
    EntryRow.Keyed (e.toRow g b) where
  protectedFields := h.1
  customFields := h.2.1
  customData := by
    have := h.2.2
    rwa [show (e.toRow g b).customData.map (·.key) = e.customData.map (·.key) from by
      show (e.customData.map (·.toRow)).map (·.key) = _
      rw [List.map_map]
      rfl]
  history s hs := by
    obtain ⟨v, -, rfl⟩ := List.mem_map.1 hs
    exact putFields_nodup v.customFields

theorem sortByName_nodup {β : Type} {rows : List (String × β)} (h : (rows.map (·.1)).Nodup) :
    ((sortByName rows).map (·.1)).Nodup :=
  ((List.perm_insertionSort _ rows).map (·.1)).nodup_iff.2 h

/-- **The entry a keyed row projects to can be inserted.** -/
theorem toEntry_sideKeys {r : EntryRow} (h : EntryRow.Keyed r) : r.toEntry.SideKeys := by
  have hplain : ((sortByName r.customFields).map fun f => (⟨f.1, f.2, false⟩ : CustomField)).filter
      (fun f => f.isProtected && f.key ≠ "Password") = [] := by
    refine List.filter_eq_nil_iff.2 fun f hf => ?_
    obtain ⟨a, -, rfl⟩ := List.mem_map.1 hf
    simp
  have hprot : ((sortByName r.protectedFields).map fun f => (⟨f.1, f.2, true⟩ : CustomField)).filter
      (fun f => !f.isProtected) = [] := by
    refine List.filter_eq_nil_iff.2 fun f hf => ?_
    obtain ⟨a, -, rfl⟩ := List.mem_map.1 hf
    simp
  refine ⟨?_, ?_, ?_⟩
  · have hsub : (r.toEntry.protectedRows.map (·.1)).Sublist ((sortByName r.protectedFields).map (·.1)) := by
      unfold Entry.protectedRows
      show ((List.filter _ (_ ++ _)).map _).map _ |>.Sublist _
      rw [List.filter_append, hplain, List.append_nil, List.map_map]
      have := (List.filter_sublist (p := fun f : CustomField => f.isProtected && f.key ≠ "Password")
        (l := (sortByName r.protectedFields).map fun f => (⟨f.1, f.2, true⟩ : CustomField))).map
        (fun f => f.key)
      rwa [List.map_map] at this
    exact (sortByName_nodup h.protectedFields).sublist hsub
  · have hsub : (r.toEntry.plainRows.map (·.1)).Sublist ((sortByName r.customFields).map (·.1)) := by
      unfold Entry.plainRows
      show ((List.filter _ (_ ++ _)).map _).map _ |>.Sublist _
      rw [List.filter_append, hprot, List.nil_append, List.map_map]
      have := (List.filter_sublist (p := fun f : CustomField => !f.isProtected)
        (l := (sortByName r.customFields).map fun f => (⟨f.1, f.2, false⟩ : CustomField))).map
        (fun f => f.key)
      rwa [List.map_map] at this
    exact (sortByName_nodup h.customFields).sublist hsub
  · show (((r.customData.insertionSort fun a b => a.key ≤ b.key).map (·.toItem)).map (·.key)).Nodup
    rw [List.map_map]
    exact ((List.perm_insertionSort _ r.customData).map _).nodup_iff.2 h.customData

/-! ## Edits -/

namespace EntryRow.Keyed

variable {H : HistoryLib} {s : Settings} {now : EpochMs} {r r' : EntryRow}

theorem storeTombstones (h : Keyed r) (data : List CustomDataItem) :
    Keyed (r.storeTombstones data) := by
  unfold EntryRow.storeTombstones
  split
  · exact h
  · exact ⟨h.protectedFields, h.customFields, replace_nodup h.customData _, h.history⟩

theorem tombstoneTrimmed (h : Keyed r) {dropped : List HistorySnapshot}
    (hok : r.tombstoneTrimmed H now dropped = .ok r') : Keyed r' := by
  obtain ⟨data, -, hok⟩ := except_bind_ok.1 hok
  obtain rfl := Except.ok.inj hok
  exact h.storeTombstones data

/-- A row may take over any history whose records have distinct field names. -/
theorem withHistory (h : Keyed r) {history : List HistorySnapshot}
    (hh : ∀ s ∈ history, (s.customFields.map (·.key)).Nodup) :
    Keyed { r with history := history } :=
  ⟨h.protectedFields, h.customFields, h.customData, hh⟩

theorem mem_budgeted {history : List HistorySnapshot} {x : HistorySnapshot × Bool}
    (hx : x ∈ EntryRow.budgeted H s history) : x.1 ∈ history := by
  have hkeep : ∀ (l : List HistorySnapshot) (i k : Option Nat) (n m : Nat),
      x ∈ EntryRow.keepNewest H.snapshotSize i k n m l → x.1 ∈ l := by
    intro l i k
    induction l with
    | nil => intro n m hx; cases hx
    | cons snap older ih =>
      intro n m hx
      unfold EntryRow.keepNewest at hx
      split at hx
      · rcases List.mem_cons.1 hx with rfl | hx
        · exact List.mem_cons_self
        · exact List.mem_cons_of_mem _ (ih _ _ hx)
      · rcases List.mem_cons.1 hx with rfl | hx
        · exact List.mem_cons_self
        · exact List.mem_cons_of_mem _ (ih _ _ hx)
  exact List.mem_reverse.1 (hkeep _ _ _ _ _ (List.mem_reverse.1 hx))

theorem archive (h : Keyed r) {snap : HistorySnapshot}
    (hsnap : (snap.customFields.map (·.key)).Nodup) (hok : r.archive H s now snap = .ok r') :
    Keyed r' := by
  have hadd : ∀ x ∈ r.history ++ [snap], (x.customFields.map (·.key)).Nodup := by
    intro x hx
    rcases List.mem_append.1 hx with hx | hx
    · exact h.history x hx
    · rw [List.mem_singleton.1 hx]
      exact hsnap
  unfold EntryRow.archive EntryRow.pruneHistory at hok
  dsimp only at hok
  split at hok
  · obtain rfl := Except.ok.inj hok
    exact h.withHistory hadd
  · obtain ⟨e, he, hok⟩ := except_bind_ok.1 hok
    obtain rfl := Except.ok.inj hok
    refine ((h.withHistory hadd).tombstoneTrimmed he).withHistory fun x hx => ?_
    obtain ⟨y, hy, rfl⟩ := List.mem_map.1 hx
    exact hadd _ (mem_budgeted (List.mem_filter.1 hy).1)

theorem liveSnapshot_nodup (r : EntryRow) : (r.liveSnapshot.customFields.map (·.key)).Nodup :=
  putFields_nodup _

theorem archivedEdit (h : Keyed r) {f : EntryRow → EntryRow} (hf : ∀ e, Keyed e → Keyed (f e))
    (hok : r.archivedEdit H s now f = .ok r') : Keyed r' := by
  obtain ⟨e, he, hok⟩ := except_bind_ok.1 hok
  obtain rfl := Except.ok.inj hok
  have hk := hf e (h.archive (liveSnapshot_nodup r) he)
  exact ⟨hk.protectedFields, hk.customFields, hk.customData, hk.history⟩

theorem finishEdit {after : EntryRow} (h : Keyed after)
    (hok : r.finishEdit H s now after = .ok (some r')) : Keyed r' := by
  unfold EntryRow.finishEdit at hok
  split at hok
  · cases hok
  · obtain ⟨e, he, hok⟩ := except_bind_ok.1 hok
    obtain rfl := Option.some.inj (Except.ok.inj hok)
    have hk := h.archive (liveSnapshot_nodup r) he
    exact ⟨hk.protectedFields, hk.customFields, hk.customData, hk.history⟩

theorem restoreFrom (h : Keyed r) {maxItems : Int} {snap : HistorySnapshot} (hsnap : snap ∈ r.history)
    (hok : r.restoreFrom H maxItems now snap = .ok r') : Keyed r' := by
  have hadd : ∀ x ∈ r.history ++ [r.liveSnapshot], (x.customFields.map (·.key)).Nodup := by
    intro x hx
    rcases List.mem_append.1 hx with hx | hx
    · exact h.history x hx
    · rw [List.mem_singleton.1 hx]
      exact liveSnapshot_nodup r
  have hfields := h.history snap hsnap
  have hnew : Keyed { r.restored snap now with history := r.history ++ [r.liveSnapshot] } :=
    ⟨hfields.sublist (protectedOf_names _),
      (hfields.sublist (List.filter_sublist.map _)).sublist (plainOf_names _), h.customData, hadd⟩
  unfold EntryRow.restoreFrom at hok
  dsimp only at hok
  split at hok
  · obtain rfl := Except.ok.inj hok
    exact hnew
  · split at hok
    · obtain rfl := Except.ok.inj hok
      exact hnew
    · obtain ⟨e, he, hok⟩ := except_bind_ok.1 hok
      obtain rfl := Except.ok.inj hok
      exact (hnew.tombstoneTrimmed he).withHistory fun x hx => hadd x (List.mem_of_mem_drop hx)

/-- Every edit of an entry leaves a keyed row. -/
theorem edit (h : Keyed r) {e : EntryEdit} (hstep : e.Step H s r r') : Keyed r' := by
  cases e with
  | updateEntry upd now =>
    refine finishEdit ?_ hstep
    exact ⟨h.protectedFields, h.customFields, h.customData, h.history⟩
  | saveEntry save now =>
    refine finishEdit ?_ hstep
    exact ⟨upsertRows_nodup _, upsertRows_nodup _, h.customData, h.history⟩
  | setProtectedField name value now =>
    refine h.archivedEdit (fun e he => ?_) hstep
    unfold EntryRow.setProtected
    split
    · exact ⟨he.protectedFields, he.customFields, he.customData, he.history⟩
    · exact ⟨upsertRow_nodup he.protectedFields _, he.customFields, he.customData, he.history⟩
  | setNonProtectedCustomField name value now =>
    refine h.archivedEdit (fun e he => ?_) hstep
    exact ⟨he.protectedFields, upsertRow_nodup he.customFields _, he.customData, he.history⟩
  | removeCustomField name now =>
    refine h.archivedEdit (fun e he => ?_) hstep
    exact ⟨he.protectedFields.sublist (List.filter_sublist.map _),
      he.customFields.sublist (List.filter_sublist.map _), he.customData, he.history⟩
  | setTags tags now =>
    rcases hstep with ⟨-, rfl⟩ | ⟨-, hstep⟩
    · exact ⟨h.protectedFields, h.customFields, h.customData, h.history⟩
    · refine h.archivedEdit (fun e he => ?_) hstep
      exact ⟨he.protectedFields, he.customFields, he.customData, he.history⟩
  | setAttachment name bytes now =>
    refine h.archivedEdit (fun e he => ?_) hstep
    exact ⟨he.protectedFields, he.customFields, he.customData, he.history⟩
  | removeAttachment name now =>
    refine h.archivedEdit (fun e he => ?_) hstep
    exact ⟨he.protectedFields, he.customFields, he.customData, he.history⟩
  | clearEntryCustomIcon now =>
    refine h.archivedEdit (fun e he => ?_) hstep
    exact ⟨he.protectedFields, he.customFields, he.customData, he.history⟩
  | linkEntryCustomIcon icon =>
    cases hstep
    exact ⟨h.protectedFields, h.customFields, h.customData, h.history⟩
  | touchEntry usedAt =>
    cases hstep
    exact ⟨h.protectedFields, h.customFields, h.customData, h.history⟩
  | deleteHistoryAt index now =>
    rcases hstep with ⟨data, rfl⟩ | rfl
    · exact h.storeTombstones data
    · exact h.withHistory fun x hx => h.history x (List.mem_of_mem_eraseIdx hx)
  | restoreEntryFromHistory index now =>
    obtain ⟨snap, hsnap, -, hstep⟩ := hstep
    exact h.restoreFrom (List.mem_of_getElem? hsnap) hstep

end EntryRow.Keyed

/-! ## The mirror -/

/-- A group row that `reconcile_group_metadata` and the projection can read. -/
structure GroupRow.Decodable (g : GroupRow) : Prop where
  icon : g.iconIndex ≠ none
  nonneg : 0 ≤ g.sortOrder
  fits : g.sortOrder < 2 ^ 32

/-- Every group row can be read and every entry row written again. -/
structure Writable (m : Mirror) : Prop where
  groups : ∀ g ∈ m.groups.rows, GroupRow.Decodable g
  entries : ∀ e ∈ m.entries.rows, EntryRow.Keyed e

namespace Writable

variable {m m' : Mirror}

theorem of_same (hm : Writable m) (hg : m'.groups = m.groups) (he : m'.entries = m.entries) :
    Writable m' :=
  ⟨fun g h => hm.groups g (by rwa [hg] at h), fun e h => hm.entries e (by rwa [he] at h)⟩

theorem insertGroup (hm : Writable m) {g : GroupRow} (hg : GroupRow.Decodable g)
    (h : m.insertGroup g = .ok m') : Writable m' := by
  unfold Mirror.insertGroup at h
  split at h
  · cases h
  · rename_i T hT
    split at h
    · obtain rfl := Except.ok.inj h
      refine ⟨fun r hr => ?_, hm.entries⟩
      rw [(Table.insert?_eq_some.1 hT).2] at hr
      rcases List.mem_append.1 hr with hr | hr
      · exact hm.groups r hr
      · rwa [List.mem_singleton.1 hr]
    · cases h

theorem updateGroups (hm : Writable m) {p : GroupRow → Prop} [DecidablePred p]
    {f : GroupRow → GroupRow} (hu : ∀ r, (f r).uuid = r.uuid)
    (hp : ∀ r, (f r).parentUuid = r.parentUuid)
    (hf : ∀ r, GroupRow.Decodable r → GroupRow.Decodable (f r)) :
    Writable (m.updateGroups p f hu hp) := by
  refine ⟨fun r hr => ?_, hm.entries⟩
  obtain ⟨a, ha, rfl⟩ := (Table.mem_update hu).1 hr
  split
  · exact hf a (hm.groups a ha)
  · exact hm.groups a ha

theorem setParent (hm : Writable m) {u p : Uuid} {f : GroupRow → GroupRow}
    {hu : ∀ r, (f r).uuid = r.uuid} (h : m.setParent u p f hu = .ok m')
    (hf : ∀ r, GroupRow.Decodable r → GroupRow.Decodable (f r)) : Writable m' := by
  unfold Mirror.setParent at h
  split at h
  · obtain rfl := Except.ok.inj h
    refine ⟨fun r hr => ?_, hm.entries⟩
    obtain ⟨a, ha, rfl⟩ :=
      (Table.mem_update (f := fun r => { f r with parentUuid := some p }) hu).1 hr
    split
    · have hd := hf a (hm.groups a ha)
      exact ⟨hd.icon, hd.nonneg, hd.fits⟩
    · exact hm.groups a ha
  · split at h
    · cases h
    · obtain rfl := Except.ok.inj h
      exact hm

theorem deleteGroupRow (hm : Writable m) {u : Uuid} (h : m.deleteGroupRow u = .ok m') :
    Writable m' := by
  unfold Mirror.deleteGroupRow at h
  split at h
  · obtain rfl := Except.ok.inj h
    exact ⟨fun g hg => hm.groups g (Table.mem_delete.1 hg).1, hm.entries⟩
  · cases h

theorem insertEntryRow (hm : Writable m) {r : EntryRow} (hr : EntryRow.Keyed r)
    (h : m.insertEntryRow r = .ok m') : Writable m' := by
  unfold Mirror.insertEntryRow at h
  split at h
  · cases h
  · rename_i T hT
    split at h
    · obtain rfl := Except.ok.inj h
      refine ⟨hm.groups, fun e he => ?_⟩
      rw [(Table.insert?_eq_some.1 hT).2] at he
      rcases List.mem_append.1 he with he | he
      · exact hm.entries e he
      · rwa [List.mem_singleton.1 he]
    · cases h

theorem insertEntry (hm : Writable m) {e : Entry} {g : Uuid} {b : Bool}
    (h : m.insertEntry e g b = .ok m') : Writable m' := by
  unfold Mirror.insertEntry at h
  obtain ⟨a, ha, h⟩ := except_bind_ok.1 h
  split at h
  · rename_i hkeys
    obtain rfl := Except.ok.inj h
    exact hm.insertEntryRow (toRow_keyed hkeys g b) ha
  · cases h

theorem updateEntry (hm : Writable m) {u : Uuid} {f : EntryRow → EntryRow}
    (hu : ∀ r, (f r).uuid = r.uuid) (hg : ∀ r, (f r).groupUuid = r.groupUuid)
    (hf : ∀ r, EntryRow.Keyed r → EntryRow.Keyed (f r)) : Writable (m.updateEntry u f hu hg) := by
  refine ⟨hm.groups, fun e he => ?_⟩
  obtain ⟨a, ha, rfl⟩ := (Table.mem_update hu).1 he
  split
  · exact hf a (hm.entries a ha)
  · exact hm.entries a ha

theorem placeEntry (hm : Writable m) {u g : Uuid} {f : EntryRow → EntryRow}
    {hu : ∀ r, (f r).uuid = r.uuid} (h : m.placeEntry u g f hu = .ok m')
    (hf : ∀ r, EntryRow.Keyed r → EntryRow.Keyed (f r)) : Writable m' := by
  unfold Mirror.placeEntry at h
  split at h
  · obtain rfl := Except.ok.inj h
    refine ⟨hm.groups, fun e he => ?_⟩
    obtain ⟨a, ha, rfl⟩ := (Table.mem_update (f := fun r => { f r with groupUuid := g }) hu).1 he
    split
    · have hk := hf a (hm.entries a ha)
      exact ⟨hk.protectedFields, hk.customFields, hk.customData, hk.history⟩
    · exact hm.entries a ha
  · split at h
    · cases h
    · obtain rfl := Except.ok.inj h
      exact hm

theorem deleteEntries (hm : Writable m) (p : EntryRow → Prop) [DecidablePred p] :
    Writable (m.deleteEntries p) :=
  ⟨hm.groups, fun e he => hm.entries e (Table.mem_delete.1 he).1⟩

theorem writeRecycleBinGroup (hm : Writable m) (u : Uuid) : Writable (m.writeRecycleBinGroup u) := by
  refine (hm.updateGroups _ _ fun r hr => ?_).updateGroups _ _ fun r hr => ?_
  · exact ⟨hr.icon, hr.nonneg, hr.fits⟩
  · exact ⟨hr.icon, hr.nonneg, hr.fits⟩

theorem clearRecycleBinGroup (hm : Writable m) : Writable m.clearRecycleBinGroup :=
  hm.updateGroups _ _ fun _ hr => ⟨hr.icon, hr.nonneg, hr.fits⟩

/-- The position of a new child of `p`. -/
theorem nextSortOrder_nonneg (hm : Writable m) (p : Uuid) : 0 ≤ m.nextSortOrder p := by
  unfold Mirror.nextSortOrder
  cases hmax : ((m.groups.rows.filter (·.parentUuid = some p)).map (·.sortOrder)).max? with
  | none => simp
  | some n =>
    obtain ⟨g, hg, rfl⟩ := List.mem_map.1 (List.max?_mem hmax)
    have := (hm.groups g (List.mem_filter.1 hg).1).nonneg
    simp only [Option.getD_some]
    omega

theorem createRecycleBinGroup (hm : Writable m) {now : EpochMs} {bin : Uuid}
    (hpos : ∀ r, m.rootUuid? = some r → m.nextSortOrder r < 2 ^ 32)
    (h : m.createRecycleBinGroup now bin = .ok m') : Writable m' := by
  unfold Mirror.createRecycleBinGroup at h
  split at h
  · cases h
  · rename_i root hroot
    obtain ⟨a, ha, h⟩ := except_bind_ok.1 h
    obtain rfl := Except.ok.inj h
    have hins : Writable a :=
      hm.insertGroup ⟨by simp, hm.nextSortOrder_nonneg root, hpos root hroot⟩ ha
    exact (hins.writeRecycleBinGroup bin).of_same rfl rfl

theorem recordTombstones (hm : Writable m) (us : List Uuid) (now : EpochMs) :
    Writable (us.foldl (fun m e => m.recordTombstone e now) m) :=
  List.foldlRecOn us _ hm fun _ h _ _ => h.of_same rfl rfl

theorem deleteDirectChildEntries {st : Mirror × DeleteGroupOutcome} (hm : Writable st.1)
    (now : EpochMs) (g p : Uuid) : Writable (Mirror.deleteDirectChildEntries now g p st).1 :=
  (hm.recordTombstones _ now).deleteEntries _

theorem deleteGroupRecursive {now : EpochMs} {fuel : Nat} {u : Uuid} {parent : Option Uuid}
    {st st' : Mirror × DeleteGroupOutcome} (hm : Writable st.1)
    (h : Mirror.deleteGroupRecursive now fuel u parent st = .ok st') : Writable st'.1 := by
  induction fuel generalizing u parent st st' with
  | zero => cases h
  | succ fuel ih =>
    unfold Mirror.deleteGroupRecursive at h
    obtain ⟨mid, hmid, h⟩ := except_bind_ok.1 h
    obtain ⟨b, hb, h⟩ := except_bind_ok.1 h
    obtain rfl := Except.ok.inj h
    have hkids : Writable mid.1 :=
      foldlM_inv (P := fun a : Mirror × DeleteGroupOutcome => Writable a.1)
        (fun _ ha _ _ _ hc => ih ha hc) hm hmid
    exact ((hkids.deleteDirectChildEntries now u u).deleteGroupRow hb).of_same rfl rfl

theorem renumber {order : List Uuid} {i : Nat} (hm : Writable m)
    (hlen : i + order.length ≤ 2 ^ 32) : Writable (Mirror.renumber i order m) := by
  induction order generalizing i m with
  | nil => exact hm
  | cons s rest ih =>
    rw [List.length_cons] at hlen
    refine ih (hm.updateGroups _ _ fun r hr => ⟨hr.icon, by simp, ?_⟩) (by omega)
    show (i : Int) < 2 ^ 32
    omega

end Writable

/-! ## Mutations -/

/-- There is room for a bin under the root. -/
def BinFits (m : Mirror) : Prop :=
  m.recycleBinUuid = none → ∀ r, m.rootUuid? = some r → m.nextSortOrder r < 2 ^ 32

/-- The group rows an operation writes can be read: the icon is a builtin one, and the position fits
a `u32`. -/
def StructuralOp.WritesReadable (m : Mirror) : StructuralOp → Prop
  | createGroup p fields _ _ => (iconParts fields.icon).1 ≠ none ∧ m.nextSortOrder p < 2 ^ 32
  | moveGroup _ p _ => m.nextSortOrder p < 2 ^ 32
  | reorderGroup _ _ _ => m.groups.rows.length ≤ 2 ^ 32
  | recycleEntry _ _ _ => BinFits m
  | _ => True

@[inherit_doc StructuralOp.WritesReadable]
def EngineOp.WritesReadable (m : Mirror) : EngineOp → Prop
  | structural op => op.WritesReadable m
  | updateGroup _ upd _ => ∀ icon ∈ upd.icon, (iconParts icon).1 ≠ none
  | ensureRecycleBin _ _ => BinFits m
  | _ => True

theorem spliceSiblings_length {siblings : List Uuid} {u : Uuid} (hu : u ∈ siblings) (pos : Nat) :
    (Mirror.spliceSiblings siblings u pos).length = siblings.length := by
  have hpos := List.length_pos_of_mem hu
  unfold Mirror.spliceSiblings
  rw [List.length_insertIdx_of_le_length (Nat.min_le_right _ _), List.length_erase_of_mem hu]
  omega

section Ops

variable {m m' : Mirror}

/-- A splice of the children of a group has no more members than the table has rows. -/
theorem Writable.renumberSiblings (hm : Writable m) {u parent : Uuid} {pos : Nat} {siblings : List Uuid}
    (hroom : m.groups.rows.length ≤ 2 ^ 32)
    (hsib : siblings =
      (Mirror.sortRows (m.groups.rows.filter (·.parentUuid = some parent))).map (·.uuid))
    (hmem : u ∈ siblings) : Writable (Mirror.renumber 0 (Mirror.spliceSiblings siblings u pos) m) := by
  have hlen : (Mirror.spliceSiblings siblings u pos).length ≤ m.groups.rows.length := by
    rw [spliceSiblings_length hmem, hsib, List.length_map, (sortRows_perm _).length_eq]
    exact List.length_filter_le _ _
  exact hm.renumber (by omega)

theorem Writable.structural (hm : Writable m) {op : StructuralOp} (hop : op.WritesReadable m)
    (h : op.run m = .ok m') : Writable m' := by
  have placed : ∀ r f : EntryRow, EntryRow.Keyed r → f.protectedFields = r.protectedFields →
      f.customFields = r.customFields → f.customData = r.customData → f.history = r.history →
      EntryRow.Keyed f := by
    intro r f hr hp hc hd hh
    exact ⟨hp ▸ hr.protectedFields, hc ▸ hr.customFields, hd ▸ hr.customData, hh ▸ hr.history⟩
  have moved : ∀ {a : Mirror} {u g : Uuid} {bin : Bool} {now : EpochMs}, Writable a →
      a.placeEntry u g (fun e => { e with
        isRecycled := bin, previousParentUuid := some e.groupUuid
        modifiedAt := now, locationChangedAt := some now }) (fun _ => rfl) = .ok m' → Writable m' :=
    fun ha hplace => ha.placeEntry hplace fun r hr => placed r _ hr rfl rfl rfl rfl
  cases StructuralOp.run_commits h with
  | createGroup _ hins => exact hm.insertGroup ⟨hop.1, hm.nextSortOrder_nonneg _, hop.2⟩ hins
  | moveGroup _ _ hset => exact hm.setParent hset fun _ hr => ⟨hr.icon, hm.nextSortOrder_nonneg _, hop⟩
  | recycleGroup _ _ hset => exact hm.setParent hset fun _ hr => ⟨hr.icon, hr.nonneg, hr.fits⟩
  | reorderGroup hsib hmem =>
    refine (hm.renumberSiblings hop hsib hmem).updateGroups _ _ fun r hr => ?_
    exact ⟨hr.icon, hr.nonneg, hr.fits⟩
  | deleteGroup _ hdel =>
    have hstart : Writable ((m, {}) : Mirror × DeleteGroupOutcome).1 := hm
    exact hstart.deleteGroupRecursive hdel
  | noBin => exact hm
  | emptyBin _ hst =>
    have hkids := foldlM_inv (P := fun a : Mirror × DeleteGroupOutcome => Writable a.1)
      (fun _ ha _ _ _ hc => ha.deleteGroupRecursive hc) hm hst
    exact hkids.deleteDirectChildEntries _ _ _
  | setBin => exact (hm.writeRecycleBinGroup _).of_same rfl rfl
  | clearBin => exact hm.clearRecycleBinGroup.of_same rfl rfl
  | moveEntry _ hplace => exact moved hm hplace
  | inBin => exact hm
  | recycled _ _ _ hplace => exact moved hm hplace
  | recycledNew _ _ hbin _ hnew hplace => exact moved (hm.createRecycleBinGroup (hop hbin) hnew) hplace
  | deleted => exact (hm.deleteEntries _).of_same rfl rfl
  | restored _ _ _ hplace => exact moved hm hplace
  | unflagged => exact hm.updateEntry _ _ fun r hr => placed r _ hr rfl rfl rfl rfl
  | outside => exact hm

/-- **A mutation that writes readable group rows keeps the mirror writable.** -/
theorem Writable.mutate {E : EngineEnv} (hm : Writable m) {op : EngineOp} (hop : op.WritesReadable m)
    (h : op.run E m = .ok m') : Writable m' := by
  cases EngineOp.run_commits h with
  | structural h => exact hm.structural hop h
  | @updateGroup u upd now =>
    have hread : ∀ r, GroupRow.Decodable r → GroupRow.Decodable (Mirror.applyGroupUpdate upd now r) := by
      refine fun r hr => ⟨?_, hr.nonneg, hr.fits⟩
      show ((upd.icon.map fun i => (iconParts i).1).getD r.iconIndex) ≠ none
      cases hicon : upd.icon with
      | none => exact hr.icon
      | some i => exact hop i hicon
    exact (hm.updateGroups (p := fun g => g.uuid = u) (f := Mirror.applyGroupUpdate upd now)
      (fun _ => rfl) (fun _ => rfl) hread).of_same rfl rfl
  | @createEntry _ u _ _ _ _ h =>
    obtain ⟨hone, hnone, hrow, -, hprot, hplain⟩ := createEntry_row h
    refine ⟨fun g hg => hm.groups g (by rwa [hone.groups] at hg), fun e he => ?_⟩
    by_cases hu : e.uuid = u
    · have he' := Table.find?_of_mem he
      rw [hu, hrow] at he'
      obtain rfl := Option.some.inj he'
      exact ⟨hprot, hplain, List.nodup_nil, fun _ hs => by cases hs⟩
    · have he' := Table.find?_of_mem he
      rw [hone.entries _ hu] at he'
      exact hm.entries e (Table.find?_mem he')
  | @editEntry u edit _ h =>
    have hrows : ∀ {a : Mirror}, EditsRow (edit.Step E.history m.settings) u m a → Writable a := by
      intro a hed
      induction hed with
      | refl => exact hm
      | @step b row row' _ hfind hstep ih =>
        have hkeyed := (ih.entries row (Table.find?_mem hfind)).edit hstep
        refine ih.updateEntry _ _ fun _ _ => ?_
        exact ⟨hkeyed.protectedFields, hkeyed.customFields, hkeyed.customData, hkeyed.history⟩
    exact hrows (EntryEdit.run_editsRow h)
  | deleteEntry => exact (hm.deleteEntries _).of_same rfl rfl
  | binPresent => exact hm
  | binCreated hbin _ h => exact hm.createRecycleBinGroup (hop hbin) h
  | binDisabled => exact hm
  | iconPresent => exact hm
  | iconAdded => exact hm.of_same rfl rfl
  | setHistoryMaxItems => exact hm.of_same rfl rfl
  | setHistoryMaxSize => exact hm.of_same rfl rfl

end Ops

/-! ## Ingests -/

theorem toRow_decodable {v : Vault} {f : FlatGroup} (hf : f ∈ v.groups) :
    GroupRow.Decodable f.toRow := by
  have hpos : f.sortOrder < 2 ^ 32 := collect_sortOrder none 0 (by decide) v.root f hf
  refine ⟨by simp [FlatGroup.toRow], ?_, ?_⟩
  · show (0 : Int) ≤ (f.sortOrder : Int)
    omega
  · show (f.sortOrder : Int) < 2 ^ 32
    omega

/-- **An ingest leaves rows that can be read and written again.** -/
theorem ingestVaultWithHeader_writable {vault : Vault} {source : Source} {m m' : Mirror}
    (h : ingestVaultWithHeader vault source m = .ok m') : Writable m' := by
  obtain ⟨a, b, ha, hb, hg, he, -⟩ := ingestVaultWithHeader_stages h
  obtain ⟨-, hga, hea, -⟩ := writeMeta_written ha
  have hempty : Writable a := by
    refine ⟨fun g hmem => ?_, fun e hmem => ?_⟩
    · rw [hga] at hmem
      cases hmem
    · rw [hea] at hmem
      cases hmem
  unfold Mirror.writeTree at hb
  obtain ⟨c, hc, hb⟩ := except_bind_ok.1 hb
  have hgroups : Writable c := by
    refine foldlM_inv (P := Writable) (fun _ hs f hf _ hstep => ?_) hempty hc
    have hrow := toRow_decodable hf
    have hbin : GroupRow.Decodable (ingestedRow vault f) := ⟨hrow.icon, hrow.nonneg, hrow.fits⟩
    exact hs.insertGroup hbin hstep
  have hentries : Writable b :=
    foldlM_inv (P := Writable) (fun _ hs _ _ _ hstep => hs.insertEntry hstep) hgroups hb
  exact hentries.of_same hg he

/-- **An ingest leaves a tree, under the root of the vault.** -/
theorem ingestVaultWithHeader_rooted {vault : Vault} {source : Source} {m m' : Mirror}
    (h : ingestVaultWithHeader vault source m = .ok m') : RootedAt m' vault.root.id := by
  obtain ⟨a, b, ha, hb, hg, -, -⟩ := ingestVaultWithHeader_stages h
  obtain ⟨-, hga, -, -⟩ := writeMeta_written ha
  unfold Mirror.writeTree at hb
  obtain ⟨c, hc, hb⟩ := except_bind_ok.1 hb
  have hbc : b.groups = c.groups :=
    foldlM_rel (R := fun x y : Mirror => y.groups = x.groups) (fun _ => rfl)
      (fun h h' => h'.trans h) (fun _ _ _ _ hs => (insertEntry_row hs).1.groups) hb
  refine (SameParents.of_groups (hg.trans hbc)).rooted ?_
  rw [groups_eq_cons, List.foldlM_cons] at hc
  obtain ⟨r, hr, hc⟩ := except_bind_ok.1 hc
  have hrows : r.groups.rows = [ingestedRow vault (rootNode vault)] := by
    rw [(insertGroup_rows hr).1, hga]
    rfl
  have hroot : RootedAt r vault.root.id := by
    have hkeys : ∀ u, u ∈ r.groups.keys ↔ u = vault.root.id := by
      intro u
      rw [Table.keys, hrows]
      exact List.mem_singleton
    have hpar : r.parentOf vault.root.id = none := by
      refine Option.eq_none_iff_forall_ne_some.2 fun p hp => ?_
      obtain ⟨g, hgm, -, hgp⟩ := parentOf_eq_some.1 hp
      rw [hrows, List.mem_singleton] at hgm
      rw [hgm] at hgp
      cases hgp
    refine ⟨(hkeys _).2 rfl, hpar, fun _ hp => (mem_keys_of_parentOf hp).2, fun hx => ?_⟩
    rw [(hkeys _).1 hx]
    exact .refl _
  -- every other group is inserted below one that stands before it
  have hfold : ∀ {fs : List FlatGroup} {K : Uuid → Prop} {x y : Mirror}, ParentsFirst K fs →
      (∀ u, K u → u ∈ x.groups.keys) → RootedAt x vault.root.id → fs.foldlM (fun (m : Mirror) f =>
        m.insertGroup { f.toRow with isRecycleBin := vault.metadata.recycleBinUuid = some f.info.id }) x =
          .ok y → RootedAt y vault.root.id := by
    intro fs
    induction fs with
    | nil =>
      intro K x y _ _ hx hy
      obtain rfl := Except.ok.inj hy
      exact hx
    | cons f fs ih =>
      intro K x y hfirst hK hx hy
      rw [List.foldlM_cons] at hy
      obtain ⟨mid, hmid, hy⟩ := except_bind_ok.1 hy
      obtain ⟨⟨p, hp, hKp⟩, hrest⟩ := hfirst
      have hkeys : mid.groups.keys = x.groups.keys ++ [f.info.id] := by
        rw [Table.keys, (insertGroup_rows hmid).1, List.map_append]
        rfl
      refine ih hrest (fun u hu => ?_) (insertGroup_rooted hmid hp (hK p hKp) hx) hy
      rw [hkeys, List.mem_append, List.mem_singleton]
      exact hu.imp (hK u) id
  refine hfold (parentsFirst_belowRoot vault) (fun u hu => ?_) hroot hc
  rw [hu]
  exact hroot.root_mem

/-! ## Pulls -/

section Pull

variable {M : MergeLib} {P : PeerPull} {st st' : Mirror × IngestPeerOutcome}

theorem Writable.reconcilePeerGroups {ord : HashOrder} {peer : Vault} (hm : Writable st.1)
    (h : reconcilePeerGroups ord peer st = .ok st') : Writable st'.1 := by
  have hset : ∀ {a b : Mirror} {u p : Uuid} {f : GroupRow → GroupRow}
      {hu : ∀ r, (f r).uuid = r.uuid}, Writable a → a.setParent u p f hu = .ok b →
      (∀ r, (f r).iconIndex = r.iconIndex ∧ (f r).sortOrder = r.sortOrder) → Writable b := by
    intro a b u p f hu ha hb hf
    refine ha.setParent hb fun r hr => ⟨?_, ?_, ?_⟩
    · rw [(hf r).1]
      exact hr.icon
    · rw [(hf r).2]
      exact hr.nonneg
    · rw [(hf r).2]
      exact hr.fits
  unfold KeysCore.reconcilePeerGroups at h
  obtain ⟨st₁, h₁, h⟩ := except_bind_ok.1 h
  obtain ⟨st₂, h₂, h⟩ := except_bind_ok.1 h
  have hadopt : Writable st₁.1 := by
    refine foldlM_inv (P := fun a : Mirror × IngestPeerOutcome => Writable a.1)
      (fun s hs f hf s' hstep => ?_) hm h₁
    unfold adoptGroup at hstep
    split at hstep
    · obtain rfl := Except.ok.inj hstep
      exact hs
    · obtain ⟨a, ha, hstep⟩ := except_bind_ok.1 hstep
      obtain rfl := Except.ok.inj hstep
      exact hs.insertGroup (toRow_decodable hf) ha
  have hmerge : Writable st₂.1 := by
    refine foldlM_inv (P := fun a : Mirror × IngestPeerOutcome => Writable a.1)
      (fun s hs f _ s' hstep => ?_) hadopt h₂
    unfold reconcileGroup at hstep
    obtain ⟨a, ha, hstep⟩ := except_bind_ok.1 hstep
    have hmeta : Writable a.1 := by
      unfold reconcileGroupMetadata at ha
      split at ha
      · obtain rfl := Except.ok.inj ha
        exact hs
      · split at ha
        · cases ha
        · split at ha
          · obtain rfl := Except.ok.inj ha
            exact hs
          · obtain rfl := Except.ok.inj ha
            refine hs.updateGroups (p := fun r => r.uuid = f.info.id)
              (f := GroupRow.adoptMetadata f.info) (fun _ => rfl) (fun _ => rfl) fun r hr => ?_
            exact ⟨by simp [GroupRow.adoptMetadata], hr.nonneg, hr.fits⟩
    split at hstep
    · obtain rfl := Except.ok.inj hstep
      exact hmeta
    · unfold reconcileGroupLocation at hstep
      split at hstep
      · obtain rfl := Except.ok.inj hstep
        exact hmeta
      · split at hstep
        · obtain rfl := Except.ok.inj hstep
          exact hmeta
        · split at hstep
          · obtain rfl := Except.ok.inj hstep
            exact hmeta
          · obtain ⟨b, hb, hstep⟩ := except_bind_ok.1 hstep
            obtain rfl := Except.ok.inj hstep
            exact hset hmeta hb fun _ => ⟨rfl, rfl⟩
  have hbreak : ∀ {fuel n : Nat} {x y : Mirror × IngestPeerOutcome}, Writable x.1 →
      breakGroupCycles ord peer.root.id fuel n x = .ok y → Writable y.1 := by
    intro fuel
    induction fuel with
    | zero => intro n x y _ hy; cases hy
    | succ fuel ih =>
      intro n x y hx hy
      unfold breakGroupCycles at hy
      split at hy
      · obtain rfl := Except.ok.inj hy
        exact hx
      · split at hy
        · cases hy
        · obtain ⟨a, ha, hy⟩ := except_bind_ok.1 hy
          exact ih (x := (a, _)) (hset hx ha fun _ => ⟨rfl, rfl⟩) hy
  exact hbreak hmerge h

theorem EntryRow.Keyed.withHistoryOf {r : EntryRow} (h : Keyed r) (merged : Entry) :
    Keyed (r.withHistoryOf merged) := by
  refine ⟨h.protectedFields, h.customFields, ?_, fun s hs => ?_⟩
  · show ((r.customData.filter (·.key ≠ tombstoneCustomDataKey) ++
      (merged.historyTombstones.map (·.toRow)).toList).map (·.key)).Nodup
    cases hfind : merged.historyTombstones with
    | none =>
      rw [Option.map_none, Option.toList_none, List.append_nil]
      exact h.customData.sublist (List.filter_sublist.map _)
    | some c =>
      have hkey : c.key = tombstoneCustomDataKey := by simpa using List.find?_some hfind
      have hnew := replace_nodup (κ := fun c : CustomDataRow => c.key) h.customData c.toRow
      rwa [show c.toRow.key = tombstoneCustomDataKey from hkey] at hnew
  · obtain ⟨v, -, rfl⟩ := List.mem_map.1 hs
    exact putFields_nodup v.customFields

theorem Writable.advanceLocalEntry {m m' : Mirror} (hm : Writable m) {e : Entry}
    (h : m.advanceLocalEntry e = .ok m') : Writable m' := by
  unfold Mirror.advanceLocalEntry at h
  split at h
  · cases h
  · exact (hm.deleteEntries _).insertEntry h

theorem Writable.persistEntryHistory {m m' : Mirror} (hm : Writable m) {e : Entry}
    (h : m.persistEntryHistory e = .ok m') : Writable m' := by
  unfold Mirror.persistEntryHistory at h
  split at h
  · obtain rfl := Except.ok.inj h
    exact hm.updateEntry _ _ fun _ hr => hr.withHistoryOf e
  · cases h

theorem Writable.verdictArm {l p : Entry} {base : HistoryBase} (hm : Writable st.1)
    (h : P.verdictArm M l p st = .ok (st', base)) : Writable st'.1 := by
  unfold PeerPull.verdictArm at h
  dsimp only at h
  split at h
  · obtain ⟨rfl, -⟩ := Prod.mk.inj (Except.ok.inj h)
    exact hm.of_same rfl rfl
  · obtain ⟨a, ha, h⟩ := except_bind_ok.1 h
    obtain ⟨rfl, -⟩ := Prod.mk.inj (Except.ok.inj h)
    have hatt : ∀ (changes : List AttachmentChange),
        Writable (changes.foldl (Mirror.applyAttachmentChange p.id) a) := fun changes =>
      List.foldlRecOn changes _ (hm.advanceLocalEntry ha) fun _ hb _ _ =>
        hb.updateEntry _ _ fun _ hr =>
          ⟨hr.protectedFields, hr.customFields, hr.customData, hr.history⟩
    exact (hatt _).of_same rfl rfl
  · have hdrop : Writable (st.1.dropConflictRow P.owner p.id) := hm.of_same rfl rfl
    split at h
    · obtain ⟨rfl, -⟩ := Prod.mk.inj (Except.ok.inj h)
      exact hdrop
    · obtain ⟨a, ha, h⟩ := except_bind_ok.1 h
      obtain ⟨rfl, -⟩ := Prod.mk.inj (Except.ok.inj h)
      exact hdrop.advanceLocalEntry ha
    · obtain ⟨a, ha, h⟩ := except_bind_ok.1 h
      obtain ⟨rfl, -⟩ := Prod.mk.inj (Except.ok.inj h)
      obtain ⟨htouch, hent, -⟩ := writePeerEntry_touches ha
      exact hdrop.of_same htouch.groups hent

theorem Writable.ingestEntry {pe : Entry × Uuid} (hm : Writable st.1)
    (h : P.ingestEntry M st pe = .ok st') : Writable st'.1 := by
  unfold PeerPull.ingestEntry at h
  split at h
  · unfold PeerPull.ingestPeerOnly at h
    dsimp only at h
    split at h
    · obtain rfl := Except.ok.inj h
      exact hm
    · obtain ⟨a, ha, h⟩ := except_bind_ok.1 h
      obtain rfl := Except.ok.inj h
      refine Writable.insertEntry ?_ ha
      split
      · exact hm.of_same rfl rfl
      · exact hm
  · unfold PeerPull.ingestShared at h
    obtain ⟨⟨a, base⟩, ha, h⟩ := except_bind_ok.1 h
    obtain ⟨b, hb, h⟩ := except_bind_ok.1 h
    obtain ⟨⟨c, changed⟩, hc, h⟩ := except_bind_ok.1 h
    obtain rfl := Except.ok.inj h
    have harm := hm.verdictArm ha
    have hloc : Writable b.1 := by
      unfold reconcileEntryLocation at hb
      split at hb
      · obtain rfl := Except.ok.inj hb
        exact harm
      · split at hb
        · obtain rfl := Except.ok.inj hb
          exact harm
        · split at hb
          · obtain ⟨d, hd, hb⟩ := except_bind_ok.1 hb
            obtain rfl := Except.ok.inj hb
            refine harm.placeEntry hd fun _ hr => ?_
            exact ⟨hr.protectedFields, hr.customFields, hr.customData, hr.history⟩
          · obtain rfl := Except.ok.inj hb
            exact harm
    rcases reconcileHistory_spec hc with ⟨-, rfl, -⟩ | ⟨e, -, he, -⟩
    · exact hloc
    · exact hloc.persistEntryHistory he

/-- **A pull leaves rows that can be read and written again.** -/
theorem Writable.ingestPeer {ord : HashOrder} {m : Mirror} (hm : Writable m)
    (h : ingestPeer M ord P m = .ok st) : Writable st.1 := by
  unfold KeysCore.ingestPeer at h
  obtain ⟨st₁, h₁, h⟩ := except_bind_ok.1 h
  obtain ⟨st₂, h₂, h⟩ := except_bind_ok.1 h
  obtain ⟨st₄, h₄, h⟩ := except_bind_ok.1 h
  obtain rfl := Except.ok.inj h
  have hstart : Writable ((m, {}) : Mirror × IngestPeerOutcome).1 := hm
  have hgroups : Writable st₁.1 := hstart.reconcilePeerGroups h₁
  have hentries : Writable st₂.1 :=
    foldlM_inv (P := fun a : Mirror × IngestPeerOutcome => Writable a.1)
      (fun _ hs _ _ _ hstep => hs.ingestEntry hstep) hgroups h₂
  have hdel : Writable (P.reconcilePeerDeletes st₂).1 := by
    unfold PeerPull.reconcilePeerDeletes
    refine List.foldlRecOn (motive := fun a : Mirror × IngestPeerOutcome => Writable a.1) _ _ hentries
      fun a ha u _ => ?_
    unfold PeerPull.reconcileDelete
    split
    · split
      · exact ha
      · exact ha.deleteEntries _
    · exact ha
  obtain ⟨htomb, -⟩ := unionPeerTombstones_spec P.peer.deletedObjects (P.reconcilePeerDeletes st₂).1
  obtain ⟨hicon, -⟩ := unionPeerCustomIcons_same P.peer.metadata.customIcons
    (unionPeerTombstones P.peer.deletedObjects (P.reconcilePeerDeletes st₂).1)
  have hunion := (hdel.of_same htomb.groups htomb.entries).of_same hicon.groups hicon.entries
  have hmat : Writable st₄.1 := by
    unfold materializeGroupTombstones at h₄
    obtain ⟨a, ha, h₄⟩ := except_bind_ok.1 h₄
    obtain rfl := Except.ok.inj h₄
    refine foldlM_inv (P := Writable) (fun _ hs _ _ _ hstep => hs.deleteGroupRow hstep) ?_ ha
    exact List.foldlRecOn _ _ hunion fun _ hb _ _ => hb.of_same rfl rfl
  show Writable (reconcilePeerMeta _ _ st₄.1)
  unfold reconcilePeerMeta
  split
  · exact hmat
  · have hscalars : Writable ((st₄.1.writeMetaScalars (P.mergedMeta M)).writeRecycleBinEnabled
        (P.mergedMeta M).recycleBinEnabled) := hmat.of_same rfl rfl
    dsimp only
    split
    · split
      · exact hscalars.writeRecycleBinGroup _
      · exact hscalars.clearRecycleBinGroup
    · exact hscalars.clearRecycleBinGroup

end Pull

end KeysCore.Verify
