import KeysCore.Verify.Cascade
import KeysCore.Verify.EngineRuns
import KeysCore.Verify.FieldMerge
import KeysCore.Verify.Replicas
import KeysCore.Verify.StructuralRuns
import KeysCore.Verify.VaultIngest

/-!
# The resolution of projected times

Columns hold milliseconds and a KDBX file whole seconds. The projection floors the times of groups,
entries and history records, but reads the stamps of `<Meta>`, of its icons and custom data, and of
the deleted objects at the resolution of the column (`project_wholeSeconds_iff`). A projected vault is
therefore a fixed point of saving and loading exactly when those columns hold whole seconds, and along
a run they do when every stamp that reaches them does (`projected_times_whole`).
-/

namespace KeysCore.Verify

open Lib

/-! ## The times of a vault -/

/-- A whole second: saving it to a file and loading it returns it. -/
def Whole (t : DateTime) : Prop := t.floorToSecond = t

/-- A column that holds a whole second. -/
def WholeMs (t : EpochMs) : Prop := t.floorSecond = t

instance (t : DateTime) : Decidable (Whole t) := inferInstanceAs (Decidable (_ = _))

instance (t : EpochMs) : Decidable (WholeMs t) := inferInstanceAs (Decidable (_ = _))

theorem whole_floored (t : EpochMs) : Whole t.floored := DateTime.floorToSecond_floored t

theorem whole_toDateTime {t : EpochMs} : Whole t.toDateTime ↔ WholeMs t := by
  unfold Whole WholeMs DateTime.floorToSecond EpochMs.floored
  rw [EpochMs.timestampMillis_toDateTime]
  exact EpochMs.toDateTime_injective.eq_iff

theorem Whole.timestampMillis {t : DateTime} (h : Whole t) : WholeMs t.timestampMillis := by
  unfold WholeMs
  rw [← EpochMs.timestampMillis_floored]
  exact congrArg DateTime.timestampMillis h

end KeysCore.Verify

namespace KeysCore

def Timestamps.stamps (t : Timestamps) : List DateTime :=
  [t.creationTime, t.lastModificationTime, t.lastAccessTime, t.expiryTime,
    t.locationChanged].filterMap id

def EntryVersion.stamps (e : EntryVersion) : List DateTime :=
  e.times.stamps ++ e.customData.filterMap (·.lastModified)

def Entry.stamps (e : Entry) : List DateTime :=
  e.toEntryVersion.stamps ++ e.history.flatMap (·.stamps)

/-- The `*_changed` stamps. -/
def Meta.changedStamps (v : Meta) : List DateTime :=
  [v.masterKeyChanged, v.databaseNameChanged, v.databaseDescriptionChanged,
    v.defaultUsernameChanged, v.recycleBinChanged, v.settingsChanged].filterMap id

/-- The stamps outside groups and entries. -/
def Vault.metaStamps (v : Vault) : List DateTime :=
  v.metadata.changedStamps ++ v.metadata.customIcons.filterMap (·.lastModified) ++
    v.metadata.customData.filterMap (·.lastModified) ++ v.deletedObjects.filterMap (·.deletedAt)

/-- Every time in the vault. -/
def Vault.stamps (v : Vault) : List DateTime :=
  v.groups.flatMap (fun f => f.info.times.stamps) ++ v.entries.flatMap (·.stamps) ++ v.metaStamps

def Settings.changedStamps (s : Settings) : List EpochMs :=
  [s.masterKeyChanged, s.databaseNameChanged, s.databaseDescriptionChanged,
    s.defaultUsernameChanged, s.recycleBinChanged, s.settingsChanged].filterMap id

/-- The columns read at their own resolution. -/
def Mirror.metaStamps (m : Mirror) : List EpochMs :=
  m.settings.changedStamps ++ m.settings.customIcons.rows.filterMap (·.lastModifiedAt) ++
    m.settings.customData.rows.filterMap (·.lastModifiedAt) ++
    m.tombstones.rows.filterMap (·.deletedAt)

end KeysCore

namespace KeysCore.Verify

open Lib

/-- Every time in the vault is a whole second. -/
def WholeSeconds (v : Vault) : Prop := ∀ t ∈ v.stamps, Whole t

/-- The stamps outside groups and entries are whole seconds. -/
def MetaWhole (v : Vault) : Prop := ∀ t ∈ v.metaStamps, Whole t

/-- The columns read at their own resolution hold whole seconds. -/
def StampsWhole (m : Mirror) : Prop := ∀ t ∈ m.metaStamps, WholeMs t

/-! ## The projection -/

theorem buildTimes_whole {c m a : EpochMs} {x l : Option EpochMs} {t : DateTime}
    (h : t ∈ (buildTimes c m a x l).stamps) : Whole t := by
  simp only [Timestamps.stamps, buildTimes, List.mem_filterMap, id_eq, exists_eq_right, List.mem_cons,
    List.not_mem_nil, or_false, Option.some.injEq] at h
  rcases h with rfl | rfl | rfl | h | h
  · exact whole_floored _
  · exact whole_floored _
  · exact whole_floored _
  · obtain ⟨s, -, rfl⟩ := Option.map_eq_some_iff.1 h.symm
    exact whole_floored s
  · obtain ⟨s, -, rfl⟩ := Option.map_eq_some_iff.1 h.symm
    exact whole_floored s

theorem toItems_whole {rows : List CustomDataRow} {t : DateTime}
    (h : t ∈ (rows.map (·.toItem)).filterMap (·.lastModified)) : Whole t := by
  obtain ⟨c, hc, ht⟩ := List.mem_filterMap.1 h
  obtain ⟨r, -, rfl⟩ := List.mem_map.1 hc
  obtain ⟨s, -, rfl⟩ := Option.map_eq_some_iff.1 ht
  exact whole_floored s

theorem toEntry_whole (e : EntryRow) {t : DateTime} (h : t ∈ e.toEntry.stamps) : Whole t := by
  rcases List.mem_append.1 h with h | h
  · rcases List.mem_append.1 h with h | h
    · exact buildTimes_whole h
    · exact toItems_whole h
  · obtain ⟨v, hv, h⟩ := List.mem_flatMap.1 h
    obtain ⟨s, -, rfl⟩ := List.mem_map.1 hv
    rcases List.mem_append.1 h with h | h
    · exact buildTimes_whole h
    · exact toItems_whole h

theorem mem_collectAll {q : Uuid} {idx : Nat} {gs : List Group} {f : FlatGroup}
    (h : f ∈ Group.collectAll q idx gs) : ∃ g ∈ gs, ∃ s, f ∈ g.collect (some q) s := by
  induction gs generalizing idx with
  | nil => cases h
  | cons g gs ih =>
    rw [Group.collectAll] at h
    rcases List.mem_append.1 h with h | h
    · exact ⟨g, List.mem_cons_self .., _, h⟩
    · obtain ⟨g', hg', s, hs⟩ := ih h
      exact ⟨g', List.mem_cons_of_mem _ hg', s, hs⟩

/-- Every node of a built tree carries the fields of a row. -/
theorem buildSubtree_infos {rows : List GroupRow} {fuel : Nat} {u : Uuid} {byUuid rest : List GroupRow}
    {g : Group} (h : buildSubtree rows fuel u byUuid = .ok (g, rest)) (p : Option Uuid) (s : Nat) :
    ∀ f ∈ g.collect p s, ∃ row : GroupRow, f.info = row.toInfo := by
  induction fuel generalizing u byUuid rest g p s with
  | zero => cases h
  | succ fuel ih =>
    unfold buildSubtree at h
    split at h
    · cases h
    · rename_i row hrow
      obtain ⟨⟨kids, left⟩, hkids, h⟩ := except_bind_ok.1 h
      obtain ⟨rfl, -⟩ := Prod.mk.inj (Except.ok.inj h)
      -- every child the loop has built so far
      have hall := foldlM_rel (R := fun a b : List Group × List GroupRow =>
          (∀ g ∈ a.1, ∀ p s, ∀ f ∈ g.collect p s, ∃ row : GroupRow, f.info = row.toInfo) →
          ∀ g ∈ b.1, ∀ p s, ∀ f ∈ g.collect p s, ∃ row : GroupRow, f.info = row.toInfo)
        (fun _ h => h) (fun h h' ha => h' (h ha))
        (fun acc c _ acc' hc hacc => by
          obtain ⟨⟨g, left⟩, hg, hc⟩ := except_bind_ok.1 hc
          obtain rfl := Except.ok.inj hc
          intro g' hg'
          rcases List.mem_append.1 hg' with hg' | hg'
          · exact hacc g' hg'
          · rw [List.mem_singleton.1 hg']
            exact fun p s => ih hg p s) hkids
      intro f hf
      unfold Group.collect at hf
      rcases List.mem_cons.1 hf with rfl | hf
      · exact ⟨row, rfl⟩
      · obtain ⟨g, hg, s, hf⟩ := mem_collectAll hf
        exact hall (fun _ h => by cases h) g hg _ s f hf

/-- The groups and entries of a projection are rows read back. -/
theorem project_rows {m : Mirror} {v : Vault} (h : m.project = .ok v) :
    (∀ f ∈ v.groups, ∃ row : GroupRow, f.info = row.toInfo) ∧
      ∀ e ∈ v.entries, ∃ row : EntryRow, e = row.toEntry := by
  obtain ⟨-, g, hg, rfl⟩ := project_ok h
  obtain ⟨root, rest, hsub⟩ := (buildGroupTree_ok hg).1
  have hflat : (g.attach m.entriesOf).flatten = _ := collect_attach m.entriesOf none 0 g
  refine ⟨fun f hf => ?_, fun e he => ?_⟩
  · rw [Vault.groups, hflat] at hf
    obtain ⟨n, hn, rfl⟩ := List.mem_map.1 hf
    exact buildSubtree_infos hsub none 0 n hn
  · rw [Vault.entries, Vault.groups, hflat] at he
    obtain ⟨f, hf, he⟩ := List.mem_flatMap.1 he
    obtain ⟨n, -, rfl⟩ := List.mem_map.1 hf
    obtain ⟨row, -, rfl⟩ := List.mem_map.1 he
    exact ⟨row, rfl⟩

theorem project_metadata {m : Mirror} {v : Vault} (h : m.project = .ok v) :
    ∃ bin, v.metadata = m.readMeta bin := by
  obtain ⟨-, g, -, rfl⟩ := project_ok h
  exact ⟨_, rfl⟩

/-- The stamps read off rows in any order. -/
theorem mem_sorted_stamps {ρ β : Type} (le : ρ → ρ → Prop) [DecidableRel le] (rows : List ρ)
    (stamp : ρ → Option EpochMs) (f : ρ → β) {g : β → Option DateTime}
    (hg : ∀ r, g (f r) = (stamp r).map (·.toDateTime)) {t : DateTime} :
    t ∈ ((rows.insertionSort le).map f).filterMap g ↔
      ∃ s ∈ rows.filterMap stamp, s.toDateTime = t := by
  simp only [List.mem_filterMap, List.mem_map, List.mem_insertionSort]
  constructor
  · rintro ⟨-, ⟨r, hr, rfl⟩, ht⟩
    rw [hg] at ht
    obtain ⟨s, hs, rfl⟩ := Option.map_eq_some_iff.1 ht
    exact ⟨s, ⟨r, hr, hs⟩, rfl⟩
  · rintro ⟨s, ⟨r, hr, hs⟩, rfl⟩
    exact ⟨f r, ⟨r, hr, rfl⟩, by rw [hg, hs]; rfl⟩

theorem project_metaStamps {m : Mirror} {v : Vault} (h : m.project = .ok v) (t : DateTime) :
    t ∈ v.metaStamps ↔ ∃ s ∈ m.metaStamps, s.toDateTime = t := by
  obtain ⟨bin, hbin⟩ := project_metadata h
  unfold Vault.metaStamps Mirror.metaStamps
  rw [hbin, project_deletedObjects h]
  have hchanged : (m.readMeta bin).changedStamps =
      m.settings.changedStamps.map (·.toDateTime) := by
    simp only [Meta.changedStamps, Settings.changedStamps, Mirror.readMeta]
    rw [List.map_filterMap]
    simp [List.filterMap_cons]
  have hicons : t ∈ (m.readMeta bin).customIcons.filterMap (·.lastModified) ↔
      ∃ s ∈ m.settings.customIcons.rows.filterMap (·.lastModifiedAt), s.toDateTime = t :=
    mem_sorted_stamps (fun a b => a.uuid ≤ b.uuid) _ CustomIconRow.lastModifiedAt
      (fun r => CustomIcon.mk r.uuid r.bytes r.name (r.lastModifiedAt.map (·.toDateTime)))
      (fun _ => rfl)
  have hdata : t ∈ (m.readMeta bin).customData.filterMap (·.lastModified) ↔
      ∃ s ∈ m.settings.customData.rows.filterMap (·.lastModifiedAt), s.toDateTime = t :=
    mem_sorted_stamps (fun a b => a.key ≤ b.key) _ CustomDataRow.lastModifiedAt
      (fun r => CustomDataItem.mk r.key r.value (r.lastModifiedAt.map (·.toDateTime)))
      (fun _ => rfl)
  have htomb : t ∈ m.readDeletedObjects.filterMap (·.deletedAt) ↔
      ∃ s ∈ m.tombstones.rows.filterMap (·.deletedAt), s.toDateTime = t :=
    mem_sorted_stamps (fun a b => a.uuid ≤ b.uuid) _ TombstoneRow.deletedAt
      (fun r => DeletedObject.mk r.uuid (r.deletedAt.map (·.toDateTime))) (fun _ => rfl)
  simp only [List.mem_append, hicons, hdata, htomb, hchanged, List.mem_map, or_and_right, exists_or]

theorem project_metaWhole_iff {m : Mirror} {v : Vault} (h : m.project = .ok v) :
    MetaWhole v ↔ StampsWhole m := by
  constructor
  · intro hv s hs
    exact whole_toDateTime.1 (hv _ ((project_metaStamps h _).2 ⟨s, hs, rfl⟩))
  · intro hm t ht
    obtain ⟨s, hs, rfl⟩ := (project_metaStamps h t).1 ht
    exact whole_toDateTime.2 (hm s hs)

/-- **A projection holds whole seconds exactly when the columns that are not floored do.** -/
theorem project_wholeSeconds_iff {m : Mirror} {v : Vault} (h : m.project = .ok v) :
    WholeSeconds v ↔ StampsWhole m := by
  rw [← project_metaWhole_iff h]
  constructor
  · exact fun hv t ht => hv t (List.mem_append_right _ ht)
  · intro hv t ht
    obtain ⟨hgroups, hentries⟩ := project_rows h
    rcases List.mem_append.1 ht with ht | ht
    · rcases List.mem_append.1 ht with ht | ht
      · obtain ⟨f, hf, ht⟩ := List.mem_flatMap.1 ht
        obtain ⟨row, hrow⟩ := hgroups f hf
        rw [hrow] at ht
        exact buildTimes_whole ht
      · obtain ⟨e, he, ht⟩ := List.mem_flatMap.1 ht
        obtain ⟨row, rfl⟩ := hentries e he
        exact toEntry_whole row ht
    · exact hv t ht

/-! ## The statements -/

theorem stampsWhole_iff {m : Mirror} : StampsWhole m ↔
    (∀ t ∈ m.settings.changedStamps, WholeMs t) ∧
      (∀ r ∈ m.settings.customIcons.rows, ∀ t ∈ r.lastModifiedAt, WholeMs t) ∧
      (∀ r ∈ m.settings.customData.rows, ∀ t ∈ r.lastModifiedAt, WholeMs t) ∧
      ∀ r ∈ m.tombstones.rows, ∀ t ∈ r.deletedAt, WholeMs t := by
  simp only [StampsWhole, Mirror.metaStamps, List.mem_append, List.mem_filterMap, or_imp,
    forall_and, forall_exists_index, and_imp, and_assoc]
  refine and_congr Iff.rfl (and_congr ?_ (and_congr ?_ ?_))
  all_goals exact ⟨fun h r hr t ht => h t r hr ht, fun h t r hr ht => h r hr t ht⟩

theorem mem_changedStamps_bin {s : Settings} {now t : EpochMs}
    (h : t ∈ ({ s with recycleBinChanged := some now } : Settings).changedStamps) :
    t = now ∨ t ∈ s.changedStamps := by
  simp only [Settings.changedStamps, List.mem_filterMap, id_eq, exists_eq_right, List.mem_cons,
    List.not_mem_nil, or_false, Option.some.injEq] at h ⊢
  tauto

namespace StampsWhole

variable {m m' : Mirror}

/-- No stamp is written, though tombstones may go. -/
theorem of_fewer (hs : m'.settings = m.settings)
    (ht : ∀ r ∈ m'.tombstones.rows, r ∈ m.tombstones.rows) (h : StampsWhole m) : StampsWhole m' := by
  rw [stampsWhole_iff] at h ⊢
  rw [hs]
  exact ⟨h.1, h.2.1, h.2.2.1, fun r hr => h.2.2.2 r (ht r hr)⟩

theorem of_same (hs : m'.settings = m.settings) (ht : m'.tombstones = m.tombstones)
    (h : StampsWhole m) : StampsWhole m' :=
  of_fewer hs (fun _ hr => by rwa [ht] at hr) h

theorem of_sameContent (h : StampsWhole m) (hsame : SameContent m m') : StampsWhole m' :=
  of_same hsame.settings hsame.tombstones h

theorem putTombstone {r : TombstoneRow} (hr : ∀ t ∈ r.deletedAt, WholeMs t) (h : StampsWhole m) :
    StampsWhole (m.putTombstone r) := by
  rw [stampsWhole_iff] at h ⊢
  refine ⟨h.1, h.2.1, h.2.2.1, fun s hs => ?_⟩
  have hfind := Table.find?_of_mem hs
  rw [show (m.putTombstone r).tombstones = m.tombstones.put r from rfl, Table.find?_put] at hfind
  split at hfind
  · obtain rfl := Option.some.inj hfind
    exact hr
  · exact h.2.2.2 s (Table.find?_mem hfind)

/-- Settings written with the lists as they were. -/
theorem writeSettings {f : Settings → Settings} {n : Nat} (h : StampsWhole m)
    (hicons : (f m.settings).customIcons = m.settings.customIcons)
    (hdata : (f m.settings).customData = m.settings.customData)
    (hf : ∀ t ∈ (f m.settings).changedStamps, WholeMs t) : StampsWhole (m.writeSettings f n) := by
  rw [stampsWhole_iff] at h ⊢
  refine ⟨hf, ?_, ?_, h.2.2.2⟩
  · rw [show (m.writeSettings f n).settings.customIcons = m.settings.customIcons from hicons]
    exact h.2.1
  · rw [show (m.writeSettings f n).settings.customData = m.settings.customData from hdata]
    exact h.2.2.1

theorem changed (h : StampsWhole m) : ∀ t ∈ m.settings.changedStamps, WholeMs t :=
  (stampsWhole_iff.1 h).1

/-- The bin's flag and its stamp written. -/
theorem writeRecycleBin {enabled : Bool} {now : EpochMs} (h : StampsWhole m) (hnow : WholeMs now) :
    StampsWhole ((m.writeRecycleBinEnabled enabled).writeRecycleBinChanged now) := by
  refine (h.writeSettings rfl rfl h.changed).writeSettings rfl rfl fun t ht => ?_
  rcases mem_changedStamps_bin ht with rfl | ht
  · exact hnow
  · exact h.changed t ht

theorem insertIcon {icon : CustomIconRow} {T : Table CustomIconRow.uuid} {n : Nat}
    (h : StampsWhole m) (hT : m.settings.customIcons.insert? icon = some T)
    (hicon : ∀ t ∈ icon.lastModifiedAt, WholeMs t) :
    StampsWhole (m.writeSettings (fun s => { s with customIcons := T }) n) := by
  rw [stampsWhole_iff] at h ⊢
  refine ⟨h.1, fun r hr => ?_, h.2.2.1, h.2.2.2⟩
  have hr : r ∈ T.rows := hr
  rw [(Table.insert?_eq_some.1 hT).2, List.mem_append, List.mem_singleton] at hr
  rcases hr with hr | rfl
  · exact h.2.1 r hr
  · exact hicon

theorem createRecycleBinGroup {now : EpochMs} {u : Uuid} (h : StampsWhole m) (hnow : WholeMs now)
    (hc : m.createRecycleBinGroup now u = .ok m') : StampsWhole m' := by
  unfold Mirror.createRecycleBinGroup at hc
  split at hc
  · cases hc
  · obtain ⟨a, ha, hc⟩ := except_bind_ok.1 hc
    obtain rfl := Except.ok.inj hc
    have hsame := insertGroup_same ha
    have hbin : StampsWhole (a.writeRecycleBinGroup u) :=
      of_same (m := m) hsame.settings hsame.tombstones h
    exact hbin.writeRecycleBin hnow

theorem placeEntry {u g : Uuid} {f : EntryRow → EntryRow} {hu : ∀ r, (f r).uuid = r.uuid}
    (h : StampsWhole m) (hp : m.placeEntry u g f hu = .ok m') : StampsWhole m' :=
  of_same (placeEntry_row hp).1.settings (placeEntry_row hp).1.tombstones h

theorem recordTombstones {now : EpochMs} (hnow : WholeMs now) (es : List Uuid) (h : StampsWhole m) :
    StampsWhole (es.foldl (fun m e => m.recordTombstone e now) m) :=
  foldl_rel (R := fun a b : Mirror => StampsWhole a → StampsWhole b) (fun _ h => h)
    (fun h h' ha => h' (h ha))
    (fun _ _ _ ha => ha.putTombstone fun t ht => by rwa [← Option.some.inj ht]) m h

theorem deleteDirectChildEntries {now : EpochMs} (hnow : WholeMs now) (g a : Uuid)
    {st : Mirror × DeleteGroupOutcome} (h : StampsWhole st.1) :
    StampsWhole (Mirror.deleteDirectChildEntries now g a st).1 := by
  have hrec := h.recordTombstones hnow ((st.1.entries.rows.filter (·.groupUuid = g)).map (·.uuid))
  unfold Mirror.deleteDirectChildEntries Mirror.deleteEntries
  exact of_same rfl rfl hrec

/-- A cascade at a whole second. -/
theorem deleteGroupRecursive {now : EpochMs} {fuel : Nat} {u : Uuid} {parent : Option Uuid}
    {st st' : Mirror × DeleteGroupOutcome} (h : StampsWhole st.1) (hnow : WholeMs now)
    (hd : Mirror.deleteGroupRecursive now fuel u parent st = .ok st') : StampsWhole st'.1 := by
  induction fuel generalizing u parent st st' with
  | zero => cases hd
  | succ fuel ih =>
    unfold Mirror.deleteGroupRecursive at hd
    obtain ⟨mid, hmid, hd⟩ := except_bind_ok.1 hd
    obtain ⟨b, hb, hd⟩ := except_bind_ok.1 hd
    obtain rfl := Except.ok.inj hd
    have hkids := foldlM_rel (R := fun a b : Mirror × DeleteGroupOutcome =>
      StampsWhole a.1 → StampsWhole b.1) (fun _ h => h) (fun h h' ha => h' (h ha))
      (fun _ _ _ _ hc ha => ih ha hc) hmid h
    have hrow := (deleteGroupRow_same hb).1
    have hb' : StampsWhole b :=
      of_same hrow.settings hrow.tombstones (deleteDirectChildEntries hnow u u hkids)
    exact hb'.putTombstone fun t ht => by rwa [← Option.some.inj ht]

end StampsWhole

/-! ## The mutations -/

/-- The bin holds a group or an entry. -/
def binHolds (m : Mirror) : Bool :=
  m.recycleBinUuid.any fun bin => !(m.childGroups bin).isEmpty || m.holdsEntry bin

/-- The instant an operation writes to a column that is read at its own resolution. -/
def StructuralOp.stamp? (m : Mirror) : StructuralOp → Option EpochMs
  | deleteGroup _ now => some now
  | emptyRecycleBin now => if binHolds m then some now else none
  | setRecycleBin _ _ now => some now
  | recycleEntry u now _ =>
    if m.recycleBinUuid.isNone && (m.entries.find? u).any (!m.groupInBinSubtree ·.groupUuid) then
      some now
    else none
  | _ => none

def EngineOp.stamp? (m : Mirror) : EngineOp → Option EpochMs
  | structural op => op.stamp? m
  | deleteEntry _ now => some now
  | ensureRecycleBin now _ =>
    if m.recycleBinUuid.isNone && m.readRecycleBinEnabled then some now else none
  | addCustomIcon bytes now =>
    if m.settings.customIcons.rows.any (·.bytes = bytes) then none else some now
  | _ => none

/-- Emptying a bin writes stamps only when it holds something. -/
theorem emptyBin_stampsWhole {m : Mirror} {now : EpochMs} {bin : Uuid} {st : Mirror × DeleteGroupOutcome}
    (hbin : m.recycleBinUuid = some bin)
    (hst : (m.childGroups bin).foldlM (fun st c =>
      Mirror.deleteGroupRecursive now m.groups.rows.length c (some bin) st) (m, {}) = .ok st)
    (hm : StampsWhole m) (hnow : ∀ t ∈ (StructuralOp.emptyRecycleBin now).stamp? m, WholeMs t) :
    StampsWhole (Mirror.deleteDirectChildEntries now bin bin st).1 := by
  by_cases hholds : binHolds m = true
  · have hwhole : WholeMs now := hnow now (by simp [StructuralOp.stamp?, hholds])
    refine .deleteDirectChildEntries hwhole bin bin ?_
    exact foldlM_rel (R := fun a b : Mirror × DeleteGroupOutcome =>
      StampsWhole a.1 → StampsWhole b.1) (fun _ h => h) (fun h h' ha => h' (h ha))
      (fun _ _ _ _ hc ha => ha.deleteGroupRecursive hwhole hc) hst hm
  · -- an empty bin: neither loop has anything to do
    simp only [binHolds, hbin, Option.any_some, Bool.or_eq_true, not_or, Bool.not_eq_true',
      Bool.not_eq_false, Bool.not_eq_true] at hholds
    obtain ⟨hkids, hnone⟩ := hholds
    rw [List.isEmpty_iff.1 hkids] at hst
    obtain rfl := Except.ok.inj hst
    have hdirect : (m.entries.rows.filter (·.groupUuid = bin)).map (·.uuid) = [] := by
      rw [List.map_eq_nil_iff, List.filter_eq_nil_iff]
      simpa [Mirror.holdsEntry] using hnone
    refine StampsWhole.of_same (m := m) ?_ ?_ hm
    · simp only [Mirror.deleteDirectChildEntries, Mirror.deleteEntries, hdirect, List.foldl_nil]
    · simp only [Mirror.deleteDirectChildEntries, Mirror.deleteEntries, hdirect, List.foldl_nil]

theorem StampsWhole.deleteEntry {m : Mirror} {u : Uuid} {now : EpochMs} (hm : StampsWhole m)
    (hnow : WholeMs now) :
    StampsWhole ((m.deleteEntries (fun e => e.uuid = u)).recordTombstone u now) := by
  have hdel : StampsWhole (m.deleteEntries (fun e => e.uuid = u)) := .of_same rfl rfl hm
  exact hdel.putTombstone fun t ht => by rwa [← Option.some.inj ht]

theorem StructuralOp.run_stampsWhole {m m' : Mirror} {op : StructuralOp} (h : op.run m = .ok m')
    (hm : StampsWhole m) (hop : ∀ t ∈ op.stamp? m, WholeMs t) : StampsWhole m' := by
  cases run_commits h with
  | createGroup _ hins =>
    exact .of_same (insertGroup_same hins).settings (insertGroup_same hins).tombstones hm
  | moveGroup _ _ hset => exact .of_same (setParent_same hset).settings (setParent_same hset).tombstones hm
  | recycleGroup _ _ hset =>
    exact .of_same (setParent_same hset).settings (setParent_same hset).tombstones hm
  | @reorderGroup u _ pos _ siblings =>
    have hsame := renumber_same (Mirror.spliceSiblings siblings u pos) 0 m
    exact .of_same hsame.settings hsame.tombstones hm
  | deleteGroup _ hdel =>
    have hstart : StampsWhole ((m, {}) : Mirror × DeleteGroupOutcome).1 := hm
    exact hstart.deleteGroupRecursive (hop _ rfl) hdel
  | noBin => exact hm
  | emptyBin hbin hst => exact emptyBin_stampsWhole hbin hst hm hop
  | @setBin _ u =>
    have hbin : StampsWhole (m.writeRecycleBinGroup u) := .of_same (m := m) rfl rfl hm
    exact hbin.writeRecycleBin (hop _ rfl)
  | clearBin =>
    have hbin : StampsWhole m.clearRecycleBinGroup := .of_same rfl rfl hm
    exact hbin.writeRecycleBin (hop _ rfl)
  | moveEntry _ hplace => exact hm.placeEntry hplace
  | inBin => exact hm
  | recycled _ _ _ hplace => exact hm.placeEntry hplace
  | @recycledNew _ _ now _ _ _ hrow hin hbin _ hnew hplace =>
    have hwhole : WholeMs now := hop now (by simp [stamp?, hbin, hrow, hin])
    exact (hm.createRecycleBinGroup hwhole hnew).placeEntry hplace
  | @deleted _ _ now _ hrow hin hbin =>
    exact hm.deleteEntry (hop now (by simp [stamp?, hbin, hrow, hin]))
  | restored _ _ _ hplace => exact hm.placeEntry hplace
  | unflagged => exact .of_same rfl rfl hm
  | outside => exact hm

/-- **A mutation whose full-resolution stamp is a whole second keeps the columns whole.** -/
theorem EngineOp.run_stampsWhole {E : EngineEnv} {m m' : Mirror} {op : EngineOp}
    (h : op.run E m = .ok m') (hm : StampsWhole m) (hop : ∀ t ∈ op.stamp? m, WholeMs t) :
    StampsWhole m' := by
  cases run_commits h with
  | structural h => exact StructuralOp.run_stampsWhole h hm hop
  | updateGroup => exact .of_same rfl rfl hm
  | createEntry h =>
    obtain ⟨hone, -⟩ := createEntry_row h
    exact .of_same hone.settings hone.tombstones hm
  | editEntry h =>
    have hed := (EntryEdit.run_editsRow h).rowOnly
    exact .of_same hed.settings hed.tombstones hm
  | deleteEntry => exact hm.deleteEntry (hop _ rfl)
  | binPresent => exact hm
  | @binCreated now _ _ hbin hen h =>
    exact hm.createRecycleBinGroup (hop now (by simp [stamp?, hbin, hen])) h
  | binDisabled => exact hm
  | iconPresent => exact hm
  | @iconAdded _ now _ hnew hT =>
    have hwhole : WholeMs now := by
      refine hop now ?_
      rw [List.find?_eq_none] at hnew
      simpa [stamp?] using hnew
    refine hm.insertIcon hT fun t ht => ?_
    rwa [← Option.some.inj ht]
  | setHistoryMaxItems => exact hm.writeSettings rfl rfl hm.changed
  | setHistoryMaxSize => exact hm.writeSettings rfl rfl hm.changed

/-! ## Pulls -/

theorem earliest_mem {α : Type} [LinearOrder α] {a b : Option α} {t : α} (h : t ∈ earliest a b) :
    t ∈ a ∨ t ∈ b := by
  unfold earliest at h
  split at h
  · rename_i x y
    rcases min_choice x y with e | e
    · exact .inl (by rwa [e] at h)
    · exact .inr (by rwa [e] at h)
  · exact .inl h
  · exact .inr h

/-- The instant recorded for a uuid is one of the list's. -/
theorem tombstoneTime_mem {deleted : List DeletedObject} {u : Uuid} {d : Option DateTime}
    (h : tombstoneTime deleted u = some d) : ∀ t ∈ d, t ∈ deleted.filterMap (·.deletedAt) := by
  have hfold : ∀ d ∈ tombstoneTime deleted u, ∀ t ∈ d, t ∈ deleted.filterMap (·.deletedAt) := by
    unfold tombstoneTime
    refine List.foldlRecOn (motive := fun acc : Option (Option DateTime) =>
      ∀ d ∈ acc, ∀ t ∈ d, t ∈ deleted.filterMap (·.deletedAt)) _ _ ?_ ?_
    · simp
    · intro acc hacc x hx d hd t ht
      have hdeleted : ∀ t ∈ x.deletedAt, t ∈ deleted.filterMap (·.deletedAt) := fun t ht =>
        List.mem_filterMap.2 ⟨x, (List.mem_filter.1 hx).1, ht⟩
      obtain rfl := Option.some.inj hd
      cases acc with
      | none => exact hdeleted t ht
      | some a => exact (earliest_mem ht).elim (hacc a rfl t) (hdeleted t)
  exact hfold d h

section Pull

variable {M : MergeLib} {P : PeerPull} {m : Mirror}

theorem ingestEntry_tombstones_mem (hM : Lawful M) {st st' : Mirror × IngestPeerOutcome}
    {pe : Entry × Uuid} (h : P.ingestEntry M st pe = .ok st') {r : TombstoneRow}
    (hr : r ∈ st'.1.tombstones.rows) : r ∈ st.1.tombstones.rows := by
  have hfind := Table.find?_of_mem hr
  refine Table.find?_mem (k := r.uuid) ?_
  by_cases e : r.uuid = pe.1.id
  · rw [e] at hfind ⊢
    unfold PeerPull.ingestEntry at h
    split at h
    · rcases ingestPeerOnly_spec h with ⟨-, rfl⟩ | ⟨-, -, -, -, -, ht, -, -⟩
      · exact hfind
      · rw [ht] at hfind
        split at hfind
        · cases hfind
        · exact hfind
    · rename_i l hl
      obtain ⟨-, ht, -⟩ := ingestShared_spec hM (localEntry_id hl) h
      rwa [ht] at hfind
  · rwa [(ingestEntry_touches hM h).1.tombstones _ e] at hfind

theorem StampsWhole.unionPeerTombstones {deleted : List DeletedObject}
    (hd : ∀ t ∈ deleted.filterMap (·.deletedAt), Whole t) (hm : StampsWhole m) :
    StampsWhole (unionPeerTombstones deleted m) := by
  refine foldl_rel (R := fun a b : Mirror => StampsWhole a → StampsWhole b) (fun _ h => h)
    (fun h h' ha => h' (h ha)) (fun m u _ hm => ?_) m hm
  unfold unionPeerTombstone
  split
  · exact hm
  · rename_i d hdu
    have hms : ∀ t ∈ d.map (·.timestampMillis), WholeMs t := by
      intro t ht
      obtain ⟨x, hx, rfl⟩ := Option.map_eq_some_iff.1 ht
      exact (hd x (tombstoneTime_mem hdu x hx)).timestampMillis
    split
    · exact hm
    · unfold unionTombstone
      split
      · exact hm.putTombstone hms
      · rename_i row hrow
        dsimp only
        split
        · exact hm
        · refine hm.putTombstone fun t ht => ?_
          refine (earliest_mem ht).elim (fun h => ?_) (hms t)
          exact (stampsWhole_iff.1 hm).2.2.2 row (Table.find?_mem hrow) t h

theorem StampsWhole.unionPeerCustomIcons {icons : List CustomIcon}
    (hi : ∀ t ∈ icons.filterMap (·.lastModified), Whole t) (hm : StampsWhole m) :
    StampsWhole (unionPeerCustomIcons icons m) := by
  refine foldl_rel (R := fun a b : Mirror => StampsWhole a → StampsWhole b) (fun _ h => h)
    (fun h h' ha => h' (h ha)) (fun m icon hicon hm => ?_) m hm
  unfold unionIcon
  split
  · exact hm
  · rename_i T hT
    refine hm.insertIcon hT fun t ht => ?_
    obtain ⟨x, hx, rfl⟩ := Option.map_eq_some_iff.1 ht
    exact (hi x (List.mem_filterMap.2 ⟨icon, hicon, hx⟩)).timestampMillis

theorem toSettings_changedStamps (v : Meta) (icons : Table CustomIconRow.uuid)
    (data : Table CustomDataRow.key) :
    (v.toSettings icons data).changedStamps = v.changedStamps.map (·.timestampMillis) := by
  simp only [Meta.changedStamps, Settings.changedStamps, Meta.toSettings]
  rw [List.map_filterMap]
  simp [List.filterMap_cons]

theorem toSettings_whole {v : Meta} (hv : ∀ t ∈ v.changedStamps, Whole t)
    (icons : Table CustomIconRow.uuid) (data : Table CustomDataRow.key) :
    ∀ t ∈ (v.toSettings icons data).changedStamps, WholeMs t := by
  intro t ht
  rw [toSettings_changedStamps] at ht
  obtain ⟨x, hx, rfl⟩ := List.mem_map.1 ht
  exact (hv x hx).timestampMillis

theorem StampsWhole.reconcilePeerMeta {a b : Meta} (hb : ∀ t ∈ b.changedStamps, Whole t)
    (hm : StampsWhole m) : StampsWhole (reconcilePeerMeta a b m) := by
  unfold KeysCore.reconcilePeerMeta
  split
  · exact hm
  · have hscalars : StampsWhole ((m.writeMetaScalars b).writeRecycleBinEnabled b.recycleBinEnabled) := by
      have hone : StampsWhole (m.writeMetaScalars b) :=
        hm.writeSettings rfl rfl (toSettings_whole hb m.settings.customIcons m.settings.customData)
      exact hone.writeSettings rfl rfl hone.changed
    dsimp only
    split
    · split
      · exact .of_same rfl rfl hscalars
      · exact .of_same rfl rfl hscalars
    · exact .of_same rfl rfl hscalars

/-- **A pull of whole seconds keeps the columns whole.** -/
theorem ingestPeer_stampsWhole {ord : HashOrder} {st : Mirror × IngestPeerOutcome} (hM : Lawful M)
    (hmeta : ∀ t ∈ (P.mergedMeta M).changedStamps, Whole t) (hpeer : MetaWhole P.peer)
    (hm : StampsWhole m) (h : ingestPeer M ord P m = .ok st) : StampsWhole st.1 := by
  unfold ingestPeer at h
  obtain ⟨st₁, h₁, h⟩ := except_bind_ok.1 h
  obtain ⟨st₂, h₂, h⟩ := except_bind_ok.1 h
  obtain ⟨st₄, h₄, h⟩ := except_bind_ok.1 h
  obtain rfl := Except.ok.inj h
  have hpass := (GroupPass.of_reconcilePeerGroups h₁).rest
  have hst₁ : StampsWhole st₁.1 := .of_same hpass.settings hpass.tombstones hm
  have hst₂ : StampsWhole st₂.1 :=
    foldlM_rel (R := fun a b : Mirror × IngestPeerOutcome => StampsWhole a.1 → StampsWhole b.1)
      (fun _ h => h) (fun h h' ha => h' (h ha))
      (fun _ _ _ _ hs ha => .of_fewer (ingestEntry_touches hM hs).1.settings
        (fun _ hr => ingestEntry_tombstones_mem hM hs hr) ha) h₂ hst₁
  have hst₃ : StampsWhole (P.reconcilePeerDeletes st₂).1 :=
    foldl_rel (R := fun a b : Mirror × IngestPeerOutcome => StampsWhole a.1 → StampsWhole b.1)
      (fun _ h => h) (fun h h' ha => h' (h ha))
      (fun s u _ ha => .of_same (reconcileDelete_spec s u).1.settings
        (reconcileDelete_spec s u).1.tombstones ha) st₂ hst₂
  have hdel : ∀ t ∈ P.peer.deletedObjects.filterMap (·.deletedAt), Whole t := fun t ht =>
    hpeer t (List.mem_append_right _ ht)
  have hicons : ∀ t ∈ P.peer.metadata.customIcons.filterMap (·.lastModified), Whole t := fun t ht =>
    hpeer t (List.mem_append_left _ (List.mem_append_left _ (List.mem_append_right _ ht)))
  have hunion := (hst₃.unionPeerTombstones hdel).unionPeerCustomIcons hicons
  have hst₄ : StampsWhole st₄.1 := by
    unfold materializeGroupTombstones at h₄
    obtain ⟨m₄, hm₄, h₄⟩ := except_bind_ok.1 h₄
    obtain rfl := Except.ok.inj h₄
    have hrest := foldlM_rel (R := fun a b : Mirror => StampsWhole a → StampsWhole b) (fun _ h => h)
      (fun h h' ha => h' (h ha)) (fun _ _ _ _ hb ha => .of_same (deleteGroupRow_same hb).1.settings
        (deleteGroupRow_same hb).1.tombstones ha) hm₄
    refine hrest (foldl_rel (R := fun a b : Mirror => StampsWhole a → StampsWhole b) (fun _ h => h)
      (fun h h' ha => h' (h ha)) (fun a u _ ha => ?_) _ hunion)
    exact StampsWhole.of_fewer (m := a) rfl (fun r hr => (Table.mem_delete.1 hr).1) ha
  exact hst₄.reconcilePeerMeta hmeta

end Pull

/-! ## Ingests -/

theorem rows_whole {α ρ : Type} {items : List α} {rows : List ρ} {toRow : α → ρ}
    {stamp : ρ → Option EpochMs} {time : α → Option DateTime} (hrows : rows = items.map toRow)
    (hstamp : ∀ a, stamp (toRow a) = (time a).map (·.timestampMillis))
    (h : ∀ t ∈ items.filterMap time, Whole t) : ∀ r ∈ rows, ∀ t ∈ stamp r, WholeMs t := by
  intro r hr t ht
  rw [hrows] at hr
  obtain ⟨a, ha, rfl⟩ := List.mem_map.1 hr
  rw [hstamp] at ht
  obtain ⟨x, hx, rfl⟩ := Option.map_eq_some_iff.1 ht
  exact (h x (List.mem_filterMap.2 ⟨a, ha, hx⟩)).timestampMillis

/-- **An ingest leaves the stamps of the vault.** -/
theorem MetaWritten.stampsWhole {vault : Vault} {m : Mirror} (h : MetaWritten vault m)
    (hv : MetaWhole vault) : StampsWhole m := by
  have hparts : ∀ t, t ∈ vault.metadata.changedStamps ∨
      t ∈ vault.metadata.customIcons.filterMap (·.lastModified) ∨
      t ∈ vault.metadata.customData.filterMap (·.lastModified) ∨
      t ∈ vault.deletedObjects.filterMap (·.deletedAt) → Whole t := by
    intro t ht
    refine hv t ?_
    simpa only [Vault.metaStamps, List.mem_append, or_assoc] using ht
  rw [stampsWhole_iff]
  refine ⟨?_, rows_whole h.icons (fun _ => rfl) fun t ht => hparts t (.inr (.inl ht)),
    rows_whole h.data (fun _ => rfl) fun t ht => hparts t (.inr (.inr (.inl ht))),
    rows_whole h.tombstones (fun _ => rfl) fun t ht => hparts t (.inr (.inr (.inr ht)))⟩
  rw [h.settings]
  exact toSettings_whole (fun t ht => hparts t (.inl ht)) _ _

/-! ## Runs -/

/-- The stamps of `<CustomData>` are whole seconds. -/
def DataWhole (data : List CustomDataItem) : Prop :=
  ∀ t ∈ data.filterMap (·.lastModified), Whole t

/-- What the run relies on of keepass-merge: a stamp of its results is taken from its arguments. -/
structure TakesStamps (Λ : Libs) : Prop where
  lawful : Lawful Λ.merge
  metaScalars {a b : Meta} : (∀ t ∈ a.changedStamps, Whole t) → (∀ t ∈ b.changedStamps, Whole t) →
    ∀ t ∈ (Λ.merge.mergeMetaScalars a b).changedStamps, Whole t
  applyMerge {l r v : Vault} {outcome : Λ.vaults.MergeOutcome} {choices : Resolution} :
    MetaWhole l → MetaWhole r → Λ.vaults.applyMerge l r outcome choices = .ok v → MetaWhole v
  reconcileTimestamps {l r : Vault} :
    MetaWhole l → MetaWhole r → MetaWhole (Λ.vaults.reconcileTimestamps l r)
  addConflictResolution {data data' : List CustomDataItem} {r : ConflictResolution} :
    DataWhole data → Whole r.resolvedAt → Λ.vaults.addConflictResolution data r = .ok data' →
    DataWhole data'

/-- The stamps a transaction brings to the columns that are read at their own resolution are whole
seconds. -/
def WholeStamps {Λ : Libs} (s : EngineState Λ.vaults) : EngineTxn → Prop
  | .mutate op => ∀ t ∈ op.stamp? s.mirror, WholeMs t
  | .pull _ _ peer _ => MetaWhole peer
  | .ingestFile vault _ => MetaWhole vault
  | .resolve _ _ now => Whole now
  | _ => True

/-- The columns hold whole seconds, and so do the vaults stashed for a resolver. -/
structure StateWhole {L : VaultMergeLib} (s : EngineState L) : Prop where
  mirror : StampsWhole s.mirror
  pending : ∀ ctx ∈ s.pending, MetaWhole ctx.localVault ∧ MetaWhole ctx.remoteVault

theorem MetaWhole.changed {v : Vault} (h : MetaWhole v) : ∀ t ∈ v.metadata.changedStamps, Whole t :=
  fun t ht => h t (List.mem_append_left _ (List.mem_append_left _ (List.mem_append_left _ ht)))

theorem theirsVault_metaWhole {m : Mirror} {v theirs : Vault} {owner : String} {u : Uuid}
    (h : theirsVault m v owner u = some theirs) (hv : MetaWhole v) : MetaWhole theirs := by
  obtain ⟨e, -, rfl⟩ := Option.map_eq_some_iff.1 h
  exact hv

section Landing

variable {Λ : Libs} (hΛ : TakesStamps Λ)
include hΛ

theorem cleanMerge_metaWhole {l theirs merged : Vault} {outcome : Λ.vaults.MergeOutcome}
    (hl : MetaWhole l) (ht : MetaWhole theirs)
    (h : cleanMerge Λ.vaults l theirs outcome = .ok merged) : MetaWhole merged := by
  obtain ⟨v, hv, h⟩ := except_bind_ok.1 h
  obtain rfl := Except.ok.inj h
  exact hΛ.reconcileTimestamps (hΛ.applyMerge hl ht (serialised_ok.1 hv)) ht

/-- A merge that settling adopts. -/
theorem adopts_metaWhole {m : Mirror} {v merged : Vault} {u : Uuid} {owner : String}
    (hv : MetaWhole v) (h : Adopts Λ.vaults m v u owner merged) : MetaWhole merged := by
  obtain ⟨theirs, outcome, htheirs, -, -, hmerged⟩ := h
  exact cleanMerge_metaWhole hΛ hv (theirsVault_metaWhole htheirs hv) hmerged

theorem settle_stampsWhole {m m' : Mirror} {v : Vault} {u : Uuid} {d : DissolveDecision} {b : Bool}
    (hm : StampsWhole m) (hv : m.project = .ok v)
    (hd : dissolveDecision Λ.vaults m v u (m.conflictOwnersFor u) = .ok d)
    (h : applyDissolve u m d = .ok (m', b)) : StampsWhole m' := by
  unfold applyDissolve at h
  split at h
  · obtain ⟨rfl, -⟩ := Prod.mk.inj (Except.ok.inj h)
    exact .of_same rfl rfl hm
  · obtain ⟨rfl, -⟩ := Prod.mk.inj (Except.ok.inj h)
    exact hm.of_sameContent (dropConflictOwners_sameContent m u _)
  · obtain ⟨a, ha, h⟩ := except_bind_ok.1 h
    obtain ⟨rfl, -⟩ := Prod.mk.inj (Except.ok.inj h)
    have hmerged := adopts_metaWhole hΛ ((project_metaWhole_iff hv).2 hm) (dissolveDecision_adopts hd)
    have hland : StampsWhole a := (ingestVaultWithHeader_meta ha).1.stampsWhole hmerged
    exact .of_same rfl rfl hland

theorem resolved_metaWhole {ctx : PendingConflictContext Λ.vaults} {r : Resolution} {now : DateTime}
    {v : Vault} (hl : MetaWhole ctx.localVault) (hr : MetaWhole ctx.remoteVault) (hnow : Whole now)
    (h : ctx.resolved r now = .ok v) : MetaWhole v := by
  obtain ⟨merged, hmerged, h⟩ := resolved_ok h
  have hwhole : MetaWhole (Λ.vaults.reconcileTimestamps merged ctx.remoteVault) :=
    hΛ.reconcileTimestamps (hΛ.applyMerge hl hr hmerged) hr
  unfold recordResolutionsIntoMeta at h
  obtain ⟨data, hdata, h⟩ := except_bind_ok.1 h
  obtain rfl := Except.ok.inj h
  have hdata' : DataWhole data :=
    foldlM_rel (R := fun a b => DataWhole a → DataWhole b) (fun _ h => h) (fun h h' ha => h' (h ha))
      (fun _ _ _ _ hs ha => hΛ.addConflictResolution ha hnow (serialised_ok.1 hs)) hdata
      fun t ht => hwhole t (List.mem_append_left _ (List.mem_append_right _ ht))
  intro t ht
  simp only [Vault.metaStamps, List.mem_append] at ht
  rcases ht with ((ht | ht) | ht) | ht
  · exact hwhole.changed t ht
  · exact hwhole t (List.mem_append_left _ (List.mem_append_left _ (List.mem_append_right _ ht)))
  · exact hdata' t ht
  · exact hwhole t (List.mem_append_right _ ht)

/-- **A transaction whose stamps are whole seconds keeps the state whole.** -/
theorem StateWhole.step {s s' : EngineState Λ.vaults} {txn : EngineTxn} (hs : StateWhole s)
    (hC : WholeStamps s txn) (h : txn.run Λ s = .ok s') : StateWhole s' := by
  cases EngineTxn.run_step h with
  | mutate hop => exact ⟨EngineOp.run_stampsWhole hop hs.mirror hC, hs.pending⟩
  | pull _ hv hst =>
    have hlocal := (project_metaWhole_iff hv).2 hs.mirror
    have hpeer : MetaWhole _ := hC
    exact ⟨ingestPeer_stampsWhole hΛ.lawful (hΛ.metaScalars hlocal.changed hpeer.changed) hpeer
      hs.mirror hst, hs.pending⟩
  | ingestFile hm => exact ⟨(ingestVaultWithHeader_meta hm).1.stampsWhole hC, hs.pending⟩
  | settle hv hd hm => exact ⟨settle_stampsWhole hΛ hs.mirror hv hd hm, hs.pending⟩
  | noConflict _ _ => exact hs
  | opened hv hheld =>
    have hlocal := (project_metaWhole_iff hv).2 hs.mirror
    refine ⟨hs.mirror, fun ctx hctx => ?_⟩
    rcases List.mem_append.1 hctx with hctx | hctx
    · exact hs.pending ctx hctx
    · rw [List.mem_singleton.1 hctx]
      refine ⟨hlocal, ?_⟩
      unfold heldConflict at hheld
      split at hheld
      · cases hheld
      · rename_i theirs htheirs
        obtain ⟨owner, -, htheirs⟩ := Option.bind_eq_some_iff.1 htheirs
        obtain ⟨outcome, -, hheld⟩ := except_bind_ok.1 hheld
        split at hheld
        · cases hheld
        · obtain ⟨rfl, -⟩ := Prod.mk.inj (Option.some.inj (Except.ok.inj hheld))
          exact theirsVault_metaWhole htheirs hlocal
  | @resolve id r now ctx m hctx hm =>
    obtain ⟨hl, hr⟩ := hs.pending ctx hctx
    unfold applyConflictResolution at hm
    obtain ⟨v, hv, hm⟩ := except_bind_ok.1 hm
    obtain ⟨a, ha, hm⟩ := except_bind_ok.1 hm
    obtain rfl := Except.ok.inj hm
    have hland : StampsWhole a :=
      (ingestVaultWithHeader_meta ha).1.stampsWhole (resolved_metaWhole hΛ hl hr hC hv)
    exact ⟨hland.of_sameContent (dropResolvedRows_sameContent a r),
      fun c hc => hs.pending c (List.mem_filter.1 hc).1⟩
  | discard => exact ⟨hs.mirror, fun c hc => hs.pending c (List.mem_filter.1 hc).1⟩
  | dismiss => exact ⟨.of_same rfl rfl hs.mirror, hs.pending⟩

end Landing

/-- **Along a run whose stamps are whole seconds, every projected time is a whole second.** -/
theorem projected_times_whole {Λ : Libs} (hΛ : TakesStamps Λ) {s t : EngineState Λ.vaults}
    (hs : StateWhole s) (hrun : EngineRun Λ WholeStamps s t) {v : Vault}
    (hv : t.mirror.project = .ok v) : WholeSeconds v := by
  have ht := hrun.invariant hs fun _ _ _ hs hC h => hs.step hΛ hC h
  exact (project_wholeSeconds_iff hv).2 ht.mirror

instance (v : Vault) : Decidable (WholeSeconds v) := inferInstanceAs (Decidable (∀ t ∈ v.stamps, _))

instance (m : Mirror) : Decidable (StampsWhole m) :=
  inferInstanceAs (Decidable (∀ t ∈ m.metaStamps, _))

/-- The field-wise libraries stamp nothing of their own: the local meta stands, and a resolution is
recorded at its instant. -/
theorem plainLibs_takesStamps : TakesStamps ⟨plainEnv, fieldMerge, fieldVaults⟩ where
  lawful := fieldMerge_lawful
  metaScalars ha _ := ha
  applyMerge {l r v outcome choices} hl _ h := by
    have h : (if _ then _ else _ : Except String Vault) = _ := h
    split at h
    · obtain rfl := Except.ok.inj h
      exact hl
    · cases h
  reconcileTimestamps hl _ := hl
  addConflictResolution {data data' r} hdata hr h := by
    obtain rfl := Except.ok.inj h
    intro t ht
    rw [List.filterMap_append] at ht
    rcases List.mem_append.1 ht with ht | ht
    · exact hdata t ht
    · obtain rfl : t = r.resolvedAt := by simpa using ht
      exact hr

/-- Deleting the entry `9` at a whole second. -/
theorem projected_times_whole_nested :
    let m' := (EngineOp.deleteEntry 9 (.atSecond 40)).next plainEnv (nestedMirror false)
    WholeSeconds (view m') ∧ 9 ∈ m'.tombstones.keys := by
  intro m'
  let Λ : Libs := ⟨plainEnv, fieldMerge, fieldVaults⟩
  have hstart : StateWhole (L := Λ.vaults) ⟨nestedMirror false, []⟩ :=
    ⟨by decide +kernel, fun _ h => by cases h⟩
  have hrun : EngineRun Λ WholeStamps ⟨nestedMirror false, []⟩ ⟨m', []⟩ :=
    .step .refl (by
      intro t ht
      obtain rfl : .atSecond 40 = t := by simpa [EngineOp.stamp?] using ht
      decide) (EngineTxn.run_mutate (EngineOp.run_next (by decide +kernel)))
  exact ⟨projected_times_whole plainLibs_takesStamps hstart hrun (project_view (by decide +kernel)),
    by decide +kernel⟩

/-- Deleted at half past a second, the entry `9` leaves a tombstone that the projection carries at
the millisecond and a saved file would not. -/
theorem delete_entry_projects_millis :
    let now : EpochMs := ⟨40500, by decide⟩
    let op := EngineOp.deleteEntry 9 now
    let m' := op.next plainEnv (nestedMirror false)
    op.run plainEnv (nestedMirror false) = .ok m' ∧ m'.project = .ok (view m') ∧
      ⟨9, some now.toDateTime⟩ ∈ (view m').deletedObjects ∧
      now.toDateTime.floorToSecond ≠ now.toDateTime ∧ ¬ WholeSeconds (view m') := by
  intro now op m'
  exact ⟨EngineOp.run_next (by decide +kernel), project_view (by decide +kernel), by decide +kernel,
    by decide +kernel, by decide +kernel⟩

end KeysCore.Verify
