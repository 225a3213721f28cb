import KeysCore.Lib.Notices
import KeysCore.Verify.EngineCalls
import KeysCore.Verify.LostUpdates
import KeysCore.Verify.Reorder
import KeysCore.Verify.Subtrees

/-!
# What an observer misses

An observer keeps a copy of the entries, the groups and the announced settings, and reads again what an
event names. After any sequence of calls on a mirror without parked conflicts its copy is right but for
what `unannounced` lists (`observer_exact`): the bin group a recycling created on its way, and what a
failed import had committed. A recycling that creates the bin and one that deletes the entry are
told alike, as a recycling of the entry.
-/

namespace KeysCore.ChangeEvent

/-- The entries an event names. -/
def entryUuids : ChangeEvent → List Uuid
  | .entriesAdded us => us
  | .entriesUpdated us => us
  | .entryTouched u => [u]
  | .entriesDeleted infos => infos.map (·.uuid)
  | .entriesMoved moves => moves.map (·.uuid)
  | .entriesRecycled us => us
  | .entriesRestored us => us
  | .protectedFieldChanged u _ => [u]
  | .attachmentsChanged us => us
  | .tagsChanged us => us
  | _ => []

/-- The groups an event names. -/
def groupUuids : ChangeEvent → List Uuid
  | .groupsAdded us => us
  | .groupsUpdated us => us
  | .groupsDeleted infos => infos.map (·.uuid)
  | .groupsMoved moves => moves.map (·.uuid)
  | .groupsReordered us => us
  | .groupsRecycled us => us
  | .groupsRestored us => us
  | _ => []

/-- The settings an event names. -/
def keys : ChangeEvent → List String
  | .metaUpdated keys => keys
  | _ => []

end KeysCore.ChangeEvent

namespace KeysCore.Verify

open Lib

/-! ## Subjects and readings -/

/-- What an observer reads: a row of an entry, of a group, or a setting by its key. -/
inductive Subject where
  | entry (u : Uuid)
  | group (u : Uuid)
  | setting (key : String)
deriving DecidableEq

inductive Reading where
  | entry (row : Option EntryRow)
  | group (row : Option GroupRow)
  | enabled (b : Option Bool)
  | cap (n : Int)
  | icons (pool : Table CustomIconRow.uuid)
  | nothing
deriving DecidableEq

/-- The setting under an announced key. -/
def readSetting (s : Settings) (key : String) : Reading :=
  if key = keyRecycleBinEnabled then .enabled s.recycleBinEnabled
  else if key = keyHistoryMaxItems then .cap s.historyMaxItems
  else if key = keyHistoryMaxSize then .cap s.historyMaxSize
  else if key = keyCustomIcons then .icons s.customIcons
  else .nothing

def reading (m : Mirror) : Subject → Reading
  | .entry u => .entry (m.entries.find? u)
  | .group u => .group (m.groups.find? u)
  | .setting key => readSetting m.settings key

/-- The rows of a table, or one row. -/
def Reading.size : Reading → Nat
  | .entry row => row.toList.length
  | .group row => row.toList.length
  | .icons pool => pool.rows.length
  | _ => 0

/-! ## What an event names -/

/-- The event names the subject. The key of the bin names every group: the designation is a flag of
their rows. -/
def eventNames (ev : ChangeEvent) : Subject → Bool
  | .entry u => decide (u ∈ ev.entryUuids)
  | .group u => decide (u ∈ ev.groupUuids ∨ keyRecycleBinUuid ∈ ev.keys)
  | .setting key => decide (key ∈ ev.keys)

def toldBy (es : List ChangeEvent) (s : Subject) : Bool := es.any (eventNames · s)

theorem toldBy_entry {es : List ChangeEvent} {u : Uuid} :
    toldBy es (.entry u) = true ↔ ∃ ev ∈ es, u ∈ ev.entryUuids := by
  simp only [toldBy, List.any_eq_true, eventNames, decide_eq_true_eq]

theorem toldBy_group {es : List ChangeEvent} {u : Uuid} : toldBy es (.group u) = true ↔
    ∃ ev ∈ es, u ∈ ev.groupUuids ∨ keyRecycleBinUuid ∈ ev.keys := by
  simp only [toldBy, List.any_eq_true, eventNames, decide_eq_true_eq]

theorem toldBy_setting {es : List ChangeEvent} {key : String} :
    toldBy es (.setting key) = true ↔ ∃ ev ∈ es, key ∈ ev.keys := by
  simp only [toldBy, List.any_eq_true, eventNames, decide_eq_true_eq]

/-- Every reading that changed is named. -/
def Tells (es : List ChangeEvent) (m m' : Mirror) : Prop :=
  ∀ s, reading m' s ≠ reading m s → toldBy es s = true

section Tells

variable {es : List ChangeEvent} {m m' : Mirror} {u : Uuid}

theorem Tells.told (h : Tells es m m') {s : Subject} (hne : reading m' s ≠ reading m s) :
    toldBy es s = true := h s hne

theorem Tells.refl (es : List ChangeEvent) (m : Mirror) : Tells es m m := fun _ h => absurd rfl h

theorem tells_of_rowOnly (h : RowOnly u m m') (hu : toldBy es (.entry u) = true) : Tells es m m' := by
  intro s hne
  cases s with
  | entry v =>
    by_cases e : v = u
    · rwa [e]
    · exact absurd (congrArg Reading.entry (h.entries v e)) hne
  | group v => exact absurd (by simp [reading, h.groups]) hne
  | setting key => exact absurd (by simp [reading, h.settings]) hne

theorem tells_of_groups (he : m'.entries = m.entries) (hs : m'.settings = m.settings)
    (hg : ∀ v, m'.groups.find? v ≠ m.groups.find? v → toldBy es (.group v) = true) :
    Tells es m m' := by
  intro s hne
  cases s with
  | entry v => exact absurd (by simp [reading, he]) hne
  | group v => exact hg v fun e => hne (congrArg Reading.group e)
  | setting key => exact absurd (by simp [reading, hs]) hne

theorem tells_of_group (h : SameButGroups m m') (hu : toldBy es (.group u) = true)
    (hg : ∀ v, v ≠ u → m'.groups.find? v = m.groups.find? v) : Tells es m m' := by
  refine tells_of_groups h.entries h.settings fun v hne => ?_
  by_cases e : v = u
  · rwa [e]
  · exact absurd (hg v e) hne

theorem tells_of_settings (he : m'.entries = m.entries)
    (hg : m'.groups = m.groups ∨ ∀ v, toldBy es (.group v) = true)
    (hs : ∀ key, toldBy es (.setting key) = false →
      readSetting m'.settings key = readSetting m.settings key) : Tells es m m' := by
  intro s hne
  cases s with
  | entry v => exact absurd (by simp [reading, he]) hne
  | group v => exact hg.elim (fun hg => absurd (by simp [reading, hg]) hne) fun hg => hg v
  | setting key =>
    by_contra hn
    exact hne (hs key (by simpa using hn))

end Tells

/-! ## Statements on groups -/

section Groups

variable {m m' : Mirror} {u : Uuid}

theorem insertGroup_find {g : GroupRow} (h : m.insertGroup g = .ok m') :
    m.groups.find? g.uuid = none ∧
      ∀ v, m'.groups.find? v = if g.uuid = v then some g else m.groups.find? v := by
  unfold Mirror.insertGroup at h
  split at h
  · cases h
  · rename_i T hT
    split at h
    · obtain rfl := Except.ok.inj h
      exact ⟨Table.find?_eq_none.2 (Table.insert?_eq_some.1 hT).1, Table.find?_insert hT⟩
    · cases h

theorem setParent_others {p : Uuid} {f : GroupRow → GroupRow} {hu : ∀ r, (f r).uuid = r.uuid}
    (h : m.setParent u p f hu = .ok m') (v : Uuid) (hv : v ≠ u) :
    m'.groups.find? v = m.groups.find? v := by
  unfold Mirror.setParent at h
  split at h
  · obtain rfl := Except.ok.inj h
    have hfind := Table.find?_modify (f := fun r => { f r with parentUuid := some p }) hu m.groups u
    exact (hfind v).trans (if_neg hv)
  · split at h
    · cases h
    · obtain rfl := Except.ok.inj h
      rfl

theorem updateGroups_others {f : GroupRow → GroupRow} (hu : ∀ r, (f r).uuid = r.uuid)
    (hp : ∀ r, (f r).parentUuid = r.parentUuid) (v : Uuid) (hv : v ≠ u) :
    (m.updateGroups (fun g => g.uuid = u) f hu hp).groups.find? v = m.groups.find? v := by
  rw [find?_updateGroups]
  cases hrow : m.groups.find? v with
  | none => rfl
  | some row => simp [Table.find?_key hrow, hv]

theorem renumber_others (order : List Uuid) (i : Nat) (v : Uuid) (hv : v ∉ order) :
    (Mirror.renumber i order m).groups.find? v = m.groups.find? v := by
  induction order generalizing i m with
  | nil => rfl
  | cons s rest ih =>
    rw [List.mem_cons, not_or] at hv
    rw [Mirror.renumber, ih _ hv.2, updateGroups_others _ _ v hv.1]

/-- A reorder writes the rows it returns. -/
theorem reorderGroup_rows {pos : Nat} {now : EpochMs} {order : List Uuid}
    (h : m.reorderGroup u pos now = .ok (m', order)) :
    SameButGroups m m' ∧ ∀ v, v ∉ order → m'.groups.find? v = m.groups.find? v := by
  unfold Mirror.reorderGroup at h
  split at h
  · cases h
  · dsimp only at h
    split at h
    · rename_i hu
      obtain ⟨rfl, rfl⟩ := Prod.mk.inj (Except.ok.inj h)
      refine ⟨(renumber_same _ 0 m).trans ⟨rfl, rfl, rfl, rfl⟩, fun v hv => ?_⟩
      have hne : v ≠ u := fun e => hv ((spliceSiblings_perm hu).mem_iff.2 (e ▸ hu))
      rw [updateGroups_others _ _ v hne, renumber_others _ 0 v hv]
    · cases h

/-- **Creating the bin adds its row, and changes no other row and no setting that is told.** -/
theorem createRecycleBinGroup_rows {now : EpochMs} (hbin : m.recycleBinUuid = none)
    (h : m.createRecycleBinGroup now u = .ok m') :
    m.groups.find? u = none ∧ (m'.groups.find? u).isSome ∧
      (∀ v, v ≠ u → m'.groups.find? v = m.groups.find? v) ∧
      m'.settings = { m.settings with
        recycleBinEnabled := some true
        recycleBinChanged := some now } := by
  unfold Mirror.createRecycleBinGroup at h
  split at h
  · cases h
  · obtain ⟨a, ha, h⟩ := except_bind_ok.1 h
    obtain rfl := Except.ok.inj h
    obtain ⟨hnone, hrows⟩ := insertGroup_find ha
    have hfind : ∀ v, (((a.writeRecycleBinGroup u).writeRecycleBinEnabled
        true).writeRecycleBinChanged now).groups.find? v = (a.writeRecycleBinGroup u).groups.find? v :=
      fun _ => rfl
    refine ⟨hnone, ?_, fun v hv => ?_, ?_⟩
    · rw [hfind, Mirror.writeRecycleBinGroup, find?_updateGroups, find?_updateGroups, hrows, if_pos rfl]
      rfl
    · rw [hfind, Mirror.writeRecycleBinGroup, updateGroups_others _ _ v hv, find?_updateGroups, hrows,
        if_neg (Ne.symm hv)]
      cases hrow : m.groups.find? v with
      | none => rfl
      | some row => simp [recycleBinUuid_none hbin row (Table.find?_mem hrow)]
    · show { a.settings with
        recycleBinEnabled := some true
        recycleBinChanged := some now } = _
      rw [(insertGroup_same ha).settings]

end Groups

/-! ## Mutations -/

/-- The group a mutation creates and does not tell: the bin of a recycling. -/
def EngineOp.silent (m : Mirror) : EngineOp → Subject → Prop
  | .structural (.recycleEntry u _ bin), s => s = .group bin ∧ m.recycleBinUuid = none ∧
      m.readRecycleBinEnabled = true ∧
        ∃ row, m.entries.find? u = some row ∧ m.groupInBinSubtree row.groupUuid = false
  | _, _ => False

theorem readSetting_bin {s : Settings} (now : EpochMs) (h : s.recycleBinEnabled = some true)
    (key : String) : readSetting { s with
      recycleBinEnabled := some true
      recycleBinChanged := some now } key = readSetting s key := by
  unfold readSetting
  rw [h]

/-- An absent bin is enabled by its setting. -/
theorem recycleBinEnabled_some {m : Mirror} (hbin : m.recycleBinUuid = none)
    (hen : m.readRecycleBinEnabled = true) : m.settings.recycleBinEnabled = some true := by
  unfold Mirror.readRecycleBinEnabled at hen
  rw [hbin] at hen
  cases h : m.settings.recycleBinEnabled with
  | none => simp [h] at hen
  | some b => simpa [h] using hen

/-- Creating the bin changes one reading, that of its row. -/
theorem createRecycleBinGroup_readings {m m' : Mirror} {now : EpochMs} {u : Uuid}
    (hbin : m.recycleBinUuid = none) (hen : m.readRecycleBinEnabled = true)
    (h : m.createRecycleBinGroup now u = .ok m') {s : Subject} (hs : s ≠ .group u) :
    reading m' s = reading m s := by
  obtain ⟨-, -, hrows, hset⟩ := createRecycleBinGroup_rows hbin h
  cases s with
  | entry v => rw [reading, reading, createRecycleBinGroup_entries h]
  | group v => exact congrArg Reading.group (hrows v fun e => hs (congrArg Subject.group e))
  | setting key =>
    show readSetting m'.settings key = _
    rw [hset]
    exact readSetting_bin now (recycleBinEnabled_some hbin hen) key

theorem toldBy_told {α : Type} {r : Except EngineError (Mirror × α)} {m' : Mirror} {a : α}
    {ev : α → List ChangeEvent} (h : r = .ok (m', a)) (s : Subject) :
    toldBy (told r ev) s = toldBy (ev a) s := by rw [told_ok h]

/-- The events of a group deletion name what it lists. -/
theorem tells_of_lists {m : Mirror} {st : Mirror × DeleteGroupOutcome} (h : Lists (m, {}) st)
    {es : List ChangeEvent}
    (he : ∀ u ∈ st.2.deletedEntries.map (·.1), toldBy es (.entry u) = true)
    (hg : ∀ u ∈ st.2.deletedGroups.map (·.1), toldBy es (.group u) = true) : Tells es m st.1 := by
  intro s hne
  cases s with
  | entry u => exact he u (h.entries u fun e => hne (congrArg Reading.entry e))
  | group u => exact hg u (h.groups u fun e => hne (congrArg Reading.group e))
  | setting key =>
    have hset : st.1.settings = m.settings := h.settings
    exact absurd (by simp [reading, hset]) hne

theorem deletedEntries_named {out : DeleteGroupOutcome} {u : Uuid}
    (hu : u ∈ out.deletedEntries.map (·.1)) :
    u ∈ (ChangeEvent.entriesDeleted (Engine.deletedEntryInfos out)).entryUuids := by
  rwa [ChangeEvent.entryUuids, Engine.deletedEntryInfos, List.map_map]

theorem deletedGroups_named {out : DeleteGroupOutcome} {u : Uuid}
    (hu : u ∈ out.deletedGroups.map (·.1)) :
    u ∈ (ChangeEvent.groupsDeleted (Engine.deletedGroupInfos out)).groupUuids := by
  rwa [ChangeEvent.groupUuids, Engine.deletedGroupInfos, List.map_map]

theorem isEmpty_of_mem {α β : Type} {l : List α} {f : α → β} {b : β} (h : b ∈ l.map f) :
    l.isEmpty = false := by
  cases l with
  | nil => simp at h
  | cons => rfl

theorem deletionEvents_tell (out : DeleteGroupOutcome) :
    (∀ u ∈ out.deletedEntries.map (·.1), toldBy (deletionEvents out) (.entry u) = true) ∧
      ∀ u ∈ out.deletedGroups.map (·.1), toldBy (deletionEvents out) (.group u) = true := by
  refine ⟨fun u hu => toldBy_entry.2 ⟨_, ?_, deletedEntries_named hu⟩,
    fun u hu => toldBy_group.2 ⟨_, ?_, .inl (deletedGroups_named hu)⟩⟩
  · simp [deletionEvents, isEmpty_of_mem hu]
  · simp [deletionEvents]

theorem emptyingEvents_tell (out : DeleteGroupOutcome) :
    (∀ u ∈ out.deletedEntries.map (·.1), toldBy (emptyingEvents out) (.entry u) = true) ∧
      ∀ u ∈ out.deletedGroups.map (·.1), toldBy (emptyingEvents out) (.group u) = true := by
  refine ⟨fun u hu => toldBy_entry.2 ⟨_, ?_, deletedEntries_named hu⟩,
    fun u hu => toldBy_group.2 ⟨_, ?_, .inl (deletedGroups_named hu)⟩⟩
  · simp [emptyingEvents, isEmpty_of_mem hu]
  · simp [emptyingEvents, isEmpty_of_mem hu]

/-- An event for one entry names it. -/
theorem tells_entry {es : List ChangeEvent} {m m' : Mirror} {u : Uuid} (ev : ChangeEvent)
    (h : RowOnly u m m') (hev : ev ∈ es) (hu : u ∈ ev.entryUuids) : Tells es m m' :=
  tells_of_rowOnly h (toldBy_entry.2 ⟨ev, hev, hu⟩)

/-- An event for one group names it. -/
theorem tells_group {es : List ChangeEvent} {m m' : Mirror} {u : Uuid} (ev : ChangeEvent)
    (h : SameButGroups m m') (hg : ∀ v, v ≠ u → m'.groups.find? v = m.groups.find? v)
    (hev : ev ∈ es) (hu : u ∈ ev.groupUuids) : Tells es m m' :=
  tells_of_group h (toldBy_group.2 ⟨ev, hev, .inl hu⟩) hg

theorem tells_bin {m m' : Mirror} {enabled : Bool} (he : m'.entries = m.entries)
    (hs : m'.settings = { m.settings with
      recycleBinEnabled := some enabled
      recycleBinChanged := m'.settings.recycleBinChanged }) :
    Tells [.metaUpdated [keyRecycleBinEnabled, keyRecycleBinUuid]] m m' := by
  refine tells_of_settings he (.inr fun v => toldBy_group.2 ⟨_, List.mem_singleton.2 rfl, .inr ?_⟩)
    fun key hkey => ?_
  · simp [ChangeEvent.keys]
  · have hk : key ≠ keyRecycleBinEnabled := by
      rintro rfl
      refine absurd (toldBy_setting.2 ⟨_, List.mem_singleton.2 rfl, ?_⟩) (by rw [hkey]; simp)
      simp [ChangeEvent.keys]
    rw [hs]
    simp only [readSetting, hk, if_false]

/-- **What a structural mutation changes is told, but for a bin that a recycling creates.** -/
theorem StructuralOp.run_tells {m m' : Mirror} {op : StructuralOp} (h : op.run m = .ok m')
    {s : Subject} (hs : ¬ (EngineOp.structural op).silent m s) (hne : reading m' s ≠ reading m s) :
    toldBy ((EngineOp.structural op).events m) s = true := by
  have hrun := h
  cases run_commits h with
  | createGroup _ hins =>
    refine tells_group (.groupsAdded _) (insertGroup_same hins) (fun v hv => ?_)
      (List.mem_singleton.2 rfl) (List.mem_singleton.2 rfl) s hne
    rw [(insertGroup_find hins).2, if_neg (Ne.symm hv)]
  | @moveGroup u p now m' _ _ hset =>
    obtain ⟨⟨a, out⟩, ha, -⟩ := except_map_ok.1 hrun
    rw [EngineOp.events, toldBy_told ha]
    exact tells_group (.groupsMoved _) (setParent_same hset) (setParent_others hset)
      (List.mem_singleton.2 rfl) (List.mem_singleton.2 rfl) s hne
  | recycleGroup _ _ hset =>
    exact tells_group (.groupsRecycled _) (setParent_same hset) (setParent_others hset)
      (List.mem_singleton.2 rfl) (List.mem_singleton.2 rfl) s hne
  | reorderGroup =>
    obtain ⟨⟨a, order⟩, ha, heq⟩ := except_map_ok.1 hrun
    obtain ⟨hsame, hrows⟩ := reorderGroup_rows ha
    rw [← heq] at hne
    rw [EngineOp.events, toldBy_told ha]
    refine tells_of_groups hsame.entries hsame.settings (fun v hv => ?_) s hne
    have hmem : v ∈ order := by
      by_contra hn
      exact hv (hrows v hn)
    exact toldBy_group.2 ⟨_, List.mem_singleton.2 rfl, .inl hmem⟩
  | deleteGroup =>
    obtain ⟨st, hst, heq⟩ := except_map_ok.1 hrun
    rw [← heq] at hne
    have htell := deletionEvents_tell st.2
    rw [EngineOp.events, toldBy_told hst]
    exact tells_of_lists (deleteGroup_lists hst) htell.1 htell.2 s hne
  | noBin => exact absurd rfl hne
  | emptyBin =>
    obtain ⟨st, hst, heq⟩ := except_map_ok.1 hrun
    rw [← heq] at hne
    have htell := emptyingEvents_tell st.2
    rw [EngineOp.events, toldBy_told hst]
    exact tells_of_lists (emptyRecycleBin_lists hst) htell.1 htell.2 s hne
  | setBin =>
    refine Tells.told ?_ hne
    exact tells_bin rfl rfl
  | clearBin =>
    refine Tells.told ?_ hne
    exact tells_bin rfl rfl
  | moveEntry _ hplace =>
    obtain ⟨⟨a, out⟩, ha, -⟩ := except_map_ok.1 hrun
    rw [EngineOp.events, toldBy_told ha]
    exact tells_entry (.entriesMoved _) (placeEntry_row hplace).1 (List.mem_singleton.2 rfl)
      (List.mem_singleton.2 rfl) s hne
  | inBin => exact absurd rfl hne
  | recycled _ _ _ hplace =>
    exact tells_entry (.entriesRecycled _) (placeEntry_row hplace).1 (List.mem_singleton.2 rfl)
      (List.mem_singleton.2 rfl) s hne
  | @recycledNew u bin now row m₁ m' hrow hin hbin hen hnew hplace =>
    have hbinned : s ≠ .group bin := fun e => hs ⟨e, hbin, hen, row, hrow, hin⟩
    rw [← createRecycleBinGroup_readings hbin hen hnew hbinned] at hne
    exact tells_entry (.entriesRecycled _) (placeEntry_row hplace).1 (List.mem_singleton.2 rfl)
      (List.mem_singleton.2 rfl) s hne
  | deleted =>
    exact tells_entry (.entriesRecycled _) (deleteEntry_row m _).1 (List.mem_singleton.2 rfl)
      (List.mem_singleton.2 rfl) s hne
  | restored _ _ _ hplace =>
    exact tells_entry (.entriesRestored _) (placeEntry_row hplace).1 (List.mem_singleton.2 rfl)
      (List.mem_singleton.2 rfl) s hne
  | unflagged =>
    exact tells_entry (.entriesRestored _) (updateEntry_row m _ _ _ _).1 (List.mem_singleton.2 rfl)
      (List.mem_singleton.2 rfl) s hne
  | outside => exact absurd rfl hne

theorem tells_key {m m' : Mirror} (key : String) (he : m'.entries = m.entries)
    (hg : m'.groups = m.groups) (hs : ∀ k, k ≠ key →
      readSetting m'.settings k = readSetting m.settings k) : Tells [.metaUpdated [key]] m m' := by
  refine tells_of_settings he (.inl hg) fun k hk => hs k ?_
  rintro rfl
  refine absurd (toldBy_setting.2 ⟨_, List.mem_singleton.2 rfl, ?_⟩) (by rw [hk]; simp)
  simp [ChangeEvent.keys]

theorem EntryEdit.run_tells {H : HistoryLib} {m m' : Mirror} {u : Uuid} {e : EntryEdit}
    (h : e.run H m u = .ok m') : Tells (e.events m u) m m' := by
  have hone := (EntryEdit.run_editsRow h).rowOnly
  have hunchanged : ∀ {f now}, m.contentEdit H u now f = .ok m' →
      Engine.contentChanged u f m = false → m' = m := by
    intro f now hedit hsame
    unfold Mirror.contentEdit at hedit
    unfold Engine.contentChanged at hsame
    cases hrow : m.entries.find? u with
    | none => simp [hrow] at hedit
    | some row =>
      rw [hrow] at hedit hsame
      have hcontent : (f row).content = row.content := by simpa using hsame
      have hnone : EntryRow.finishEdit H m.settings now row (f row) = .ok none := if_pos hcontent
      dsimp only at hedit
      rw [hnone] at hedit
      exact (Except.ok.inj hedit).symm
  have hcontent : ∀ {f now}, m.contentEdit H u now f = .ok m' →
      Tells (if Engine.contentChanged u f m then [.entriesUpdated [u]] else []) m m' := by
    intro f now hedit
    cases hchanged : Engine.contentChanged u f m with
    | false =>
      rw [hunchanged hedit hchanged]
      exact .refl _ m
    | true =>
      exact tells_entry (.entriesUpdated [u]) hone (List.mem_singleton.2 rfl)
        (List.mem_singleton.2 rfl)
  cases e with
  | updateEntry upd now => exact hcontent h
  | saveEntry save now => exact hcontent h
  | setTags tags now =>
    exact tells_entry (.tagsChanged [u]) hone List.mem_cons_self (List.mem_singleton.2 rfl)
  | touchEntry usedAt =>
    cases usedAt with
    | none =>
      exact tells_entry (.entriesUpdated [u]) hone (List.mem_singleton.2 rfl)
        (List.mem_singleton.2 rfl)
    | some now =>
      exact tells_entry (.entryTouched u) hone (List.mem_singleton.2 rfl)
        (List.mem_singleton.2 rfl)
  | _ => exact tells_entry _ hone (List.mem_singleton.2 rfl) (List.mem_singleton.2 rfl)

/-- **What a mutation changes is told, but for a bin that a recycling creates.** -/
theorem EngineOp.run_tells {E : EngineEnv} {m m' : Mirror} {op : EngineOp} (h : op.run E m = .ok m')
    {s : Subject} (hs : ¬ op.silent m s) (hne : reading m' s ≠ reading m s) :
    toldBy (op.events m) s = true := by
  have hrun := h
  cases run_commits h with
  | structural h => exact StructuralOp.run_tells h hs hne
  | updateGroup =>
    refine Tells.told ?_ hne
    exact tells_group (.groupsUpdated _) ⟨rfl, rfl, rfl, rfl⟩
      (updateGroups_others (f := Mirror.applyGroupUpdate _ _) (fun _ => rfl) (fun _ => rfl))
      (List.mem_singleton.2 rfl) (List.mem_singleton.2 rfl)
  | createEntry h =>
    exact tells_entry (.entriesAdded _) (createEntry_row h).1 (List.mem_singleton.2 rfl)
      (List.mem_singleton.2 rfl) s hne
  | editEntry h => exact EntryEdit.run_tells h s hne
  | deleteEntry =>
    obtain ⟨⟨a, g⟩, ha, -⟩ := except_map_ok.1 hrun
    rw [EngineOp.events, toldBy_told ha]
    exact tells_entry (.entriesDeleted _) (deleteEntry_row m _).1 (List.mem_singleton.2 rfl)
      (List.mem_singleton.2 rfl) s hne
  | binPresent => exact absurd rfl hne
  | @binCreated now bin m' hbin hen hnew =>
    have hs : s = .group bin := by
      by_contra hn
      exact hne (createRecycleBinGroup_readings hbin hen hnew hn)
    subst hs
    refine toldBy_group.2 ⟨.groupsAdded [bin], ?_, .inl (List.mem_singleton.2 rfl)⟩
    simp [EngineOp.events, hbin, hen]
  | binDisabled => exact absurd rfl hne
  | iconPresent => exact absurd rfl hne
  | @iconAdded bytes now T hfind _ =>
    have hpooled : Engine.iconPooled m bytes = false := by
      simpa [Engine.iconPooled, List.find?_eq_none] using hfind
    rw [EngineOp.events, hpooled]
    refine Tells.told ?_ hne
    refine tells_key keyCustomIcons rfl rfl fun k hk => ?_
    simp only [readSetting, hk, if_false]
    rfl
  | setHistoryMaxItems =>
    refine Tells.told ?_ hne
    refine tells_key keyHistoryMaxItems rfl rfl fun k hk => ?_
    simp only [readSetting, hk, if_false]
    rfl
  | setHistoryMaxSize =>
    refine Tells.told ?_ hne
    refine tells_key keyHistoryMaxSize rfl rfl fun k hk => ?_
    simp only [readSetting, hk, if_false]
    rfl

/-- **A bin that a recycling creates is a row that comes, and is not told.** -/
theorem EngineOp.run_silent {E : EngineEnv} {m m' : Mirror} {op : EngineOp} (h : op.run E m = .ok m')
    {s : Subject} (hs : op.silent m s) :
    toldBy (op.events m) s = false ∧ (reading m s).size < (reading m' s).size := by
  cases op with
  | structural op =>
    cases op with
    | recycleEntry u now bin =>
      obtain ⟨rfl, hbin, hen, row, hrow, hin⟩ := hs
      refine ⟨?_, ?_⟩
      · rw [Bool.eq_false_iff, ne_eq, toldBy_group]
        simp [EngineOp.events, ChangeEvent.groupUuids, ChangeEvent.keys]
      · have hcommits : StructuralOp.Commits m (.recycleEntry u now bin) m' :=
          StructuralOp.run_commits h
        cases hcommits with
        | inBin hrow' hin' =>
          rw [hrow] at hrow'
          obtain rfl := Option.some.inj hrow'
          rw [hin] at hin'
          cases hin'
        | recycled _ _ hbin' _ =>
          rw [hbin] at hbin'
          cases hbin'
        | recycledNew _ _ _ _ hnew hplace =>
          obtain ⟨hnone, hsome, -⟩ := createRecycleBinGroup_rows hbin hnew
          obtain ⟨g, hg⟩ := Option.isSome_iff_exists.1 hsome
          have hafter : m'.groups.find? bin = some g := by
            rw [(placeEntry_row hplace).1.groups, hg]
          simp [reading, Reading.size, hnone, hafter]
        | deleted _ _ _ hen' =>
          rw [hen] at hen'
          cases hen'
    | _ => exact hs.elim
  | _ => exact hs.elim

/-! ## Imports -/

section Import

variable {H : HistoryLib} {iconUuid : List UInt8 → Uuid} {group u : Uuid} {p : PortableEntry}
  {now clock : EpochMs} {m : Mirror}

/-- The same entries, in the same order. -/
def SameEntries (a b : Mirror) : Prop := b.entries.keys = a.entries.keys

theorem SameEntries.refl (m : Mirror) : SameEntries m m := rfl

theorem SameEntries.trans {a b c : Mirror} (h : SameEntries a b) (h' : SameEntries b c) :
    SameEntries a c := Eq.trans h' h

/-- An edit in its transaction removes no entry. -/
theorem transact_edit_keys {e : EntryEdit} :
    Committing.Keeps SameEntries
      (Committing.transact fun m : Mirror => (e.run H m u).map fun m' => (m', PUnit.unit)) := by
  refine .transact .refl fun m m' _ h => ?_
  obtain ⟨a, ha, heq⟩ := except_map_ok.1 h
  obtain ⟨rfl, -⟩ := Prod.mk.inj heq
  exact (EntryEdit.run_editsRow ha).keys

theorem importEdits_keys : Committing.Keeps SameEntries (importEdits H p now u) := by
  unfold importEdits
  have hattach : ∀ a : PortableAttachment, Committing.Keeps SameEntries (Committing.transact
      fun m : Mirror => (m.setAttachment H u a.name a.bytes now).map fun m' => (m', PUnit.unit)) :=
    fun a => transact_edit_keys (H := H) (e := .setAttachment a.name a.bytes now)
  have hloop := Committing.Keeps.forM .refl .trans hattach p.attachments
  have hrest := Committing.Keeps.bind (R := SameEntries) (k := fun _ => pure u) .trans hloop
    fun _ _ _ _ => .pure .refl u
  cases p.expiresAt with
  | some expiry =>
    have hpatch := transact_edit_keys (H := H) (u := u)
      (e := .updateEntry { expiresAt := some (some expiry) } now)
    exact .bind (R := SameEntries) .trans hpatch fun _ _ _ _ => hrest
  | none => exact hrest

/-- An import that writes the row of `u` creates it. -/
theorem importEntry_row {m' : Mirror}
    (h : ((Mirror.importEntry H iconUuid group p now clock u).runFrom m).2 = m')
    (hne : m'.entries.find? u ≠ m.entries.find? u) :
    m.entries.find? u = none ∧ (m'.entries.find? u).isSome := by
  have hicon := importIcon_step iconUuid clock p m
  rw [importEntry_steps, Committing.runFrom_bind] at h
  cases hi : (Mirror.importIcon iconUuid clock p).runFrom m with
  | mk a m₁ =>
    rw [hi] at hicon h
    have hold : m₁.entries = m.entries := hicon.entries
    cases a with
    | error e =>
      obtain rfl : m₁ = m' := h
      exact absurd (by rw [hold]) hne
    | ok icon =>
      dsimp only at h
      rw [Committing.runFrom_bind] at h
      cases hc : m₁.createEntry group (Mirror.importFields p icon) now u with
      | error e =>
        rw [Committing.runFrom_transact_error hc] at h
        obtain rfl : m₁ = m' := h
        exact absurd (by rw [hold]) hne
      | ok r =>
        obtain ⟨m₂, v⟩ := r
        rw [Committing.runFrom_transact hc] at h
        obtain ⟨-, hnone, hrow, -⟩ := createEntry_row hc
        rw [hold] at hnone
        refine ⟨hnone, ?_⟩
        obtain rfl := createEntry_uuid hc
        have hkeys : SameEntries m₂ ((importEdits H p now v).runFrom m₂).2 := importEdits_keys m₂
        rw [show ((importEdits H p now v).runFrom m₂).2 = m' from h] at hkeys
        rw [Table.find?_isSome, show m'.entries.keys = _ from hkeys, ← Table.find?_isSome, hrow]
        rfl

/-- An import returns the uuid it was given. -/
theorem importEntry_uuid {m' : Mirror} {v : Uuid}
    (h : (Mirror.importEntry H iconUuid group p now clock u).runFrom m = (.ok v, m')) : v = u := by
  have hedits : ∀ {w : Uuid} {a b : Mirror}, (importEdits H p now w).runFrom a = (.ok v, b) → v = w := by
    intro w a b h
    have hlast : ∀ {x : Committing Mirror EngineError PUnit} {a b : Mirror},
        (x >>= fun _ => pure w).runFrom a = (.ok v, b) → v = w := by
      intro x a b h
      obtain ⟨_, _, -, h⟩ := Committing.of_runFrom_bind_ok h
      exact (Except.ok.inj (Prod.mk.inj h).1).symm
    unfold importEdits at h
    split at h
    · obtain ⟨_, _, -, h⟩ := Committing.of_runFrom_bind_ok h
      exact hlast h
    · exact hlast h
  rw [importEntry_steps] at h
  obtain ⟨icon, m₁, -, hrest⟩ := Committing.of_runFrom_bind_ok h
  obtain ⟨w, m₂, hcreate, hlast⟩ := Committing.of_runFrom_bind_ok hrest
  rw [createEntry_uuid (Committing.of_runFrom_transact hcreate)] at hlast
  exact hedits hlast

/-- **What an import changes, returning or failing, is a row that comes.** -/
theorem importEntry_grows {m' : Mirror}
    (h : ((Mirror.importEntry H iconUuid group p now clock u).runFrom m).2 = m') {s : Subject}
    (hne : reading m' s ≠ reading m s) :
    (s = .entry u ∨ s = .setting keyCustomIcons) ∧ (reading m s).size < (reading m' s).size := by
  have hframe : ImportFrame u m ((Mirror.importEntry H iconUuid group p now clock u).runFrom m).2 :=
    importEntry_frame m
  rw [h] at hframe
  cases s with
  | entry v =>
    by_cases e : v = u
    · subst e
      obtain ⟨hnone, hsome⟩ := importEntry_row h fun e => hne (congrArg Reading.entry e)
      obtain ⟨row, hrow⟩ := Option.isSome_iff_exists.1 hsome
      exact ⟨.inl rfl, by simp [reading, Reading.size, hnone, hrow]⟩
    · exact absurd (congrArg Reading.entry (hframe.entries v e)) hne
  | group v => exact absurd (by simp [reading, hframe.groups]) hne
  | setting key =>
    have hset : m'.settings = { m.settings with customIcons := m'.settings.customIcons } := by
      rw [← hframe.settings]
    by_cases hkey : key = keyCustomIcons
    · subst hkey
      refine ⟨.inr rfl, ?_⟩
      rcases hframe.icons with hsame | ⟨icon, hins⟩
      · refine absurd ?_ hne
        show readSetting m'.settings _ = _
        rw [hset, hsame]
        rfl
      · show (readSetting m.settings _).size < (readSetting m'.settings _).size
        have hlen : m'.settings.customIcons.rows.length = m.settings.customIcons.rows.length + 1 := by
          rw [(Table.insert?_eq_some.1 hins).2, List.length_append]
          rfl
        have hread : ∀ s : Settings, readSetting s keyCustomIcons = .icons s.customIcons :=
          fun _ => rfl
        rw [hread, hread, Reading.size, Reading.size, hlen]
        omega
    · refine absurd ?_ hne
      show readSetting m'.settings key = readSetting m.settings key
      rw [hset]
      simp only [readSetting, hkey, if_false]

/-- An import that adds no icon leaves the pool. -/
theorem importEntry_icons {m' : Mirror} (hin : Engine.iconInserted m p = false)
    (h : ((Mirror.importEntry H iconUuid group p now clock u).runFrom m).2 = m') :
    m'.settings = m.settings := by
  have hicon : ((Mirror.importIcon iconUuid clock p).runFrom m).2 = m := by
    unfold Mirror.importIcon
    split
    · rename_i v bytes hcustom hbytes
      have hpooled : Engine.iconPooled m bytes = true := by
        simpa [Engine.iconInserted, hcustom, hbytes] using hin
      obtain ⟨icon, hicon⟩ : ∃ icon, m.settings.customIcons.rows.find? (·.bytes = bytes) = some icon :=
        Option.isSome_iff_exists.1 (by simpa [Engine.iconPooled, List.find?_isSome] using hpooled)
      have hadd : m.addCustomIcon iconUuid bytes clock = .ok (m, icon.uuid) := by
        unfold Mirror.addCustomIcon
        rw [hicon]
      rw [Committing.runFrom_bind_ok (Committing.runFrom_transact hadd), Committing.runFrom_pure]
    · rfl
    · rfl
  rw [importEntry_steps, Committing.runFrom_bind] at h
  cases hi : (Mirror.importIcon iconUuid clock p).runFrom m with
  | mk a m₁ =>
    rw [hi] at hicon h
    obtain rfl : m₁ = m := hicon
    cases a with
    | error e => rw [← h]
    | ok icon =>
      have hedits := Committing.Keeps.bind (k := importEdits H p now) .trans
        (transact_create_keeps group u (Mirror.importFields p icon) now) fun s v s' hv => by
            rw [createEntry_uuid (Committing.of_runFrom_transact hv)]
            exact importEdits_keeps H u p now
      rw [← h]
      exact (hedits m₁).settings

end Import

/-! ## Calls -/

/-- The calls of the engine that change the mirror by mutations. -/
inductive EngineCall where
  | mutate (op : EngineOp)
  | restoreGroup (u newParent : Uuid) (now : EpochMs)
  | importEntry (group : Uuid) (p : PortableEntry) (now clock : EpochMs) (newUuid : Uuid)

namespace EngineCall

variable (Λ : Libs)

def run : EngineCall → Call PUnit
  | mutate op => op.call Λ
  | restoreGroup u p now => Engine.restoreGroup u p now
  | importEntry g p now clock u =>
    discard (Engine.importEntry Λ.env.history Λ.env.iconUuid g p now clock u)

/-- What a call from `m` leaves, with the events of the call. -/
def outcome (m : Mirror) (c : EngineCall) : Observed := ((c.run Λ).runFrom ⟨m, []⟩).2

/-- Does the call return? -/
def returns (m : Mirror) (c : EngineCall) : Bool := ((c.run Λ).runFrom ⟨m, []⟩).1.isOk

/-- The call changes the subject and does not tell: the bin created for a recycling, and what an import
that failed has committed. -/
def Silent (m : Mirror) (c : EngineCall) (s : Subject) : Prop :=
  match c with
  | mutate op => c.returns Λ m = true ∧ op.silent m s
  | restoreGroup _ _ _ => False
  | importEntry _ _ _ _ _ =>
    c.returns Λ m = false ∧ reading (c.outcome Λ m).mirror s ≠ reading m s

end EngineCall

section Calls

variable {Λ : Libs} {m : Mirror}

/-- A call that yields what a mutation returns. -/
theorem Yields.outcome {c : EngineCall} {r : Except EngineError Mirror} {es : List ChangeEvent}
    (h : Yields (c.run Λ) m r es) :
    (∃ m', r = .ok m' ∧ c.outcome Λ m = ⟨m', es⟩ ∧ c.returns Λ m = true) ∨
      (∃ e, r = .error e) ∧ c.outcome Λ m = ⟨m, []⟩ ∧ c.returns Λ m = false := by
  cases r with
  | ok m' =>
    obtain ⟨a, ha⟩ := h []
    refine .inl ⟨m', rfl, ?_, ?_⟩
    · rw [EngineCall.outcome, ha, List.nil_append]
    · rw [EngineCall.returns, ha]
      rfl
  | error e =>
    refine .inr ⟨⟨e, rfl⟩, ?_, ?_⟩
    · rw [EngineCall.outcome, h []]
    · rw [EngineCall.returns, h []]
      rfl

theorem restoreGroup_yields (u p : Uuid) (now : EpochMs) :
    Yields ((EngineCall.restoreGroup u p now).run Λ) m ((EngineOp.structural (.moveGroup u p now)).run
      Λ.env m) [.groupsRestored [u]] :=
  plainEdit_yields _ _

/-- A restored group is named as a moved one is. -/
theorem restoreGroup_tells {m' : Mirror} {u p : Uuid} {now : EpochMs}
    (h : (StructuralOp.moveGroup u p now).run m = .ok m') : Tells [.groupsRestored [u]] m m' := by
  cases StructuralOp.run_commits h with
  | moveGroup _ _ hset =>
    exact tells_group (.groupsRestored _) (setParent_same hset) (setParent_others hset)
      (List.mem_singleton.2 rfl) (List.mem_singleton.2 rfl)

/-- The outcome of an import. -/
theorem importEntry_outcome (g u : Uuid) (p : PortableEntry) (now clock : EpochMs) :
    ∃ m', ((Mirror.importEntry Λ.env.history Λ.env.iconUuid g p now clock u).runFrom m).2 = m' ∧
      ((EngineCall.importEntry g p now clock u).outcome Λ m = ⟨m', .entriesAdded [u] ::
          if Engine.iconInserted m p then [.metaUpdated [keyCustomIcons]] else []⟩ ∧
        (EngineCall.importEntry g p now clock u).returns Λ m = true ∨
      (EngineCall.importEntry g p now clock u).outcome Λ m = ⟨m', []⟩ ∧
        (EngineCall.importEntry g p now clock u).returns Λ m = false) := by
  refine ⟨_, rfl, ?_⟩
  have hrun := importEntry_runFrom Λ.env.history Λ.env.iconUuid g u p now clock m []
  cases h : (Mirror.importEntry Λ.env.history Λ.env.iconUuid g p now clock u).runFrom m with
  | mk r m' =>
    rw [h] at hrun
    cases r with
    | ok v =>
      obtain rfl := importEntry_uuid h
      have hcall := Committing.runFrom_bind_ok (k := fun _ => (pure ⟨⟩ : Call PUnit)) hrun
      left
      constructor
      · exact congrArg Prod.snd hcall
      · exact congrArg (fun r => r.1.isOk) hcall
    | error e =>
      have hcall : ((EngineCall.importEntry g p now clock u).run Λ).runFrom ⟨m, []⟩ =
          (.error e, ⟨m', []⟩) := by
        show (Engine.importEntry _ _ _ _ _ _ _ >>= fun _ => pure PUnit.unit).runFrom _ = _
        rw [Committing.runFrom_bind, hrun]
      right
      constructor
      · exact congrArg Prod.snd hcall
      · exact congrArg (fun r => r.1.isOk) hcall

/-- What is the case of a call that yields what a mutation returns. -/
theorem Yields.told_iff {c : EngineCall} {r : Except EngineError Mirror} {es : List ChangeEvent}
    (h : Yields (c.run Λ) m r es) (hc : m.conflicts.rows = [])
    (hconf : ∀ m', r = .ok m' → m'.conflicts = m.conflicts) {Q : Subject → Prop}
    (hQ : ∀ s, c.Silent Λ m s ↔ c.returns Λ m = true ∧ Q s)
    (htells : ∀ m' s, r = .ok m' → ¬ Q s → reading m' s ≠ reading m s → toldBy es s = true)
    (hsilent : ∀ m' s, r = .ok m' → Q s →
      toldBy es s = false ∧ (reading m s).size < (reading m' s).size) (s : Subject) :
    (reading (c.outcome Λ m).mirror s ≠ reading m s ∧ toldBy (c.outcome Λ m).heard s = false ↔
      c.Silent Λ m s) ∧
    (c.Silent Λ m s → (reading m s).size < (reading (c.outcome Λ m).mirror s).size) ∧
      (c.outcome Λ m).mirror.conflicts.rows = [] := by
  rw [hQ]
  rcases h.outcome with ⟨m', hr, hout, hret⟩ | ⟨-, hout, hret⟩
  · rw [hout, hret]
    refine ⟨⟨fun ⟨hne, htold⟩ => ⟨rfl, ?_⟩, fun ⟨_, hs⟩ => ?_⟩, fun ⟨_, hs⟩ => (hsilent m' s hr hs).2, ?_⟩
    · by_contra hn
      rw [htells m' s hr hn hne] at htold
      cases htold
    · obtain ⟨htold, hlt⟩ := hsilent m' s hr hs
      refine ⟨fun heq => ?_, htold⟩
      rw [show reading m' s = reading m s from heq] at hlt
      omega
    · show m'.conflicts.rows = []
      rw [hconf m' hr, hc]
  · rw [hout, hret]
    simp [hc]

/-- **A call's changes are told or silent, and no silent one is told.** -/
theorem EngineCall.told_iff (hc : m.conflicts.rows = []) (c : EngineCall) (s : Subject) :
    (reading (c.outcome Λ m).mirror s ≠ reading m s ∧ toldBy (c.outcome Λ m).heard s = false ↔
      c.Silent Λ m s) ∧
    (c.Silent Λ m s → (reading m s).size < (reading (c.outcome Λ m).mirror s).size) ∧
      (c.outcome Λ m).mirror.conflicts.rows = [] := by
  cases c with
  | mutate op =>
    exact Yields.told_iff (c := .mutate op) (op.call_yields hc) hc
      (fun _ h => EngineOp.run_conflicts h) (fun _ => Iff.rfl)
      (fun _ _ h hs hne => EngineOp.run_tells h hs hne) (fun _ _ h hs => EngineOp.run_silent h hs) s
  | restoreGroup u p now =>
    exact Yields.told_iff (c := .restoreGroup u p now) (restoreGroup_yields u p now) hc
      (fun _ h => EngineOp.run_conflicts h) (Q := fun _ => False) (fun _ => by simp [Silent])
      (fun _ s h _ hne => restoreGroup_tells h s hne) (fun _ _ _ hs => hs.elim) s
  | importEntry g p now clock u =>
    obtain ⟨m', hm', hout⟩ := importEntry_outcome (Λ := Λ) (m := m) g u p now clock
    have hframe : ImportFrame u m
        ((Mirror.importEntry Λ.env.history Λ.env.iconUuid g p now clock u).runFrom m).2 :=
      importEntry_frame m
    rw [hm'] at hframe
    have hconf : m'.conflicts.rows = [] := by rw [hframe.conflicts, hc]
    rcases hout with ⟨hout, hret⟩ | ⟨hout, hret⟩
    · have hloud : ¬ (importEntry g p now clock u).Silent Λ m s := by
        simp [Silent, hret]
      refine ⟨iff_of_false (fun hquiet => ?_) hloud, fun h => absurd h hloud, by rw [hout]; exact hconf⟩
      rw [hout] at hquiet
      obtain ⟨hne, htold⟩ := hquiet
      rcases (importEntry_grows hm' hne).1 with rfl | rfl
      · refine Bool.false_ne_true (htold.symm.trans (toldBy_entry.2 ⟨.entriesAdded [u], ?_, ?_⟩))
        · exact List.mem_cons_self
        · exact List.mem_singleton.2 rfl
      · cases hin : Engine.iconInserted m p with
        | false =>
          refine hne ?_
          show readSetting m'.settings _ = readSetting m.settings _
          rw [importEntry_icons hin hm']
        | true =>
          rw [hin, if_pos rfl] at htold
          refine Bool.false_ne_true (htold.symm.trans
            (toldBy_setting.2 ⟨.metaUpdated [keyCustomIcons], ?_, ?_⟩))
          · exact List.mem_cons_of_mem _ (List.mem_singleton.2 rfl)
          · exact List.mem_singleton.2 rfl
    · have hsilent : (importEntry g p now clock u).Silent Λ m s ↔ reading m' s ≠ reading m s := by
        simp [Silent, hret, hout]
      rw [hsilent, hout]
      exact ⟨by simp [toldBy], fun hne => (importEntry_grows hm' hne).2, hconf⟩

end Calls

/-- Root `1`, group `2` with entry `9` and group `3`, and a bin that is enabled and not there. -/
def binlessMirror : Mirror := (nestedMirror false).writeRecycleBinEnabled true

/-! ## Runs -/

section Runs

variable (Λ : Libs)

/-- The steps of a run of calls, as an observer hears them. -/
def runCalls : Mirror → List EngineCall → List (Notices.Step Mirror Subject)
  | _, [] => []
  | m, c :: calls =>
    ⟨toldBy (c.outcome Λ m).heard, (c.outcome Λ m).mirror⟩ :: runCalls (c.outcome Λ m).mirror calls

/-- The subjects changed silently and not told since. -/
def unannounced : Mirror → Set Subject → List EngineCall → Set Subject
  | _, D, [] => D
  | m, D, c :: calls =>
    unannounced (c.outcome Λ m).mirror
      {s | toldBy (c.outcome Λ m).heard s = false ∧ (s ∈ D ∨ c.Silent Λ m s)} calls

variable {Λ} {m : Mirror}

theorem runCalls_grows (hc : m.conflicts.rows = []) (calls : List EngineCall) :
    Notices.Grows reading Reading.size m (runCalls Λ m calls) := by
  induction calls generalizing m with
  | nil => trivial
  | cons c calls ih =>
    refine ⟨fun s htold hne => ?_, ih (c.told_iff hc (.entry default)).2.2⟩
    have h := c.told_iff (Λ := Λ) hc s
    exact h.2.1 (h.1.1 ⟨hne, htold⟩)

theorem missed_eq (hc : m.conflicts.rows = []) (D : Set Subject) (calls : List EngineCall) :
    Notices.missed reading m D (runCalls Λ m calls) = unannounced Λ m D calls := by
  induction calls generalizing m D with
  | nil => rfl
  | cons c calls ih =>
    have hstep : {s | toldBy (c.outcome Λ m).heard s = false ∧
        (s ∈ D ∨ reading (c.outcome Λ m).mirror s ≠ reading m s)} =
          {s | toldBy (c.outcome Λ m).heard s = false ∧ (s ∈ D ∨ c.Silent Λ m s)} := by
      ext s
      have h := (c.told_iff (Λ := Λ) hc s).1
      refine and_congr_right fun htold => or_congr Iff.rfl ?_
      rw [← h]
      exact ⟨fun hne => ⟨hne, htold⟩, fun hne => hne.1⟩
    unfold runCalls Notices.missed unannounced
    dsimp only
    rw [hstep]
    exact ih (c.told_iff hc (.entry default)).2.2 _

/-- **An observer that reads again what it is told has everything right but what no event announced.**
After any calls on a mirror without parked conflicts, some of which may fail, the copy of a subject is
what the mirror reads if and only if it was not changed silently and left untold since. -/
theorem observer_exact (Λ : Libs) {m : Mirror} (hc : m.conflicts.rows = []) (calls : List EngineCall)
    (s : Subject) :
    Notices.copyAfter reading (reading m) (runCalls Λ m calls) s =
      reading (Notices.stateAfter m (runCalls Λ m calls)) s ↔ s ∉ unannounced Λ m ∅ calls := by
  rw [Notices.copy_eq_iff (runCalls_grows hc calls), missed_eq hc]

/-- The bin that the recycling of `9` created is missed. -/
theorem observer_misses_bin :
    Notices.copyAfter reading (reading binlessMirror)
        (runCalls plainLibs binlessMirror [.mutate (.structural (.recycleEntry 9 default 5))])
        (.group 5) ≠
      reading (Notices.stateAfter binlessMirror
        (runCalls plainLibs binlessMirror [.mutate (.structural (.recycleEntry 9 default 5))]))
        (.group 5) := by
  refine (not_congr (observer_exact plainLibs rfl _ _)).2 (not_not_intro ?_)
  refine ⟨?_, .inr ⟨?_, rfl, rfl, rfl, _, rfl, rfl⟩⟩
  · decide
  · decide

end Runs

end KeysCore.Verify
