import KeysCore.Verify.Cascade
import KeysCore.Verify.EngineOps
import KeysCore.Verify.PeerPull
import KeysCore.Verify.Replicas
import KeysCore.Verify.FieldMerge
import KeysCore.Verify.StructuralRuns

/-!
# A live object carries no tombstone

Entries and groups share the table of deleted objects, keyed by uuid alone. A mutation is followed
through its `Footprint`: the uuids it creates, and the entries and groups it removes and tombstones.
`untombstoned_step`: the mirror stays free of tombstones of live objects if and only if the
mutation spares the footprint, that is, a created uuid has no tombstone and a removed entry or group
leaves no live object of the other kind under its uuid. A pull always does
(`ingestPeer_untombstoned`): its last pass settles the tombstones from the tree it leaves.
-/

namespace KeysCore.Verify

open Lib Lib.Forest

/-- No live entry or group has a tombstone. -/
structure Untombstoned (m : Mirror) : Prop where
  entries : ∀ u ∈ m.entries.keys, u ∉ m.tombstones.keys
  groups : ∀ u ∈ m.groups.keys, u ∉ m.tombstones.keys

/-! ## Footprints -/

/-- The uuids a mutation creates, and those it removes and tombstones. -/
structure Footprint where
  createdEntry : Option Uuid := none
  createdGroup : Option Uuid := none
  removedEntry : Uuid → Prop := fun _ => False
  removedGroup : Uuid → Prop := fun _ => False

/-- What is below `cs` goes, with the entries in it. -/
def Footprint.subtrees (m : Mirror) (cs : List Uuid) : Footprint where
  removedEntry u := ∃ e ∈ m.entries.rows, e.uuid = u ∧ Below m.groups cs e.groupUuid
  removedGroup u := Below m.groups cs u

/-- The bin is created when it is enabled and absent. -/
def Footprint.bin (m : Mirror) (binUuid : Uuid) : Footprint where
  createdGroup := if m.recycleBinUuid.isNone && m.readRecycleBinEnabled then some binUuid else none

def StructuralOp.footprint (m : Mirror) : StructuralOp → Footprint
  | createGroup _ _ _ u => { createdGroup := some u }
  | deleteGroup u _ => .subtrees m [u]
  | emptyRecycleBin _ =>
    match m.recycleBinUuid with
    | none => {}
    | some bin =>
      { Footprint.subtrees m (m.childGroups bin) with
        removedEntry := fun u => ∃ e ∈ m.entries.rows, e.uuid = u ∧ Below m.groups [bin] e.groupUuid }
  | recycleEntry u _ binUuid =>
    match m.entries.find? u with
    | none => {}
    | some row =>
      if m.groupInBinSubtree row.groupUuid then {}
      else
        { Footprint.bin m binUuid with
          removedEntry := fun v => v = u ∧ m.recycleBinUuid = none ∧ m.readRecycleBinEnabled = false }
  | _ => {}

def EngineOp.footprint (m : Mirror) : EngineOp → Footprint
  | structural op => op.footprint m
  | createEntry _ _ _ u => { createdEntry := some u }
  | deleteEntry u _ => { removedEntry := (· = u) }
  | ensureRecycleBin _ binUuid => .bin m binUuid
  | _ => {}

/-- A created uuid has no tombstone, and what is removed under a uuid leaves no object of the other
kind under it. -/
structure Footprint.Spares (f : Footprint) (m : Mirror) : Prop where
  createdEntry : ∀ u ∈ f.createdEntry, u ∉ m.tombstones.keys
  createdGroup : ∀ u ∈ f.createdGroup, u ∉ m.tombstones.keys
  removedEntry : ∀ u, f.removedEntry u → u ∈ m.groups.keys → f.removedGroup u
  removedGroup : ∀ u, f.removedGroup u → u ∈ m.entries.keys → f.removedEntry u

/-- The uuids of `m'` are those of `m` changed by the footprint. -/
structure Footprint.Leaves (f : Footprint) (m m' : Mirror) : Prop where
  entries : ∀ u, u ∈ m'.entries.keys ↔ u ∈ f.createdEntry ∨ u ∈ m.entries.keys ∧ ¬ f.removedEntry u
  groups : ∀ u, u ∈ m'.groups.keys ↔ u ∈ f.createdGroup ∨ u ∈ m.groups.keys ∧ ¬ f.removedGroup u
  tombstones : ∀ u, u ∈ m'.tombstones.keys ↔
    u ∈ m.tombstones.keys ∨ f.removedEntry u ∨ f.removedGroup u
  apart : ∀ u, f.removedEntry u ∨ f.removedGroup u → f.createdEntry = none ∧ f.createdGroup = none

/-- **The invariant through a footprint.** -/
theorem Footprint.Leaves.untombstoned_iff {f : Footprint} {m m' : Mirror} (h : f.Leaves m m')
    (hm : Untombstoned m) : Untombstoned m' ↔ f.Spares m := by
  constructor
  · rintro ⟨he, hg⟩
    refine ⟨fun u hu ht => ?_, fun u hu ht => ?_, fun u hr hmem => ?_, fun u hr hmem => ?_⟩
    · exact he u ((h.entries u).2 (.inl hu)) ((h.tombstones u).2 (.inl ht))
    · exact hg u ((h.groups u).2 (.inl hu)) ((h.tombstones u).2 (.inl ht))
    · by_contra hn
      exact hg u ((h.groups u).2 (.inr ⟨hmem, hn⟩)) ((h.tombstones u).2 (.inr (.inl hr)))
    · by_contra hn
      exact he u ((h.entries u).2 (.inr ⟨hmem, hn⟩)) ((h.tombstones u).2 (.inr (.inr hr)))
  · intro hs
    refine ⟨fun u hu ht => ?_, fun u hu ht => ?_⟩
    · rcases (h.tombstones u).1 ht with ht | hr
      · rcases (h.entries u).1 hu with hc | ⟨hmem, -⟩
        · exact hs.createdEntry u hc ht
        · exact hm.entries u hmem ht
      · rcases (h.entries u).1 hu with hc | ⟨hmem, hn⟩
        · rw [(h.apart u hr).1] at hc
          cases hc
        · exact hr.elim hn fun hr => hn (hs.removedGroup u hr hmem)
    · rcases (h.tombstones u).1 ht with ht | hr
      · rcases (h.groups u).1 hu with hc | ⟨hmem, -⟩
        · exact hs.createdGroup u hc ht
        · exact hm.groups u hmem ht
      · rcases (h.groups u).1 hu with hc | ⟨hmem, hn⟩
        · rw [(h.apart u hr).2] at hc
          cases hc
        · exact hr.elim (fun hr => hn (hs.removedEntry u hr hmem)) hn

/-- The uuids left when the entries in groups of `Q` go. -/
theorem keys_of_entries {T U : Table EntryRow.uuid} {Q : Uuid → Prop}
    (h : ∀ e, e ∈ U.rows ↔ e ∈ T.rows ∧ ¬ Q e.groupUuid) (u : Uuid) :
    u ∈ U.keys ↔ u ∈ T.keys ∧ ¬ ∃ e ∈ T.rows, e.uuid = u ∧ Q e.groupUuid := by
  constructor
  · intro hu
    obtain ⟨e, he, rfl⟩ := Table.mem_keys.1 hu
    obtain ⟨he', hn⟩ := (h e).1 he
    refine ⟨Table.key_mem he', ?_⟩
    rintro ⟨e₂, he₂, hk, hb⟩
    rw [Table.eq_of_key he₂ he' hk] at hb
    exact hn hb
  · rintro ⟨hu, hn⟩
    obtain ⟨e, he, rfl⟩ := Table.mem_keys.1 hu
    exact Table.key_mem ((h e).2 ⟨he, fun hb => hn ⟨e, he, rfl, hb⟩⟩)

namespace Footprint.Leaves

variable {m m' : Mirror}

/-- No object comes or goes. -/
theorem same (he : m'.entries.keys = m.entries.keys) (hg : ∀ u, u ∈ m'.groups.keys ↔ u ∈ m.groups.keys)
    (ht : m'.tombstones = m.tombstones) : ({} : Footprint).Leaves m m' := by
  refine ⟨fun u => ?_, fun u => ?_, fun u => ?_, fun u h => ?_⟩
  · simp [he]
  · simp [hg u]
  · simp [ht]
  · simp at h

theorem refl (m : Mirror) : ({} : Footprint).Leaves m m := same rfl (fun _ => Iff.rfl) rfl

theorem of_rowOnly {u : Uuid} (h : RowOnly u m m') (hk : m'.entries.keys = m.entries.keys) :
    ({} : Footprint).Leaves m m' :=
  same hk (fun _ => by rw [h.groups]) h.tombstones

theorem of_subtrees {cs : List Uuid} (h : RemovesSubtrees m m' cs) :
    (Footprint.subtrees m cs).Leaves m m' := by
  refine ⟨fun u => ?_, fun u => ?_, fun u => ?_, fun u _ => ⟨rfl, rfl⟩⟩
  · rw [keys_of_entries h.entries]
    simp [Footprint.subtrees]
  · rw [h.groups.not_below]
    simp [Footprint.subtrees]
  · rw [h.tombstones u]
    exact or_congr Iff.rfl or_comm

/-- A later statement that only rewrites rows leaves the footprint. -/
theorem rewritten {f : Footprint} {m'' : Mirror} (h : f.Leaves m m')
    (he : m''.entries.keys = m'.entries.keys) (hg : ∀ u, u ∈ m''.groups.keys ↔ u ∈ m'.groups.keys)
    (ht : m''.tombstones = m'.tombstones) : f.Leaves m m'' :=
  ⟨fun u => by rw [he]; exact h.entries u, fun u => (hg u).trans (h.groups u),
    fun u => by rw [ht]; exact h.tombstones u, h.apart⟩

/-- One entry goes. -/
theorem deleteEntry (m : Mirror) (u : Uuid) (now : EpochMs) :
    ({ removedEntry := (· = u) } : Footprint).Leaves m
      ((m.deleteEntries (fun e => e.uuid = u)).recordTombstone u now) := by
  refine ⟨fun v => ?_, fun v => ?_, fun v => ?_, fun v _ => ⟨rfl, rfl⟩⟩
  · show v ∈ (m.entries.erase u).keys ↔ _
    rw [Table.mem_keys_erase]
    simp [and_comm]
  · simp [Mirror.recordTombstone, Mirror.putTombstone, Mirror.deleteEntries]
  · rw [recordTombstone_keys]
    simp [Mirror.deleteEntries, or_comm]

end Footprint.Leaves

/-! ## The mutations -/

theorem updateGroups_keys (m : Mirror) (p : GroupRow → Prop) [DecidablePred p]
    (f : GroupRow → GroupRow) (hu : ∀ r, (f r).uuid = r.uuid)
    (hp : ∀ r, (f r).parentUuid = r.parentUuid) :
    (m.updateGroups p f hu hp).groups.keys = m.groups.keys := by
  simp [Mirror.updateGroups]

theorem insertGroup_leaves {m m' : Mirror} {g : GroupRow} (h : m.insertGroup g = .ok m') :
    ({ createdGroup := some g.uuid } : Footprint).Leaves m m' := by
  have hsame := insertGroup_same h
  refine ⟨fun u => ?_, fun u => ?_, fun u => ?_, fun u h => ?_⟩
  · simp [hsame.entries]
  · rw [insertGroup_keys h]
    simp [eq_comm]
  · simp [hsame.tombstones]
  · simp at h

theorem writeRecycleBinGroup_keys (m : Mirror) (u : Uuid) :
    (m.writeRecycleBinGroup u).groups.keys = m.groups.keys := by
  unfold Mirror.writeRecycleBinGroup
  rw [updateGroups_keys, updateGroups_keys]

theorem createRecycleBinGroup_leaves {m m' : Mirror} {now : EpochMs} {u : Uuid}
    (h : m.createRecycleBinGroup now u = .ok m') :
    ({ createdGroup := some u } : Footprint).Leaves m m' := by
  unfold Mirror.createRecycleBinGroup at h
  split at h
  · cases h
  · obtain ⟨a, ha, h⟩ := except_bind_ok.1 h
    obtain rfl := Except.ok.inj h
    refine (insertGroup_leaves ha).rewritten rfl (fun v => ?_) rfl
    show v ∈ (a.writeRecycleBinGroup u).groups.keys ↔ _
    rw [writeRecycleBinGroup_keys]

theorem placeEntry_keys {m m' : Mirror} {u g : Uuid} {f : EntryRow → EntryRow}
    {hu : ∀ r, (f r).uuid = r.uuid} (h : m.placeEntry u g f hu = .ok m') :
    m'.entries.keys = m.entries.keys := by
  unfold Mirror.placeEntry at h
  split at h
  · obtain rfl := Except.ok.inj h
    simp only [Table.keys_modify]
  · split at h
    · cases h
    · obtain rfl := Except.ok.inj h
      rfl

theorem placeEntry_leaves {f : Footprint} {m m' m'' : Mirror} {u g : Uuid} {k : EntryRow → EntryRow}
    {hu : ∀ r, (k r).uuid = r.uuid} (hf : f.Leaves m m') (h : m'.placeEntry u g k hu = .ok m'') :
    f.Leaves m m'' :=
  hf.rewritten (placeEntry_keys h) (fun _ => by rw [(placeEntry_row h).1.groups])
    (placeEntry_row h).1.tombstones

theorem setParent_leaves {m m' : Mirror} {u p : Uuid} {f : GroupRow → GroupRow}
    {hu : ∀ r, (f r).uuid = r.uuid} (h : m.setParent u p f hu = .ok m')
    (hmem : u ∈ m.groups.keys) : ({} : Footprint).Leaves m m' := by
  have hsame := setParent_same h
  refine .same (by rw [hsame.entries]) (fun v => ?_) hsame.tombstones
  rw [(setParent_ok h hmem).2.1]

/-- What is in the bin goes, and the bin stays. -/
theorem emptyBin_leaves {m : Mirror} {bin : Uuid} {st : Mirror × DeleteGroupOutcome} (now : EpochMs)
    (hkids : RemovesSubtrees m st.1 (m.childGroups bin)) :
    Footprint.Leaves { Footprint.subtrees m (m.childGroups bin) with
        removedEntry := fun u => ∃ e ∈ m.entries.rows, e.uuid = u ∧ Below m.groups [bin] e.groupUuid }
      m (Mirror.deleteDirectChildEntries now bin bin st).1 := by
  have hentry : ∀ e, e ∈ (Mirror.deleteDirectChildEntries now bin bin st).1.entries.rows ↔
      e ∈ m.entries.rows ∧ ¬ Below m.groups [bin] e.groupUuid := by
    intro e
    rw [deleteDirectChildEntries_entries, hkids.entries, below_iff_child]
    tauto
  refine ⟨fun u => ?_, fun u => ?_, fun u => ?_, fun u _ => ⟨rfl, rfl⟩⟩
  · rw [keys_of_entries hentry]
    simp [Footprint.subtrees]
  · rw [deleteDirectChildEntries_groups, hkids.groups.not_below]
    simp [Footprint.subtrees]
  · rw [deleteDirectChildEntries_tombstones, hkids.tombstones]
    show _ ↔ u ∈ m.tombstones.keys ∨ (∃ e ∈ m.entries.rows, e.uuid = u ∧
      Below m.groups [bin] e.groupUuid) ∨ Below m.groups (m.childGroups bin) u
    rw [← hkids.entry_below]
    simp only [or_assoc, or_left_comm, or_comm]

theorem createEntry_leaves {m m' : Mirror} {g u v : Uuid} {fields : NewEntryFields} {now : EpochMs}
    (h : m.createEntry g fields now u = .ok (m', v)) :
    ({ createdEntry := some u } : Footprint).Leaves m m' := by
  obtain ⟨hone, -, hrow, -⟩ := createEntry_row h
  refine ⟨fun w => ?_, fun w => ?_, fun w => ?_, fun w h => ?_⟩
  · rw [← Table.find?_isSome, ← Table.find?_isSome]
    by_cases e : w = u
    · simp [e, hrow]
    · rw [hone.entries w e]
      simp [Ne.symm e]
  · simp [hone.groups]
  · simp [hone.tombstones]
  · simp at h

theorem StructuralOp.run_leaves {m m' : Mirror} {op : StructuralOp} (h : op.run m = .ok m') :
    (op.footprint m).Leaves m m' := by
  cases run_commits h with
  | createGroup _ hins => exact insertGroup_leaves hins
  | moveGroup hu _ hset => exact setParent_leaves hset hu
  | recycleGroup hu _ hset => exact setParent_leaves hset hu
  | @reorderGroup u _ pos now siblings =>
    have hsame := renumber_same (Mirror.spliceSiblings siblings u pos) 0 m
    have hkeys := ((SameParents.renumber (Mirror.spliceSiblings siblings u pos) 0 m).trans
      (SameParents.updateGroups _ (fun g => g.uuid = u) (fun g => { g with modifiedAt := now })
        (fun _ => rfl) (fun _ => rfl))).keys
    exact .same (congrArg Table.keys hsame.entries) hkeys hsame.tombstones
  | deleteGroup _ hdel => exact .of_subtrees (deleteGroupRecursive_subtrees hdel)
  | noBin hbin =>
    simp only [footprint, hbin]
    exact .refl m
  | emptyBin hbin hst =>
    simp only [footprint, hbin]
    exact emptyBin_leaves _
      (foldlM_removesSubtrees (fun _ _ _ hc => deleteGroupRecursive_subtrees hc) hst)
  | @setBin enabled u =>
    refine .same rfl (fun v => ?_) rfl
    show v ∈ (m.writeRecycleBinGroup u).groups.keys ↔ _
    rw [writeRecycleBinGroup_keys]
  | clearBin => exact .same rfl (SameParents.clearRecycleBinGroup m).keys rfl
  | moveEntry _ hplace => exact placeEntry_leaves (.refl m) hplace
  | inBin hrow hin => simpa [footprint, hrow, hin] using Footprint.Leaves.refl m
  | recycled hrow hin hbin hplace =>
    simpa [footprint, Footprint.bin, hrow, hin, hbin] using placeEntry_leaves (.refl m) hplace
  | recycledNew hrow hin hbin hen hnew hplace =>
    simpa [footprint, Footprint.bin, hrow, hin, hbin, hen] using
      placeEntry_leaves (createRecycleBinGroup_leaves hnew) hplace
  | @deleted u _ now _ hrow hin hbin hen =>
    simpa [footprint, Footprint.bin, hrow, hin, hbin, hen] using Footprint.Leaves.deleteEntry m u now
  | restored _ _ _ hplace => exact placeEntry_leaves (.refl m) hplace
  | unflagged => exact .same (by simp [Mirror.updateEntry]) (fun _ => Iff.rfl) rfl
  | outside => exact .refl m

/-- **A mutation changes the uuids by its footprint.** -/
theorem EngineOp.run_leaves {E : EngineEnv} {m m' : Mirror} {op : EngineOp}
    (h : op.run E m = .ok m') : (op.footprint m).Leaves m m' := by
  cases run_commits h with
  | structural h => exact StructuralOp.run_leaves h
  | @updateGroup u upd now =>
    have hkeys := (SameParents.updateGroups m (fun g => g.uuid = u)
      (Mirror.applyGroupUpdate upd now) (fun _ => rfl) (fun _ => rfl)).keys
    exact .same rfl hkeys rfl
  | createEntry h => exact createEntry_leaves h
  | editEntry h =>
    have hed := EntryEdit.run_editsRow h
    exact .of_rowOnly hed.rowOnly hed.keys
  | deleteEntry => exact .deleteEntry m _ _
  | binPresent hbin => simpa [footprint, Footprint.bin, hbin] using Footprint.Leaves.refl m
  | binCreated hbin hen h =>
    simpa [footprint, Footprint.bin, hbin, hen] using createRecycleBinGroup_leaves h
  | binDisabled hbin hen => simpa [footprint, Footprint.bin, hbin, hen] using Footprint.Leaves.refl m
  | iconPresent => exact .refl m
  | iconAdded => exact .same rfl (fun _ => Iff.rfl) rfl
  | setHistoryMaxItems => exact .same rfl (fun _ => Iff.rfl) rfl
  | setHistoryMaxSize => exact .same rfl (fun _ => Iff.rfl) rfl

/-! ## Pulls -/

section Pull

variable {M : MergeLib} {P : PeerPull} {m : Mirror}

/-- No live entry has a tombstone, and no tombstone is new. -/
structure EntriesUntombstoned (m m' : Mirror) : Prop where
  entries : ∀ u ∈ m'.entries.keys, u ∉ m'.tombstones.keys
  old : ∀ u ∈ m'.tombstones.keys, u ∈ m.tombstones.keys

/-- **A step of the entry walk**: an entry is added together with the removal of its tombstone. -/
theorem ingestEntry_entriesUntombstoned (hM : Lawful M) (hv : m.project = .ok P.localVault)
    {st st' : Mirror × IngestPeerOutcome} {pe : Entry × Uuid}
    (h : P.ingestEntry M st pe = .ok st') (hst : EntriesUntombstoned m st.1) :
    EntriesUntombstoned m st'.1 := by
  obtain ⟨htouch, -⟩ := ingestEntry_touches hM h
  refine ⟨fun u hu ht => ?_, fun u ht => hst.old u ?_⟩
  · rw [← Table.find?_isSome] at hu ht
    by_cases e : u = pe.1.id
    · subst e
      unfold PeerPull.ingestEntry at h
      split at h
      · rcases ingestPeerOnly_spec h with ⟨-, rfl⟩ | ⟨-, -, -, -, -, htomb, -, -⟩
        · exact hst.entries _ (Table.find?_isSome.1 hu) (Table.find?_isSome.1 ht)
        · rw [htomb] at ht
          split at ht
          · cases ht
          · rename_i hno
            have hmem := Table.find?_isSome.2 (hst.old _ (Table.find?_isSome.1 ht))
            rw [project_tombstoneTime hv, Option.isSome_map] at hno
            exact hno hmem
      · rename_i l hl
        obtain ⟨-, htomb, ⟨result, -, hrow⟩, -⟩ := ingestShared_spec hM (localEntry_id hl) h
        rw [hrow, Option.isSome_map] at hu
        rw [htomb] at ht
        exact hst.entries _ (Table.find?_isSome.1 hu) (Table.find?_isSome.1 ht)
    · rw [htouch.entries u e] at hu
      rw [htouch.tombstones u e] at ht
      exact hst.entries u (Table.find?_isSome.1 hu) (Table.find?_isSome.1 ht)
  · by_contra hn
    have hnone := ingestEntry_untombstoned hM h (Table.find?_eq_none.2 hn)
    exact Table.find?_eq_none.1 hnone ht

theorem mem_removeTombstones (us : List Uuid) (m : Mirror) (v : Uuid) :
    v ∈ (us.foldl Mirror.removeTombstone m).tombstones.keys ↔ v ∈ m.tombstones.keys ∧ v ∉ us := by
  induction us generalizing m with
  | nil => simp
  | cons u us ih =>
    rw [List.foldl_cons, ih]
    show v ∈ (m.tombstones.erase u).keys ∧ _ ↔ _
    rw [Table.mem_keys_erase, List.mem_cons, not_or]
    tauto

theorem deleteGroupRows_keys {us : List Uuid} {m m' : Mirror}
    (h : us.foldlM (fun (m : Mirror) g => m.deleteGroupRow g) m = .ok m') (v : Uuid) :
    v ∈ m'.groups.keys ↔ v ∈ m.groups.keys ∧ v ∉ us := by
  rw [← Table.find?_isSome, ← Table.find?_isSome, (deleteGroupRows_same h).2 v]
  split <;> simp_all

/-- **The last pass leaves no live group with a tombstone.** -/
theorem materializeGroupTombstones_untombstoned {st st' : Mirror × IngestPeerOutcome}
    (h : materializeGroupTombstones st = .ok st') :
    (∀ u ∈ st'.1.groups.keys, u ∉ st'.1.tombstones.keys) ∧
      ∀ u ∈ st'.1.tombstones.keys, u ∈ st.1.tombstones.keys := by
  unfold materializeGroupTombstones at h
  obtain ⟨m, hm, h⟩ := except_bind_ok.1 h
  obtain rfl := Except.ok.inj h
  have hrest := (deleteGroupRows_same hm).1.tombstones
  have htomb : ∀ u, u ∈ m.tombstones.keys ↔ u ∈ st.1.tombstones.keys ∧
      u ∉ st.1.tombstonedGroups.filter fun g => st.1.groupAlive st.1.groups.rows.length g := by
    intro u
    rw [hrest, mem_removeTombstones]
  refine ⟨fun u hu ht => ?_, fun u ht => ((htomb u).1 ht).1⟩
  obtain ⟨hg, hdead⟩ := (deleteGroupRows_keys hm u).1 hu
  obtain ⟨ht, halive⟩ := (htomb u).1 ht
  rw [(removeTombstones_spec _ st.1).1.groups] at hg
  have hmem : u ∈ st.1.tombstonedGroups := List.mem_filter.2 ⟨hg, by simpa using ht⟩
  cases hlive : st.1.groupAlive st.1.groups.rows.length u with
  | true => exact halive (List.mem_filter.2 ⟨hmem, hlive⟩)
  | false =>
    refine hdead ((List.mem_insertionSort _).2 (List.mem_filter.2 ⟨hmem, ?_⟩))
    rw [hlive]
    rfl

theorem locationOf_isSome {m : Mirror} {u : Uuid} : (locationOf m u).isSome ↔ u ∈ m.groups.keys := by
  rw [locationOf, Option.isSome_map, Table.find?_isSome]

/-- **A pull of any peer leaves no live object with a tombstone.** -/
theorem ingestPeer_untombstoned {ord : HashOrder} {st : Mirror × IngestPeerOutcome} (hM : Lawful M)
    (hm : Untombstoned m) (hv : m.project = .ok P.localVault) (h : ingestPeer M ord P m = .ok st) :
    Untombstoned st.1 := by
  unfold ingestPeer at h
  obtain ⟨st₁, h₁, h⟩ := except_bind_ok.1 h
  obtain ⟨st₂, h₂, h⟩ := except_bind_ok.1 h
  obtain ⟨st₄, h₄, h⟩ := except_bind_ok.1 h
  obtain rfl := Except.ok.inj h
  have hpass := (GroupPass.of_reconcilePeerGroups h₁).rest
  have hwalk : EntriesUntombstoned m st₁.1 → EntriesUntombstoned m st₂.1 :=
    foldlM_rel (R := fun a b : Mirror × IngestPeerOutcome =>
      EntriesUntombstoned m a.1 → EntriesUntombstoned m b.1) (fun _ h => h)
      (fun h h' ha => h' (h ha)) (fun _ _ _ _ hs => ingestEntry_entriesUntombstoned hM hv hs) h₂
  have hst₂ : EntriesUntombstoned m st₂.1 := by
    refine hwalk ⟨fun u hu => ?_, fun u hu => ?_⟩
    · rw [hpass.entries] at hu
      rw [hpass.tombstones]
      exact hm.entries u hu
    · rwa [hpass.tombstones] at hu
  obtain ⟨hdg, hdt, -, -, -, hdel⟩ := reconcilePeerDeletes_spec (P := P) st₂
  obtain ⟨htomb, hunion⟩ :=
    unionPeerTombstones_spec P.peer.deletedObjects (P.reconcilePeerDeletes st₂).1
  obtain ⟨hicon, hicont⟩ := unionPeerCustomIcons_same P.peer.metadata.customIcons
    (unionPeerTombstones P.peer.deletedObjects (P.reconcilePeerDeletes st₂).1)
  have hentries : st₄.1.entries = (P.reconcilePeerDeletes st₂).1.entries := by
    rw [(materializeGroupTombstones_spec h₄).1, hicon.entries, htomb.entries]
  obtain ⟨hclean, hold⟩ := materializeGroupTombstones_untombstoned h₄
  obtain ⟨hfe, hft, -, hfl⟩ := reconcilePeerMeta_same P.localVault.metadata (P.mergedMeta M) st₄.1
  refine ⟨fun u hu ht => ?_, fun u hu ht => ?_⟩
  · rw [hfe, hentries] at hu
    rw [hft] at ht
    have ht := hold u ht
    rw [hicont, ← Table.find?_isSome, hunion u] at ht
    have hlive : (P.reconcilePeerDeletes st₂).1.entryExists u = true := Table.find?_isSome.2 hu
    have ht₂ : u ∈ st₂.1.tombstones.keys := by
      rw [← Table.find?_isSome, ← hdt]
      split at ht
      · exact ht
      · rwa [if_pos hlive] at ht
    have hu₂ : u ∈ st₂.1.entries.keys := by
      rw [← Table.find?_isSome, hdel u] at hu
      split at hu
      · cases hu
      · exact Table.find?_isSome.1 hu
    exact hst₂.entries u hu₂ ht₂
  · rw [hft] at ht
    rw [← locationOf_isSome, hfl u, locationOf_isSome] at hu
    exact hclean u hu ht

end Pull

/-! ## The invariant -/

/-- **A mutation keeps live objects free of tombstones exactly when it spares its footprint, and a
pull always does.** -/
theorem untombstoned_step {m : Mirror} (hm : Untombstoned m) :
    (∀ (E : EngineEnv) (op : EngineOp) (m' : Mirror), op.run E m = .ok m' →
      (Untombstoned m' ↔ (op.footprint m).Spares m)) ∧
    ∀ (M : MergeLib) (ord : HashOrder) (P : PeerPull) (st : Mirror × IngestPeerOutcome), Lawful M →
      m.project = .ok P.localVault → ingestPeer M ord P m = .ok st → Untombstoned st.1 :=
  ⟨fun _ _ _ h => (EngineOp.run_leaves h).untombstoned_iff hm,
    fun _ _ _ _ hM hv h => ingestPeer_untombstoned hM hm hv h⟩

instance (m : Mirror) : Decidable (Untombstoned m) :=
  decidable_of_iff ((∀ u ∈ m.entries.keys, u ∉ m.tombstones.keys) ∧
    ∀ u ∈ m.groups.keys, u ∉ m.tombstones.keys) ⟨fun h => ⟨h.1, h.2⟩, fun h => ⟨h.1, h.2⟩⟩

/-- Deleting the entry `9` of a small vault, and pulling a peer that deleted the group `2` around
it. -/
theorem untombstoned_step_nested :
    let m := nestedMirror false
    let m' := (EngineOp.deleteEntry 9 default).next plainEnv m
    let peer : Vault :=
      { root := .node { id := 1, name := "Root" } [] [], deletedObjects := [⟨2, none⟩, ⟨3, none⟩] }
    let st := afterPull fieldMerge .insertion "B" (.atSecond 30) peer m
    Untombstoned m' ∧ Untombstoned st.1 ∧ st.1.groups.keys = [1, 2] := by
  intro m m' peer st
  obtain ⟨hop, hpull⟩ := untombstoned_step (m := m) (by decide)
  refine ⟨(hop plainEnv _ m' (EngineOp.run_next (by decide))).2 ?_,
    hpull fieldMerge .insertion ⟨"B", view m, peer, .atSecond 30⟩ st fieldMerge_lawful
      (project_view (by decide +kernel)) (ingestPeer_afterPull (by decide +kernel)),
    by decide +kernel⟩
  refine ⟨by simp [EngineOp.footprint], by simp [EngineOp.footprint], ?_, fun _ h => h.elim⟩
  rintro u rfl hu
  exact absurd hu (by decide)

/-- A peer's group of uuid `9` is adopted beside the local entry `9`. Deleting the entry leaves its
tombstone on the live group. -/
theorem delete_entry_tombstones_live_group :
    let m := nestedMirror false
    let peer : Vault :=
      { root := .node { id := 1, name := "Root" } [] [.node { id := 9, name := "Nine" } [] []] }
    let st := afterPull fieldMerge .insertion "B" (.atSecond 30) peer m
    let op := EngineOp.deleteEntry 9 (.atSecond 40)
    ingestPeer fieldMerge .insertion ⟨"B", view m, peer, .atSecond 30⟩ m = .ok st ∧
      Untombstoned st.1 ∧ op.run plainEnv st.1 = .ok (op.next plainEnv st.1) ∧
      9 ∈ (op.next plainEnv st.1).groups.keys ∧ 9 ∈ (op.next plainEnv st.1).tombstones.keys ∧
      ¬ Untombstoned (op.next plainEnv st.1) := by
  intro m peer st op
  exact ⟨ingestPeer_afterPull (by decide +kernel), by decide +kernel,
    EngineOp.run_next (by decide +kernel), by decide +kernel, by decide +kernel, by decide +kernel⟩

end KeysCore.Verify
