import KeysCore.Ingest
import KeysCore.Projection
import Mathlib.Data.List.Dedup

/-!
# An entry written to rows and read back

The normal form of an entry is what its rows say: instants at whole seconds, a missing one as the
epoch, an expiry only on an entry that expires, tags trimmed and as a set, and everything keyed by a
name in the order of the name. A history record is a content revision, so it has no place and goes
under the uuid of its entry. `toRow_toEntry`: writing an entry and reading the rows back yields its
normal form.
-/

namespace KeysCore

/-! ## Normal forms -/

/-- An instant as a column and its reader leave it, a missing one being the epoch. -/
def normalInstant (t : Option DateTime) : DateTime := (dtToMs t).floored

/-- `<Times>`: an entry that does not expire has no expiry, and one expires only at an instant. -/
def Timestamps.normal (t : Timestamps) : Timestamps where
  creationTime := some (normalInstant t.creationTime)
  lastModificationTime := some (normalInstant t.lastModificationTime)
  lastAccessTime := some (normalInstant t.lastAccessTime)
  expiryTime := if t.expires then t.expiryTime.map (·.floorToSecond) else none
  expires := t.expires && t.expiryTime.isSome
  locationChanged := t.locationChanged.map (·.floorToSecond)

def CustomDataItem.normal (c : CustomDataItem) : CustomDataItem :=
  { c with lastModified := c.lastModified.map (·.floorToSecond) }

/-- An attachment without its protected flag. -/
def Attachment.normal (a : Attachment) : Attachment := { a with isProtected := false }

/-- Trimmed, not empty, each once, in order. -/
def normalTags (tags : List String) : List String :=
  sortStrings (((tags.map trim).filter (· ≠ "")).dedup)

def sortFields (fields : List CustomField) : List CustomField :=
  fields.insertionSort fun a b => a.key ≤ b.key

/-- The live version: protected fields before plain ones, each by name. -/
def EntryVersion.normal (v : EntryVersion) : EntryVersion :=
  { v with
    customFields := sortFields (v.customFields.filter (·.isProtected)) ++
      sortFields (v.customFields.filter fun f => !f.isProtected)
    tags := normalTags v.tags
    attachments := (v.attachments.map (·.normal)).insertionSort fun a b => a.name ≤ b.name
    customData := (v.customData.map (·.normal)).insertionSort fun a b => a.key ≤ b.key
    times := v.times.normal }

/-- A history record of the entry `u`: without a place, its fields by name. -/
def EntryVersion.normalRecord (u : Uuid) (v : EntryVersion) : EntryVersion :=
  { v with
    id := u
    previousParentGroup := none
    customFields := sortFields v.customFields
    attachments := v.attachments.map (·.normal)
    customData := v.customData.map (·.normal)
    times := { v.times.normal with locationChanged := none } }

def Entry.normal (e : Entry) : Entry where
  toEntryVersion := e.toEntryVersion.normal
  history := e.history.map (EntryVersion.normalRecord e.id)

/-- What the side tables and the snapshots need to hold an entry: no protected field in the
password's slot, attachments of distinct names, and distinct field names in each history record. -/
structure Entry.Storable (e : Entry) : Prop where
  password : ∀ f ∈ e.customFields, f.isProtected = true → f.key ≠ "Password"
  attachments : (e.attachments.map (·.name)).Nodup
  history : ∀ v ∈ e.history, (v.customFields.map (·.key)).Nodup

end KeysCore

namespace KeysCore.Verify

/-! ## Columns -/

theorem floored_timestampMillis (t : DateTime) : t.timestampMillis.floored = t.floorToSecond := rfl

theorem buildTimes_normal (t : Timestamps) :
    buildTimes (dtToMs t.creationTime) (dtToMs t.lastModificationTime) (dtToMs t.lastAccessTime)
      (expiryMs t) (t.locationChanged.map (·.timestampMillis)) = t.normal := by
  unfold buildTimes Timestamps.normal expiryMs normalInstant
  cases t.expires with
  | false => simp [Function.comp_def, floored_timestampMillis]
  | true => simp [Function.comp_def, floored_timestampMillis]

theorem toRow_toItem (c : CustomDataItem) : c.toRow.toItem = c.normal := by
  unfold CustomDataItem.toRow CustomDataRow.toItem CustomDataItem.normal
  simp [Function.comp_def, floored_timestampMillis]

/-! ## Tags -/

theorem linkTags_spec (raws tags : List String) (hnd : tags.Nodup) :
    (raws.foldl linkTag tags).Nodup ∧
      ∀ t, t ∈ raws.foldl linkTag tags ↔ t ∈ tags ∨ t ∈ (raws.map trim).filter (· ≠ "") := by
  induction raws generalizing tags with
  | nil => simp [hnd]
  | cons raw raws ih =>
    rw [List.foldl_cons]
    by_cases hskip : trim raw = "" ∨ trim raw ∈ tags
    · have hlink : linkTag tags raw = tags := if_pos hskip
      obtain ⟨hnd', hmem⟩ := ih tags hnd
      rw [hlink]
      refine ⟨hnd', fun t => ?_⟩
      rw [hmem t]
      constructor
      · rintro (h | h)
        · exact .inl h
        · obtain ⟨h, hne⟩ := List.mem_filter.1 h
          exact .inr (List.mem_filter.2 ⟨List.mem_cons_of_mem _ h, hne⟩)
      · rintro (h | h)
        · exact .inl h
        · simp only [List.map_cons, List.mem_filter, List.mem_cons, decide_eq_true_eq] at h
          obtain ⟨rfl | h, hne⟩ := h
          · exact .inl (hskip.resolve_left hne)
          · exact .inr (List.mem_filter.2 ⟨h, by simpa using hne⟩)
    · have hlink : linkTag tags raw = tags ++ [trim raw] := if_neg hskip
      rw [not_or] at hskip
      have hnd' : (tags ++ [trim raw]).Nodup := by
        rw [List.nodup_append]
        refine ⟨hnd, List.nodup_singleton _, ?_⟩
        intro a ha b hb e
        rw [List.mem_singleton] at hb
        exact hskip.2 (hb ▸ e ▸ ha)
      obtain ⟨hnd'', hmem⟩ := ih _ hnd'
      rw [hlink]
      refine ⟨hnd'', fun t => ?_⟩
      rw [hmem t, List.mem_append, List.mem_singleton, List.map_cons,
        List.filter_cons_of_pos (by simpa using hskip.1), List.mem_cons, or_assoc]

/-- Lists of the same strings, each once, are sorted alike. -/
theorem sortStrings_eq {l l' : List String} (hnd : l.Nodup) (hnd' : l'.Nodup)
    (h : ∀ t, t ∈ l ↔ t ∈ l') : sortStrings l = sortStrings l' := by
  have hperm : l.Perm l' := (List.perm_ext_iff_of_nodup hnd hnd').2 h
  unfold sortStrings
  refine List.Perm.eq_of_pairwise' (List.pairwise_insertionSort _ _)
    (List.pairwise_insertionSort _ _) ?_
  exact ((List.perm_insertionSort _ _).trans hperm).trans (List.perm_insertionSort _ _).symm

theorem linkTags_normal (tags : List String) : sortStrings (tags.foldl linkTag []) = normalTags tags := by
  obtain ⟨hnd, hmem⟩ := linkTags_spec tags [] List.nodup_nil
  refine sortStrings_eq hnd (List.nodup_dedup _) fun t => ?_
  rw [hmem t, List.mem_dedup]
  simp

/-! ## Rows keyed by a name -/

theorem insertOrIgnore_of_nodup {β : Type} (rows acc : List (String × β))
    (h : ((acc ++ rows).map (·.1)).Nodup) : rows.foldl insertOrIgnore acc = acc ++ rows := by
  induction rows generalizing acc with
  | nil => simp
  | cons r rows ih =>
    have hfree : r.1 ∉ acc.map (·.1) := by
      intro hr
      rw [List.map_append, List.nodup_append] at h
      exact h.2.2 _ hr _ (by simp) rfl
    rw [List.foldl_cons, show insertOrIgnore acc r = acc ++ [r] from if_neg hfree,
      ih (acc ++ [r]) (by simpa using h)]
    simp

/-- Puts of distinct keys drop what was held under them. -/
theorem putFields_eq (fields acc : List CustomField) (h : (fields.map (·.key)).Nodup) :
    fields.foldl putField acc = acc.filter (·.key ∉ fields.map (·.key)) ++ fields := by
  induction fields generalizing acc with
  | nil => simp
  | cons f fields ih =>
    rw [List.map_cons, List.nodup_cons] at h
    rw [List.foldl_cons, ih _ h.2, putField, List.filter_append, List.filter_filter,
      List.filter_singleton, decide_eq_true h.1, cond_true, List.append_assoc, List.singleton_append]
    congr 1
    refine List.filter_congr fun g _ => ?_
    simp only [List.map_cons, List.mem_cons, not_or, Bool.decide_and, Bool.and_comm]

theorem putFields_of_nodup (fields acc : List CustomField)
    (h : ((acc ++ fields).map (·.key)).Nodup) : fields.foldl putField acc = acc ++ fields := by
  rw [List.map_append, List.nodup_append] at h
  have hkeep : acc.filter (·.key ∉ fields.map (·.key)) = acc := by
    refine List.filter_eq_self.2 fun g hg => ?_
    have hfree : g.key ∉ fields.map (·.key) := fun hf => h.2.2 _ (List.mem_map_of_mem hg) _ hf rfl
    simpa using hfree
  rw [putFields_eq fields acc h.2.1, hkeep]

theorem protectedRows_fields (e : Entry) (h : e.Storable) :
    (sortByName e.protectedRows).map (fun f => (⟨f.1, f.2, true⟩ : CustomField)) =
      sortFields (e.customFields.filter (·.isProtected)) := by
  have hslot : (e.customFields.filter fun f => f.isProtected && f.key ≠ "Password") =
      e.customFields.filter (·.isProtected) := by
    refine List.filter_congr fun f hf => ?_
    cases hp : f.isProtected with
    | false => rfl
    | true => simpa using h.password f hf hp
  unfold sortByName Entry.protectedRows sortFields
  rw [hslot, ← List.map_insertionSort (fun a b => a.key ≤ b.key) _ (fun f : CustomField => (f.key, f.value))
    _ fun _ _ _ _ => Iff.rfl, List.map_map]
  conv_rhs => rw [← List.map_id (List.insertionSort _ _)]
  refine List.map_congr_left fun f hf => ?_
  obtain ⟨key, value, isProtected⟩ := f
  have hp := (List.mem_filter.1 ((List.mem_insertionSort _).1 hf)).2
  simp only [Function.comp, id_eq, CustomField.mk.injEq, true_and]
  exact hp.symm

theorem plainRows_fields (e : Entry) :
    (sortByName e.plainRows).map (fun f => (⟨f.1, f.2, false⟩ : CustomField)) =
      sortFields (e.customFields.filter fun f => !f.isProtected) := by
  unfold sortByName Entry.plainRows sortFields
  rw [← List.map_insertionSort (fun a b => a.key ≤ b.key) _ (fun f : CustomField => (f.key, f.value))
    _ fun _ _ _ _ => Iff.rfl, List.map_map]
  conv_rhs => rw [← List.map_id (List.insertionSort _ _)]
  refine List.map_congr_left fun f hf => ?_
  obtain ⟨key, value, isProtected⟩ := f
  have hp := (List.mem_filter.1 ((List.mem_insertionSort _).1 hf)).2
  simp only [Function.comp, id_eq, CustomField.mk.injEq, true_and]
  simpa using hp

/-! ## The entry -/

theorem fromEntry_toVersion (u : Uuid) (v : EntryVersion) (h : (v.customFields.map (·.key)).Nodup) :
    (HistorySnapshot.fromEntry v).toVersion u = v.normalRecord u := by
  unfold HistorySnapshot.fromEntry HistorySnapshot.toVersion EntryVersion.normalRecord
  have hfields : v.customFields.foldl putField [] = v.customFields :=
    putFields_of_nodup v.customFields [] h
  have htimes : buildTimes (dtToMs v.times.creationTime) (dtToMs v.times.lastModificationTime)
      (dtToMs v.times.lastAccessTime) (expiryMs v.times) none =
        { v.times.normal with locationChanged := none } := by
    rw [← buildTimes_normal]
    rfl
  dsimp only
  rw [hfields, htimes, List.map_map, List.map_map]
  simp only [Function.comp_def, toRow_toItem]
  rfl

/-- **Writing an entry and reading its rows back yields its normal form.** -/
theorem toRow_toEntry {e : Entry} (h : e.Storable) (g : Uuid) (b : Bool) :
    (e.toRow g b).toEntry = e.normal := by
  have hatt : (e.attachments.map fun a => (a.name, a.data)).foldl insertOrIgnore [] =
      e.attachments.map fun a => (a.name, a.data) := by
    refine insertOrIgnore_of_nodup _ [] ?_
    rw [List.nil_append, List.map_map]
    exact h.attachments
  have hsorted : (sortByName (e.attachments.map fun a => (a.name, a.data))).map
      (fun a => (⟨a.1, a.2, false⟩ : Attachment)) =
        (e.attachments.map (·.normal)).insertionSort fun a b => a.name ≤ b.name := by
    unfold sortByName
    rw [List.map_insertionSort _ (fun a b : Attachment => a.name ≤ b.name)
      (fun a : String × List UInt8 => (⟨a.1, a.2, false⟩ : Attachment)) _ fun _ _ _ _ => Iff.rfl,
      List.map_map]
    rfl
  have hdata : ((e.customData.map (·.toRow)).insertionSort fun a b => a.key ≤ b.key).map (·.toItem) =
      (e.customData.map (·.normal)).insertionSort fun a b => a.key ≤ b.key := by
    rw [List.map_insertionSort (fun a b : CustomDataRow => a.key ≤ b.key)
      (fun a b : CustomDataItem => a.key ≤ b.key) (fun r => r.toItem) _ fun _ _ _ _ => Iff.rfl,
      List.map_map]
    simp only [Function.comp_def, toRow_toItem]
  have hversion : (e.toRow g b).toVersion = e.toEntryVersion.normal := by
    unfold Entry.toRow EntryRow.toVersion EntryVersion.normal
    dsimp only
    rw [hatt, hsorted, hdata, protectedRows_fields e h, plainRows_fields e, linkTags_normal,
      buildTimes_normal]
    rfl
  have hhistory : (e.toRow g b).history.map (HistorySnapshot.toVersion (e.toRow g b).uuid) =
      e.history.map (EntryVersion.normalRecord e.id) := by
    show (e.history.map HistorySnapshot.fromEntry).map (HistorySnapshot.toVersion e.id) = _
    rw [List.map_map]
    exact List.map_congr_left fun v hv => fromEntry_toVersion e.id v (h.history v hv)
  unfold EntryRow.toEntry Entry.normal
  rw [hversion, hhistory]

end KeysCore.Verify
