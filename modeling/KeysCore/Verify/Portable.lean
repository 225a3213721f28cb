import KeysCore.Portable
import KeysCore.Verify.Archives
import KeysCore.Verify.EntryReads
import KeysCore.Verify.FieldMerge
import KeysCore.Verify.IngestSucceeds
import KeysCore.Verify.RoundTrip

/-!
# Imports of exported entries

An entry that is exported and imported has the content of the source, its custom icon by the bytes
(`import_of_export`). The steps of the import after the first are edits and archive like any other, so the
new entry has records of its own earlier stages in its history; and an import that fails leaves what
its steps committed, which is an icon in the pool and the new entry, and nothing else
(`ImportFrame`).
-/

namespace KeysCore

/-- An icon as it is drawn: a standard one by its number, a custom one by its bytes. -/
inductive DrawnIcon where
  | standard (index : IconIndex)
  | custom (bytes : List UInt8)
deriving DecidableEq

def EntryRow.icon (r : EntryRow) : IconRef := iconRefFrom r.iconIndex r.iconCustomUuid

/-- A custom icon that is not in the pool is drawn as the standard icon `0`. -/
def Mirror.drawnIcon (m : Mirror) : IconRef → DrawnIcon
  | .builtin i => .standard i
  | .custom u =>
    match m.readCustomIconBytes u with
    | some bytes => .custom bytes
    | none => .standard 0

/-- The export of a row. -/
def Mirror.portable (m : Mirror) (r : EntryRow) : PortableEntry where
  title := r.title
  username := r.username
  url := r.url
  notes := r.notes
  icon := (m.exportIcon r.icon).1
  tags := sortStrings r.tags
  createdAt := some r.createdAt
  modifiedAt := some r.modifiedAt
  accessedAt := some r.accessedAt
  lastUsedAt := r.lastUsedAt
  expiresAt := r.expiresAt
  password := r.password
  protectedFields := (r.readFields.filter (·.isProtected)).map fun f => (f.key, f.value)
  customFields := (r.readFields.filter fun f => !f.isProtected).map fun f => (f.key, f.value)
  attachments := (sortByName r.attachments).map fun a => ⟨a.1, a.2⟩
  customIconPng := (m.exportIcon r.icon).2

/-- A snapshot of the entry `r` while an attachment or the expiry was still to come. -/
def EntryRow.EarlierStage (r : EntryRow) (s : HistorySnapshot) : Prop :=
  ∃ files expiry data, files <+: r.attachments ∧ (expiry = none ∨ expiry = r.expiresAt) ∧
    (files, expiry) ≠ (r.attachments, r.expiresAt) ∧
    s = ({ r with attachments := files, expiresAt := expiry, customData := data }).liveSnapshot

end KeysCore

namespace KeysCore.Verify

open Lib

/-! ## Exports -/

/-- **What an export returns.** -/
theorem exportEntry_ok {m : Mirror} {u : Uuid} {r : EntryRow} (hrow : m.entries.find? u = some r)
    (hkeyed : EntryRow.Keyed r) (hlinked : EntryRow.Linked r) :
    m.exportEntry u = .ok (m.portable r) := by
  have hentry : m.entry u = some r.full := by rw [Mirror.entry, hrow, Option.map_some]
  have hbytes : ∀ a ∈ sortByName r.attachments,
      (do
        let bytes ← m.attachmentBytes u a.1
        return PortableAttachment.mk a.1 bytes) = Except.ok (PortableAttachment.mk a.1 a.2) := by
    intro a ha
    have hfind := find?_of_nodup_names hlinked.files ((List.mem_insertionSort _).1 ha)
    simp [Mirror.attachmentBytes, hrow, hfind]
  unfold Mirror.exportEntry
  rw [hentry]
  dsimp only
  rw [revealPassword_ok hrow, show r.full.customFields = r.customFieldRefs from rfl,
    fieldValues_ok hrow hkeyed hlinked, show r.full.attachments =
      (sortByName r.attachments).map fun a => ⟨a.1, a.2.length⟩ from rfl,
    mapM_map_ok (q := fun a : String × List UInt8 => PortableAttachment.mk a.1 a.2) hbytes]
  rfl

/-- The fields of an import are those that were read. -/
theorem importFields_portable (m : Mirror) (r : EntryRow) (icon : IconRef) :
    protectedOf (Mirror.importFields (m.portable r) icon).customFields = protectedOf r.readFields ∧
      plainOf (Mirror.importFields (m.portable r) icon).customFields = plainOf r.readFields := by
  constructor
  · simp [Mirror.importFields, Mirror.portable, protectedOf, List.filter_map, List.filter_filter,
      Function.comp_def, Bool.and_comm]
  · simp [Mirror.importFields, Mirror.portable, plainOf, List.filter_map, Function.comp_def]

/-! ## The icon -/

/-- No icon of the pool stands under the uuid of other bytes. -/
def IconsByBytes (iconUuid : List UInt8 → Uuid) (m : Mirror) : Prop :=
  ∀ r ∈ m.settings.customIcons.rows, ∀ bytes, r.uuid = iconUuid bytes → r.bytes = bytes

/-- Nothing is written but an icon added to the pool and the row of `u`. -/
structure ImportFrame (u : Uuid) (m m' : Mirror) : Prop where
  groups : m'.groups = m.groups
  tombstones : m'.tombstones = m.tombstones
  conflicts : m'.conflicts = m.conflicts
  entries : ∀ v, v ≠ u → m'.entries.find? v = m.entries.find? v
  settings : { m'.settings with customIcons := m.settings.customIcons } = m.settings
  icons : m'.settings.customIcons = m.settings.customIcons ∨
    ∃ icon, m.settings.customIcons.insert? icon = some m'.settings.customIcons

theorem ImportFrame.rowOnly {u : Uuid} {a b c : Mirror} (h : ImportFrame u a b) (h' : RowOnly u b c) :
    ImportFrame u a c where
  groups := h'.groups.trans h.groups
  tombstones := h'.tombstones.trans h.tombstones
  conflicts := h'.conflicts.trans h.conflicts
  entries v hv := (h'.entries v hv).trans (h.entries v hv)
  settings := by rw [h'.settings, h.settings]
  icons := by rw [h'.settings]; exact h.icons

theorem ImportFrame.refl (u : Uuid) (m : Mirror) : ImportFrame u m m :=
  ⟨rfl, rfl, rfl, fun _ _ => rfl, rfl, .inl rfl⟩

/-- The mirror is as before, or has one icon more. -/
inductive IconStep (m : Mirror) : Mirror → Prop where
  | present : IconStep m m
  | added {icon : CustomIconRow} {T : Table CustomIconRow.uuid} :
      m.settings.customIcons.insert? icon = some T →
      IconStep m (m.writeSettings (fun s => { s with customIcons := T }) 1)

theorem IconStep.frame {m m' : Mirror} (h : IconStep m m') (u : Uuid) : ImportFrame u m m' := by
  cases h with
  | present => exact .refl u m
  | added h => exact ⟨rfl, rfl, rfl, fun _ _ => rfl, rfl, .inr ⟨_, h⟩⟩

theorem IconStep.entries {m m' : Mirror} (h : IconStep m m') : m'.entries = m.entries := by
  cases h with
  | present => rfl
  | added => rfl

/-- An icon is added under the uuid of its bytes, or stands in the pool. -/
theorem addCustomIcon_step {iconUuid : List UInt8 → Uuid} {m m' : Mirror} {bytes : List UInt8}
    {clock : EpochMs} {u : Uuid} (h : m.addCustomIcon iconUuid bytes clock = .ok (m', u)) :
    IconStep m m' ∧ m'.readCustomIconBytes u = some bytes := by
  unfold Mirror.addCustomIcon at h
  cases hfind : m.settings.customIcons.rows.find? (·.bytes = bytes) with
  | some icon =>
    rw [hfind] at h
    obtain ⟨rfl, rfl⟩ := Prod.mk.inj (Except.ok.inj h)
    have hbytes : icon.bytes = bytes := by simpa using List.find?_some hfind
    have hicon := Table.find?_of_mem (List.mem_of_find?_eq_some hfind)
    exact ⟨.present, by rw [Mirror.readCustomIconBytes, hicon, Option.map_some, hbytes]⟩
  | none =>
    rw [hfind] at h
    dsimp only at h
    cases hins : m.settings.customIcons.insert? ⟨iconUuid bytes, "", bytes, some clock⟩ with
    | none =>
      rw [hins] at h
      cases h
    | some T =>
      rw [hins] at h
      obtain ⟨rfl, rfl⟩ := Prod.mk.inj (Except.ok.inj h)
      refine ⟨.added hins, ?_⟩
      change (T.find? _).map _ = _
      rw [Table.find?_insert hins, if_pos rfl]
      rfl

theorem addCustomIcon_returns {iconUuid : List UInt8 → Uuid} {m : Mirror}
    (hicons : IconsByBytes iconUuid m) (bytes : List UInt8) (clock : EpochMs) :
    ∃ m' u, m.addCustomIcon iconUuid bytes clock = .ok (m', u) := by
  unfold Mirror.addCustomIcon
  cases hfind : m.settings.customIcons.rows.find? (·.bytes = bytes) with
  | some icon => exact ⟨_, _, rfl⟩
  | none =>
    dsimp only
    cases hins : m.settings.customIcons.insert? ⟨iconUuid bytes, "", bytes, some clock⟩ with
    | some T => exact ⟨_, _, rfl⟩
    | none =>
      obtain ⟨icon, hicon, huuid⟩ := List.mem_map.1 (Table.insert?_eq_none.1 hins)
      have hne := List.find?_eq_none.1 hfind icon hicon
      exact absurd (hicons icon hicon bytes huuid) (by simpa using hne)

section Icon

variable (iconUuid : List UInt8 → Uuid) (clock : EpochMs)

/-- The first step of an import adds an icon at most. -/
theorem importIcon_step (p : PortableEntry) (m : Mirror) :
    IconStep m ((Mirror.importIcon iconUuid clock p).runFrom m).2 := by
  unfold Mirror.importIcon
  split
  · rename_i bytes _ _
    rw [Committing.runFrom_bind]
    cases h : (Committing.transact fun m : Mirror => m.addCustomIcon iconUuid bytes clock).runFrom m with
    | mk a m' =>
      cases a with
      | ok u => exact (addCustomIcon_step (Committing.of_runFrom_transact h)).1
      | error e =>
        have hsame : m' = m := by
          unfold Committing.runFrom Committing.transact at h
          split at h
          · cases (Prod.mk.inj h).1
          · exact (Prod.mk.inj h).2.symm
        rw [hsame]
        exact .present
  · exact .present
  · exact .present

/-- **The icon of an exported entry is drawn in the target as in the source.** -/
theorem importIcon_ok {iconUuid : List UInt8 → Uuid} {m : Mirror} (hicons : IconsByBytes iconUuid m)
    (source : Mirror) (r : EntryRow) :
    ∃ icon m', (Mirror.importIcon iconUuid clock (source.portable r)).runFrom m = (.ok icon, m') ∧
      m'.drawnIcon icon = source.drawnIcon r.icon := by
  have hstandard : ∀ i, (source.exportIcon r.icon).1 = .builtin i →
      (Mirror.importIcon iconUuid clock (source.portable r)).runFrom m = (.ok (.builtin i), m) := by
    intro i hi
    unfold Mirror.importIcon
    rw [show (source.portable r).icon = _ from hi]
    rfl
  cases hicon : r.icon with
  | builtin i => exact ⟨_, m, hstandard i (by rw [hicon]; rfl), rfl⟩
  | custom u =>
    cases hbytes : source.readCustomIconBytes u with
    | none =>
      refine ⟨_, m, hstandard 0 (by simp [hicon, Mirror.exportIcon, hbytes]), ?_⟩
      simp [Mirror.drawnIcon, hbytes]
    | some bytes =>
      obtain ⟨m', v, hadd⟩ := addCustomIcon_returns hicons bytes clock
      have hexport : (source.portable r).icon = .custom u ∧
          (source.portable r).customIconPng = some bytes := by
        simp [Mirror.portable, hicon, Mirror.exportIcon, hbytes]
      refine ⟨.custom v, m', ?_, ?_⟩
      · unfold Mirror.importIcon
        rw [hexport.1, hexport.2]
        dsimp only
        rw [Committing.runFrom_bind_ok (Committing.runFrom_transact hadd), Committing.runFrom_pure]
      · simp [Mirror.drawnIcon, hbytes, (addCustomIcon_step hadd).2]

end Icon

/-! ## The entry -/

theorem createEntry_returns {m : Mirror} {g u : Uuid} (fields : NewEntryFields) (now : EpochMs)
    (hg : g ∈ m.groups.keys) (hu : u ∉ m.entries.keys)
    (hprot : ((protectedOf fields.customFields).map (·.1)).Nodup)
    (hplain : ((plainOf fields.customFields).map (·.1)).Nodup) :
    ∃ m', m.createEntry g fields now u = .ok (m', u) := by
  obtain ⟨m', hm'⟩ : ∃ m', m.insertEntryRow (createdRow g fields now u) = .ok m' := by
    unfold Mirror.insertEntryRow
    split
    · rename_i hnone
      exact absurd (Table.insert?_eq_none.1 hnone) hu
    · exact ⟨_, dif_pos hg⟩
  unfold Mirror.createEntry
  rw [if_pos (groupExists_iff.2 hg)]
  refine ⟨m', except_bind_ok.2 ⟨m', hm', ?_⟩⟩
  rw [if_pos ⟨hprot, hplain⟩]
  rfl

theorem putEntryRow_find {m : Mirror} {u : Uuid} {row row' : EntryRow}
    (hrow : m.entries.find? u = some row) (hu : row'.uuid = row.uuid)
    (hg : row'.groupUuid = row.groupUuid) :
    (m.putEntryRow u row').entries.find? u = some row' := by
  rw [(putEntryRow_row m u row').2, hrow, Option.map_some, ← hu, ← hg]

theorem editEntry_returns {m : Mirror} {u : Uuid} {row row' : EntryRow}
    {f : EntryRow → Except EngineError EntryRow} (hrow : m.entries.find? u = some row)
    (hf : f row = .ok row') (hu : row'.uuid = row.uuid) (hg : row'.groupUuid = row.groupUuid) :
    ∃ m', m.editEntry u f = .ok m' ∧ m'.entries.find? u = some row' := by
  exact ⟨m.putEntryRow u row', editEntry_ok.2 ⟨row, row', hrow, hf, rfl⟩, putEntryRow_find hrow hu hg⟩

theorem contentEdit_returns {H : HistoryLib} {m : Mirror} {u : Uuid} {row row' : EntryRow}
    {now : EpochMs} {f : EntryRow → EntryRow} (hrow : m.entries.find? u = some row)
    (hf : EntryRow.finishEdit H m.settings now row (f row) = .ok (some row'))
    (hu : row'.uuid = row.uuid) (hg : row'.groupUuid = row.groupUuid) :
    ∃ m', m.contentEdit H u now f = .ok m' ∧ m'.entries.find? u = some row' := by
  refine ⟨m.putEntryRow u row', ?_, putEntryRow_find hrow hu hg⟩
  unfold Mirror.contentEdit
  rw [hrow]
  exact except_bind_ok.2 ⟨some row', hf, rfl⟩

theorem createEntry_uuid {m m' : Mirror} {g u v : Uuid} {fields : NewEntryFields} {now : EpochMs}
    (h : m.createEntry g fields now u = .ok (m', v)) : v = u := by
  unfold Mirror.createEntry at h
  split at h
  · obtain ⟨a, -, h⟩ := except_bind_ok.1 h
    split at h
    · exact (Prod.mk.inj (Except.ok.inj h)).2.symm
    · cases h
  · cases h

/-- The row `r` of a new entry with the attachments `files` and the expiry `expiry` so far, and a history
of earlier stages. -/
def Stage (Readable : Option String → Prop) (r : EntryRow) (files : List (String × List UInt8))
    (expiry : Option EpochMs) (row : EntryRow) : Prop :=
  ∃ history customData,
    row = { r with attachments := files, expiresAt := expiry, history, customData } ∧
      Readable row.tombstoneText ∧ ∀ s ∈ history, row.EarlierStage s

section Stages

variable {H : HistoryLib} {Readable : Option String → Prop} {r : EntryRow}
  {files : List (String × List UInt8)} {expiry : Option EpochMs} {row : EntryRow}

/-- **A stage archived and taken further.** The archive writes history and custom data only, so it may
come before or after the other columns are written. -/
theorem Stage.next (hH : H.Returns Readable) (h : Stage Readable r files expiry row)
    (files' : List (String × List UInt8)) (expiry' : Option EpochMs) (hfiles : files <+: files')
    (hexpiry : expiry = none ∨ expiry = expiry') (hne : (files, expiry) ≠ (files', expiry'))
    {after : EntryRow} (hafter : ∃ fs e, after = { row with attachments := fs, expiresAt := e })
    (s : Settings) (now : EpochMs) :
    ∃ history customData,
      after.archive H s now row.liveSnapshot = .ok { after with history, customData } ∧
      Stage Readable r files' expiry'
        { row with attachments := files', expiresAt := expiry', history, customData } := by
  obtain ⟨fs, e, rfl⟩ := hafter
  obtain ⟨before, data, rfl, hread, hhistory⟩ := h
  obtain ⟨history, customData, harchive, hread', hmem⟩ :=
    archive_row (r := { r with
      attachments := fs
      expiresAt := e
      history := before
      customData := data }) hH hread s now (EntryRow.liveSnapshot _)
  refine ⟨history, customData, harchive, history, customData, rfl, hread', fun x hx => ?_⟩
  rcases hmem x hx with hx | rfl
  · obtain ⟨fs, e, d, hfs, he, hlt, rfl⟩ := hhistory x hx
    refine ⟨fs, e, d, hfs.trans hfiles, ?_, ?_, rfl⟩
    · rcases he with he | he
      · exact .inl he
      · exact hexpiry.imp he.trans he.trans
    · intro heq
      obtain ⟨rfl, rfl⟩ := Prod.mk.inj heq
      have hsame : files = fs := hfiles.eq_of_length_le hfs.length_le
      subst hsame
      rcases he with rfl | he
      · rcases hexpiry with rfl | rfl
        · exact hlt rfl
        · exact hlt rfl
      · exact hlt (by rw [he])
  · exact ⟨files, expiry, data, hfiles, hexpiry, hne, rfl⟩

theorem Stage.columns (h : Stage Readable r files expiry row) :
    row.attachments = files ∧ row.expiresAt = expiry ∧ row.modifiedAt = r.modifiedAt := by
  obtain ⟨_, _, rfl, -⟩ := h
  exact ⟨rfl, rfl, rfl⟩

/-- **The expiry is patched into the new entry.** -/
theorem expiry_stage (hH : H.Returns Readable) {m : Mirror} {u : Uuid}
    (hrow : m.entries.find? u = some row) (h : Stage Readable r [] none row) (e : EpochMs) :
    ∃ m' row', m.updateEntryFields H u { expiresAt := some (some e) } r.modifiedAt = .ok m' ∧
      m'.entries.find? u = some row' ∧ Stage Readable r [] (some e) row' := by
  obtain ⟨hfiles, hexpiry, hnow⟩ := h.columns
  obtain ⟨history, customData, harchive, hstage⟩ := h.next hH [] (some e) List.prefix_rfl (.inl rfl)
    (by simp) ⟨row.attachments, some e, rfl⟩ m.settings r.modifiedAt
  have hcontent : (row.applyUpdate { expiresAt := some (some e) }).content ≠ row.content := by
    intro heq
    have hsame : some e = row.expiresAt := congrArg EntryRow.Content.expiresAt heq
    rw [hexpiry] at hsame
    cases hsame
  have hedit : EntryRow.finishEdit H m.settings r.modifiedAt row
      (row.applyUpdate { expiresAt := some (some e) }) =
        .ok (some { row with attachments := [], expiresAt := some e, history, customData }) := by
    unfold EntryRow.finishEdit
    rw [if_neg hcontent]
    refine except_bind_ok.2 ⟨_, harchive, ?_⟩
    rw [← hfiles, ← hnow]
    rfl
  obtain ⟨m', hm', hfind⟩ := contentEdit_returns
    (f := EntryRow.applyUpdate { expiresAt := some (some e) }) hrow hedit rfl rfl
  exact ⟨m', _, hm', hfind, hstage⟩

/-- **An attachment is attached to the new entry.** -/
theorem attachment_stage (hH : H.Returns Readable) {m : Mirror} {u : Uuid}
    (hrow : m.entries.find? u = some row) (h : Stage Readable r files expiry row) {name : String}
    (bytes : List UInt8) (hfree : name ∉ files.map (·.1)) :
    ∃ m' row', m.setAttachment H u name bytes r.modifiedAt = .ok m' ∧
      m'.entries.find? u = some row' ∧ Stage Readable r (files ++ [(name, bytes)]) expiry row' := by
  obtain ⟨hfiles, hexpiry, hnow⟩ := h.columns
  obtain ⟨history, customData, harchive, hstage⟩ := h.next hH (files ++ [(name, bytes)]) expiry
    (List.prefix_append _ _) (.inr rfl) (by simp) ⟨row.attachments, row.expiresAt, rfl⟩ m.settings
    r.modifiedAt
  have hput : upsertRow row.attachments (name, bytes) = files ++ [(name, bytes)] := by
    rw [hfiles]
    exact if_neg hfree
  have hedit : EntryRow.archivedEdit H m.settings r.modifiedAt
      (fun e => { e with attachments := upsertRow e.attachments (name, bytes) }) row =
        .ok { row with
          attachments := files ++ [(name, bytes)]
          expiresAt := expiry
          history
          customData } := by
    refine except_bind_ok.2 ⟨_, harchive, ?_⟩
    rw [← hput, ← hnow, ← hexpiry]
    rfl
  obtain ⟨m', hm', hfind⟩ := editEntry_returns hrow hedit rfl rfl
  exact ⟨m', _, hm', hfind, hstage⟩

end Stages

/-! ## The import -/

section Import

variable {H : HistoryLib} {iconUuid : List UInt8 → Uuid} {group u : Uuid} {p : PortableEntry}
  {now clock : EpochMs}

/-- The steps of an import that edit the new entry. -/
def importEdits (H : HistoryLib) (p : PortableEntry) (now : EpochMs) (u : Uuid) :
    Committing Mirror EngineError Uuid := do
  match p.expiresAt with
  | some expiry =>
    Committing.transact fun m =>
      (m.updateEntryFields H u { expiresAt := some (some expiry) } now).map (·, ⟨⟩)
  | none => pure ⟨⟩
  p.attachments.forM fun a => Committing.transact fun m =>
    (m.setAttachment H u a.name a.bytes now).map (·, ⟨⟩)
  return u

theorem importEntry_steps : Mirror.importEntry H iconUuid group p now clock u =
    Mirror.importIcon iconUuid clock p >>= fun icon =>
      (Committing.transact fun m => m.createEntry group (Mirror.importFields p icon) now u) >>=
        importEdits H p now := rfl

/-- An edit in its transaction writes one row. -/
theorem transact_edit_keeps {e : EntryEdit} :
    Committing.Keeps (RowOnly u) (Committing.transact fun m : Mirror =>
      (e.run H m u).map fun m' => (m', PUnit.unit)) := by
  refine .transact (.refl u) fun m m' _ h => ?_
  obtain ⟨a, ha, heq⟩ := except_map_ok.1 h
  obtain ⟨rfl, -⟩ := Prod.mk.inj heq
  exact (EntryEdit.run_editsRow ha).rowOnly

theorem transact_create_keeps (group u : Uuid) (fields : NewEntryFields) (now : EpochMs) :
    Committing.Keeps (RowOnly u)
      (Committing.transact fun m : Mirror => m.createEntry group fields now u) := by
  refine .transact (.refl u) fun m m' v h => ?_
  exact (createEntry_row h).1

theorem importEdits_keeps (H : HistoryLib) (u : Uuid) (p : PortableEntry) (now : EpochMs) :
    Committing.Keeps (RowOnly u) (importEdits H p now u) := by
  unfold importEdits
  have hattach : ∀ a : PortableAttachment, Committing.Keeps (RowOnly u) (Committing.transact
      fun m : Mirror => (m.setAttachment H u a.name a.bytes now).map fun m' => (m', PUnit.unit)) :=
    fun a => transact_edit_keeps (H := H) (e := .setAttachment a.name a.bytes now)
  have hloop := Committing.Keeps.forM (RowOnly.refl u) RowOnly.trans hattach p.attachments
  have hrest := Committing.Keeps.bind (R := RowOnly u) (k := fun _ => pure u) RowOnly.trans hloop
    fun _ _ _ _ => .pure (RowOnly.refl u) u
  cases p.expiresAt with
  | some expiry =>
    have hpatch := transact_edit_keeps (H := H) (u := u)
      (e := .updateEntry { expiresAt := some (some expiry) } now)
    exact .bind (R := RowOnly u) RowOnly.trans hpatch fun _ _ _ _ => hrest
  | none => exact hrest

/-- **What an import leaves of the target, whether it returns or fails.** -/
theorem importEntry_frame (m : Mirror) : ImportFrame u m
    ((Mirror.importEntry H iconUuid group p now clock u).runFrom m).2 := by
  have hicon := importIcon_step iconUuid clock p m
  rw [importEntry_steps, Committing.runFrom_bind]
  cases h : (Mirror.importIcon iconUuid clock p).runFrom m with
  | mk a m' =>
    rw [h] at hicon
    cases a with
    | error e => exact hicon.frame u
    | ok icon =>
      have hedits := Committing.Keeps.bind (k := importEdits H p now) .trans
        (transact_create_keeps group u (Mirror.importFields p icon) now) fun s v s' hv => by
            rw [createEntry_uuid (Committing.of_runFrom_transact hv)]
            exact importEdits_keeps H u p now
      exact (hicon.frame u).rowOnly (hedits m')

variable {Readable : Option String → Prop} {r row : EntryRow} {expiry : Option EpochMs} {m : Mirror}

/-- **The attachments are attached one by one.** -/
theorem attachments_stage (hH : H.Returns Readable) (hrow : m.entries.find? u = some row)
    (h : Stage Readable r [] expiry row) {files : List PortableAttachment}
    (hnames : (files.map (·.name)).Nodup) :
    ∃ m' row', (files.forM fun a => Committing.transact fun m =>
        (m.setAttachment H u a.name a.bytes r.modifiedAt).map (·, PUnit.unit)).runFrom m =
          (.ok ⟨⟩, m') ∧ m'.entries.find? u = some row' ∧
      Stage Readable r (files.map fun a => (a.name, a.bytes)) expiry row' := by
  obtain ⟨m', hloop, before, row', hall, hrow', hstage⟩ := Committing.forM_ok
    (fun rest (m : Mirror) => ∃ before row', before ++ rest = files ∧ m.entries.find? u = some row' ∧
      Stage Readable r (before.map fun a => (a.name, a.bytes)) expiry row')
    (f := fun a (m : Mirror) => (m.setAttachment H u a.name a.bytes r.modifiedAt).map (·, PUnit.unit))
    (fun a rest m hm => by
      obtain ⟨before, row', hall, hrow', hstage⟩ := hm
      have hfree : a.name ∉ (before.map fun a => (a.name, a.bytes)).map (·.1) := by
        rw [← hall, List.map_append, List.nodup_append] at hnames
        intro ha
        rw [List.map_map] at ha
        exact hnames.2.2 _ ha _ (by simp) rfl
      obtain ⟨m', row'', hattach, hrow'', hstage'⟩ := attachment_stage hH hrow' hstage a.bytes hfree
      refine ⟨m', except_map_ok.2 ⟨m', hattach, rfl⟩, before ++ [a], row'', by simpa using hall,
        hrow'', ?_⟩
      rw [List.map_append]
      exact hstage')
    ⟨[], row, rfl, hrow, h⟩
  rw [List.append_nil] at hall
  rw [hall] at hstage
  exact ⟨m', row', hloop, hrow', hstage⟩

theorem importEdits_ok (hH : H.Returns Readable) (hrow : m.entries.find? u = some row)
    (h : Stage Readable r [] none row) (hnames : (p.attachments.map (·.name)).Nodup) :
    ∃ m' row', (importEdits H p r.modifiedAt u).runFrom m = (.ok u, m') ∧
      m'.entries.find? u = some row' ∧
      Stage Readable r (p.attachments.map fun a => (a.name, a.bytes)) p.expiresAt row' := by
  unfold importEdits
  cases p.expiresAt with
  | none =>
    obtain ⟨m', row', hloop, hrow', hstage⟩ := attachments_stage hH hrow h hnames
    exact ⟨m', row', by rw [Committing.runFrom_bind_ok hloop, Committing.runFrom_pure], hrow', hstage⟩
  | some e =>
    obtain ⟨m₁, row₁, hpatch, hrow₁, hstage₁⟩ := expiry_stage hH hrow h e
    obtain ⟨m', row', hloop, hrow', hstage⟩ := attachments_stage hH hrow₁ hstage₁ hnames
    have hfirst : (Committing.transact fun m : Mirror => (m.updateEntryFields H u
        { expiresAt := some (some e) } r.modifiedAt).map (·, PUnit.unit)).runFrom m =
          (.ok ⟨⟩, m₁) := Committing.runFrom_transact (except_map_ok.2 ⟨m₁, hpatch, rfl⟩)
    refine ⟨m', row', (Committing.runFrom_bind_ok hfirst).trans ?_, hrow', hstage⟩
    rw [Committing.runFrom_bind_ok hloop, Committing.runFrom_pure]

theorem iconRefFrom_iconParts (icon : IconRef) :
    iconRefFrom (iconParts icon).1 (iconParts icon).2 = icon := by
  cases icon with
  | builtin i => simp [iconParts, iconRefFrom, builtinIconIndex]
  | custom u => rfl

/-- **The import of an exported row.** -/
theorem importEntry_ok (hH : H.Returns Readable) (hnone : Readable none) (source : Mirror)
    (hkeyed : EntryRow.Keyed row) (hlinked : EntryRow.Linked row) (hgroup : group ∈ m.groups.keys)
    (hu : u ∉ m.entries.keys) (hicons : IconsByBytes iconUuid m) (now clock : EpochMs) :
    ∃ icon m' row',
      (Mirror.importEntry H iconUuid group (source.portable row) now clock u).runFrom m = (.ok u, m') ∧
        m'.entries.find? u = some row' ∧ m'.drawnIcon icon = source.drawnIcon row.icon ∧
        Stage Readable (createdRow group (Mirror.importFields (source.portable row) icon) now u)
          (sortByName row.attachments) row.expiresAt row' := by
  obtain ⟨icon, m₁, hicon, hdrawn⟩ := importIcon_ok clock hicons source row
  have hstep := importIcon_step iconUuid clock (source.portable row) m
  rw [hicon] at hstep
  have hfields := importFields_portable source row icon
  obtain ⟨m₂, hcreate⟩ := createEntry_returns (m := m₁)
    (Mirror.importFields (source.portable row) icon) now
    (by rw [(hstep.frame u).groups]; exact hgroup) (by rw [hstep.entries]; exact hu)
    (by rw [hfields.1]
        exact ((readFields_protected row hlinked).map _).nodup_iff.2 hkeyed.protectedFields)
    (by rw [hfields.2]; exact ((readFields_plain row).map _).nodup_iff.2 hkeyed.customFields)
  obtain ⟨hone, -, hrow, -⟩ := createEntry_row hcreate
  have hstage : Stage Readable (createdRow group (Mirror.importFields (source.portable row) icon) now u)
      [] none (createdRow group (Mirror.importFields (source.portable row) icon) now u) :=
    ⟨[], [], rfl, hnone, fun _ hs => by cases hs⟩
  have hnames : ((source.portable row).attachments.map (·.name)).Nodup := by
    have hsorted : ((sortByName row.attachments).map (·.1)).Nodup :=
      ((List.perm_insertionSort _ row.attachments).map _).nodup_iff.2 hlinked.files
    simpa [Mirror.portable, Function.comp_def] using hsorted
  obtain ⟨m', row', hedits, hrow', hstage'⟩ := importEdits_ok hH hrow hstage hnames
  have hfiles : (source.portable row).attachments.map (fun a => (a.name, a.bytes)) =
      sortByName row.attachments := by
    simp [Mirror.portable, Function.comp_def]
  rw [hfiles] at hstage'
  refine ⟨icon, m', row', ?_, hrow', ?_, hstage'⟩
  · rw [importEntry_steps, Committing.runFrom_bind_ok hicon,
      Committing.runFrom_bind_ok (Committing.runFrom_transact hcreate)]
    exact hedits
  · have hkept : RowOnly u m₂ m' := by
      have h := importEdits_keeps H u (source.portable row) now m₂
      rwa [show (importEdits H (source.portable row) now u).runFrom m₂ = (.ok u, m') from hedits] at h
    have hpool : m'.settings = m₁.settings := hkept.settings.trans hone.settings
    rw [← hdrawn]
    unfold Mirror.drawnIcon Mirror.readCustomIconBytes
    rw [hpool]

/-- The content of the new entry is that of the exported row, but for the columns of the icon. -/
theorem Stage.shown (source : Mirror) (hkeyed : EntryRow.Keyed row) (hlinked : EntryRow.Linked row)
    {icon : IconRef} {row' : EntryRow}
    (h : Stage Readable (createdRow group (Mirror.importFields (source.portable row) icon) now u)
      (sortByName row.attachments) row.expiresAt row') :
    row'.shown = { row.shown with
      iconIndex := (iconParts icon).1
      iconCustomUuid := (iconParts icon).2 } := by
  obtain ⟨_, _, rfl, -⟩ := h
  have hfields := importFields_portable source row icon
  have hfiles : sortByName (sortByName row.attachments) = sortByName row.attachments :=
    sortByName_perm (List.perm_insertionSort _ _) hlinked.files
  unfold EntryRow.shown EntryRow.content createdRow
  dsimp only
  rw [hfields.1, hfields.2, hfiles,
    sortByName_perm (readFields_protected row hlinked) hkeyed.protectedFields,
    sortByName_perm (readFields_plain row) hkeyed.customFields,
    show (Mirror.importFields (source.portable row) icon).tags = sortStrings row.tags from rfl,
    linkTags_of_linked hlinked.tags]
  rfl

end Import

/-! ## Runs -/

/-- **An exported entry, imported**: any entry of any vault a run reaches from an ingest, imported into
any group of any vault, is a new entry of the same content, its icon drawn as in the source. Its history
holds snapshots of its own earlier stages only, and none when there was neither an attachment nor an
expiry to add. An import, returning or failing, writes an icon of the pool and the new entry at most. -/
theorem import_of_export {Λ : Libs} {vault : Vault} {source : Source} {m m' : Mirror}
    (hingest : ingestVaultWithHeader vault source m = .ok m')
    {pending : List (PendingConflictContext Λ.vaults)} {t : EngineState Λ.vaults}
    (hrun : EngineRun Λ (fun _ _ => True) ⟨m', pending⟩ t) {u : Uuid} {row : EntryRow}
    (hrow : t.mirror.entries.find? u = some row) {H : HistoryLib} {Readable : Option String → Prop}
    (hH : H.Returns Readable) (hnone : Readable none) (iconUuid : List UInt8 → Uuid) (target : Mirror)
    (group new : Uuid) (now clock : EpochMs) :
    ∃ p, t.mirror.exportEntry u = .ok p ∧
      ImportFrame new target
        ((Mirror.importEntry H iconUuid group p now clock new).runFrom target).2 ∧
      (group ∈ target.groups.keys → new ∉ target.entries.keys → IconsByBytes iconUuid target →
        ∃ target' row',
          (Mirror.importEntry H iconUuid group p now clock new).runFrom target = (.ok new, target') ∧
            target'.entries.find? new = some row' ∧ row'.groupUuid = group ∧
            row'.shown = { row.shown with
              iconIndex := row'.iconIndex
              iconCustomUuid := row'.iconCustomUuid } ∧
            target'.drawnIcon row'.icon = t.mirror.drawnIcon row.icon ∧
            (∀ s ∈ row'.history, row'.EarlierStage s) ∧
            (row.expiresAt = none → row.attachments = [] → row'.history = [])) := by
  have hrule := keyedLinked_rule Λ.env.history
  obtain ⟨hkeyed, hlinked⟩ := (hrule.run (hrule.ingest hingest) hrun).find hrow
  refine ⟨_, exportEntry_ok hrow hkeyed hlinked, importEntry_frame target, fun hg hu hicons => ?_⟩
  obtain ⟨icon, target', row', himport, hrow', hdrawn, hstage⟩ :=
    importEntry_ok hH hnone t.mirror hkeyed hlinked hg hu hicons now clock
  have hshown := hstage.shown t.mirror hkeyed hlinked
  obtain ⟨history, customData, rfl, -, hhistory⟩ := hstage
  refine ⟨target', _, himport, hrow', rfl, hshown, ?_, hhistory, fun hexpiry hfiles => ?_⟩
  · rw [← hdrawn]
    congr 1
    exact iconRefFrom_iconParts icon
  · refine List.eq_nil_iff_forall_not_mem.2 fun s hs => ?_
    obtain ⟨fs, e, d, hfs, he, hne, -⟩ := hhistory s hs
    have hnil : sortByName row.attachments = [] := by rw [hfiles]; rfl
    have hfs : fs = sortByName row.attachments := by
      rw [show _ <+: _ ↔ fs <+: sortByName row.attachments from Iff.rfl, hnil] at hfs
      rw [hnil, List.prefix_nil.1 hfs]
    have he : e = row.expiresAt := he.elim (fun he => he.trans hexpiry.symm) id
    exact hne (by rw [hfs, he])

/-- A vault whose entry has a custom icon and an attachment. -/
def keyVault : Vault where
  root := .node { id := 1, name := "Root" }
    [{ id := 9, title := "Mail", customIconUuid := some 7
       attachments := [⟨"key.txt", [1, 2, 3], true⟩] }] []
  metadata := { customIcons := [⟨7, [1], "", none⟩] }
  deletedObjects := []

/-- Its entry is imported into another vault. -/
theorem import_of_export_key :
    let source := ingested keyVault freshMirror
    let target := nestedMirror false
    ∃ p target' row row', source.exportEntry 9 = .ok p ∧ source.entries.find? 9 = some row ∧
      (Mirror.importEntry plainEnv.history (fun _ => 20) 1 p (.atSecond 50) (.atSecond 51)
        30).runFrom target = (.ok 30, target') ∧
      target'.entries.find? 30 = some row' ∧
      target'.drawnIcon row'.icon = source.drawnIcon row.icon := by
  intro source target
  let Λ : Libs := ⟨plainEnv, fieldMerge, fieldVaults⟩
  have hstart : ingestVaultWithHeader keyVault (.inMemory none) freshMirror = .ok source :=
    ingestVault_ingested (by decide +kernel)
  have hrun : EngineRun Λ (fun _ _ => True) ⟨source, []⟩ ⟨source, []⟩ := .refl
  have hH : plainEnv.history.Returns fun _ => True := fun items _ _ _ _ => ⟨items, rfl, trivial⟩
  have hsome : (source.entries.find? 9).isSome = true := by decide +kernel
  obtain ⟨row, hrow⟩ := Option.isSome_iff_exists.1 hsome
  have hicons : IconsByBytes (fun _ => 20) target := fun r hr => by cases hr
  obtain ⟨p, hexport, -, himport⟩ := import_of_export hstart hrun hrow hH trivial (fun _ => 20) target
    1 30 (.atSecond 50) (.atSecond 51)
  obtain ⟨target', row', himport, hrow', -, -, hdrawn, -⟩ :=
    himport (by decide +kernel) (by decide +kernel) hicons
  exact ⟨p, target', row, row', hexport, hrow, himport, hrow', hdrawn⟩

/-- The attachment is attached by an edit, which archives the new entry as it was without it. An import
of the entry into a group that is not there fails when the icon is in the pool already. -/
theorem import_archives_and_keeps_icon :
    let source := ingested keyVault freshMirror
    let target := nestedMirror false
    let imported (group : Uuid) := (source.exportEntry 9).toOption.map fun p =>
      (Mirror.importEntry plainEnv.history (fun _ => 20) group p (.atSecond 50) (.atSecond 51)
        30).runFrom target
    ingestVaultWithHeader keyVault (.inMemory none) freshMirror = .ok source ∧
      (imported 1).map (fun r => (r.1.toOption, (r.2.entries.find? 30).map (·.history.length))) =
        some (some 30, some 1) ∧
      (imported 8).map (fun r => (r.1.toOption, r.2.settings.customIcons.keys)) = some (none, [20]) ∧
      (imported 8).map (fun r => r.2.mutationSeq) = some (target.mutationSeq + 1) ∧
      target.settings.customIcons.keys = [] := by
  intro source target imported
  exact ⟨ingestVault_ingested (by decide +kernel), by decide +kernel, by decide +kernel,
    by decide +kernel, by decide +kernel⟩

end KeysCore.Verify
