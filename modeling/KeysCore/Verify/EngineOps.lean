import KeysCore.EntryMutations
import KeysCore.Verify.BreakCycles
import KeysCore.Verify.PeerIngest

/-!
# The engine's mutations

Every mutation the engine offers, as one type, and what they have in common. An edit of an entry
rewrites the row of that entry and nothing else (`EntryEdit.run_editsRow`).
-/

namespace KeysCore.Verify

open Lib Lib.Forest

/-! ## Edits of an entry -/

/-- The operations that change the content of an entry in place. -/
inductive EntryEdit where
  | updateEntry (upd : EntryUpdate) (now : EpochMs)
  | saveEntry (save : EntrySave) (now : EpochMs)
  | setProtectedField (name value : String) (now : EpochMs)
  | setNonProtectedCustomField (name value : String) (now : EpochMs)
  | removeCustomField (name : String) (now : EpochMs)
  | setTags (tags : List String) (now : EpochMs)
  | setAttachment (name : String) (bytes : List UInt8) (now : EpochMs)
  | removeAttachment (name : String) (now : EpochMs)
  | clearEntryCustomIcon (now : EpochMs)
  | linkEntryCustomIcon (icon : Uuid)
  | touchEntry (usedAt : Option EpochMs)
  | deleteHistoryAt (index : Nat) (now : EpochMs)
  | restoreEntryFromHistory (index : Nat) (now : EpochMs)

namespace EntryEdit

/-- The mirror an edit of `u` commits. -/
def run (H : HistoryLib) (m : Mirror) (u : Uuid) : EntryEdit → Except EngineError Mirror
  | updateEntry upd now => m.updateEntryFields H u upd now
  | saveEntry save now => m.saveEntry H u save now
  | setProtectedField name value now => m.setProtectedField H u name value now
  | setNonProtectedCustomField name value now => m.setNonProtectedCustomField H u name value now
  | removeCustomField name now => m.removeCustomField H u name now
  | setTags tags now => m.setTags H u tags now
  | setAttachment name bytes now => m.setAttachment H u name bytes now
  | removeAttachment name now => m.removeAttachment H u name now
  | clearEntryCustomIcon now => m.clearEntryCustomIcon H u now
  | linkEntryCustomIcon icon => m.linkEntryCustomIcon u icon
  | touchEntry usedAt => m.touchEntry u usedAt
  | deleteHistoryAt index now => m.deleteHistoryAt H u index now
  | restoreEntryFromHistory index now => m.restoreEntryFromHistory H u index now

end EntryEdit

/-- `m'` is `m` with rows of `u` rewritten in place, each time by a row that `R` relates to the one
before. -/
inductive EditsRow (R : EntryRow → EntryRow → Prop) (u : Uuid) : Mirror → Mirror → Prop where
  | refl (m : Mirror) : EditsRow R u m m
  | step {m m' : Mirror} {row row' : EntryRow} :
      EditsRow R u m m' → m'.entries.find? u = some row → R row row' →
      EditsRow R u m (m'.putEntryRow u row')

section EditingRows

variable {R : EntryRow → EntryRow → Prop} {u : Uuid} {m m' : Mirror}

theorem putEntryRow_row (m : Mirror) (u : Uuid) (row : EntryRow) :
    RowOnly u m (m.putEntryRow u row) ∧ (m.putEntryRow u row).entries.find? u =
      (m.entries.find? u).map fun r => { row with uuid := r.uuid, groupUuid := r.groupUuid } :=
  updateEntry_row m u _ _ _

@[simp] theorem putEntryRow_keys (m : Mirror) (u : Uuid) (row : EntryRow) :
    (m.putEntryRow u row).entries.keys = m.entries.keys := by
  simp [Mirror.putEntryRow, Mirror.updateEntry]

namespace EditsRow

theorem rowOnly (h : EditsRow R u m m') : RowOnly u m m' := by
  induction h with
  | refl => exact .refl u _
  | step _ _ _ ih => exact ih.trans (putEntryRow_row _ _ _).1

theorem keys (h : EditsRow R u m m') : m'.entries.keys = m.entries.keys := by
  induction h with
  | refl => rfl
  | step _ _ _ ih => rw [putEntryRow_keys, ih]

theorem trans {m'' : Mirror} (h : EditsRow R u m m') (h' : EditsRow R u m' m'') :
    EditsRow R u m m'' := by
  induction h' with
  | refl => exact h
  | step _ hfind hR ih => exact .step ih hfind hR

end EditsRow

theorem editEntry_ok {f : EntryRow → Except EngineError EntryRow} :
    m.editEntry u f = .ok m' ↔ ∃ row row', m.entries.find? u = some row ∧ f row = .ok row' ∧
      m.putEntryRow u row' = m' := by
  unfold Mirror.editEntry
  cases m.entries.find? u with
  | none => simp
  | some row =>
    dsimp only
    rw [except_bind_ok]
    constructor
    · rintro ⟨row', hrow', h⟩
      exact ⟨row, row', rfl, hrow', Except.ok.inj h⟩
    · rintro ⟨_, row', hrow, hrow', h⟩
      obtain rfl := Option.some.inj hrow
      exact ⟨row', hrow', congrArg Except.ok h⟩

theorem editEntry_editsRow {f : EntryRow → Except EngineError EntryRow}
    (h : m.editEntry u f = .ok m') (hf : ∀ row row', f row = .ok row' → R row row') :
    EditsRow R u m m' := by
  obtain ⟨row, row', hrow, hrow', rfl⟩ := editEntry_ok.1 h
  exact .step (.refl m) hrow (hf row row' hrow')

theorem contentEdit_editsRow {H : HistoryLib} {now : EpochMs} {f : EntryRow → EntryRow}
    (h : m.contentEdit H u now f = .ok m')
    (hf : ∀ row row', EntryRow.finishEdit H m.settings now row (f row) = .ok (some row') →
      R row row') : EditsRow R u m m' := by
  unfold Mirror.contentEdit at h
  split at h
  · cases h
  · rename_i row hrow
    obtain ⟨after, hafter, h⟩ := except_bind_ok.1 h
    cases after with
    | none =>
      obtain rfl := Except.ok.inj h
      exact .refl m
    | some row' =>
      obtain rfl := Except.ok.inj h
      exact .step (.refl m) hrow (hf row row' hafter)

end EditingRows

namespace EntryEdit

/-- How an edit may rewrite the row. -/
def Step (H : HistoryLib) (s : Settings) : EntryEdit → EntryRow → EntryRow → Prop
  | updateEntry upd now => fun a b => a.finishEdit H s now (a.applyUpdate upd) = .ok (some b)
  | saveEntry save now => fun a b => a.finishEdit H s now (a.applySave save) = .ok (some b)
  | setProtectedField name value now => fun a b =>
      a.archivedEdit H s now (EntryRow.setProtected name value) = .ok b
  | setNonProtectedCustomField name value now => fun a b =>
      a.archivedEdit H s now
        (fun e => { e with customFields := upsertRow e.customFields (name, value) }) = .ok b
  | removeCustomField name now => fun a b =>
      a.archivedEdit H s now (fun e =>
        { e with
          protectedFields := e.protectedFields.filter (·.1 ≠ name)
          customFields := e.customFields.filter (·.1 ≠ name) }) = .ok b
  | setTags tags now => fun a b =>
      (sortStrings (tags.foldl linkTag []) = sortStrings a.tags ∧
          b = { a with tags := tags.foldl linkTag [] }) ∨
        (sortStrings (tags.foldl linkTag []) ≠ sortStrings a.tags ∧
          a.archivedEdit H s now (fun e => { e with tags := tags.foldl linkTag [] }) = .ok b)
  | setAttachment name bytes now => fun a b =>
      a.archivedEdit H s now
        (fun e => { e with attachments := upsertRow e.attachments (name, bytes) }) = .ok b
  | removeAttachment name now => fun a b =>
      a.archivedEdit H s now
        (fun e => { e with attachments := e.attachments.filter (·.1 ≠ name) }) = .ok b
  | clearEntryCustomIcon now => fun a b =>
      a.archivedEdit H s now (fun e => { e with iconCustomUuid := none }) = .ok b
  | linkEntryCustomIcon icon => fun a b => b = { a with iconCustomUuid := some icon }
  | touchEntry usedAt => fun a b => b = { a with lastUsedAt := usedAt }
  | deleteHistoryAt index _ => fun a b =>
      (∃ data, b = a.storeTombstones data) ∨ b = { a with history := a.history.eraseIdx index }
  | restoreEntryFromHistory index now => fun a b =>
      ∃ snap, a.history[index]? = some snap ∧ (snap.attachments.map (·.1)).Nodup ∧
        a.restoreFrom H s.historyMaxItems now snap = .ok b

/-- **An edit rewrites the row of its entry, and nothing else.** -/
theorem run_editsRow {H : HistoryLib} {m m' : Mirror} {u : Uuid} {e : EntryEdit}
    (h : e.run H m u = .ok m') : EditsRow (e.Step H m.settings) u m m' := by
  cases e with
  | updateEntry upd now => exact contentEdit_editsRow h fun _ _ hs => hs
  | saveEntry save now => exact contentEdit_editsRow h fun _ _ hs => hs
  | setProtectedField name value now => exact editEntry_editsRow h fun _ _ hs => hs
  | setNonProtectedCustomField name value now => exact editEntry_editsRow h fun _ _ hs => hs
  | removeCustomField name now =>
    refine editEntry_editsRow h fun _ _ hs => ?_
    split at hs
    · cases hs
    · exact hs
  | setTags tags now =>
    refine editEntry_editsRow h fun _ _ hs => ?_
    dsimp only at hs
    split at hs
    · exact .inl ⟨‹_›, (Except.ok.inj hs).symm⟩
    · exact .inr ⟨‹_›, hs⟩
  | setAttachment name bytes now => exact editEntry_editsRow h fun _ _ hs => hs
  | removeAttachment name now => exact editEntry_editsRow h fun _ _ hs => hs
  | clearEntryCustomIcon now => exact editEntry_editsRow h fun _ _ hs => hs
  | linkEntryCustomIcon icon => exact editEntry_editsRow h fun _ _ hs => (Except.ok.inj hs).symm
  | touchEntry usedAt => exact editEntry_editsRow h fun _ _ hs => (Except.ok.inj hs).symm
  | deleteHistoryAt index now =>
    simp only [run, Mirror.deleteHistoryAt] at h
    obtain ⟨v, -, h⟩ := except_bind_ok.1 h
    split at h
    · cases h
    · split at h
      · cases h
      · obtain ⟨data, -, h⟩ := except_bind_ok.1 h
        obtain ⟨m₁, h₁, h⟩ := except_bind_ok.1 h
        have hstore := editEntry_editsRow h₁ (R := (deleteHistoryAt index now).Step H m.settings)
          fun _ _ hs => .inl ⟨data, (Except.ok.inj hs).symm⟩
        refine hstore.trans (editEntry_editsRow h fun _ _ hs => ?_)
        split at hs
        · exact .inr (Except.ok.inj hs).symm
        · cases hs
  | restoreEntryFromHistory index now =>
    refine editEntry_editsRow h fun row row' hs => ?_
    split at hs
    · cases hs
    · rename_i snap hsnap
      split at hs
      · exact ⟨snap, hsnap, ‹_›, hs⟩
      · cases hs

end EntryEdit

/-! ## Groups and new entries -/

theorem renumber_same (order : List Uuid) (i : Nat) (m : Mirror) :
    SameButGroups m (Mirror.renumber i order m) := by
  induction order generalizing i m with
  | nil => exact .refl m
  | cons s rest ih =>
    have hone : SameButGroups m (m.updateGroups (fun g => g.uuid = s)
      (fun g => { g with sortOrder := (i : Int) }) (fun _ => rfl) (fun _ => rfl)) :=
      ⟨rfl, rfl, rfl, rfl⟩
    exact hone.trans (ih (i + 1) _)

/-- The row `create_entry` inserts. -/
def createdRow (group : Uuid) (fields : NewEntryFields) (now : EpochMs) (u : Uuid) : EntryRow :=
  { uuid := u, groupUuid := group, title := fields.title, username := fields.username
    url := fields.url, notes := fields.notes, iconIndex := (iconParts fields.icon).1
    iconCustomUuid := (iconParts fields.icon).2, createdAt := now, modifiedAt := now
    accessedAt := now, password := fields.password
    protectedFields := protectedOf fields.customFields
    customFields := plainOf fields.customFields, tags := fields.tags.foldl linkTag [] }

theorem createEntry_row {m m' : Mirror} {g u v : Uuid} {fields : NewEntryFields} {now : EpochMs}
    (h : m.createEntry g fields now u = .ok (m', v)) :
    RowOnly u m m' ∧ m.entries.find? u = none ∧
      m'.entries.find? u = some (createdRow g fields now u) ∧ g ∈ m.groups.keys ∧
      ((protectedOf fields.customFields).map (·.1)).Nodup ∧
      ((plainOf fields.customFields).map (·.1)).Nodup := by
  unfold Mirror.createEntry at h
  split at h
  · obtain ⟨a, ha, h⟩ := except_bind_ok.1 h
    split at h
    · rename_i hnd
      obtain ⟨rfl, -⟩ := Prod.mk.inj (Except.ok.inj h)
      unfold Mirror.insertEntryRow at ha
      split at ha
      · cases ha
      · rename_i T hT
        split at ha
        · rename_i hg
          obtain rfl := Except.ok.inj ha
          have hfind := Table.find?_insert hT
          refine ⟨⟨rfl, rfl, rfl, rfl, fun w hw => ?_⟩, ?_, ?_, hg, hnd⟩
          · exact (hfind w).trans (if_neg (Ne.symm hw))
          · exact Table.find?_eq_none.2 (Table.insert?_eq_some.1 hT).1
          · exact (hfind u).trans (if_pos rfl)
        · cases ha
    · cases h
  · cases h

/-! ## All mutations -/

/-- The mutations of the engine. -/
inductive EngineOp where
  | structural (op : StructuralOp)
  | updateGroup (u : Uuid) (upd : GroupUpdate) (now : EpochMs)
  | createEntry (group : Uuid) (fields : NewEntryFields) (now : EpochMs) (newUuid : Uuid)
  | editEntry (u : Uuid) (edit : EntryEdit)
  | deleteEntry (u : Uuid) (now : EpochMs)
  | ensureRecycleBin (now : EpochMs) (binUuid : Uuid)
  | addCustomIcon (bytes : List UInt8) (now : EpochMs)
  | setHistoryMaxItems (n : Int)
  | setHistoryMaxSize (n : Int)

/-- What the mutations take from outside: the history library and the uuid of an icon's bytes. -/
structure EngineEnv where
  history : HistoryLib
  iconUuid : List UInt8 → Uuid

/-- The mirror a mutation commits. -/
def EngineOp.run (E : EngineEnv) (m : Mirror) : EngineOp → Except EngineError Mirror
  | structural op => op.run m
  | updateGroup u upd now => m.updateGroup u upd now
  | createEntry g fields now u => (m.createEntry g fields now u).map (·.1)
  | editEntry u edit => edit.run E.history m u
  | deleteEntry u now => (m.deleteEntry u now).map (·.1)
  | ensureRecycleBin now bin => m.ensureRecycleBin now bin
  | addCustomIcon bytes now => (m.addCustomIcon E.iconUuid bytes now).map (·.1)
  | setHistoryMaxItems n => .ok (m.setHistoryMaxItems n)
  | setHistoryMaxSize n => .ok (m.setHistoryMaxSize n)

/-- What a mutation commits, branch by branch. -/
inductive EngineOp.Commits (E : EngineEnv) (m : Mirror) : EngineOp → Mirror → Prop where
  | structural {op : StructuralOp} {m' : Mirror} :
      op.run m = .ok m' → Commits E m (.structural op) m'
  | updateGroup {u : Uuid} {upd : GroupUpdate} {now : EpochMs} {n : Nat} :
      Commits E m (.updateGroup u upd now)
        ((m.updateGroups (fun g => g.uuid = u) (Mirror.applyGroupUpdate upd now) (fun _ => rfl)
          (fun _ => rfl)).bump n)
  | createEntry {g u v : Uuid} {fields : NewEntryFields} {now : EpochMs} {m' : Mirror} :
      m.createEntry g fields now u = .ok (m', v) → Commits E m (.createEntry g fields now u) m'
  | editEntry {u : Uuid} {edit : EntryEdit} {m' : Mirror} :
      edit.run E.history m u = .ok m' → Commits E m (.editEntry u edit) m'
  | deleteEntry {u : Uuid} {now : EpochMs} :
      Commits E m (.deleteEntry u now)
        ((m.deleteEntries (fun e => e.uuid = u)).recordTombstone u now)
  | binPresent {now : EpochMs} {binUuid bin : Uuid} :
      m.recycleBinUuid = some bin → Commits E m (.ensureRecycleBin now binUuid) m
  | binCreated {now : EpochMs} {binUuid : Uuid} {m' : Mirror} :
      m.recycleBinUuid = none → m.readRecycleBinEnabled = true →
      m.createRecycleBinGroup now binUuid = .ok m' → Commits E m (.ensureRecycleBin now binUuid) m'
  | binDisabled {now : EpochMs} {binUuid : Uuid} :
      m.recycleBinUuid = none → m.readRecycleBinEnabled = false →
      Commits E m (.ensureRecycleBin now binUuid) m
  | iconPresent {bytes : List UInt8} {now : EpochMs} : Commits E m (.addCustomIcon bytes now) m
  | iconAdded {bytes : List UInt8} {now : EpochMs} {T : Table CustomIconRow.uuid} :
      m.settings.customIcons.rows.find? (·.bytes = bytes) = none →
      m.settings.customIcons.insert? ⟨E.iconUuid bytes, "", bytes, some now⟩ = some T →
      Commits E m (.addCustomIcon bytes now)
        (m.writeSettings (fun s => { s with customIcons := T }) 1)
  | setHistoryMaxItems {n : Int} : Commits E m (.setHistoryMaxItems n) (m.setHistoryMaxItems n)
  | setHistoryMaxSize {n : Int} : Commits E m (.setHistoryMaxSize n) (m.setHistoryMaxSize n)

/-- **A mutation that returns commits one of its branches.** -/
theorem EngineOp.run_commits {E : EngineEnv} {m m' : Mirror} {op : EngineOp}
    (h : op.run E m = .ok m') : op.Commits E m m' := by
  cases op with
  | structural op => exact .structural h
  | updateGroup u upd now =>
    have h : m.updateGroup u upd now = .ok m' := h
    unfold Mirror.updateGroup at h
    split at h
    · obtain rfl := Except.ok.inj h
      exact .updateGroup
    · cases h
  | createEntry g fields now u =>
    obtain ⟨⟨a, v⟩, ha, rfl⟩ := except_map_ok.1 h
    exact .createEntry ha
  | editEntry u edit => exact .editEntry h
  | deleteEntry u now =>
    obtain ⟨⟨a, v⟩, ha, rfl⟩ := except_map_ok.1 h
    unfold Mirror.deleteEntry at ha
    split at ha
    · cases ha
    · obtain ⟨rfl, -⟩ := Prod.mk.inj (Except.ok.inj ha)
      exact .deleteEntry
  | ensureRecycleBin now bin =>
    have h : m.ensureRecycleBin now bin = .ok m' := h
    unfold Mirror.ensureRecycleBin at h
    split at h
    · obtain rfl := Except.ok.inj h
      exact .binPresent ‹_›
    · rename_i hbin
      split at h
      · exact .binCreated hbin ‹_› h
      · rename_i hen
        rw [Bool.not_eq_true] at hen
        obtain rfl := Except.ok.inj h
        exact .binDisabled hbin hen
  | addCustomIcon bytes now =>
    obtain ⟨⟨a, v⟩, ha, rfl⟩ := except_map_ok.1 h
    unfold Mirror.addCustomIcon at ha
    split at ha
    · obtain ⟨rfl, -⟩ := Prod.mk.inj (Except.ok.inj ha)
      exact .iconPresent
    · rename_i hnew
      split at ha
      · cases ha
      · obtain ⟨rfl, -⟩ := Prod.mk.inj (Except.ok.inj ha)
        exact .iconAdded hnew ‹_›
  | setHistoryMaxItems n =>
    obtain rfl := Except.ok.inj h
    exact .setHistoryMaxItems
  | setHistoryMaxSize n =>
    obtain rfl := Except.ok.inj h
    exact .setHistoryMaxSize

/-- The mirror a mutation leaves, the old one when it fails. -/
def EngineOp.next (E : EngineEnv) (m : Mirror) (op : EngineOp) : Mirror :=
  (op.run E m).toOption.getD m

theorem EngineOp.run_next {E : EngineEnv} {m : Mirror} {op : EngineOp}
    (h : (op.run E m).isOk = true) : op.run E m = .ok (op.next E m) := by
  cases hr : op.run E m with
  | error e => rw [hr] at h; cases h
  | ok m' => rw [EngineOp.next, hr]; rfl

/-- An environment for runs on concrete mirrors that drop no history record and add no icon. -/
def plainEnv : EngineEnv where
  history := ⟨fun data _ _ _ => .ok data, fun _ => 0⟩
  iconUuid := fun _ => 0

end KeysCore.Verify
