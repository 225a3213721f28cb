import KeysCore.Verify.Cascade
import KeysCore.Verify.EngineRuns
import KeysCore.Verify.VaultIngest

/-!
# What a mutation does to the bodies of entries

The body of an entry is its row without its place: the group, the bin flag, the previous parent and the
stamps of a move. A structural operation keeps the bodies of all entries, or removes entries
(`StructuralOp.run_bodies`); the columns and tables that follow the body of an entry need no write
there.
-/

namespace KeysCore.Verify

open Lib Lib.Forest

/-- The row with the columns of its place set to nothing. -/
def EntryRow.body (r : EntryRow) : EntryRow :=
  { r with
    groupUuid := 0
    isRecycled := false
    previousParentUuid := none
    locationChangedAt := none
    modifiedAt := default }

def bodyOf (m : Mirror) (u : Uuid) : Option EntryRow := (m.entries.find? u).map EntryRow.body

/-- The same entries, with the same bodies. -/
def SameBodies (m m' : Mirror) : Prop := ∀ u, bodyOf m' u = bodyOf m u

/-- Of the entries, some are gone and the others have the same bodies. -/
def FewerBodies (m m' : Mirror) : Prop := ∀ u, bodyOf m' u = none ∨ bodyOf m' u = bodyOf m u

section Bodies

variable {m m' m'' : Mirror}

theorem SameBodies.of_entries (h : m'.entries = m.entries) : SameBodies m m' := fun u => by
  rw [bodyOf, bodyOf, h]

theorem SameBodies.refl (m : Mirror) : SameBodies m m := .of_entries rfl

theorem SameBodies.trans (h : SameBodies m m') (h' : SameBodies m' m'') : SameBodies m m'' :=
  fun u => (h' u).trans (h u)

theorem SameBodies.fewer (h : SameBodies m m') : FewerBodies m m' := fun u => .inr (h u)

/-- An update of one row that keeps its body. -/
theorem SameBodies.of_row {u : Uuid} {f : EntryRow → EntryRow} (h : RowOnly u m m')
    (hfind : m'.entries.find? u = (m.entries.find? u).map f)
    (hf : ∀ r, EntryRow.body (f r) = EntryRow.body r) : SameBodies m m' := by
  intro v
  unfold bodyOf
  by_cases e : v = u
  · subst e
    rw [hfind, Option.map_map]
    congr 1
    funext r
    exact hf r
  · rw [h.entries v e]

theorem placeEntry_bodies {u g : Uuid} {f : EntryRow → EntryRow} {hu : ∀ r, (f r).uuid = r.uuid}
    (h : m.placeEntry u g f hu = .ok m') (hf : ∀ r, EntryRow.body (f r) = EntryRow.body r) :
    SameBodies m m' := by
  obtain ⟨hrow, hfind⟩ := placeEntry_row h
  refine .of_row hrow hfind fun r => ?_
  rw [← hf r]
  rfl

theorem FewerBodies.of_rows (h : ∀ e ∈ m'.entries.rows, e ∈ m.entries.rows) : FewerBodies m m' := by
  intro u
  unfold bodyOf
  cases hfind : m'.entries.find? u with
  | none => exact .inl rfl
  | some r =>
    obtain ⟨hr, hkey⟩ := Table.find?_eq_some.1 hfind
    rw [Table.find?_eq_some.2 ⟨h r hr, hkey⟩]
    exact .inr rfl

end Bodies

/-! ## Structural operations -/

/-- The operation deletes entries: it deletes a group or what is in the bin, or recycles an entry in a
vault without a bin. -/
def StructuralOp.removes (m : Mirror) : StructuralOp → Bool
  | deleteGroup _ _ => true
  | emptyRecycleBin _ => m.recycleBinUuid.isSome
  | recycleEntry u _ _ =>
    (m.entries.find? u).any fun row =>
      !m.groupInBinSubtree row.groupUuid && m.recycleBinUuid.isNone && !m.readRecycleBinEnabled
  | _ => false

section Structural

variable {m m' : Mirror}

/-- **A structural operation keeps the bodies of entries, or removes entries.** -/
theorem StructuralOp.run_bodies {op : StructuralOp} (h : op.run m = .ok m') :
    FewerBodies m m' ∧ (op.removes m = false → SameBodies m m') := by
  have kept : SameBodies m m' → FewerBodies m m' ∧ (op.removes m = false → SameBodies m m') :=
    fun hsame => ⟨hsame.fewer, fun _ => hsame⟩
  cases run_commits h with
  | createGroup _ hins => exact kept (.of_entries (insertGroup_same hins).entries)
  | moveGroup _ _ hset => exact kept (.of_entries (setParent_same hset).entries)
  | recycleGroup _ _ hset => exact kept (.of_entries (setParent_same hset).entries)
  | reorderGroup => exact kept (.of_entries (renumber_same _ 0 m).entries)
  | deleteGroup _ hdel =>
    refine ⟨.of_rows fun e he => ?_, fun hremoves => by cases hremoves⟩
    exact (((deleteGroupRecursive_subtrees hdel).entries e).1 he).1
  | noBin => exact kept (.refl m)
  | emptyBin hbin hst =>
    have hkids := foldlM_removesSubtrees (fun _ _ _ hc => deleteGroupRecursive_subtrees hc) hst
    refine ⟨.of_rows fun e he => ?_, fun hremoves => ?_⟩
    · rw [deleteDirectChildEntries_entries] at he
      exact ((hkids.entries e).1 he.1).1
    · simp [removes, hbin] at hremoves
  | setBin => exact kept (.of_entries rfl)
  | clearBin => exact kept (.of_entries rfl)
  | moveEntry _ hplace => exact kept (placeEntry_bodies hplace fun _ => rfl)
  | inBin => exact kept (.refl m)
  | recycled _ _ _ hplace => exact kept (placeEntry_bodies hplace fun _ => rfl)
  | recycledNew _ _ _ _ hbin hplace =>
    have hsame := SameBodies.of_entries (createRecycleBinGroup_entries hbin)
    exact kept (hsame.trans (placeEntry_bodies hplace fun _ => rfl))
  | deleted hrow hin hbin hen =>
    refine ⟨.of_rows fun e he => (Table.mem_delete.1 he).1, fun hremoves => ?_⟩
    simp [removes, hrow, hin, hbin, hen] at hremoves
  | restored _ _ _ hplace => exact kept (placeEntry_bodies hplace fun _ => rfl)
  | @unflagged u =>
    obtain ⟨hrow, hfind⟩ := updateEntry_row m u (fun e => { e with isRecycled := false })
      (fun _ => rfl) (fun _ => rfl)
    exact kept (SameBodies.of_row hrow hfind fun _ => rfl)
  | outside => exact kept (.refl m)

end Structural

/-! ## Edits -/

section Edits

variable {H : HistoryLib} {s : Settings} {now : EpochMs} {r r' : EntryRow}

theorem storeTombstones_keeps (r : EntryRow) (data : List CustomDataItem) :
    r.storeTombstones data = { r with customData := (r.storeTombstones data).customData } := by
  unfold EntryRow.storeTombstones
  split
  · rfl
  · rfl

/-- The tombstones of trimmed records go to the custom data. -/
theorem tombstoneTrimmed_keeps {dropped : List HistorySnapshot}
    (h : r.tombstoneTrimmed H now dropped = .ok r') : r' = { r with customData := r'.customData } := by
  obtain ⟨data, -, h⟩ := except_bind_ok.1 h
  obtain rfl := Except.ok.inj h
  exact storeTombstones_keeps r data

/-- An archive writes the history and the custom data. -/
theorem archive_keeps {snap : HistorySnapshot} (h : r.archive H s now snap = .ok r') :
    r' = { r with history := r'.history, customData := r'.customData } := by
  unfold EntryRow.archive EntryRow.pruneHistory at h
  dsimp only at h
  split at h
  · obtain rfl := Except.ok.inj h
    rfl
  · obtain ⟨e, he, h⟩ := except_bind_ok.1 h
    obtain rfl := Except.ok.inj h
    rw [tombstoneTrimmed_keeps he]

/-- An edit that archives: the row as `f` leaves it, but for history, custom data and stamp. -/
theorem archivedEdit_keeps {f : EntryRow → EntryRow} (h : r.archivedEdit H s now f = .ok r') :
    ∃ history customData,
      r' = { f { r with history, customData } with modifiedAt := now } := by
  obtain ⟨e, he, h⟩ := except_bind_ok.1 h
  obtain rfl := Except.ok.inj h
  rw [archive_keeps he]
  exact ⟨_, _, rfl⟩

/-- A counted edit: the content changed, and the row is the new one, but for history, custom data and
stamp. -/
theorem finishEdit_keeps {after : EntryRow} (h : r.finishEdit H s now after = .ok (some r')) :
    after.content ≠ r.content ∧ ∃ history customData,
      r' = { after with history, customData, modifiedAt := now } := by
  unfold EntryRow.finishEdit at h
  split at h
  · cases h
  · rename_i hne
    obtain ⟨e, he, h⟩ := except_bind_ok.1 h
    obtain rfl := Option.some.inj (Except.ok.inj h)
    rw [archive_keeps he]
    exact ⟨hne, _, _, rfl⟩

theorem restoreFrom_keeps {maxItems : Int} {snap : HistorySnapshot}
    (h : r.restoreFrom H maxItems now snap = .ok r') :
    ∃ history customData, r' = { r.restored snap now with history, customData } := by
  unfold EntryRow.restoreFrom at h
  dsimp only at h
  split at h
  · obtain rfl := Except.ok.inj h
    exact ⟨_, _, rfl⟩
  · split at h
    · obtain rfl := Except.ok.inj h
      exact ⟨_, _, rfl⟩
    · obtain ⟨e, he, h⟩ := except_bind_ok.1 h
      obtain rfl := Except.ok.inj h
      rw [tombstoneTrimmed_keeps he]
      exact ⟨_, _, rfl⟩

/-- The content an edit gives a row; the history, the custom data and the stamp are left aside. -/
def EntryEdit.write (a : EntryRow) : EntryEdit → EntryRow
  | updateEntry upd _ => a.applyUpdate upd
  | saveEntry save _ => a.applySave save
  | setProtectedField name value _ => a.setProtected name value
  | setNonProtectedCustomField name value _ =>
    { a with customFields := upsertRow a.customFields (name, value) }
  | removeCustomField name _ =>
    { a with
      protectedFields := a.protectedFields.filter (·.1 ≠ name)
      customFields := a.customFields.filter (·.1 ≠ name) }
  | setTags tags _ => { a with tags := tags.foldl linkTag [] }
  | setAttachment name bytes _ => { a with attachments := upsertRow a.attachments (name, bytes) }
  | removeAttachment name _ => { a with attachments := a.attachments.filter (·.1 ≠ name) }
  | clearEntryCustomIcon _ => { a with iconCustomUuid := none }
  | linkEntryCustomIcon icon => { a with iconCustomUuid := some icon }
  | touchEntry usedAt => { a with lastUsedAt := usedAt }
  | deleteHistoryAt _ _ => a
  | restoreEntryFromHistory index now =>
    match a.history[index]? with
    | some snap => a.restored snap now
    | none => a

/-- **An edit leaves what it writes**, but for history, custom data and stamp. -/
theorem EntryEdit.Step.written {e : EntryEdit} (h : e.Step H s r r') :
    ∃ history customData modifiedAt, r' = { e.write r with history, customData, modifiedAt } := by
  have archived : ∀ {f : EntryRow → EntryRow} {now : EpochMs}, r.archivedEdit H s now f = .ok r' →
      (∀ history customData, f { r with history, customData } =
        { f r with history := (f { r with history, customData }).history
                   customData := (f { r with history, customData }).customData }) →
      ∃ history customData modifiedAt, r' = { f r with history, customData, modifiedAt } := by
    intro f now h hf
    obtain ⟨history, customData, rfl⟩ := archivedEdit_keeps h
    rw [hf]
    exact ⟨_, _, _, rfl⟩
  cases e with
  | updateEntry upd now =>
    obtain ⟨-, _, _, rfl⟩ := finishEdit_keeps h
    exact ⟨_, _, _, rfl⟩
  | saveEntry save now =>
    obtain ⟨-, _, _, rfl⟩ := finishEdit_keeps h
    exact ⟨_, _, _, rfl⟩
  | setProtectedField name value now =>
    refine archived h fun history customData => ?_
    unfold EntryRow.setProtected
    split <;> rfl
  | setNonProtectedCustomField name value now => exact archived h fun _ _ => rfl
  | removeCustomField name now => exact archived h fun _ _ => rfl
  | setTags tags now =>
    rcases h with ⟨-, rfl⟩ | ⟨-, h⟩
    · exact ⟨_, _, _, rfl⟩
    · exact archived h fun _ _ => rfl
  | setAttachment name bytes now => exact archived h fun _ _ => rfl
  | removeAttachment name now => exact archived h fun _ _ => rfl
  | clearEntryCustomIcon now => exact archived h fun _ _ => rfl
  | linkEntryCustomIcon icon =>
    obtain rfl := h
    exact ⟨_, _, _, rfl⟩
  | touchEntry usedAt =>
    obtain rfl := h
    exact ⟨_, _, _, rfl⟩
  | deleteHistoryAt index now =>
    rcases h with ⟨data, rfl⟩ | rfl
    · rw [storeTombstones_keeps]
      exact ⟨_, _, _, rfl⟩
    · exact ⟨_, _, _, rfl⟩
  | restoreEntryFromHistory index now =>
    obtain ⟨snap, hsnap, -, h⟩ := h
    obtain ⟨_, _, rfl⟩ := restoreFrom_keeps h
    simp only [write, hsnap]
    exact ⟨_, _, _, rfl⟩

end Edits

/-- The edit changes no content, and its transaction is rolled back. -/
def EntryEdit.rolledBack (row : EntryRow) : EntryEdit → Bool
  | updateEntry upd _ => (row.applyUpdate upd).content = row.content
  | saveEntry save _ => (row.applySave save).content = row.content
  | _ => false

/-- What an edit leaves of the row `a`. -/
inductive EntryEdit.Leaves (H : HistoryLib) (s : Settings) (a : EntryRow) :
    EntryEdit → EntryRow → Prop where
  | rolledBack {e : EntryEdit} : e.rolledBack a = true → Leaves H s a e a
  | step {e : EntryEdit} {b : EntryRow} : e.rolledBack a = false →
      (∀ index now, e ≠ .deleteHistoryAt index now) → e.Step H s a b →
      Leaves H s a e { b with uuid := a.uuid, groupUuid := a.groupUuid }
  | deletedHistory {index : Nat} {now : EpochMs} (data : List CustomDataRow) :
      index < a.history.length →
      Leaves H s a (.deleteHistoryAt index now)
        { a with customData := data, history := a.history.eraseIdx index }

section EditedRow

variable {H : HistoryLib} {m m' : Mirror} {u : Uuid}

theorem editEntry_row {f : EntryRow → Except EngineError EntryRow} (h : m.editEntry u f = .ok m') :
    ∃ row row', m.entries.find? u = some row ∧ f row = .ok row' ∧
      m'.entries.find? u = some { row' with uuid := row.uuid, groupUuid := row.groupUuid } := by
  obtain ⟨row, row', hrow, hrow', rfl⟩ := editEntry_ok.1 h
  refine ⟨row, row', hrow, hrow', ?_⟩
  rw [(putEntryRow_row m u row').2, hrow]
  rfl

theorem contentEdit_row {now : EpochMs} {f : EntryRow → EntryRow}
    (h : m.contentEdit H u now f = .ok m') :
    ∃ row, m.entries.find? u = some row ∧
      (((f row).content = row.content ∧ m' = m) ∨
        (f row).content ≠ row.content ∧ ∃ row',
          EntryRow.finishEdit H m.settings now row (f row) = .ok (some row') ∧
          m'.entries.find? u = some { row' with uuid := row.uuid, groupUuid := row.groupUuid }) := by
  unfold Mirror.contentEdit at h
  split at h
  · cases h
  · rename_i row hrow
    refine ⟨row, hrow, ?_⟩
    obtain ⟨after, hafter, h⟩ := except_bind_ok.1 h
    cases after with
    | none =>
      obtain rfl := Except.ok.inj h
      unfold EntryRow.finishEdit at hafter
      split at hafter
      · exact .inl ⟨‹_›, rfl⟩
      · obtain ⟨e, -, hafter⟩ := except_bind_ok.1 hafter
        cases Except.ok.inj hafter
    | some row' =>
      obtain rfl := Except.ok.inj h
      refine .inr ⟨(finishEdit_keeps hafter).1, row', hafter, ?_⟩
      rw [(putEntryRow_row m u row').2, hrow]
      rfl

/-- **An edit finds a row and leaves it rewritten, or as it was.** -/
theorem EntryEdit.run_row {e : EntryEdit} (h : e.run H m u = .ok m') :
    ∃ row row', m.entries.find? u = some row ∧ m'.entries.find? u = some row' ∧
      e.Leaves H m.settings row row' := by
  have edited : ∀ {f : EntryRow → Except EngineError EntryRow}, m.editEntry u f = .ok m' →
      (∀ row, e.rolledBack row = false) → (∀ index now, e ≠ .deleteHistoryAt index now) →
      (∀ row row', f row = .ok row' → e.Step H m.settings row row') →
      ∃ row row', m.entries.find? u = some row ∧ m'.entries.find? u = some row' ∧
        e.Leaves H m.settings row row' := by
    intro f h hroll hne hstep
    obtain ⟨row, row', hrow, hrow', hfind⟩ := editEntry_row h
    exact ⟨row, _, hrow, hfind, .step (hroll row) hne (hstep row row' hrow')⟩
  have counted : ∀ {now : EpochMs} {f : EntryRow → EntryRow}, m.contentEdit H u now f = .ok m' →
      (∀ row, e.rolledBack row = decide ((f row).content = row.content)) →
      (∀ index now, e ≠ .deleteHistoryAt index now) →
      (∀ row row', EntryRow.finishEdit H m.settings now row (f row) = .ok (some row') →
        e.Step H m.settings row row') →
      ∃ row row', m.entries.find? u = some row ∧ m'.entries.find? u = some row' ∧
        e.Leaves H m.settings row row' := by
    intro now f h hroll hne hstep
    obtain ⟨row, hrow, ⟨hsame, rfl⟩ | ⟨hdiff, row', hrow', hfind⟩⟩ := contentEdit_row h
    · exact ⟨row, row, hrow, hrow, .rolledBack (by rw [hroll]; exact decide_eq_true hsame)⟩
    · exact ⟨row, _, hrow, hfind,
        .step (by rw [hroll]; exact decide_eq_false hdiff) hne (hstep row row' hrow')⟩
  cases e with
  | updateEntry upd now => exact counted h (fun _ => rfl) (by simp) fun _ _ hs => hs
  | saveEntry save now => exact counted h (fun _ => rfl) (by simp) fun _ _ hs => hs
  | setProtectedField name value now => exact edited h (fun _ => rfl) (by simp) fun _ _ hs => hs
  | setNonProtectedCustomField name value now => exact edited h (fun _ => rfl) (by simp) fun _ _ hs => hs
  | removeCustomField name now =>
    refine edited h (fun _ => rfl) (by simp) fun _ _ hs => ?_
    split at hs
    · cases hs
    · exact hs
  | setTags tags now =>
    refine edited h (fun _ => rfl) (by simp) fun _ _ hs => ?_
    dsimp only at hs
    split at hs
    · exact .inl ⟨‹_›, (Except.ok.inj hs).symm⟩
    · exact .inr ⟨‹_›, hs⟩
  | setAttachment name bytes now => exact edited h (fun _ => rfl) (by simp) fun _ _ hs => hs
  | removeAttachment name now => exact edited h (fun _ => rfl) (by simp) fun _ _ hs => hs
  | clearEntryCustomIcon now => exact edited h (fun _ => rfl) (by simp) fun _ _ hs => hs
  | linkEntryCustomIcon icon =>
    exact edited h (fun _ => rfl) (by simp) fun _ _ hs => (Except.ok.inj hs).symm
  | touchEntry usedAt => exact edited h (fun _ => rfl) (by simp) fun _ _ hs => (Except.ok.inj hs).symm
  | deleteHistoryAt index now =>
    simp only [run, Mirror.deleteHistoryAt] at h
    obtain ⟨v, -, h⟩ := except_bind_ok.1 h
    split at h
    · cases h
    · split at h
      · cases h
      · obtain ⟨data, -, h⟩ := except_bind_ok.1 h
        obtain ⟨m₁, h₁, h⟩ := except_bind_ok.1 h
        obtain ⟨row, row₁, hrow, hrow₁, hfind₁⟩ := editEntry_row h₁
        obtain rfl := Except.ok.inj hrow₁
        obtain ⟨row₂, row₃, hrow₂, hrow₃, hfind₂⟩ := editEntry_row h
        obtain rfl := Option.some.inj (hfind₁.symm.trans hrow₂)
        split at hrow₃
        · rename_i hlt
          obtain rfl := Except.ok.inj hrow₃
          rw [storeTombstones_keeps] at hlt hfind₂
          exact ⟨row, _, hrow, hfind₂, .deletedHistory _ hlt⟩
        · cases hrow₃
  | restoreEntryFromHistory index now =>
    refine edited h (fun _ => rfl) (by simp) fun row row' hs => ?_
    split at hs
    · cases hs
    · rename_i snap hsnap
      split at hs
      · exact ⟨snap, hsnap, ‹_›, hs⟩
      · cases hs

end EditedRow

/-! ## The other mutations -/

/-- What a mutation does to the table of entries, by kind. -/
inductive EntriesStep (E : EngineEnv) (m : Mirror) : EngineOp → Mirror → Prop where
  | structural {op : StructuralOp} {m' : Mirror} : FewerBodies m m' →
      (op.removes m = false → SameBodies m m') → EntriesStep E m (.structural op) m'
  | updateGroup {u : Uuid} {upd : GroupUpdate} {now : EpochMs} {m' : Mirror} :
      m'.entries = m.entries → EntriesStep E m (.updateGroup u upd now) m'
  | createEntry {g u : Uuid} {fields : NewEntryFields} {now : EpochMs} {m' : Mirror} :
      RowOnly u m m' → m.entries.find? u = none →
      m'.entries.find? u = some (createdRow g fields now u) →
      EntriesStep E m (.createEntry g fields now u) m'
  | editEntry {u : Uuid} {e : EntryEdit} {m' : Mirror} :
      e.run E.history m u = .ok m' → EntriesStep E m (.editEntry u e) m'
  | deleteEntry {u : Uuid} {now : EpochMs} {m' : Mirror} :
      m'.entries = m.entries.erase u → EntriesStep E m (.deleteEntry u now) m'
  | ensureRecycleBin {now : EpochMs} {bin : Uuid} {m' : Mirror} :
      m'.entries = m.entries → EntriesStep E m (.ensureRecycleBin now bin) m'
  | addCustomIcon {bytes : List UInt8} {now : EpochMs} {m' : Mirror} :
      m'.entries = m.entries → EntriesStep E m (.addCustomIcon bytes now) m'
  | setHistoryMaxItems {n : Int} {m' : Mirror} :
      m'.entries = m.entries → EntriesStep E m (.setHistoryMaxItems n) m'
  | setHistoryMaxSize {n : Int} {m' : Mirror} :
      m'.entries = m.entries → EntriesStep E m (.setHistoryMaxSize n) m'

theorem EngineOp.run_entries {E : EngineEnv} {m m' : Mirror} {op : EngineOp}
    (h : op.run E m = .ok m') : EntriesStep E m op m' := by
  cases run_commits h with
  | structural h =>
    obtain ⟨hfewer, hsame⟩ := StructuralOp.run_bodies h
    exact .structural hfewer hsame
  | updateGroup => exact .updateGroup rfl
  | createEntry h =>
    obtain ⟨hone, hnone, hrow, -⟩ := createEntry_row h
    exact .createEntry hone hnone hrow
  | editEntry h => exact .editEntry h
  | deleteEntry => exact .deleteEntry rfl
  | binPresent => exact .ensureRecycleBin rfl
  | binCreated _ _ h => exact .ensureRecycleBin (createRecycleBinGroup_entries h)
  | binDisabled => exact .ensureRecycleBin rfl
  | iconPresent => exact .addCustomIcon rfl
  | iconAdded => exact .addCustomIcon rfl
  | setHistoryMaxItems => exact .setHistoryMaxItems rfl
  | setHistoryMaxSize => exact .setHistoryMaxSize rfl

end KeysCore.Verify
