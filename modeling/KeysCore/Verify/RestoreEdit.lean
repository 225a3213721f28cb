import KeysCore.Verify.Archives
import KeysCore.Verify.EntryReads
import KeysCore.Verify.FieldMerge
import KeysCore.Verify.IngestSucceeds
import KeysCore.Verify.RoundTrip

/-!
# Undoing an edit

An edit archives the row as it was, and restoring that record is to undo the edit
(`restore_undoes_edit_iff`). A snapshot holds protected and plain fields in one map, so of two fields
of one name the plain one is restored, and a restore writes no field named like the password's slot:
an edit is undone if and only if the row it edited had neither (`EntryRow.FieldsApart`).
-/

namespace KeysCore

/-- No name stands for a protected and a plain field, and no plain field stands in the password's
slot. -/
def EntryRow.FieldsApart (r : EntryRow) : Prop :=
  (∀ f ∈ r.protectedFields, f.1 ∉ r.customFields.map (·.1)) ∧
    ∀ f ∈ r.customFields, f.1 ≠ "Password"

instance (r : EntryRow) : Decidable r.FieldsApart := inferInstanceAs (Decidable (_ ∧ _))

end KeysCore

namespace KeysCore.Verify

open Lib

/-- The edit leaves a record of the row as it was. -/
def EntryEdit.Snapshots (row : EntryRow) (e : EntryEdit) : Prop :=
  e.archives row = true ∨ ∃ index now, e = .restoreEntryFromHistory index now

/-! ## The newest record -/

/-- **The newest record after an edit is the row as it was.** -/
theorem EntryEdit.Leaves.newest {H : HistoryLib} {s : Settings} {row row' : EntryRow} {e : EntryEdit}
    (h : e.Leaves H s row row') (he : e.Snapshots row) (hfits : H.KeepsNewest s row.liveSnapshot) :
    row'.history.getLast? = some row.liveSnapshot := by
  rcases he with harch | ⟨index, now, rfl⟩
  · rw [h.archived harch]
    exact keptHistory_newest hfits row.history
  · cases h with
    | rolledBack hroll => cases hroll
    | step _ _ hstep =>
      obtain ⟨snap, -, -, hstep⟩ := hstep
      rw [restoreFrom_history hstep]
      exact trimmedHistory_newest hfits.1 row.history row.liveSnapshot

/-! ## What a snapshot holds -/

theorem sortByName_filter_iff {β : Type} (rows : List (String × β)) (p : String × β → Bool) :
    sortByName (rows.filter p) = sortByName rows ↔ ∀ f ∈ rows, p f = true := by
  constructor
  · intro h
    have hlen := congrArg List.length h
    simp only [sortByName, List.length_insertionSort] at hlen
    exact List.length_filter_eq_length_iff.1 hlen
  · intro h
    rw [List.filter_eq_self.2 h]

/-- The fields of a live snapshot. -/
theorem liveSnapshot_customFields {r : EntryRow} (hkeyed : EntryRow.Keyed r) :
    r.liveSnapshot.customFields =
      ((r.protectedFields.filter (·.1 ∉ r.customFields.map (·.1))).map fun f => ⟨f.1, f.2, true⟩) ++
        r.customFields.map fun f => ⟨f.1, f.2, false⟩ := by
  have hnames : (r.customFields.map fun f => CustomField.mk f.1 f.2 false).map (·.key) =
      r.customFields.map (·.1) := by
    simp [Function.comp_def]
  have hprot : (r.protectedFields.map fun f => CustomField.mk f.1 f.2 true).foldl putField [] =
      r.protectedFields.map fun f => CustomField.mk f.1 f.2 true :=
    putFields_of_nodup _ [] (by simpa [Function.comp_def] using hkeyed.protectedFields)
  unfold EntryRow.liveSnapshot
  dsimp only
  rw [List.foldl_append, hprot, putFields_eq _ _ (by rw [hnames]; exact hkeyed.customFields), hnames,
    List.filter_map]
  rfl

/-- The protected fields of a live snapshot. -/
theorem protectedOf_liveSnapshot {r : EntryRow} (hkeyed : EntryRow.Keyed r)
    (hlinked : EntryRow.Linked r) : protectedOf r.liveSnapshot.customFields =
      r.protectedFields.filter (·.1 ∉ r.customFields.map (·.1)) := by
  have hslot : ∀ f ∈ r.protectedFields.filter (·.1 ∉ r.customFields.map (·.1)),
      f.1 ≠ "Password" := fun f hf e => hlinked.slot (e ▸ List.mem_map_of_mem (List.mem_filter.1 hf).1)
  have hall := List.filter_eq_self.2 fun f hf => decide_eq_true (hslot f hf)
  rw [liveSnapshot_customFields hkeyed]
  unfold protectedOf
  rw [List.filter_append, List.filter_map, List.filter_map]
  simp only [Function.comp_def, Bool.true_and, Bool.false_and, List.filter_false, hall]
  simp [Function.comp_def]

/-- The plain fields a restore of a live snapshot writes. -/
theorem plainOf_liveSnapshot {r : EntryRow} (hkeyed : EntryRow.Keyed r) :
    plainOf (r.liveSnapshot.customFields.filter (·.key ≠ "Password")) =
      r.customFields.filter (·.1 ≠ "Password") := by
  rw [liveSnapshot_customFields hkeyed]
  unfold plainOf
  simp [List.filter_map, List.filter_filter, Function.comp_def]

/-- **A restore of the row as it was restores all but the fields a snapshot cannot tell apart.** -/
theorem restored_shown_iff {row r : EntryRow} (hkeyed : EntryRow.Keyed row)
    (hlinked : EntryRow.Linked row) (now : EpochMs) :
    (r.restored row.liveSnapshot now).shown = row.shown ↔ row.FieldsApart := by
  have htags : sortStrings ((sortStrings row.tags).dedup.foldl linkTag []) = sortStrings row.tags := by
    have hnd : (sortStrings row.tags).Nodup :=
      (List.perm_insertionSort _ row.tags).nodup_iff.2 hlinked.tags.1
    rw [hnd.dedup]
    exact linkTags_of_linked hlinked.tags
  have hshown : (r.restored row.liveSnapshot now).shown = { row.shown with
      protectedFields := sortByName (row.protectedFields.filter (·.1 ∉ row.customFields.map (·.1)))
      customFields := sortByName (row.customFields.filter (·.1 ≠ "Password")) } := by
    rw [← protectedOf_liveSnapshot hkeyed hlinked, ← plainOf_liveSnapshot hkeyed]
    unfold EntryRow.shown EntryRow.content EntryRow.restored
    dsimp only
    rw [show row.liveSnapshot.tags = (sortStrings row.tags).dedup from rfl, htags]
    rfl
  have hprot := sortByName_filter_iff row.protectedFields (·.1 ∉ row.customFields.map (·.1))
  have hplain := sortByName_filter_iff row.customFields (·.1 ≠ "Password")
  simp only [decide_eq_true_eq] at hprot hplain
  rw [hshown]
  unfold EntryRow.FieldsApart
  rw [← hprot, ← hplain]
  constructor
  · intro h
    exact ⟨congrArg EntryRow.Content.protectedFields h, congrArg EntryRow.Content.customFields h⟩
  · rintro ⟨hp, hc⟩
    rw [hp, hc]
    rfl

/-! ## The restore -/

section Restore

variable {H : HistoryLib} {Readable : Option String → Prop}

/-- **A restore of the newest record**: the entry's row is the record's, and the row as it was is the
newest record then. -/
theorem restoreNewest_ok (hH : H.Returns Readable) {m : Mirror} {u : Uuid} {r : EntryRow}
    (hrow : m.entries.find? u = some r) (hr : Readable r.tombstoneText) {snap : HistorySnapshot}
    (hnewest : r.history.getLast? = some snap) (hfiles : (snap.attachments.map (·.1)).Nodup)
    (hcap : ∀ c ∈ EntryRow.budget m.settings.historyMaxItems, 0 < c) (now : EpochMs) :
    ∃ m' r', m.restoreEntryFromHistory H u (r.history.length - 1) now = .ok m' ∧
      m'.entries.find? u = some r' ∧ r'.shown = (r.restored snap now).shown ∧
      r'.history.getLast? = some r.liveSnapshot := by
  obtain ⟨r', hr', -⟩ := restoreFrom_returns hH hr m.settings.historyMaxItems now snap
  have hrun : m.restoreEntryFromHistory H u (r.history.length - 1) now = .ok (m.putEntryRow u r') := by
    unfold Mirror.restoreEntryFromHistory Mirror.editEntry
    rw [hrow]
    dsimp only
    rw [← List.getLast?_eq_getElem?, hnewest]
    dsimp only
    rw [if_pos hfiles, hr']
    rfl
  have hfind := (putEntryRow_row m u r').2
  rw [hrow, Option.map_some] at hfind
  refine ⟨_, _, hrun, hfind, ?_, ?_⟩
  · obtain ⟨_, _, rfl⟩ := restoreFrom_keeps hr'
    rfl
  · change r'.history.getLast? = _
    rw [restoreFrom_history hr']
    exact trimmedHistory_newest hcap r.history r.liveSnapshot

end Restore

/-! ## Runs -/

/-- **An edit is undone by restoring the newest record if and only if the entry had no plain field of a
protected one's name and none in the password's slot**, for every edit that leaves a record the budgets
keep, in every state a run reaches from an ingest. The edited row is the newest record then. -/
theorem restore_undoes_edit_iff {Λ : Libs} {vault : Vault} {source : Source} {m m' : Mirror}
    (hingest : ingestVaultWithHeader vault source m = .ok m')
    {pending : List (PendingConflictContext Λ.vaults)} {t : EngineState Λ.vaults}
    (hrun : EngineRun Λ (fun _ _ => True) ⟨m', pending⟩ t) {u : Uuid} {row : EntryRow}
    (hrow : t.mirror.entries.find? u = some row) {e : EntryEdit} {m₁ : Mirror}
    (hedit : e.run Λ.env.history t.mirror u = .ok m₁) (hsnaps : e.Snapshots row)
    (hfits : Λ.env.history.KeepsNewest t.mirror.settings row.liveSnapshot) {row₁ : EntryRow}
    (hrow₁ : m₁.entries.find? u = some row₁) {Readable : Option String → Prop}
    (hH : Λ.env.history.Returns Readable) (hread : Readable row₁.tombstoneText) (now : EpochMs) :
    (∃ m₂ row₂,
      m₁.restoreEntryFromHistory Λ.env.history u (row₁.history.length - 1) now = .ok m₂ ∧
        m₂.entries.find? u = some row₂ ∧ row₂.shown = row.shown ∧
        row₂.history.getLast? = some row₁.liveSnapshot) ↔ row.FieldsApart := by
  have hrule := keyedLinked_rule Λ.env.history
  obtain ⟨hkeyed, hlinked⟩ := (hrule.run (hrule.ingest hingest) hrun).find hrow
  obtain ⟨a, b, ha, hb, hleaves⟩ := EntryEdit.run_row hedit
  obtain rfl := Option.some.inj (hrow.symm.trans ha)
  obtain rfl := Option.some.inj (hrow₁.symm.trans hb)
  have hsettings : m₁.settings = t.mirror.settings := (EntryEdit.run_editsRow hedit).rowOnly.settings
  obtain ⟨m₂, row₂, hrestore, hfind, hshown, hlast⟩ := restoreNewest_ok hH hrow₁ hread
    (hleaves.newest hsnaps hfits) hlinked.files (by rw [hsettings]; exact hfits.1) now
  rw [← restored_shown_iff (r := row₁) hkeyed hlinked now, ← hshown]
  constructor
  · rintro ⟨m₃, row₃, hrestore', hfind', hsame, -⟩
    obtain rfl := Except.ok.inj (hrestore.symm.trans hrestore')
    obtain rfl := Option.some.inj (hfind.symm.trans hfind')
    exact hsame
  · intro hsame
    exact ⟨m₂, row₂, hrestore, hfind, hsame, hlast⟩

/-- A save that drops the fields and tags of an entry is undone. -/
theorem restore_undoes_edit_iff_ledger :
    let start := ingested ledgerVault (nestedMirror false)
    let edit := EntryEdit.saveEntry { title := "Post" } (.atSecond 40)
    let edited := (EngineOp.editEntry 9 edit).next plainEnv start
    ∃ row row₂ m₂, start.entries.find? 9 = some row ∧
      edited.restoreEntryFromHistory plainEnv.history 9 1 (.atSecond 60) = .ok m₂ ∧
      m₂.entries.find? 9 = some row₂ ∧ row₂.shown = row.shown := by
  intro start edit edited
  let Λ : Libs := ⟨plainEnv, fieldMerge, fieldVaults⟩
  have hstart : ingestVaultWithHeader ledgerVault (.inMemory none) (nestedMirror false) =
      .ok start := ingestVault_ingested (by decide +kernel)
  have hrun : EngineRun Λ (fun _ _ => True) ⟨start, []⟩ ⟨start, []⟩ := .refl
  have hop : (EngineOp.editEntry 9 edit).run plainEnv start = .ok edited :=
    EngineOp.run_next (by decide +kernel)
  have hedit : edit.run Λ.env.history start 9 = .ok edited := hop
  have hH : plainEnv.history.Returns fun _ => True := fun items _ _ _ _ => ⟨items, rfl, trivial⟩
  have hbefore : (start.entries.find? 9).map (fun r => (edit.archives r, decide r.FieldsApart)) =
      some (true, true) := by decide +kernel
  have hafter : (edited.entries.find? 9).map (fun r => r.history.length) = some 2 := by
    decide +kernel
  obtain ⟨row, hrow, hrow'⟩ := Option.map_eq_some_iff.1 hbefore
  obtain ⟨harch, hapart⟩ := Prod.mk.inj hrow'
  obtain ⟨row₁, hrow₁, hlen⟩ := Option.map_eq_some_iff.1 hafter
  have hcap : EntryRow.budget start.settings.historyMaxItems = some 10 := by decide +kernel
  have hfits : plainEnv.history.KeepsNewest start.settings row.liveSnapshot := by
    refine ⟨fun c hc => ?_, fun c _ => Nat.zero_le c⟩
    rw [hcap] at hc
    cases hc
    omega
  obtain ⟨m₂, row₂, hrestore, hfind, hshown, -⟩ := (restore_undoes_edit_iff hstart hrun hrow hedit
    (.inl harch) hfits hrow₁ hH trivial (.atSecond 60)).2 (of_decide_eq_true hapart)
  rw [hlen] at hrestore
  exact ⟨row, row₂, m₂, hrow, hrestore, hfind, hshown⟩

/-- An entry with a protected and a plain field of one name. -/
def twinFieldVault : Vault where
  root := .node { id := 1, name := "Root" }
    [{ id := 9, title := "Mail", customFields := [⟨"pin", "1234", true⟩, ⟨"pin", "work", false⟩] }] []
  metadata := {}
  deletedObjects := []

/-- A change of the title is undone, and the protected field is gone. -/
theorem restore_loses_protected_twin :
    let start := ingested twinFieldVault freshMirror
    let rename := EngineOp.editEntry 9 (.updateEntry { title := some "Post" } (.atSecond 40))
    let edited := rename.next plainEnv start
    let restore := EngineOp.editEntry 9 (.restoreEntryFromHistory 0 (.atSecond 60))
    let undone := restore.next plainEnv edited
    let fields (m : Mirror) :=
      (m.entries.find? 9).map fun r => (r.title, r.protectedFields, r.customFields)
    ingestVaultWithHeader twinFieldVault (.inMemory none) freshMirror = .ok start ∧
      rename.run plainEnv start = .ok edited ∧ restore.run plainEnv edited = .ok undone ∧
      fields start = some ("Mail", [("pin", "1234")], [("pin", "work")]) ∧
      fields edited = some ("Post", [("pin", "1234")], [("pin", "work")]) ∧
      fields undone = some ("Mail", [], [("pin", "work")]) := by
  intro start rename edited restore undone fields
  exact ⟨ingestVault_ingested (by decide +kernel), EngineOp.run_next (by decide +kernel),
    EngineOp.run_next (by decide +kernel), by decide +kernel, by decide +kernel, by decide +kernel⟩

end KeysCore.Verify
