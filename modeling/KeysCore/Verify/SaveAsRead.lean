import KeysCore.Verify.EntryReads
import KeysCore.Verify.FieldMerge
import KeysCore.Verify.IngestSucceeds
import KeysCore.Verify.RoundTrip

/-!
# Saving an entry as it was read

A client reads an entry, reveals its fields and saves it back. The save is no edit when the stored
form of what was read is the stored form there was (`saveAsRead_unchanged_iff`): names in the side
tables are unique and tags are linked in their stored form along every run (`EntryRow.Linked`), so
it all hangs on the icon. Its two columns are read as one reference, which is written back to one of
them, so an entry with a custom icon and a number beside it, as every ingest stores one, or with
neither, is rewritten.
-/

namespace KeysCore

/-- One of the two icon columns is set, and not both. -/
def EntryRow.OneIcon (r : EntryRow) : Prop := r.iconIndex.isSome ≠ r.iconCustomUuid.isSome

instance (r : EntryRow) : Decidable r.OneIcon := inferInstanceAs (Decidable (_ ≠ _))

/-- The save of a row as it is read. -/
def EntryRow.asRead (r : EntryRow) : EntrySave where
  title := r.title
  username := r.username
  password := r.password
  url := r.url
  notes := r.notes
  icon := iconRefFrom r.iconIndex r.iconCustomUuid
  customFields := r.readFields
  tags := sortStrings r.tags
  expiresAt := r.expiresAt

/-- The save of an entry as the read surface returns it. -/
def Mirror.readForSave (m : Mirror) (u : Uuid) : Except EngineError EntrySave :=
  match m.entry u with
  | none => .error (.notFound "entry")
  | some e => do
    let password ← m.revealPassword u
    let customFields ← m.fieldValues u e.customFields
    return {
      title := e.title
      username := e.username
      password
      url := e.url
      notes := e.notes
      icon := e.icon
      customFields
      tags := e.tags
      expiresAt := e.expiresAt }

end KeysCore

namespace KeysCore.Verify

open Lib

/-! ## What is read -/

/-- **Reading an entry and revealing its fields.** -/
theorem readForSave_ok {m : Mirror} {u : Uuid} {r : EntryRow} (hrow : m.entries.find? u = some r)
    (hkeyed : EntryRow.Keyed r) (hlinked : EntryRow.Linked r) :
    m.readForSave u = .ok (r.asRead) := by
  have hentry : m.entry u = some r.full := by rw [Mirror.entry, hrow, Option.map_some]
  unfold Mirror.readForSave
  rw [hentry]
  dsimp only
  rw [revealPassword_ok hrow, show r.full.customFields = r.customFieldRefs from rfl,
    fieldValues_ok hrow hkeyed hlinked]
  rfl

/-- The columns of an icon are written back as they were read when one of them is set. -/
theorem iconParts_iconRefFrom (r : EntryRow) :
    iconParts (iconRefFrom r.iconIndex r.iconCustomUuid) = (r.iconIndex, r.iconCustomUuid) ↔
      r.OneIcon := by
  unfold EntryRow.OneIcon
  cases r.iconCustomUuid with
  | none =>
    cases r.iconIndex with
    | none => simp [iconRefFrom, iconParts]
    | some i => simp [iconRefFrom, iconParts, builtinIconIndex]
  | some c =>
    cases r.iconIndex with
    | none => simp [iconRefFrom, iconParts]
    | some i => simp [iconRefFrom, iconParts]

/-- **The content after a save of what was read.** -/
theorem applySave_asRead {r : EntryRow} (hkeyed : EntryRow.Keyed r) (hlinked : EntryRow.Linked r) :
    (r.applySave (r.asRead)).content = { r.content with
      iconIndex := (iconParts (iconRefFrom r.iconIndex r.iconCustomUuid)).1
      iconCustomUuid := (iconParts (iconRefFrom r.iconIndex r.iconCustomUuid)).2 } := by
  have hprot := readFields_protected r hlinked
  have hplain := readFields_plain r
  have hstored : ∀ {rows : List (String × String)} {l : List (String × String)}, l.Perm rows →
      (rows.map (·.1)).Nodup → sortByName (l.foldl upsertRow []) = sortByName rows := by
    intro rows l hperm hnd
    have hnd' : (l.map (·.1)).Nodup := (hperm.map _).nodup_iff.2 hnd
    rw [upsertRows_of_nodup l [] hnd', List.nil_append]
    exact sortByName_perm hperm hnd
  unfold EntryRow.content EntryRow.applySave
  dsimp only
  rw [hstored (l := protectedOf (r.asRead).customFields) hprot hkeyed.protectedFields,
    hstored (l := plainOf (r.asRead).customFields) hplain hkeyed.customFields,
    show (r.asRead).tags = sortStrings r.tags from rfl, linkTags_of_linked hlinked.tags]
  rfl

/-- The content is as before when the icon's columns are written back as they were. -/
theorem applySave_asRead_content {r : EntryRow} (hkeyed : EntryRow.Keyed r)
    (hlinked : EntryRow.Linked r) : (r.applySave r.asRead).content = r.content ↔ r.OneIcon := by
  rw [applySave_asRead hkeyed hlinked, ← iconParts_iconRefFrom, Prod.ext_iff]
  constructor
  · intro h
    exact ⟨congrArg EntryRow.Content.iconIndex h, congrArg EntryRow.Content.iconCustomUuid h⟩
  · rintro ⟨hi, hc⟩
    rw [hi, hc]
    rfl

/-! ## Runs -/

/-- **Saving an entry as it was read changes nothing if and only if one icon column is set and the
other is not**, in every state a run reaches from an ingest: the save is reported as no edit and the
mirror is the one there was. -/
theorem saveAsRead_unchanged_iff {Λ : Libs} {vault : Vault} {source : Source} {m m' : Mirror}
    (hingest : ingestVaultWithHeader vault source m = .ok m')
    {pending : List (PendingConflictContext Λ.vaults)} {t : EngineState Λ.vaults}
    (hrun : EngineRun Λ (fun _ _ => True) ⟨m', pending⟩ t) {u : Uuid} {row : EntryRow}
    (hrow : t.mirror.entries.find? u = some row) (now : EpochMs) :
    ∃ save, t.mirror.readForSave u = .ok save ∧
      (t.mirror.saveEntryReporting Λ.env.history u save now = .ok (t.mirror, false) ↔
        row.OneIcon) := by
  have hrule := keyedLinked_rule Λ.env.history
  obtain ⟨hkeyed, hlinked⟩ := (hrule.run (hrule.ingest hingest) hrun).find hrow
  refine ⟨row.asRead, readForSave_ok hrow hkeyed hlinked, ?_⟩
  rw [← applySave_asRead_content hkeyed hlinked]
  unfold Mirror.saveEntryReporting EntryRow.finishEdit
  rw [hrow]
  dsimp only
  constructor
  · intro h
    by_contra hne
    rw [if_neg hne] at h
    obtain ⟨edited, hedited, h⟩ := except_bind_ok.1 h
    obtain ⟨archived, -, hedited⟩ := except_bind_ok.1 hedited
    obtain rfl := Except.ok.inj hedited
    exact absurd (Prod.mk.inj (Except.ok.inj h)).2 (by simp)
  · intro heq
    rw [if_pos heq]
    rfl

/-- An entry is given a custom icon and saved as it is read. -/
theorem saveAsRead_unchanged_iff_ledger :
    let start := ingested ledgerVault (nestedMirror false)
    let op := EngineOp.editEntry 9 (.updateEntry { icon := some (.custom 7) } (.atSecond 40))
    let t := op.next plainEnv start
    ∃ save, t.readForSave 9 = .ok save ∧
      t.saveEntryReporting plainEnv.history 9 save (.atSecond 60) = .ok (t, false) := by
  intro start op t
  let Λ : Libs := ⟨plainEnv, fieldMerge, fieldVaults⟩
  have hstart : ingestVaultWithHeader ledgerVault (.inMemory none) (nestedMirror false) =
      .ok start := ingestVault_ingested (by decide +kernel)
  have hrun : EngineRun Λ (fun _ _ => True) ⟨start, []⟩ ⟨t, []⟩ :=
    .step .refl trivial (EngineTxn.run_mutate (EngineOp.run_next (by decide +kernel)))
  have hicon : (t.entries.find? 9).map (fun r => decide r.OneIcon) = some true := by decide +kernel
  obtain ⟨row, hrow, hone⟩ := Option.map_eq_some_iff.1 hicon
  obtain ⟨save, hread, hiff⟩ := saveAsRead_unchanged_iff hstart hrun hrow (.atSecond 60)
  exact ⟨save, hread, hiff.2 (of_decide_eq_true hone)⟩

/-- An entry of a file has a custom icon beside the number of a standard one. -/
def iconVault : Vault where
  root := .node { id := 1, name := "Root" }
    [{ id := 9, title := "Mail", customIconUuid := some 7 }] []
  metadata := { customIcons := [⟨7, [1], "", none⟩] }
  deletedObjects := []

/-- The entry is ingested with both columns set. Saved as it was read, it is archived and
stamped. -/
theorem saveAsRead_of_file_archives :
    let m := ingested iconVault freshMirror
    let after : Except EngineError (Mirror × Bool) := do
      let save ← m.readForSave 9
      m.saveEntryReporting plainEnv.history 9 save (.atSecond 60)
    let icon (m : Mirror) := (m.entries.find? 9).map fun r => (r.iconIndex, r.iconCustomUuid)
    let stamps (m : Mirror) := (m.entries.find? 9).map fun r => (r.modifiedAt, r.history.length)
    ingestVaultWithHeader iconVault (.inMemory none) freshMirror = .ok m ∧
      icon m = some (some 0, some 7) ∧ stamps m = some (.atSecond 0, 0) ∧
      after.toOption.map (fun a => (icon a.1, a.2)) = some (some (none, some 7), true) ∧
      after.toOption.map (fun a => stamps a.1) = some (some (.atSecond 60, 1)) := by
  intro m after icon stamps
  exact ⟨ingestVault_ingested (by decide +kernel), by decide +kernel, by decide +kernel,
    by decide +kernel, by decide +kernel⟩

end KeysCore.Verify
