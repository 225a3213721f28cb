import KeysCore.DerivedColumns
import KeysCore.Verify.Companion
import KeysCore.Verify.FieldMerge
import KeysCore.Verify.IngestSucceeds
import KeysCore.Verify.WrittenEntries

/-!
# The derived columns follow the content

What a fresh insert of the entry would write to the derived columns is a function of the row
(`EntryRow.columns`), and the columns hold it after every transaction: an edit that moves the URL, the
fields or the password writes the columns they decide, and one that leaves them alone, or is rolled
back, keeps them (`EntryEdit.Leaves.columns`). So in every state of a run the columns are those a full
ingest of the projection computes (`columns_coherent`).
-/

namespace KeysCore.Verify

open Lib

variable {L : ColumnLib}

/-! ## The columns of a row -/

/-- The columns the content of the row decides. -/
def EntryRow.columns (L : ColumnLib) (r : EntryRow) : DerivedColumns :=
  ((DerivedColumns.setUrl L r.url {}).setPassword L r.password).recomputeHasTotp r

/-- Rows with the same URL, password and field names have the same columns. -/
theorem columns_congr {a b : EntryRow} (hurl : b.url = a.url) (hpw : b.password = a.password)
    (hfields : b.fieldNames.any isTotpField = a.fieldNames.any isTotpField) :
    EntryRow.columns L b = EntryRow.columns L a := by
  unfold EntryRow.columns DerivedColumns.recomputeHasTotp
  rw [hurl, hpw, hfields]

theorem isTotpField_password : isTotpField "Password" = false := by decide

theorem fieldNames_any (r : EntryRow) : r.fieldNames.any isTotpField =
    ((r.protectedFields.map (·.1)).any isTotpField || (r.customFields.map (·.1)).any isTotpField) := by
  unfold EntryRow.fieldNames
  rw [List.cons_append, List.any_cons, isTotpField_password, Bool.false_or, List.any_append]

/-- **A fresh insert writes the columns of its row.** A protected field named like the password's slot
is not stored, and its name is none of the recognised ones. -/
theorem columns_toRow (e : Entry) (group : Uuid) (isRecycled : Bool) :
    EntryRow.columns L (e.toRow group isRecycled) = .insertEntry L e.toEntryVersion := by
  have hnames : (e.toRow group isRecycled).fieldNames.any isTotpField =
      e.customFields.any fun f => isTotpField f.key := by
    rw [fieldNames_any]
    simp only [Entry.toRow, Entry.protectedRows, Entry.plainRows]
    induction e.customFields with
    | nil => rfl
    | cons f fields ih =>
      rw [List.any_cons, ← ih]
      by_cases hp : f.isProtected = true
      · by_cases hk : f.key = "Password"
        · simp [hp, hk, isTotpField_password]
        · simp [hp, hk, Bool.or_assoc]
      · simp [hp, Bool.or_left_comm]
  unfold EntryRow.columns DerivedColumns.recomputeHasTotp DerivedColumns.insertEntry
    DerivedColumns.inserted
  rw [hnames]
  rfl

theorem sortByName_any {β : Type} (l : List (String × β)) (p : String → Bool) :
    ((sortByName l).map (·.1)).any p = (l.map (·.1)).any p := by
  have hperm : (sortByName l).Perm l := List.perm_insertionSort _ l
  exact (hperm.map (·.1)).any_eq

/-- **What a re-ingest of the row's entry computes is a function of the row.** -/
theorem insertEntry_toEntry (r : EntryRow) :
    DerivedColumns.insertEntry L r.toEntry.toEntryVersion = EntryRow.columns L r := by
  have hnames : (r.toEntry.customFields.any fun f => isTotpField f.key) =
      r.fieldNames.any isTotpField := by
    rw [fieldNames_any, ← sortByName_any r.protectedFields, ← sortByName_any r.customFields]
    simp only [EntryRow.toEntry, EntryRow.toVersion, List.any_append, List.any_map]
    rfl
  unfold EntryRow.columns DerivedColumns.recomputeHasTotp DerivedColumns.insertEntry
    DerivedColumns.inserted
  rw [hnames]
  rfl

/-! ## Edits -/

/-- The columns an edit leaves, which took the row of its entry from `row` to `row'`. -/
def EntryEdit.columns (L : ColumnLib) (row row' : EntryRow) (c : DerivedColumns) :
    EntryEdit → DerivedColumns
  | updateEntry upd now =>
    if (updateEntry upd now).rolledBack row then c else c.updateEntry L upd row'
  | saveEntry save now =>
    if (saveEntry save now).rolledBack row then c else c.saveEntry L save row'
  | setProtectedField name value _ => c.setProtectedField L name value row'
  | setNonProtectedCustomField name _ _ => c.setCustomField name row'
  | removeCustomField name _ => c.setCustomField name row'
  | restoreEntryFromHistory index _ =>
    match row.history[index]? with
    | some snap => c.restoreFrom L snap row'
    | none => c
  | _ => c

/-- The place of the row an edit leaves has no part in its columns. -/
theorem EntryEdit.columns_place (e : EntryEdit) (row row' : EntryRow) (c : DerivedColumns) (u g : Uuid) :
    e.columns L row { row' with uuid := u, groupUuid := g } c = e.columns L row row' c := by
  cases e <;> rfl

theorem upsertRow_any {β : Type} (rows : List (String × β)) (r : String × β) (p : String → Bool) :
    ((upsertRow rows r).map (·.1)).any p = ((rows.map (·.1)).any p || p r.1) := by
  unfold upsertRow
  split
  · rename_i hmem
    have hnames : (rows.map fun a => if a.1 = r.1 then r else a).map (·.1) = rows.map (·.1) := by
      rw [List.map_map]
      refine List.map_congr_left fun a _ => ?_
      by_cases ha : a.1 = r.1
      · simp [ha]
      · simp [ha]
    rw [hnames]
    cases hp : p r.1 with
    | false => rw [Bool.or_false]
    | true =>
      rw [Bool.or_true]
      exact List.any_eq_true.2 ⟨r.1, hmem, hp⟩
  · rw [List.map_append, List.any_append]
    simp

theorem filter_name_any {β : Type} (rows : List (String × β)) {name : String} {p : String → Bool}
    (hp : p name = false) :
    ((rows.filter (·.1 ≠ name)).map (·.1)).any p = (rows.map (·.1)).any p := by
  induction rows with
  | nil => rfl
  | cons r rows ih =>
    by_cases hr : r.1 = name
    · rw [List.filter_cons_of_neg (by simpa using hr), ih, List.map_cons, List.any_cons, hr, hp,
        Bool.false_or]
    · rw [List.filter_cons_of_pos (by simpa using hr), List.map_cons, List.any_cons, ih, List.map_cons,
        List.any_cons]

section Edits

variable {H : HistoryLib} {s : Settings} {row row' : EntryRow}

theorem updateEntry_columns {upd : EntryUpdate} {now : EpochMs}
    (h : row.finishEdit H s now (row.applyUpdate upd) = .ok (some row')) :
    (EntryRow.columns L row).updateEntry L upd row' = EntryRow.columns L row' := by
  obtain ⟨-, history, data, rfl⟩ := finishEdit_keeps h
  unfold DerivedColumns.updateEntry EntryRow.applyUpdate
  cases upd.url with
  | none =>
    cases upd.password with
    | none => rfl
    | some password => rfl
  | some url =>
    cases upd.password with
    | none => rfl
    | some password => rfl

theorem setProtectedField_columns {name value : String} {now : EpochMs}
    (h : row.archivedEdit H s now (EntryRow.setProtected name value) = .ok row') :
    (EntryRow.columns L row).setProtectedField L name value row' = EntryRow.columns L row' := by
  obtain ⟨history, data, rfl⟩ := archivedEdit_keeps h
  unfold DerivedColumns.setProtectedField EntryRow.setProtected
  by_cases hname : name = "Password"
  · rw [if_pos hname, if_pos hname]
    rfl
  · rw [if_neg hname, if_neg hname]
    cases htotp : isTotpField name with
    | true => rfl
    | false =>
      rw [if_neg (by simp)]
      symm
      apply columns_congr
      · rfl
      · rfl
      · rw [fieldNames_any, fieldNames_any, upsertRow_any, htotp, Bool.or_false]

theorem setNonProtectedCustomField_columns {name value : String} {now : EpochMs}
    (h : row.archivedEdit H s now
      (fun e => { e with customFields := upsertRow e.customFields (name, value) }) = .ok row') :
    (EntryRow.columns L row).setCustomField name row' = EntryRow.columns L row' := by
  obtain ⟨history, data, rfl⟩ := archivedEdit_keeps h
  unfold DerivedColumns.setCustomField
  cases htotp : isTotpField name with
  | true => rfl
  | false =>
    rw [if_neg (by simp)]
    symm
    apply columns_congr
    · rfl
    · rfl
    · rw [fieldNames_any, fieldNames_any, upsertRow_any, htotp, Bool.or_false]

theorem removeCustomField_columns {name : String} {now : EpochMs}
    (h : row.archivedEdit H s now (fun e =>
      { e with
        protectedFields := e.protectedFields.filter (·.1 ≠ name)
        customFields := e.customFields.filter (·.1 ≠ name) }) = .ok row') :
    (EntryRow.columns L row).setCustomField name row' = EntryRow.columns L row' := by
  obtain ⟨history, data, rfl⟩ := archivedEdit_keeps h
  unfold DerivedColumns.setCustomField
  cases htotp : isTotpField name with
  | true => rfl
  | false =>
    rw [if_neg (by simp)]
    symm
    apply columns_congr
    · rfl
    · rfl
    · rw [fieldNames_any, fieldNames_any, filter_name_any _ htotp, filter_name_any _ htotp]

/-- **An edit leaves the columns of the row it leaves.** -/
theorem EntryEdit.Leaves.columns {e : EntryEdit} (h : e.Leaves H s row row') :
    e.columns L row row' (EntryRow.columns L row) = EntryRow.columns L row' := by
  have archived : ∀ {f : EntryRow → EntryRow} {a b : EntryRow} {now : EpochMs},
      a.archivedEdit H s now f = .ok b →
      (∀ r, EntryRow.columns L (f r) = EntryRow.columns L r) →
      EntryRow.columns L a = EntryRow.columns L b := by
    intro f a b now hab hf
    obtain ⟨history, data, rfl⟩ := archivedEdit_keeps hab
    exact (hf { a with history, customData := data }).symm
  cases h with
  | rolledBack hroll =>
    cases e with
    | updateEntry upd now => exact if_pos hroll
    | saveEntry save now => exact if_pos hroll
    | _ => cases hroll
  | @step _ b hroll hne hs =>
    rw [EntryEdit.columns_place]
    change _ = EntryRow.columns L b
    cases e with
    | updateEntry upd now =>
      simp only [EntryEdit.columns, hroll]
      exact updateEntry_columns hs
    | saveEntry save now =>
      simp only [EntryEdit.columns, hroll]
      obtain ⟨-, history, data, rfl⟩ := finishEdit_keeps hs
      rfl
    | setProtectedField name value now => exact setProtectedField_columns hs
    | setNonProtectedCustomField name value now => exact setNonProtectedCustomField_columns hs
    | removeCustomField name now => exact removeCustomField_columns hs
    | setTags tags now =>
      rcases hs with ⟨-, rfl⟩ | ⟨-, hs⟩
      · rfl
      · exact archived hs fun _ => rfl
    | setAttachment name bytes now => exact archived hs fun _ => rfl
    | removeAttachment name now => exact archived hs fun _ => rfl
    | clearEntryCustomIcon now => exact archived hs fun _ => rfl
    | linkEntryCustomIcon icon =>
      obtain rfl := hs
      rfl
    | touchEntry usedAt =>
      obtain rfl := hs
      rfl
    | deleteHistoryAt index now => exact absurd rfl (hne index now)
    | restoreEntryFromHistory index now =>
      obtain ⟨snap, hsnap, -, hs⟩ := hs
      simp only [EntryEdit.columns, hsnap]
      obtain ⟨history, data, rfl⟩ := restoreFrom_keeps hs
      rfl
  | deletedHistory data hlt => rfl

end Edits

/-! ## Transactions -/

/-- The columns a mutation leaves, which took the mirror from `m` to `m'`. -/
def EngineOp.columns (L : ColumnLib) (m m' : Mirror) (C : ColumnTable) : EngineOp → ColumnTable
  | createEntry _ fields _ u => Function.update C u (.createEntry L fields)
  | editEntry u e =>
    match m.entries.find? u, m'.entries.find? u with
    | some row, some row' => Function.update C u (e.columns L row row' (C u))
    | _, _ => C
  | _ => C

/-- The columns beside the mirror. -/
def columnCompanion (L : ColumnLib) (Λ : Libs) : Companion Λ ColumnTable where
  mutate op m m' C := .ok (op.columns L m m' C)
  pull ord P m C := do
    let st ← ingestPeer Λ.merge ord P m
    return (st, P.peer.entriesWithParent.foldl (P.ingestEntryColumns L Λ.merge) C)
  ingest vault := .ok (ingestColumns L vault)

theorem columnCompanion_erases (L : ColumnLib) (Λ : Libs) : (columnCompanion L Λ).Erases := by
  intro ord P m C st C' h
  obtain ⟨st', hst, h⟩ := except_bind_ok.1 h
  obtain ⟨rfl, -⟩ := Prod.mk.inj (Except.ok.inj h)
  exact hst

/-- Every row has the columns of its content. -/
def Coherent (L : ColumnLib) (m : Mirror) (C : ColumnTable) : Prop :=
  ∀ u c, valuesOf (EntryRow.columns L) m u = some c → C u = c

section Coherence

variable {m m' : Mirror} {C : ColumnTable}

theorem Coherent.of_bodies (h : Coherent L m C) (hm : FewerBodies m m') : Coherent L m' C := by
  intro u c hc
  have hbody : ∀ m, valuesOf (EntryRow.columns L) m u = (bodyOf m u).map (EntryRow.columns L) := by
    intro m
    unfold valuesOf bodyOf
    rw [Option.map_map]
    rfl
  refine h u c ?_
  rw [hbody] at hc ⊢
  rcases hm u with hnone | hsame
  · rw [hnone] at hc
    cases hc
  · rwa [hsame] at hc

theorem Coherent.of_entries (h : Coherent L m C) (he : m'.entries = m.entries) : Coherent L m' C :=
  h.of_bodies (SameBodies.of_entries he).fewer

/-- One row written, with its columns. -/
theorem Coherent.write (h : Coherent L m C) {u : Uuid} {row : EntryRow}
    (hothers : ∀ v, v ≠ u → m'.entries.find? v = m.entries.find? v)
    (hrow : m'.entries.find? u = some row) :
    Coherent L m' (Function.update C u (EntryRow.columns L row)) := by
  intro v c hc
  by_cases e : v = u
  · subst e
    rw [valuesOf, hrow] at hc
    rw [Function.update_self]
    exact Option.some.inj hc
  · rw [Function.update_of_ne e]
    rw [valuesOf, hothers v e] at hc
    exact h v c hc

theorem columns_createdRow (g u : Uuid) (fields : NewEntryFields) (now : EpochMs) :
    DerivedColumns.createEntry L fields = EntryRow.columns L (createdRow g fields now u) := by
  have hrow := columns_toRow (L := L)
    { toEntryVersion := { id := u, url := fields.url, password := fields.password,
                          customFields := fields.customFields } } g false
  exact hrow.symm

/-- **A mutation keeps the columns coherent.** -/
theorem EngineOp.run_columns {E : EngineEnv} {op : EngineOp} (hm : Coherent L m C)
    (h : op.run E m = .ok m') : Coherent L m' (op.columns L m m' C) := by
  cases EngineOp.run_entries h with
  | structural hfewer hsame => exact hm.of_bodies hfewer
  | updateGroup he => exact hm.of_entries he
  | @createEntry g u fields now _ hone hnone hrow =>
    simp only [EngineOp.columns]
    rw [columns_createdRow g u fields now]
    exact hm.write hone.entries hrow
  | @editEntry u e _ hrun =>
    obtain ⟨row, row', hrow, hrow', hleaves⟩ := EntryEdit.run_row hrun
    have hold : C u = EntryRow.columns L row := hm u _ (by rw [valuesOf, hrow]; rfl)
    simp only [EngineOp.columns, hrow, hrow']
    rw [hold, hleaves.columns]
    exact hm.write (EntryEdit.run_editsRow hrun).rowOnly.entries hrow'
  | deleteEntry he =>
    refine hm.of_bodies (.of_rows fun e hmem => ?_)
    rw [he] at hmem
    exact (Table.mem_delete.1 hmem).1
  | ensureRecycleBin he => exact hm.of_entries he
  | addCustomIcon he => exact hm.of_entries he
  | setHistoryMaxItems he => exact hm.of_entries he
  | setHistoryMaxSize he => exact hm.of_entries he

/-- The columns a row carries are those of the entry written. -/
theorem columns_follow (L : ColumnLib) :
    Follows (EntryRow.columns L) fun e => .insertEntry L e.toEntryVersion where
  row := columns_toRow
  place _ _ _ _ _ := rfl
  history _ _ _ := rfl
  attachments _ _ := rfl

/-- The walk writes the columns of the rows it writes. -/
theorem ingestEntryColumns_values {M : MergeLib} {P : PeerPull} (hM : Lawful M)
    {l : List (Entry × Uuid)} {values : Uuid → Option DerivedColumns}
    (h : ∀ u c, values u = some c → C u = c) {u : Uuid} {c : DerivedColumns}
    (hc : l.foldl (writtenAfter M P fun e => .insertEntry L e.toEntryVersion) values u = some c) :
    l.foldl (P.ingestEntryColumns L M) C u = c := by
  induction l generalizing C values with
  | nil => exact h u c hc
  | cons pe l ih =>
    rw [List.foldl_cons] at hc ⊢
    refine ih (fun v d hd => ?_) hc
    unfold writtenAfter at hd
    unfold PeerPull.ingestEntryColumns
    cases hw : P.writtenEntry M pe.1 with
    | none =>
      rw [hw] at hd
      exact h v d hd
    | some e =>
      rw [hw] at hd
      dsimp only at hd ⊢
      rw [writtenEntry_id hM hw]
      by_cases hv : v = pe.1.id
      · subst hv
        rw [Function.update_self] at hd ⊢
        exact Option.some.inj hd
      · rw [Function.update_of_ne hv] at hd ⊢
        exact h v d hd

/-- **After an ingest the columns are coherent**, whatever they were. -/
theorem ingestColumns_coherent {vault : Vault} {source : Source}
    (h : ingestVaultWithHeader vault source m = .ok m') : Coherent L m' (ingestColumns L vault) := by
  obtain ⟨-, hrows⟩ := ingestVaultWithHeader_tree h
  have hplaced : ∀ p ∈ vault.root.placed vault.metadata.recycleBinUuid false,
      p.1.toRow p.2.1 p.2.2 ∈ m'.entries.rows := by
    intro p hp
    rw [hrows]
    exact List.mem_map.2 ⟨p, hp, rfl⟩
  intro u c hc
  obtain ⟨row, hrow, rfl⟩ := Option.map_eq_some_iff.1 hc
  obtain ⟨hmem, hkey⟩ := Table.find?_eq_some.1 hrow
  refine foldl_update_eq (fun p hp hu => ?_) _ (.inr ?_)
  · rw [← columns_toRow p.1 p.2.1 p.2.2, Table.eq_of_key (hplaced p hp) hmem (hu.trans hkey.symm)]
  · rw [hrows] at hmem
    obtain ⟨p, hp, rfl⟩ := List.mem_map.1 hmem
    exact ⟨p, hp, hkey⟩

/-- Coherent columns are those of a full ingest of the projection. -/
theorem Coherent.reingest (h : Coherent L m C) {v : Vault} (hv : m.project = .ok v) {e : Entry}
    (he : e ∈ v.entries) : ingestColumns L v e.id = C e.id := by
  have hcol : ∀ a ∈ v.entries, DerivedColumns.insertEntry L a.toEntryVersion = C a.id := by
    intro a ha
    obtain ⟨row, hrow, rfl⟩ := project_entry_row hv ha
    rw [insertEntry_toEntry]
    refine (h row.uuid _ ?_).symm
    rw [valuesOf, Table.find?_of_mem hrow]
    rfl
  have hentries : (v.root.placed v.metadata.recycleBinUuid false).map (·.1) = v.entries := by
    have hcollect := congrArg (List.map (·.1)) (placed_collect v.metadata.recycleBinUuid false none 0 v.root)
    rw [List.map_map] at hcollect
    refine hcollect.trans ?_
    rw [List.map_flatMap, Vault.entries, Vault.groups]
    refine List.flatMap_congr fun f _ => ?_
    rw [List.map_map]
    exact List.map_id' _
  refine foldl_update_eq (fun p hp hu => ?_) _ (.inr ?_)
  · rw [← hu]
    refine hcol p.1 ?_
    rw [← hentries]
    exact List.mem_map_of_mem hp
  · rw [← hentries] at he
    obtain ⟨p, hp, rfl⟩ := List.mem_map.1 he
    exact ⟨p, hp, rfl⟩

end Coherence

/-! ## Runs -/

/-- **Every transaction keeps the columns coherent.** -/
theorem columnCompanion_keeps (L : ColumnLib) {Λ : Libs} (hM : Lawful Λ.merge) :
    (columnCompanion L Λ).Keeps (fun _ _ => True) (Coherent L) where
  entries h he := h.of_entries he
  mutate hs _ hm hx := by
    obtain rfl := Except.ok.inj hx
    exact EngineOp.run_columns hs hm
  pull hs _ hv hst := by
    obtain ⟨st, hpeer, hx⟩ := except_bind_ok.1 hst
    obtain ⟨rfl, rfl⟩ := Prod.mk.inj (Except.ok.inj hx)
    intro u c hc
    exact ingestEntryColumns_values hM hs (ingestPeer_values (columns_follow L) hM hv hpeer hc)
  ingest hm hx := by
    obtain rfl := Except.ok.inj hx
    exact ingestColumns_coherent hm

/-- **The derived columns are those a re-ingest computes**, in every state a run reaches from an ingest:
for every row, those of an insert of the entry it projects to; and for every entry of the projection,
those of a full ingest of the projection. -/
theorem columns_coherent (L : ColumnLib) {Λ : Libs} (hM : Lawful Λ.merge) {vault : Vault}
    {source : Source} {m m' : Mirror} (hingest : ingestVaultWithHeader vault source m = .ok m')
    {pending : List (PendingConflictContext Λ.vaults)} {t : EngineState Λ.vaults × ColumnTable}
    (hrun : Lib.Run (EngineTxn.runWith (columnCompanion L Λ)) (fun _ _ => True)
      (⟨m', pending⟩, ingestColumns L vault) t) :
    (∀ row ∈ t.1.mirror.entries.rows,
        t.2 row.uuid = .insertEntry L row.toEntry.toEntryVersion) ∧
      ∀ v, t.1.mirror.project = .ok v → ∀ e ∈ v.entries, t.2 e.id = ingestColumns L v e.id := by
  have hcoh : Coherent L t.1.mirror t.2 := (columnCompanion_keeps L hM).run hingest rfl hrun
  constructor
  · intro row hrow
    rw [insertEntry_toEntry]
    refine hcoh row.uuid _ ?_
    rw [valuesOf, Table.find?_of_mem hrow]
    rfl
  · intro v hv e he
    exact (hcoh.reingest hv he).symm

/-- The hosts of two URLs; the passwords below are empty and have no fingerprint. -/
def twoHosts : ColumnLib where
  parse url :=
    if url = "https://Example.com/login" then some { host := some (.domain "example.com") }
    else if url = "https://other.example/" then some { host := some (.domain "other.example") }
    else none
  isLowercase := Char.isLower
  isUppercase := Char.isUpper
  isNumeric := Char.isDigit
  fingerprint _ := []

/-- An entry with a URL and a one-time-password field. -/
def totpVault : Vault where
  root := .node { id := 1, name := "root" }
    [{ id := 9, url := "https://Example.com/login", customFields := [⟨"otp", "JBSW", true⟩] }] []
  metadata := {}
  deletedObjects := []

/-- The vault ingested, with its columns. -/
def totpStart : EngineState fieldVaults × ColumnTable :=
  (⟨ingested totpVault freshMirror, []⟩, ingestColumns twoHosts totpVault)

/-- The URL is replaced and the field removed. -/
def totpEdits : List EngineTxn :=
  [.mutate (.editEntry 9 (.updateEntry { url := some "https://other.example/" } (.atSecond 50))),
    .mutate (.editEntry 9 (.removeCustomField "otp" (.atSecond 60)))]

theorem columns_coherent_edits :
    ∃ t, totpEdits.foldlM
        (EngineTxn.runWith (columnCompanion twoHosts ⟨plainEnv, fieldMerge, fieldVaults⟩)) totpStart =
          .ok t ∧
      totpStart.2 9 = { urlHost := "example.com", hasTotp := true } ∧
      t.2 9 = { urlHost := "other.example" } ∧
      (∀ row ∈ t.1.mirror.entries.rows,
        t.2 row.uuid = .insertEntry twoHosts row.toEntry.toEntryVersion) ∧
      ∀ v, t.1.mirror.project = .ok v → ∀ e ∈ v.entries, t.2 e.id = ingestColumns twoHosts v e.id := by
  have hingest : ingestVaultWithHeader totpVault (.inMemory none) freshMirror =
      .ok (ingested totpVault freshMirror) := ingestVault_ingested (by decide +kernel)
  have hend : (totpEdits.foldlM (EngineTxn.runWith
      (columnCompanion twoHosts ⟨plainEnv, fieldMerge, fieldVaults⟩)) totpStart).toOption.map
        (fun t => t.2 9) = some { urlHost := "other.example" } := by decide +kernel
  cases hrun : totpEdits.foldlM (EngineTxn.runWith
      (columnCompanion twoHosts ⟨plainEnv, fieldMerge, fieldVaults⟩)) totpStart with
  | error e =>
    rw [hrun] at hend
    cases hend
  | ok t =>
    rw [hrun] at hend
    exact ⟨t, rfl, by decide +kernel, Option.some.inj hend,
      columns_coherent twoHosts fieldMerge_lawful hingest (.of_foldlM hrun)⟩

end KeysCore.Verify
