import KeysCore.Tags
import KeysCore.Verify.Companion
import KeysCore.Verify.FieldMerge
import KeysCore.Verify.IngestSucceeds
import KeysCore.Verify.WrittenEntries

/-!
# The tag table holds the tags in use

The engine's transactions with the tag table beside the mirror (`tagCompanion`), which erase to the
transactions of the mirror. After an ingest the table holds exactly the names the entries link, and
every transaction that sweeps after it drops links keeps that. Two do not sweep: a restore from history,
and a pull that rewrites entries and deletes none. `tags_in_use`: along every run in which neither drops
the last link of a name, the table holds the tags in use.
-/

namespace KeysCore.Verify

open Lib

/-! ## Transactions with the tag table -/

/-- The tag table an edit of `u` leaves, which took the mirror from `m` to `m'`. -/
def EntryEdit.tags (m m' : Mirror) (u : Uuid) (T : TagTable) : EntryEdit → TagTable
  | saveEntry save _ =>
    -- a save that changes nothing is rolled back, tags included
    if (m.entries.find? u).any fun row => (row.applySave save).content ≠ row.content then
      m'.gcOrphanTags (T.insertTags save.tags)
    else T
  | setTags tags _ => m'.gcOrphanTags (T.insertTags tags)
  | restoreEntryFromHistory index _ =>
    match (m.entries.find? u).bind (·.history[index]?) with
    | some snap => T.insertTags snap.tags
    | none => T
  | _ => T

@[inherit_doc EntryEdit.tags]
def EngineOp.tags (m m' : Mirror) (T : TagTable) : EngineOp → TagTable
  | structural op => if op.removes m then m'.gcOrphanTags T else T
  | createEntry _ fields _ _ => T.insertTags fields.tags
  | editEntry u e => e.tags m m' u T
  | deleteEntry _ _ => m'.gcOrphanTags T
  | _ => T

/-- The engine's state with the tag table. -/
abbrev TaggedState (L : VaultMergeLib) := EngineState L × TagTable

/-- The tag table beside the mirror. -/
def tagCompanion (Λ : Libs) : Companion Λ TagTable where
  mutate op m m' T := .ok (op.tags m m' T)
  pull := ingestPeerTags Λ.merge
  ingest vault := .ok (ingestTags vault)

/-- A transaction on the mirror and the tag table. -/
def EngineTxn.runTags (Λ : Libs) (s : TaggedState Λ.vaults) (txn : EngineTxn) :
    Except EngineError (TaggedState Λ.vaults) := txn.runWith (tagCompanion Λ) s

theorem reconcileDeleteTags_erase (P : PeerPull) (us : List Uuid)
    (st : (Mirror × IngestPeerOutcome) × TagTable) :
    (us.foldl P.reconcileDeleteTags st).1 = us.foldl P.reconcileDelete st.1 := by
  induction us generalizing st with
  | nil => rfl
  | cons u us ih => exact ih _

/-- **Without the tag table, a pull is that of the mirror**; so are the other transactions
(`EngineTxn.runWith_run`). -/
theorem tagCompanion_erases (Λ : Libs) : (tagCompanion Λ).Erases := by
  intro ord P m T st T' h
  obtain ⟨st₁, h₁, h⟩ := except_bind_ok.1 h
  obtain ⟨st₂, h₂, h⟩ := except_bind_ok.1 h
  dsimp only at h
  obtain ⟨st₄, h₄, h⟩ := except_bind_ok.1 h
  obtain ⟨rfl, -⟩ := Prod.mk.inj (Except.ok.inj h)
  rw [reconcileDeleteTags_erase] at h₄
  exact except_bind_ok.2 ⟨st₁, h₁, except_bind_ok.2 ⟨st₂, h₂, except_bind_ok.2 ⟨st₄, h₄, rfl⟩⟩⟩

/-! ## Names and links -/

/-- The tags of the entry `u`. -/
def tagsOf (m : Mirror) (u : Uuid) : List String := ((m.entries.find? u).map (·.tags)).getD []

theorem mem_linkedTags {m : Mirror} {name : String} :
    name ∈ m.linkedTags ↔ ∃ u, name ∈ tagsOf m u := by
  unfold Mirror.linkedTags tagsOf
  rw [List.mem_flatMap]
  constructor
  · rintro ⟨row, hrow, hname⟩
    refine ⟨row.uuid, ?_⟩
    rw [Table.find?_of_mem hrow]
    exact hname
  · rintro ⟨u, hname⟩
    cases hfind : m.entries.find? u with
    | none =>
      rw [hfind] at hname
      cases hname
    | some row =>
      rw [hfind] at hname
      exact ⟨row, Table.find?_mem hfind, hname⟩

theorem tagsOf_body (m : Mirror) (u : Uuid) : tagsOf m u = ((bodyOf m u).map (·.tags)).getD [] := by
  unfold tagsOf bodyOf
  rw [Option.map_map]
  rfl

theorem SameBodies.tagsOf {m m' : Mirror} (h : SameBodies m m') : tagsOf m' = tagsOf m := by
  funext u
  rw [tagsOf_body, tagsOf_body, h u]

theorem FewerBodies.linkedTags {m m' : Mirror} (h : FewerBodies m m') {name : String}
    (hname : name ∈ m'.linkedTags) : name ∈ m.linkedTags := by
  rw [mem_linkedTags] at hname ⊢
  obtain ⟨u, hname⟩ := hname
  refine ⟨u, ?_⟩
  rw [tagsOf_body] at hname ⊢
  rcases h u with hnone | hsame
  · rw [hnone] at hname
    cases hname
  · rwa [hsame] at hname

theorem mem_insertTags {T : TagTable} {tags : List String} {name : String} :
    name ∈ (T.insertTags tags).rows ↔ name ∈ T.rows ∨ name ∈ tags.foldl linkTag [] := by
  rw [(linkTags_spec tags [] List.nodup_nil).2 name]
  simp only [List.not_mem_nil, false_or]
  unfold TagTable.insertTags
  induction tags generalizing T with
  | nil => simp
  | cons raw tags ih =>
    rw [List.foldl_cons, ih, List.map_cons]
    by_cases hraw : trim raw = ""
    · rw [if_pos hraw, List.filter_cons_of_neg (by simpa using hraw)]
    · rw [if_neg hraw, List.filter_cons_of_pos (by simpa using hraw), List.mem_cons]
      have hins : name ∈ (T.upsertTag (trim raw)).rows ↔ name ∈ T.rows ∨ name = trim raw := by
        have := Table.mem_keys_insertOrIgnore (T := T) (r := trim raw) (k := name)
        simpa [Table.keys, or_comm, TagTable.upsertTag] using this
      rw [hins, or_assoc]

theorem mem_gcOrphanTags {m : Mirror} {T : TagTable} {name : String} :
    name ∈ (m.gcOrphanTags T).rows ↔ name ∈ T.rows ∧ name ∈ m.linkedTags := by
  unfold Mirror.gcOrphanTags
  rw [Table.mem_delete, not_not]

/-! ## The invariant -/

/-- The table holds exactly the names some entry links. -/
def TagsInUse (m : Mirror) (T : TagTable) : Prop := ∀ name, name ∈ T.rows ↔ name ∈ m.linkedTags

section InUse

variable {m m' : Mirror} {T : TagTable}

theorem TagsInUse.of_tagsOf (h : TagsInUse m T) (he : tagsOf m' = tagsOf m) : TagsInUse m' T := by
  intro name
  rw [h name, mem_linkedTags, mem_linkedTags, he]

theorem TagsInUse.of_entries (h : TagsInUse m T) (he : m'.entries = m.entries) : TagsInUse m' T :=
  h.of_tagsOf (by funext u; rw [tagsOf, tagsOf, he])

/-- A sweep leaves the names in use, when the table holds them. -/
theorem TagsInUse.gc (h : ∀ name ∈ m.linkedTags, name ∈ T.rows) : TagsInUse m (m.gcOrphanTags T) := by
  intro name
  rw [mem_gcOrphanTags]
  exact ⟨fun hname => hname.2, fun hname => ⟨h name hname, hname⟩⟩

/-- The links after one entry is given new tags. -/
theorem linkedTags_update {u : Uuid} {tags : List String}
    (h : tagsOf m' = Function.update (tagsOf m) u (tags.foldl linkTag [])) {name : String}
    (hname : name ∈ m'.linkedTags) : name ∈ m.linkedTags ∨ name ∈ tags.foldl linkTag [] := by
  rw [mem_linkedTags] at hname ⊢
  obtain ⟨v, hname⟩ := hname
  rw [h] at hname
  by_cases e : v = u
  · subst e
    rw [Function.update_self] at hname
    exact .inr hname
  · rw [Function.update_of_ne e] at hname
    exact .inl ⟨v, hname⟩

/-- New tags for one entry, followed by a sweep. -/
theorem TagsInUse.rewrite_gc (h : TagsInUse m T) {u : Uuid} {tags : List String}
    (hm : tagsOf m' = Function.update (tagsOf m) u (tags.foldl linkTag [])) :
    TagsInUse m' (m'.gcOrphanTags (T.insertTags tags)) := by
  refine .gc fun name hname => mem_insertTags.2 ?_
  exact (linkedTags_update hm hname).imp_left (h name).2

/-- New tags for one entry that loses no last link. -/
theorem TagsInUse.rewrite (h : TagsInUse m T) {u : Uuid} {tags : List String}
    (hm : tagsOf m' = Function.update (tagsOf m) u (tags.foldl linkTag []))
    (hkeep : ∀ name ∈ tagsOf m u, name ∈ tags.foldl linkTag [] ∨ ∃ v, v ≠ u ∧ name ∈ tagsOf m v) :
    TagsInUse m' (T.insertTags tags) := by
  intro name
  rw [mem_insertTags, h name]
  constructor
  · rintro (hname | hname)
    · rw [mem_linkedTags] at hname ⊢
      obtain ⟨v, hname⟩ := hname
      by_cases e : v = u
      · subst e
        rcases hkeep name hname with hnew | ⟨w, hw, hname⟩
        · exact ⟨v, by rw [hm, Function.update_self]; exact hnew⟩
        · exact ⟨w, by rw [hm, Function.update_of_ne hw]; exact hname⟩
      · exact ⟨v, by rw [hm, Function.update_of_ne e]; exact hname⟩
    · exact mem_linkedTags.2 ⟨u, by rw [hm, Function.update_self]; exact hname⟩
  · exact linkedTags_update hm

end InUse

/-! ## Mutations -/

section Mutations

variable {m m' : Mirror} {T : TagTable}

/-- One row written: the tags of its entry are the new row's. -/
theorem tagsOf_rowOnly {u : Uuid} {row : EntryRow} (h : RowOnly u m m')
    (hrow : m'.entries.find? u = some row) : tagsOf m' = Function.update (tagsOf m) u row.tags := by
  funext v
  by_cases e : v = u
  · subst e
    rw [Function.update_self, tagsOf, hrow]
    rfl
  · rw [Function.update_of_ne e, tagsOf, tagsOf, h.entries v e]

theorem tagsOf_self {u : Uuid} {row : EntryRow} (hrow : m.entries.find? u = some row) :
    Function.update (tagsOf m) u row.tags = tagsOf m := by
  have : row.tags = tagsOf m u := by rw [tagsOf, hrow]; rfl
  rw [this, Function.update_eq_self]

/-- The restore of a record keeps a link of every name: the entry's tags are in the record, or on
another entry. -/
def RestoreKeepsTags (m : Mirror) (u : Uuid) (index : Nat) : Prop :=
  ∀ snap ∈ (m.entries.find? u).bind (·.history[index]?), ∀ name ∈ tagsOf m u,
    name ∈ snap.tags.foldl linkTag [] ∨ ∃ v, v ≠ u ∧ name ∈ tagsOf m v

/-- The edit keeps a link of every name, or sweeps. -/
def EntryEdit.KeepsTags (m : Mirror) (u : Uuid) : EntryEdit → Prop
  | restoreEntryFromHistory index _ => RestoreKeepsTags m u index
  | _ => True

theorem EntryEdit.run_tags {H : HistoryLib} {u : Uuid} {e : EntryEdit} (hm : TagsInUse m T)
    (hkeep : e.KeepsTags m u) (h : e.run H m u = .ok m') : TagsInUse m' (e.tags m m' u T) := by
  obtain ⟨row, row', hrow, hrow', hleaves⟩ := run_row h
  have hlinks := tagsOf_rowOnly (run_editsRow h).rowOnly hrow'
  have same : row'.tags = row.tags → TagsInUse m' T := by
    intro htags
    rw [htags, tagsOf_self hrow] at hlinks
    exact hm.of_tagsOf hlinks
  have archived : ∀ {f : EntryRow → EntryRow} {b : EntryRow} {now : EpochMs},
      row.archivedEdit H m.settings now f = .ok b → (∀ r, (f r).tags = r.tags) → b.tags = row.tags := by
    intro f b now hb hf
    obtain ⟨_, _, rfl⟩ := archivedEdit_keeps hb
    exact hf _
  cases hleaves with
  | rolledBack hroll =>
    cases e with
    | updateEntry upd now => exact same rfl
    | saveEntry save now =>
      have hsame : (row.applySave save).content = row.content := by simpa [rolledBack] using hroll
      simpa [EntryEdit.tags, hrow, hsame] using same rfl
    | _ => cases hroll
  | @step _ b hroll hne hs =>
    have kept : b.tags = row.tags → TagsInUse m' T := same
    cases e with
    | updateEntry upd now =>
      obtain ⟨-, _, _, rfl⟩ := finishEdit_keeps hs
      exact same rfl
    | saveEntry save now =>
      obtain ⟨hdiff, _, _, rfl⟩ := finishEdit_keeps hs
      have hswept := hm.rewrite_gc hlinks
      simpa [EntryEdit.tags, hrow, hdiff] using hswept
    | setProtectedField name value now =>
      refine kept (archived hs fun r => ?_)
      unfold EntryRow.setProtected
      split
      · rfl
      · rfl
    | setNonProtectedCustomField name value now => exact kept (archived hs fun _ => rfl)
    | removeCustomField name now => exact kept (archived hs fun _ => rfl)
    | setTags tags now =>
      have hb : b.tags = tags.foldl linkTag [] := by
        rcases hs with ⟨-, rfl⟩ | ⟨-, hs⟩
        · rfl
        · obtain ⟨_, _, rfl⟩ := archivedEdit_keeps hs
          rfl
      exact hm.rewrite_gc (hb ▸ hlinks)
    | setAttachment name bytes now => exact kept (archived hs fun _ => rfl)
    | removeAttachment name now => exact kept (archived hs fun _ => rfl)
    | clearEntryCustomIcon now => exact kept (archived hs fun _ => rfl)
    | linkEntryCustomIcon icon =>
      obtain rfl := hs
      exact same rfl
    | touchEntry usedAt =>
      obtain rfl := hs
      exact same rfl
    | deleteHistoryAt index now => exact absurd rfl (hne index now)
    | restoreEntryFromHistory index now =>
      obtain ⟨snap, hsnap, -, hs⟩ := hs
      obtain ⟨_, _, rfl⟩ := restoreFrom_keeps hs
      have hbind : (m.entries.find? u).bind (·.history[index]?) = some snap := by
        rw [hrow]
        exact hsnap
      simp only [EntryEdit.tags, hbind]
      exact hm.rewrite hlinks (hkeep snap hbind)
  | deletedHistory => exact same rfl

@[inherit_doc EntryEdit.KeepsTags]
def EngineOp.KeepsTags (m : Mirror) : EngineOp → Prop
  | editEntry u e => e.KeepsTags m u
  | _ => True

/-- **A mutation that keeps a link of every name, or sweeps, keeps the table to the tags in use.** -/
theorem EngineOp.run_tags {E : EngineEnv} {op : EngineOp} (hm : TagsInUse m T)
    (hkeep : op.KeepsTags m) (h : op.run E m = .ok m') : TagsInUse m' (op.tags m m' T) := by
  cases EngineOp.run_entries h with
  | @structural op _ hfewer hsame =>
    simp only [EngineOp.tags]
    cases hrem : op.removes m with
    | false => exact hm.of_tagsOf (hsame hrem).tagsOf
    | true => exact .gc fun name hname => (hm name).2 (hfewer.linkedTags hname)
  | updateGroup he => exact hm.of_entries he
  | @createEntry g u fields now _ hone hnone hrow =>
    have hold : tagsOf m u = [] := by rw [tagsOf, hnone]; rfl
    exact hm.rewrite (tagsOf_rowOnly hone hrow) (by simp [hold])
  | editEntry hrun => exact EntryEdit.run_tags hm hkeep hrun
  | @deleteEntry u now _ he =>
    refine .gc fun name hname => (hm name).2 (FewerBodies.linkedTags (.of_rows fun e hmem => ?_) hname)
    rw [he] at hmem
    exact (Table.mem_delete.1 hmem).1
  | ensureRecycleBin he => exact hm.of_entries he
  | addCustomIcon he => exact hm.of_entries he
  | setHistoryMaxItems he => exact hm.of_entries he
  | setHistoryMaxSize he => exact hm.of_entries he

end Mutations

/-! ## Ingests -/

theorem mem_ingestTags {vault : Vault} {name : String} : name ∈ (ingestTags vault).rows ↔
    ∃ p ∈ vault.root.placed vault.metadata.recycleBinUuid false, name ∈ p.1.tags.foldl linkTag [] := by
  unfold ingestTags
  generalize vault.root.placed vault.metadata.recycleBinUuid false = ps
  have hfold : ∀ T : TagTable, name ∈ (ps.foldl (fun T p => T.insertTags p.1.tags) T).rows ↔
      name ∈ T.rows ∨ ∃ p ∈ ps, name ∈ p.1.tags.foldl linkTag [] := by
    induction ps with
    | nil => intro T; simp
    | cons p ps ih =>
      intro T
      rw [List.foldl_cons, ih, mem_insertTags, or_assoc]
      simp
  rw [hfold]
  simp [Table.empty]

/-- **An ingest leaves the tags of the vault in use.** -/
theorem ingestVaultWithHeader_tags {vault : Vault} {source : Source} {m m' : Mirror}
    (h : ingestVaultWithHeader vault source m = .ok m') : TagsInUse m' (ingestTags vault) := by
  obtain ⟨-, hrows⟩ := ingestVaultWithHeader_tree h
  intro name
  rw [mem_ingestTags, Mirror.linkedTags, hrows]
  simp only [List.mem_flatMap, List.mem_map, exists_exists_and_eq_and]
  rfl

/-! ## Pulls -/

section Pull

variable {M : MergeLib} {P : PeerPull} {m : Mirror} {T : TagTable}

/-- The tags of the entries after the walk wrote one entry of the peer. -/
def linksAfter (M : MergeLib) (P : PeerPull) (links : Uuid → List String) (pe : Entry × Uuid) :
    Uuid → List String :=
  match P.writtenTags M pe.1 with
  | none => links
  | some tags => Function.update links pe.1.id (tags.foldl linkTag [])

theorem linksAfter_other (links : Uuid → List String) {pe : Entry × Uuid} {u : Uuid} (hu : u ≠ pe.1.id) :
    linksAfter M P links pe u = links u := by
  unfold linksAfter
  cases P.writtenTags M pe.1 with
  | none => rfl
  | some tags => exact Function.update_of_ne hu _ _

theorem linksAfter_self (links : Uuid → List String) (pe : Entry × Uuid) :
    linksAfter M P links pe pe.1.id = match P.writtenTags M pe.1 with
      | none => links pe.1.id
      | some tags => tags.foldl linkTag [] := by
  unfold linksAfter
  cases P.writtenTags M pe.1 with
  | none => rfl
  | some tags => exact Function.update_self _ _ _

/-- The links a row carries are those of the entry written. -/
theorem tags_follow : Follows (fun r : EntryRow => r.tags) fun e => e.tags.foldl linkTag [] where
  row _ _ _ := rfl
  place _ _ _ _ _ := rfl
  history _ _ _ := rfl
  attachments _ _ := rfl

theorem linksAfter_values (l : List (Entry × Uuid)) (values : Uuid → Option (List String)) :
    l.foldl (linksAfter M P) (fun u => (values u).getD []) =
      fun u => (l.foldl (writtenAfter M P fun e => e.tags.foldl linkTag []) values u).getD [] := by
  induction l generalizing values with
  | nil => rfl
  | cons pe l ih =>
    rw [List.foldl_cons, List.foldl_cons, ← ih]
    congr 1
    funext u
    unfold linksAfter writtenAfter PeerPull.writtenTags
    cases P.writtenEntry M pe.1 with
    | none => rfl
    | some e =>
      by_cases hu : u = pe.1.id
      · subst hu
        simp only [Option.map_some, Function.update_self, Option.getD_some]
      · simp only [Option.map_some, Function.update_of_ne hu]

/-- **The tags after the walk**: each entry written has the tags of the last write. -/
theorem ingestEntries_tags (hM : Lawful M) {l : List (Entry × Uuid)}
    {st st' : Mirror × IngestPeerOutcome}
    (hlocal : ∀ u e, P.localEntry u = some e → u ∈ st.1.entries.keys)
    (h : l.foldlM (P.ingestEntry M) st = .ok st') :
    tagsOf st'.1 = l.foldl (linksAfter M P) (tagsOf st.1) := by
  have hvalues := linksAfter_values (M := M) (P := P) l (valuesOf (·.tags) st.1)
  rw [← ingestEntries_values tags_follow hM hlocal h] at hvalues
  exact hvalues.symm

/-- The names the walk upserts. -/
theorem mem_ingestEntriesTags {l : List (Entry × Uuid)} {name : String} :
    name ∈ (l.foldl (P.ingestEntryTags M) T).rows ↔ name ∈ T.rows ∨
      ∃ pe ∈ l, ∃ tags ∈ P.writtenTags M pe.1, name ∈ tags.foldl linkTag [] := by
  induction l generalizing T with
  | nil => simp
  | cons pe l ih =>
    rw [List.foldl_cons, ih, PeerPull.ingestEntryTags]
    cases hw : P.writtenTags M pe.1 with
    | none => simp [hw]
    | some tags => simp [hw, mem_insertTags, or_assoc]

/-- The links after the walk are names of the table. -/
theorem mem_linksAfter {l : List (Entry × Uuid)} {links : Uuid → List String} {u : Uuid}
    {name : String} (h : name ∈ l.foldl (linksAfter M P) links u) :
    name ∈ links u ∨ ∃ pe ∈ l, ∃ tags ∈ P.writtenTags M pe.1, name ∈ tags.foldl linkTag [] := by
  induction l generalizing links with
  | nil => exact .inl h
  | cons pe l ih =>
    rw [List.foldl_cons] at h
    rcases ih h with h | ⟨q, hq, hw⟩
    · by_cases e : u = pe.1.id
      · subst e
        rw [linksAfter_self] at h
        cases hw : P.writtenTags M pe.1 with
        | none =>
          rw [hw] at h
          exact .inl h
        | some tags =>
          rw [hw] at h
          exact .inr ⟨pe, by simp, tags, hw, h⟩
      · rw [linksAfter_other _ e] at h
        exact .inl h
    · exact .inr ⟨q, List.mem_cons_of_mem _ hq, hw⟩

/-! ### The delete pass -/

theorem reconcileDelete_of_not {u : Uuid} (h : P.deletes u = false)
    (st : Mirror × IngestPeerOutcome) : P.reconcileDelete st u = st := by
  unfold PeerPull.deletes at h
  unfold PeerPull.reconcileDelete
  split
  · rename_i l d hl hd
    rw [hl, hd] at h
    simp only [Bool.not_eq_false', Bool.or_eq_true, decide_eq_true_eq] at h
    rw [if_pos h]
  · rfl

theorem reconcileDelete_rows (st : Mirror × IngestPeerOutcome) (u : Uuid) :
    ∀ e ∈ (P.reconcileDelete st u).1.entries.rows, e ∈ st.1.entries.rows := by
  intro e he
  unfold PeerPull.reconcileDelete at he
  split at he
  · split at he
    · exact he
    · exact (Table.mem_delete.1 he).1
  · exact he

/-- The delete pass keeps the links in the table, and leaves it swept once it has deleted an entry. -/
theorem reconcileDeletes_tags (us : List Uuid) (st : (Mirror × IngestPeerOutcome) × TagTable)
    (hsub : ∀ name ∈ st.1.1.linkedTags, name ∈ st.2.rows)
    (h : (∃ u ∈ us, P.deletes u = true) ∨ TagsInUse st.1.1 st.2) :
    TagsInUse (us.foldl P.reconcileDeleteTags st).1.1 (us.foldl P.reconcileDeleteTags st).2 := by
  induction us generalizing st with
  | nil =>
    rcases h with ⟨u, hu, -⟩ | h
    · cases hu
    · exact h
  | cons u us ih =>
    rw [List.foldl_cons]
    cases hd : P.deletes u with
    | true =>
      have hswept : TagsInUse (P.reconcileDeleteTags st u).1.1 (P.reconcileDeleteTags st u).2 := by
        unfold PeerPull.reconcileDeleteTags
        rw [hd]
        exact .gc fun name hname =>
          hsub name (FewerBodies.linkedTags (.of_rows (reconcileDelete_rows st.1 u)) hname)
      exact ih _ (fun name => (hswept name).2) (.inr hswept)
    | false =>
      have hsame : P.reconcileDeleteTags st u = st := by
        unfold PeerPull.reconcileDeleteTags
        rw [reconcileDelete_of_not hd, hd]
        rfl
      rw [hsame]
      refine ih st hsub (h.imp_left ?_)
      rintro ⟨v, hv, hdv⟩
      rcases List.mem_cons.1 hv with rfl | hv
      · rw [hd] at hdv
        cases hdv
      · exact ⟨v, hv, hdv⟩

/-! ### The whole pull -/

/-- The pull sweeps the table, as it deletes an entry; or it drops no last link: every name linked
before, or written by the walk, is a tag of some entry after the writes of the walk. -/
def PullKeepsTags (M : MergeLib) (P : PeerPull) (m : Mirror) : Prop :=
  (∃ u, P.deletes u = true) ∨
    ∀ name, (name ∈ m.linkedTags ∨
        ∃ p ∈ P.peer.entries, ∃ tags ∈ P.writtenTags M p, name ∈ tags.foldl linkTag []) →
      ∃ u, name ∈ P.peer.entriesWithParent.foldl (linksAfter M P) (tagsOf m) u

theorem deletes_local {u : Uuid} (h : P.deletes u = true) :
    u ∈ (P.localVault.entries.map (·.id)).dedup := by
  unfold PeerPull.deletes at h
  split at h
  · rename_i l d hl hd
    have hin := List.mem_of_find?_eq_some hl
    rw [List.mem_reverse] at hin
    rw [List.mem_dedup]
    exact List.mem_map.2 ⟨l, hin, localEntry_id hl⟩
  · cases h

/-- **A pull that sweeps, or drops no last link, keeps the table to the tags in use.** -/
theorem ingestPeerTags_inUse (hM : Lawful M) {ord : HashOrder} {st : Mirror × IngestPeerOutcome}
    {T' : TagTable} (hv : m.project = .ok P.localVault) (hm : TagsInUse m T)
    (hkeep : PullKeepsTags M P m) (h : ingestPeerTags M ord P m T = .ok (st, T')) :
    TagsInUse st.1 T' := by
  unfold ingestPeerTags at h
  obtain ⟨st₁, h₁, h⟩ := except_bind_ok.1 h
  obtain ⟨st₂, h₂, h⟩ := except_bind_ok.1 h
  dsimp only at h
  obtain ⟨st₄, h₄, h⟩ := except_bind_ok.1 h
  obtain ⟨rfl, rfl⟩ := Prod.mk.inj (Except.ok.inj h)
  have hpass := (GroupPass.of_reconcilePeerGroups h₁).rest
  have hfirst : tagsOf st₁.1 = tagsOf m := by funext u; rw [tagsOf, tagsOf, hpass.entries]
  have hlinks := ingestEntries_tags hM (fun u e he => localEntry_keys hv hpass.entries he) h₂
  rw [hfirst] at hlinks
  have hsub : ∀ name ∈ st₂.1.linkedTags,
      name ∈ (P.peer.entriesWithParent.foldl (P.ingestEntryTags M) T).rows := by
    intro name hname
    rw [mem_linkedTags, hlinks] at hname
    obtain ⟨u, hname⟩ := hname
    rw [mem_ingestEntriesTags, hm name, mem_linkedTags]
    exact (mem_linksAfter hname).imp_left fun h => ⟨u, h⟩
  have hdel := reconcileDeletes_tags (P := P) (P.localVault.entries.map (·.id)).dedup
    (st₂, P.peer.entriesWithParent.foldl (P.ingestEntryTags M) T) hsub ?_
  · obtain ⟨htomb, -⟩ := unionPeerTombstones_spec P.peer.deletedObjects
      ((P.localVault.entries.map (·.id)).dedup.foldl P.reconcileDeleteTags
        (st₂, P.peer.entriesWithParent.foldl (P.ingestEntryTags M) T)).1.1
    obtain ⟨hicon, -⟩ := unionPeerCustomIcons_same P.peer.metadata.customIcons
      (unionPeerTombstones P.peer.deletedObjects
        ((P.localVault.entries.map (·.id)).dedup.foldl P.reconcileDeleteTags
          (st₂, P.peer.entriesWithParent.foldl (P.ingestEntryTags M) T)).1.1)
    obtain ⟨hme, -⟩ := materializeGroupTombstones_spec h₄
    obtain ⟨hfe, -⟩ := reconcilePeerMeta_same P.localVault.metadata (P.mergedMeta M) st₄.1
    refine hdel.of_entries ?_
    rw [hfe, hme, hicon.entries, htomb.entries]
  · rcases hkeep with ⟨u, hu⟩ | hkeep
    · exact .inl ⟨u, deletes_local hu, hu⟩
    · right
      intro name
      refine ⟨fun hname => ?_, hsub name⟩
      rw [mem_ingestEntriesTags, hm name] at hname
      rw [mem_linkedTags, hlinks]
      refine hkeep name (hname.imp_right ?_)
      rintro ⟨pe, hpe, hw⟩
      exact ⟨pe.1, mem_entries hpe, hw⟩

end Pull

/-! ## Runs -/

/-- No last link of a name is dropped without a sweep: neither by a restore from history nor by a pull
that rewrites entries and deletes none. -/
def KeepsTags {Λ : Libs} (s : TaggedState Λ.vaults) : EngineTxn → Prop
  | .mutate op => op.KeepsTags s.1.mirror
  | .pull _ owner peer now =>
    ∀ v, s.1.mirror.project = .ok v → PullKeepsTags Λ.merge ⟨owner, v, peer, now⟩ s.1.mirror
  | _ => True

theorem tagCompanion_keeps {Λ : Libs} (hM : Lawful Λ.merge) :
    (tagCompanion Λ).Keeps KeepsTags TagsInUse where
  entries h he := h.of_entries he
  mutate hs hkeep hm hx := by
    obtain rfl := Except.ok.inj hx
    exact EngineOp.run_tags hs hkeep hm
  pull hs hkeep hv hst := ingestPeerTags_inUse hM hv hs (hkeep _ hv) hst
  ingest hm hx := by
    obtain rfl := Except.ok.inj hx
    exact ingestVaultWithHeader_tags hm

/-- When the table holds the tags in use, the two reads list the same names. -/
theorem TagsInUse.reads {m : Mirror} {T : TagTable} (h : TagsInUse m T) :
    (listTags T).Perm ((tagUsageCounts m T).map (·.1)) := by
  have hall : T.rows.filter (· ∈ m.linkedTags) = T.rows :=
    List.filter_eq_self.2 fun name hname => decide_eq_true ((h name).1 hname)
  have hcounts := (List.perm_insertionSort (fun a b : String × Nat => noCaseOrder a.1 ≤ noCaseOrder b.1)
    ((T.rows.filter (· ∈ m.linkedTags)).map fun name =>
      (name, (m.entries.rows.filter (name ∈ ·.tags)).length))).map (·.1)
  rw [List.map_map, hall] at hcounts
  have hnames : T.rows.map ((·.1) ∘ fun name : String =>
      (name, (m.entries.rows.filter (name ∈ ·.tags)).length)) = T.rows := List.map_id' _
  rw [hnames] at hcounts
  unfold tagUsageCounts
  rw [hall]
  exact (List.perm_insertionSort _ T.rows).trans hcounts.symm

/-- **The tag table holds the tags in use**, in every state a run reaches from an ingest without
dropping the last link of a name unswept; `list_tags` and `tag_usage_counts` then return the same
names. -/
theorem tags_in_use {Λ : Libs} (hM : Lawful Λ.merge) {vault : Vault} {source : Source} {m m' : Mirror}
    (hingest : ingestVaultWithHeader vault source m = .ok m')
    {pending : List (PendingConflictContext Λ.vaults)} {t : TaggedState Λ.vaults}
    (hrun : Lib.Run (EngineTxn.runTags Λ) KeepsTags (⟨m', pending⟩, ingestTags vault) t) :
    TagsInUse t.1.mirror t.2 ∧ (listTags t.2).Perm ((tagUsageCounts t.1.mirror t.2).map (·.1)) := by
  have hinuse : TagsInUse t.1.mirror t.2 :=
    (tagCompanion_keeps hM).run hingest rfl hrun
  exact ⟨hinuse, hinuse.reads⟩

/-! ## A restore from history -/

/-- Entry `9` has been tagged since its first version; entry `8` has the given tags. -/
def taggedVault (others : List String) : Vault where
  root := .node { id := 1, name := "root" }
    [{ id := 8, tags := others }, { id := 9, tags := ["work"], history := [{ id := 9 }] }] []
  metadata := {}
  deletedObjects := []

/-- The vault ingested, with its tag table. -/
def taggedStart (others : List String) : TaggedState fieldVaults :=
  (⟨ingested (taggedVault others) freshMirror, []⟩, ingestTags (taggedVault others))

/-- The first version of entry `9` restored. -/
def restoreFirst : EngineTxn := .mutate (.editEntry 9 (.restoreEntryFromHistory 0 (.atSecond 50)))

/-- The other entry still carries the tag that the restored one loses. -/
theorem tags_in_use_shared_tag :
    ∃ t, EngineTxn.runTags ⟨plainEnv, fieldMerge, fieldVaults⟩ (taggedStart ["work"]) restoreFirst =
        .ok t ∧ TagsInUse t.1.mirror t.2 ∧
      (listTags t.2).Perm ((tagUsageCounts t.1.mirror t.2).map (·.1)) := by
  have hingest : ingestVaultWithHeader (taggedVault ["work"]) (.inMemory none) freshMirror =
      .ok (ingested (taggedVault ["work"]) freshMirror) := ingestVault_ingested (by decide +kernel)
  have hok : (EngineTxn.runTags ⟨plainEnv, fieldMerge, fieldVaults⟩ (taggedStart ["work"])
      restoreFirst).isOk = true := by decide +kernel
  cases hrun : EngineTxn.runTags ⟨plainEnv, fieldMerge, fieldVaults⟩ (taggedStart ["work"])
      restoreFirst with
  | error e =>
    rw [hrun] at hok
    cases hok
  | ok t =>
    refine ⟨t, rfl, tags_in_use fieldMerge_lawful hingest (.snoc .refl ?_ hrun)⟩
    intro snap _ name hname
    have hold : tagsOf (taggedStart ["work"]).1.mirror 9 = ["work"] := by decide +kernel
    have hother : tagsOf (taggedStart ["work"]).1.mirror 8 = ["work"] := by decide +kernel
    have hname : name ∈ tagsOf (taggedStart ["work"]).1.mirror 9 := hname
    rw [hold, ← hother] at hname
    exact .inr ⟨8, by decide, hname⟩

/-- The only entry with the tag is restored to a version without it: the name stays in the table. -/
theorem restore_leaves_ghost_tag :
    (ingestVault (taggedVault []) freshMirror).isOk = true ∧
      ((EngineTxn.runTags ⟨plainEnv, fieldMerge, fieldVaults⟩ (taggedStart []) restoreFirst).toOption.map
        fun t => (listTags t.2, tagUsageCounts t.1.mirror t.2)) = some (["work"], []) := by
  exact ⟨by decide +kernel, by decide +kernel⟩

end KeysCore.Verify
