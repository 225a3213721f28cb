import KeysCore.HistoryRows
import KeysCore.Verify.Companion
import KeysCore.Verify.FieldMerge
import KeysCore.Verify.IngestSucceeds
import KeysCore.Verify.WrittenEntries

/-!
# The history indices are dense

The rows of `entry_history` beside the mirror: in every state of a run the rows of an entry are its
history under the indices `0, 1, …`, oldest first (`history_dense`). Each writer keeps that: the append at
the next index, the renumbering after a prune, the shift after a deletion or a restore, and the inserts
of an ingest or a pull. So the snapshot at a position of the projection and the row under that index are
the same, and a deletion puts the snapshot it removes on the entry's tombstone list (`DeletesOne`).
-/

namespace KeysCore

/-- The text of the tombstone list among an entry's custom data. -/
def tombstoneText (items : List CustomDataItem) : Option String :=
  (items.find? (·.key = tombstoneCustomDataKey)).map (·.value)

def EntryRow.tombstoneText (r : EntryRow) : Option String :=
  (r.customData.find? (·.key = tombstoneCustomDataKey)).map (·.value)

end KeysCore

namespace KeysCore.Verify

open Lib Lib.Indexed

/-! ## The writers -/

theorem unlessTaken_ok {α : Type} {x : Option α} {a : α} : unlessTaken x = .ok a ↔ x = some a := by
  cases x with
  | none => simp [unlessTaken]
  | some b => simp [unlessTaken]

section Writers

variable {H : HistoryLib} {s : Settings} {rows rows' : HistoryRows} {history : List HistorySnapshot}

theorem insert?_ok {r : Int × HistorySnapshot} (h : unlessTaken (insert? rows r) = .ok rows') :
    rows' = rows ++ [r] := by
  have h := unlessTaken_ok.1 h
  unfold insert? at h
  split at h
  · cases h
  · exact (Option.some.inj h).symm

/-- The inserts of a slice into an entry without rows. -/
theorem insertSnapshots_dense {versions : List EntryVersion}
    (h : HistoryRows.insertSnapshots [] versions = .ok rows') :
    Dense rows' (versions.map HistorySnapshot.fromEntry) := by
  have hfold : ∀ (rs : List (Int × HistorySnapshot)) (rows : HistoryRows),
      rs.foldlM (fun rows r => unlessTaken (insert? rows r)) rows = .ok rows' → rows' = rows ++ rs := by
    intro rs
    induction rs with
    | nil =>
      intro rows h
      obtain rfl := Except.ok.inj h
      exact (List.append_nil _).symm
    | cons r rs ih =>
      intro rows h
      rw [List.foldlM_cons] at h
      obtain ⟨mid, hmid, h⟩ := except_bind_ok.1 h
      rw [ih mid h, insert?_ok hmid, List.append_assoc, List.singleton_append]
  rw [hfold _ _ h]
  exact .refl _

/-- The snapshots within the budgets of the vault. -/
def keptHistory (H : HistoryLib) (s : Settings) (history : List HistorySnapshot) :
    List HistorySnapshot :=
  ((EntryRow.budgeted H s history).filter (·.2)).map (·.1)

theorem budgeted_fst (H : HistoryLib) (s : Settings) (history : List HistorySnapshot) :
    (EntryRow.budgeted H s history).map Prod.fst = history := by
  have hwalk : ∀ (i k : Option Nat) (l : List HistorySnapshot) (n m : Nat),
      (EntryRow.keepNewest H.snapshotSize i k n m l).map Prod.fst = l := by
    intro i k l
    induction l with
    | nil => intro n m; rfl
    | cons x l ih =>
      intro n m
      unfold EntryRow.keepNewest
      split
      · rw [List.map_cons, ih]
      · rw [List.map_cons, ih]
  unfold EntryRow.budgeted
  rw [List.map_reverse, hwalk, List.reverse_reverse]

/-- **A prune leaves the snapshots within budget, densely.** -/
theorem pruneHistory_dense (hrows : Dense rows history)
    (h : HistoryRows.pruneHistory H s rows = .ok rows') : Dense rows' (keptHistory H s history) := by
  unfold HistoryRows.pruneHistory at h
  simp only [hrows.ordered, numbered_values] at h
  split at h
  · -- within budget: no flag is down
    rename_i hempty
    obtain rfl := Except.ok.inj h
    have hall := (Dense.all_kept (budgeted_fst H s history) hempty)
    rw [keptHistory, hall]
    exact hrows
  · obtain ⟨mid, hmid, h⟩ := except_bind_ok.1 h
    exact hrows.of_selection (budgeted_fst H s history) rfl (unlessTaken_ok.1 hmid)
      (unlessTaken_ok.1 h)

/-- **An archive appends the snapshot and prunes.** -/
theorem archiveSnapshot_dense (hrows : Dense rows history) {snap : HistorySnapshot}
    (h : HistoryRows.archiveSnapshot H s snap rows = .ok rows') :
    Dense rows' (keptHistory H s (history ++ [snap])) := by
  obtain ⟨mid, hmid, h⟩ := except_bind_ok.1 h
  rw [hrows.nextIndex] at hmid
  rw [insert?_ok hmid] at h
  exact pruneHistory_dense (hrows.append snap) h

/-- **A deletion succeeds for an index of the history, and leaves the others in order.** -/
theorem deleteHistoryAt_dense (hrows : Dense rows history) {index : Nat}
    (hindex : index < history.length) :
    ∃ rows', HistoryRows.deleteHistoryAt index rows = .ok rows' ∧
      Dense rows' (history.eraseIdx index) := by
  have hmem : ((index : Int), history[index]) ∈ rows := hrows.mem.2 (List.getElem?_eq_getElem hindex)
  have hin : (index : Int) ∈ indices rows := List.mem_map_of_mem hmem
  have hnd : (indices (deleteAt rows index)).Nodup := hrows.nodup.sublist (List.filter_sublist.map _)
  have hsome := shift?_isSome (by decide : (-1 : Int) < 0) (p := fun i => (index : Int) < i) hnd ?_
  · obtain ⟨rows', hrows'⟩ := Option.isSome_iff_exists.1 hsome
    refine ⟨rows', ?_, hrows.eraseIdx ?_⟩
    · unfold HistoryRows.deleteHistoryAt
      rw [if_pos hin, hrows']
      rfl
    · simpa [deleteAt] using shift?_eq hnd hrows'
  · intro i hi hlt hbelow
    simp only [decide_eq_true_eq] at hlt ⊢
    obtain ⟨r, hr, heq⟩ := List.mem_map.1 hbelow
    have hne : r.1 ≠ index := by simpa using (List.mem_filter.1 hr).2
    have heq : r.1 = i + -1 := heq
    omega

theorem deleteHistoryAt_ok (hrows : Dense rows history) {index : Nat}
    (h : HistoryRows.deleteHistoryAt index rows = .ok rows') :
    Dense rows' (history.eraseIdx index) := by
  by_cases hindex : index < history.length
  · obtain ⟨rows'', h', hdense⟩ := deleteHistoryAt_dense hrows hindex
    rw [h] at h'
    obtain rfl := Except.ok.inj h'
    exact hdense
  · unfold HistoryRows.deleteHistoryAt at h
    split at h
    · rename_i hin
      obtain ⟨r, hr, heq⟩ := List.mem_map.1 hin
      have := (le_of_mem_numbered (hrows.mem_iff.1 hr)).2
      have heq : r.1 = index := heq
      omega
    · cases h

/-- The history a restore leaves, with the live snapshot at the end. -/
def trimmedHistory (maxItems : Int) (history : List HistorySnapshot) : List HistorySnapshot :=
  match EntryRow.budget maxItems with
  | none => history
  | some cap => history.drop (history.length - cap)

/-- **A restore appends the live snapshot and drops the oldest over the item budget.** -/
theorem restoreEntryFromHistory_dense (hrows : Dense rows history) {maxItems : Int}
    {snap : HistorySnapshot} (h : HistoryRows.restoreEntryFromHistory maxItems snap rows = .ok rows') :
    Dense rows' (trimmedHistory maxItems (history ++ [snap])) := by
  unfold HistoryRows.restoreEntryFromHistory at h
  obtain ⟨mid, hmid, h⟩ := except_bind_ok.1 h
  rw [hrows.nextIndex] at hmid
  have hdense := hrows.append snap
  rw [← insert?_ok hmid] at hdense
  unfold trimmedHistory
  cases hbudget : EntryRow.budget maxItems with
  | none =>
    rw [hbudget] at h
    obtain rfl := Except.ok.inj h
    exact hdense
  | some cap =>
    rw [hbudget] at h
    have hlen : mid.length = (history ++ [snap]).length := by
      rw [hdense.length_eq, length_numbered]
    dsimp only at h ⊢
    split at h
    · rename_i hle
      obtain rfl := Except.ok.inj h
      rw [hlen] at hle
      rw [Nat.sub_eq_zero_of_le hle, List.drop_zero]
      exact hdense
    · rw [hlen] at h
      generalize (history ++ [snap]).length - cap = k at h ⊢
      have hlowest : mid.filter (·.1 ∉ indices ((ordered mid).take k)) = mid.filter ((k : Int) ≤ ·.1) := by
        refine List.filter_congr fun r hr => ?_
        rw [decide_eq_decide, hdense.mem_lowest hr, not_lt]
      rw [hlowest] at h
      have hnd : (indices (mid.filter ((k : Int) ≤ ·.1))).Nodup :=
        hdense.nodup.sublist (List.filter_sublist.map _)
      exact hdense.drop (by simpa using shift?_eq hnd (unlessTaken_ok.1 h))

end Writers

/-! ## Edits -/

/-- The edit archives the row as it was. -/
def EntryEdit.archives (row : EntryRow) : EntryEdit → Bool
  | updateEntry upd now => !(updateEntry upd now).rolledBack row
  | saveEntry save now => !(saveEntry save now).rolledBack row
  | setTags tags _ => sortStrings (tags.foldl linkTag []) ≠ sortStrings row.tags
  | linkEntryCustomIcon _ => false
  | touchEntry _ => false
  | deleteHistoryAt _ _ => false
  | restoreEntryFromHistory _ _ => false
  | _ => true

/-- What an edit of the entry with the row `row` does to its rows of `entry_history`. -/
def EntryEdit.historyRows (H : HistoryLib) (s : Settings) (row : EntryRow) (rows : HistoryRows)
    (e : EntryEdit) : Except EngineError HistoryRows :=
  if e.archives row then HistoryRows.archiveSnapshot H s row.liveSnapshot rows
  else
    match e with
    | deleteHistoryAt index _ => HistoryRows.deleteHistoryAt index rows
    | restoreEntryFromHistory _ _ =>
      HistoryRows.restoreEntryFromHistory s.historyMaxItems row.liveSnapshot rows
    | _ => .ok rows

section Edits

variable {H : HistoryLib} {s : Settings} {now : EpochMs} {r r' row row' : EntryRow}

theorem archive_history {snap : HistorySnapshot} (h : r.archive H s now snap = .ok r') :
    r'.history = keptHistory H s (r.history ++ [snap]) := by
  unfold EntryRow.archive EntryRow.pruneHistory at h
  dsimp only at h
  split at h
  · rename_i hempty
    obtain rfl := Except.ok.inj h
    rw [List.isEmpty_iff, List.map_eq_nil_iff, List.filter_eq_nil_iff] at hempty
    have hall : (EntryRow.budgeted H s (r.history ++ [snap])).filter (·.2) =
        EntryRow.budgeted H s (r.history ++ [snap]) :=
      List.filter_eq_self.2 fun x hx => by simpa using hempty x hx
    rw [keptHistory, hall]
    exact (budgeted_fst H s _).symm
  · obtain ⟨e, -, h⟩ := except_bind_ok.1 h
    obtain rfl := Except.ok.inj h
    rfl

theorem archivedEdit_history {f : EntryRow → EntryRow} (h : r.archivedEdit H s now f = .ok r')
    (hf : ∀ r, (f r).history = r.history) :
    r'.history = keptHistory H s (r.history ++ [r.liveSnapshot]) := by
  obtain ⟨e, he, h⟩ := except_bind_ok.1 h
  obtain rfl := Except.ok.inj h
  exact (hf e).trans (archive_history he)

theorem finishEdit_history {after : EntryRow} (h : r.finishEdit H s now after = .ok (some r'))
    (hafter : after.history = r.history) :
    r'.history = keptHistory H s (r.history ++ [r.liveSnapshot]) := by
  unfold EntryRow.finishEdit at h
  split at h
  · cases h
  · obtain ⟨e, he, h⟩ := except_bind_ok.1 h
    obtain rfl := Option.some.inj (Except.ok.inj h)
    have hkept := archive_history he
    rw [hafter] at hkept
    exact hkept

theorem restoreFrom_history {maxItems : Int} {snap : HistorySnapshot}
    (h : r.restoreFrom H maxItems now snap = .ok r') :
    r'.history = trimmedHistory maxItems (r.history ++ [r.liveSnapshot]) := by
  unfold EntryRow.restoreFrom at h
  unfold trimmedHistory
  cases hbudget : EntryRow.budget maxItems with
  | none =>
    rw [hbudget] at h
    obtain rfl := Except.ok.inj h
    rfl
  | some cap =>
    rw [hbudget] at h
    dsimp only at h ⊢
    by_cases hzero : (r.history ++ [r.liveSnapshot]).length - cap = 0
    · rw [if_pos hzero] at h
      obtain rfl := Except.ok.inj h
      rw [hzero, List.drop_zero]
    · rw [if_neg hzero] at h
      obtain ⟨e, -, h⟩ := except_bind_ok.1 h
      obtain rfl := Except.ok.inj h
      rfl

/-- **An edit that archives appends the row as it was and prunes.** -/
theorem EntryEdit.Leaves.archived {e : EntryEdit} (h : e.Leaves H s row row')
    (harch : e.archives row = true) :
    row'.history = keptHistory H s (row.history ++ [row.liveSnapshot]) := by
  cases h with
  | rolledBack hroll =>
    cases e with
    | updateEntry upd now => simp [archives, hroll] at harch
    | saveEntry save now => simp [archives, hroll] at harch
    | _ => cases hroll
  | @step _ b hroll hne hs =>
    change b.history = _
    cases e with
    | updateEntry upd now => exact finishEdit_history hs rfl
    | saveEntry save now => exact finishEdit_history hs rfl
    | setProtectedField name value now =>
      refine archivedEdit_history hs fun r => ?_
      unfold EntryRow.setProtected
      split <;> rfl
    | setNonProtectedCustomField name value now => exact archivedEdit_history hs fun _ => rfl
    | removeCustomField name now => exact archivedEdit_history hs fun _ => rfl
    | setTags tags now =>
      rcases hs with ⟨hsame, -⟩ | ⟨-, hs⟩
      · simp [archives, hsame] at harch
      · exact archivedEdit_history hs fun _ => rfl
    | setAttachment name bytes now => exact archivedEdit_history hs fun _ => rfl
    | removeAttachment name now => exact archivedEdit_history hs fun _ => rfl
    | clearEntryCustomIcon now => exact archivedEdit_history hs fun _ => rfl
    | linkEntryCustomIcon | touchEntry | deleteHistoryAt | restoreEntryFromHistory => cases harch
  | deletedHistory => cases harch

/-- **An edit keeps the rows dense, for the history of the row it leaves.** -/
theorem EntryEdit.Leaves.history {e : EntryEdit} (h : e.Leaves H s row row') {rows rows' : HistoryRows}
    (hrows : Dense rows row.history) (hrun : e.historyRows H s row rows = .ok rows') :
    Dense rows' row'.history := by
  by_cases harch : e.archives row = true
  · unfold EntryEdit.historyRows at hrun
    rw [if_pos harch] at hrun
    rw [h.archived harch]
    exact archiveSnapshot_dense hrows hrun
  have untouched : ∀ {b : EntryRow}, e.historyRows H s row rows = .ok rows → b.history = row.history →
      Dense rows' b.history := by
    intro b hsame hb
    rw [hsame] at hrun
    obtain rfl := Except.ok.inj hrun
    rw [hb]
    exact hrows
  cases h with
  | rolledBack hroll =>
    refine untouched ?_ rfl
    cases e with
    | updateEntry upd now => simp [EntryEdit.historyRows, EntryEdit.archives, hroll]
    | saveEntry save now => simp [EntryEdit.historyRows, EntryEdit.archives, hroll]
    | _ => cases hroll
  | @step _ b hroll hne hs =>
    change Dense rows' b.history
    cases e with
    | updateEntry upd now => simp [archives, hroll] at harch
    | saveEntry save now => simp [archives, hroll] at harch
    | setProtectedField | setNonProtectedCustomField | removeCustomField | setAttachment
    | removeAttachment | clearEntryCustomIcon => exact absurd rfl harch
    | setTags tags now =>
      rcases hs with ⟨hsame, rfl⟩ | ⟨hdiff, -⟩
      · exact untouched (by simp [EntryEdit.historyRows, EntryEdit.archives, hsame]) rfl
      · simp [archives, hdiff] at harch
    | linkEntryCustomIcon icon =>
      obtain rfl := hs
      exact untouched rfl rfl
    | touchEntry usedAt =>
      obtain rfl := hs
      exact untouched rfl rfl
    | deleteHistoryAt index now => exact absurd rfl (hne index now)
    | restoreEntryFromHistory index now =>
      obtain ⟨snap, -, -, hs⟩ := hs
      rw [restoreFrom_history hs]
      exact restoreEntryFromHistory_dense hrows hrun
  | deletedHistory data hlt => exact deleteHistoryAt_ok hrows hrun

end Edits

/-! ## Transactions -/

/-- The rows a mutation leaves, which took the mirror from `m` to `m'`. -/
def EngineOp.historyRows (H : HistoryLib) (m m' : Mirror) (T : HistoryTable) :
    EngineOp → Except EngineError HistoryTable
  | editEntry u e =>
    match m.entries.find? u with
    | none => .ok T
    | some row => do
      let rows ← e.historyRows H m.settings row (T u)
      return Function.update T u rows
  | _ => .ok (m'.cascadeHistory T)

/-- The rows with which the walk writes an entry of the peer: `advance_local_entry` deletes a local entry
first, and its rows with it. -/
def writtenHistory (M : MergeLib) (P : PeerPull) (p : Entry) (rows : HistoryRows) :
    Except EngineError HistoryRows :=
  match P.writtenEntry M p with
  | none => .ok rows
  | some e => HistoryRows.insertSnapshots (if (P.localEntry p.id).isSome then [] else rows) e.history

/-- `persist_entry_history`, for a shared entry whose history the pass changed. -/
def foldedHistoryRows (M : MergeLib) (P : PeerPull) (p : Entry) (rows : HistoryRows) :
    Except EngineError HistoryRows :=
  match P.localEntry p.id with
  | none => .ok rows
  | some l => do
    match ← historyResult M (P.historyFold M) (armBase M P l p) l p with
    | none => return rows
    | some merged => HistoryRows.rewriteEntryHistory merged.history

/-- The walk for one entry of the peer. -/
def ingestEntryHistory (M : MergeLib) (P : PeerPull) (T : HistoryTable) (pe : Entry × Uuid) :
    Except EngineError HistoryTable := do
  let rows ← writtenHistory M P pe.1 (T pe.1.id)
  let rows ← foldedHistoryRows M P pe.1 rows
  return Function.update T pe.1.id rows

/-- The rows of `entry_history` beside the mirror. -/
def historyCompanion (Λ : Libs) : Companion Λ HistoryTable where
  mutate op m m' T := op.historyRows Λ.env.history m m' T
  pull ord P m T := do
    let st ← ingestPeer Λ.merge ord P m
    let T ← P.peer.entriesWithParent.foldlM (ingestEntryHistory Λ.merge P) T
    return (st, st.1.cascadeHistory T)
  ingest := ingestHistory

theorem historyCompanion_erases (Λ : Libs) : (historyCompanion Λ).Erases := by
  intro ord P m T st T' h
  obtain ⟨st', hst, h⟩ := except_bind_ok.1 h
  obtain ⟨T'', -, h⟩ := except_bind_ok.1 h
  obtain ⟨rfl, -⟩ := Prod.mk.inj (Except.ok.inj h)
  exact hst

/-- The history of the entry `u`, none without a row. -/
def historyOf (m : Mirror) (u : Uuid) : List HistorySnapshot :=
  ((m.entries.find? u).map (·.history)).getD []

/-- The rows of every entry are its history under dense indices; no other rows are there. -/
def HistoryStored (m : Mirror) (T : HistoryTable) : Prop := ∀ u, Dense (T u) (historyOf m u)

section Stored

variable {m m' : Mirror} {T T' : HistoryTable}

theorem HistoryStored.of_entries (h : HistoryStored m T) (he : m'.entries = m.entries) :
    HistoryStored m' T := by
  intro u
  rw [historyOf, he]
  exact h u

theorem HistoryStored.nil (h : HistoryStored m T) {u : Uuid} (hu : m.entries.find? u = none) :
    T u = [] := by
  have hdense := h u
  rw [historyOf, hu] at hdense
  exact hdense.eq_nil

/-- Entries that are left keep their history, and the rows of the others go with them. -/
theorem HistoryStored.cascade (h : HistoryStored m T)
    (hm : ∀ u, m'.entries.find? u = none ∨ historyOf m' u = historyOf m u) :
    HistoryStored m' (m'.cascadeHistory T) := by
  intro u
  unfold Mirror.cascadeHistory Mirror.entryExists
  cases hu : m'.entries.find? u with
  | none =>
    rw [historyOf, hu]
    exact .refl _
  | some row =>
    rcases hm u with hnone | hsame
    · rw [hu] at hnone
      cases hnone
    · rw [hsame, Option.isSome_some, if_pos rfl]
      exact h u

theorem FewerBodies.historyOf (h : FewerBodies m m') (u : Uuid) :
    m'.entries.find? u = none ∨ historyOf m' u = historyOf m u := by
  have hbody : ∀ m, Verify.historyOf m u = ((bodyOf m u).map (·.history)).getD [] := by
    intro m
    unfold Verify.historyOf bodyOf
    rw [Option.map_map]
    rfl
  rcases h u with hnone | hsame
  · left
    unfold bodyOf at hnone
    exact Option.map_eq_none_iff.1 hnone
  · right
    rw [hbody, hbody, hsame]

/-- The rows of one entry rewritten with its history. -/
theorem HistoryStored.write (h : HistoryStored m T) {u : Uuid} {row : EntryRow} {rows : HistoryRows}
    (hothers : ∀ v, v ≠ u → m'.entries.find? v = m.entries.find? v)
    (hrow : m'.entries.find? u = some row) (hrows : Dense rows row.history) :
    HistoryStored m' (Function.update T u rows) := by
  intro v
  by_cases e : v = u
  · subst e
    rw [Function.update_self, historyOf, hrow]
    exact hrows
  · rw [Function.update_of_ne e, historyOf, hothers v e]
    exact h v

/-- **A mutation keeps the rows dense.** -/
theorem EngineOp.run_history {E : EngineEnv} {op : EngineOp} (hm : HistoryStored m T)
    (h : op.run E m = .ok m') (hT : op.historyRows E.history m m' T = .ok T') :
    HistoryStored m' T' := by
  have cascaded : FewerBodies m m' → op.historyRows E.history m m' T = .ok (m'.cascadeHistory T) →
      HistoryStored m' T' := by
    intro hfewer heq
    rw [heq] at hT
    obtain rfl := Except.ok.inj hT
    exact hm.cascade hfewer.historyOf
  cases EngineOp.run_entries h with
  | structural hfewer hsame => exact cascaded hfewer rfl
  | updateGroup he => exact cascaded (SameBodies.of_entries he).fewer rfl
  | @createEntry g u fields now _ hone hnone hrow =>
    obtain rfl := Except.ok.inj hT
    refine hm.cascade fun v => .inr ?_
    by_cases e : v = u
    · subst e
      rw [historyOf, historyOf, hrow, hnone]
      rfl
    · rw [historyOf, historyOf, hone.entries v e]
  | @editEntry u e _ hrun =>
    obtain ⟨row, row', hrow, hrow', hleaves⟩ := EntryEdit.run_row hrun
    simp only [EngineOp.historyRows, hrow] at hT
    obtain ⟨rows, hrows, hT⟩ := except_bind_ok.1 hT
    obtain rfl := Except.ok.inj hT
    have hold := hm u
    rw [historyOf, hrow] at hold
    exact hm.write (EntryEdit.run_editsRow hrun).rowOnly.entries hrow' (hleaves.history hold hrows)
  | @deleteEntry u now _ he =>
    refine cascaded (.of_rows fun e hmem => ?_) rfl
    rw [he] at hmem
    exact (Table.mem_delete.1 hmem).1
  | ensureRecycleBin he => exact cascaded (SameBodies.of_entries he).fewer rfl
  | addCustomIcon he => exact cascaded (SameBodies.of_entries he).fewer rfl
  | setHistoryMaxItems he => exact cascaded (SameBodies.of_entries he).fewer rfl
  | setHistoryMaxSize he => exact cascaded (SameBodies.of_entries he).fewer rfl

/-! ## Pulls -/

section Pull

variable {M : MergeLib} {P : PeerPull}

theorem sharedRow_history (hM : Lawful M) {l p : Entry} (hl : P.localEntry p.id = some l)
    (parent : Uuid) (result : Option Entry) (r : EntryRow) :
    (sharedRow M P m l p parent result r).history =
      match result with
      | some merged => merged.history.map HistorySnapshot.fromEntry
      | none =>
        match P.writtenEntry M p with
        | none => r.history
        | some e => e.history.map HistorySnapshot.fromEntry := by
  cases result with
  | some merged => rfl
  | none =>
    have hplace : ∀ r : EntryRow, (locatedRow m p parent r).history = r.history := by
      intro r
      unfold locatedRow
      split
      · rfl
      · split <;> rfl
    rw [sharedRow, historyRow, hplace]
    exact armRow_value hM (f := fun r => r.history) (g := fun e => e.history.map HistorySnapshot.fromEntry)
      (fun _ _ _ => rfl) (fun _ _ => rfl) hl r

/-- **One step of the walk keeps the rows dense.** -/
theorem ingestEntryHistory_stored (hM : Lawful M) {st st' : Mirror × IngestPeerOutcome}
    {pe : Entry × Uuid} (hlocal : ∀ l, P.localEntry pe.1.id = some l → pe.1.id ∈ st.1.entries.keys)
    (hst : HistoryStored st.1 T) (h : P.ingestEntry M st pe = .ok st')
    (hT : ingestEntryHistory M P T pe = .ok T') : HistoryStored st'.1 T' := by
  have hothers := (ingestEntry_touches hM h).1.entries
  unfold ingestEntryHistory at hT
  obtain ⟨written, hwritten, hT⟩ := except_bind_ok.1 hT
  obtain ⟨rows, hrows, hT⟩ := except_bind_ok.1 hT
  obtain rfl := Except.ok.inj hT
  unfold writtenHistory at hwritten
  unfold foldedHistoryRows at hrows
  unfold PeerPull.ingestEntry at h
  split at h
  · rename_i hnone
    rw [hnone] at hwritten hrows
    obtain rfl := Except.ok.inj hrows
    obtain ⟨hskip, hwrite⟩ := writtenEntry_peerOnly (M := M) hnone
    rcases ingestPeerOnly_spec h with ⟨hb, rfl⟩ | ⟨hb, -, -, hfree, hfind, -⟩
    · rw [hskip hb] at hwritten
      obtain rfl := Except.ok.inj hwritten
      rw [Function.update_eq_self]
      exact hst
    · rw [hwrite hb] at hwritten
      have hwritten : HistoryRows.insertSnapshots (T pe.1.id) pe.1.history = .ok written := hwritten
      rw [hst.nil hfree] at hwritten
      exact hst.write hothers hfind (insertSnapshots_dense hwritten)
  · rename_i l hl
    obtain ⟨row, hrow⟩ := Table.exists_find?.2 (hlocal l hl)
    obtain ⟨-, -, ⟨result, hresult, hfind⟩, -⟩ := ingestShared_spec hM (localEntry_id hl) h
    rw [hrow, Option.map_some] at hfind
    refine hst.write hothers hfind ?_
    rw [sharedRow_history hM hl]
    rw [hl] at hwritten hrows
    simp only [hresult] at hrows
    cases result with
    | some merged => exact insertSnapshots_dense hrows
    | none =>
      obtain rfl := Except.ok.inj hrows
      cases hw : P.writtenEntry M pe.1 with
      | none =>
        rw [hw] at hwritten
        obtain rfl := Except.ok.inj hwritten
        have hold := hst pe.1.id
        rw [historyOf, hrow] at hold
        exact hold
      | some e =>
        rw [hw] at hwritten
        exact insertSnapshots_dense hwritten

/-- The whole walk. -/
theorem ingestEntriesHistory_stored (hM : Lawful M) {l : List (Entry × Uuid)}
    {st st' : Mirror × IngestPeerOutcome}
    (hlocal : ∀ u e, P.localEntry u = some e → u ∈ st.1.entries.keys) (hst : HistoryStored st.1 T)
    (h : l.foldlM (P.ingestEntry M) st = .ok st')
    (hT : l.foldlM (ingestEntryHistory M P) T = .ok T') : HistoryStored st'.1 T' := by
  induction l generalizing st T with
  | nil =>
    obtain rfl := Except.ok.inj h
    obtain rfl := Except.ok.inj hT
    exact hst
  | cons pe l ih =>
    rw [List.foldlM_cons] at h hT
    obtain ⟨mid, hmid, h⟩ := except_bind_ok.1 h
    obtain ⟨Tmid, hTmid, hT⟩ := except_bind_ok.1 hT
    exact ih (fun u e he => ingestEntry_keeps_entry hM hmid (hlocal u e he))
      (ingestEntryHistory_stored hM (fun e he => hlocal _ e he) hst hmid hTmid) h hT

/-- **A pull keeps the rows dense.** -/
theorem ingestPeer_history (hM : Lawful M) {ord : HashOrder} {st : Mirror × IngestPeerOutcome}
    (hv : m.project = .ok P.localVault) (hm : HistoryStored m T) (h : ingestPeer M ord P m = .ok st)
    (hT : P.peer.entriesWithParent.foldlM (ingestEntryHistory M P) T = .ok T') :
    HistoryStored st.1 (st.1.cascadeHistory T') := by
  obtain ⟨st₁, st₂, -, hsame, -, -, h₂, -, -, -, hentries, -⟩ := ingestPeer_steps hM h
  have hwalk := ingestEntriesHistory_stored hM (fun u e he => localEntry_keys hv hsame.entries he)
    (hm.of_entries hsame.entries) h₂ hT
  refine hwalk.cascade fun u => ?_
  rw [historyOf, hentries u]
  split
  · exact .inl rfl
  · exact .inr rfl

end Pull

/-! ## Ingests -/

/-- The inserts of entries whose uuids are distinct and without rows. -/
theorem insertHistories_dense {ps : List (Entry × Uuid × Bool)} (hnd : (ps.map (·.1.id)).Nodup)
    (hfree : ∀ p ∈ ps, T p.1.id = [])
    (h : ps.foldlM (fun (T : HistoryTable) p => do
      let rows ← HistoryRows.insertSnapshots (T p.1.id) p.1.history
      return Function.update T p.1.id rows) T = .ok T') :
    (∀ p ∈ ps, Dense (T' p.1.id) (p.1.history.map HistorySnapshot.fromEntry)) ∧
      ∀ u, u ∉ ps.map (·.1.id) → T' u = T u := by
  induction ps generalizing T with
  | nil =>
    obtain rfl := Except.ok.inj h
    exact ⟨fun p hp => by simp at hp, fun _ _ => rfl⟩
  | cons p ps ih =>
    rw [List.foldlM_cons] at h
    obtain ⟨mid, hmid, h⟩ := except_bind_ok.1 h
    obtain ⟨rows, hrows, hmid⟩ := except_bind_ok.1 hmid
    obtain rfl := Except.ok.inj hmid
    rw [List.map_cons, List.nodup_cons] at hnd
    rw [hfree p (by simp)] at hrows
    have hne : ∀ q ∈ ps, q.1.id ≠ p.1.id := fun q hq heq => hnd.1 (List.mem_map.2 ⟨q, hq, heq⟩)
    obtain ⟨hdense, hrest⟩ := ih hnd.2 (fun q hq => by
      rw [Function.update_of_ne (hne q hq)]
      exact hfree q (List.mem_cons_of_mem _ hq)) h
    refine ⟨fun q hq => ?_, fun u hu => ?_⟩
    · rcases List.mem_cons.1 hq with rfl | hq
      · rw [hrest _ hnd.1, Function.update_self]
        exact insertSnapshots_dense hrows
      · exact hdense q hq
    · rw [List.map_cons, List.mem_cons, not_or] at hu
      rw [hrest u hu.2, Function.update_of_ne hu.1]

/-- **After an ingest the rows are dense.** -/
theorem ingestHistory_stored {vault : Vault} {source : Source}
    (h : ingestVaultWithHeader vault source m = .ok m') (hT : ingestHistory vault = .ok T') :
    HistoryStored m' T' := by
  obtain ⟨-, hrows⟩ := ingestVaultWithHeader_tree h
  have hnd := m'.entries.nodup
  rw [hrows, List.map_map] at hnd
  obtain ⟨hdense, hrest⟩ := insertHistories_dense hnd (fun _ _ => rfl) hT
  intro u
  cases hu : m'.entries.find? u with
  | none =>
    rw [historyOf, hu, hrest u ?_]
    · exact .refl _
    · intro hmem
      have hkeys := Table.find?_eq_none.1 hu
      rw [Table.keys, hrows, List.map_map] at hkeys
      exact hkeys hmem
  | some row =>
    obtain ⟨hmem, rfl⟩ := Table.find?_eq_some.1 hu
    rw [historyOf, hu]
    rw [hrows] at hmem
    obtain ⟨p, hp, rfl⟩ := List.mem_map.1 hmem
    exact hdense p hp

end Stored

/-! ## Tombstone lists -/

/-- The tombstone item of `items` lists `record`. -/
def Listed (Lists : String → EntryVersion → Prop) (items : List CustomDataItem)
    (record : EntryVersion) : Prop :=
  ∃ item, items.find? (·.key = tombstoneCustomDataKey) = some item ∧ Lists item.value record

/-- The tombstone list of a row, as stored, lists `record`. -/
def RowLists (Lists : String → EntryVersion → Prop) (row : EntryRow) (record : EntryVersion) : Prop :=
  ∃ text, row.tombstoneText = some text ∧ Lists text record

/-- What the engine relies on in `add_history_tombstone`: the record goes on the list. -/
def ListsTombstones (H : HistoryLib) (Lists : String → EntryVersion → Prop) : Prop :=
  ∀ {items record reason t items'}, H.addHistoryTombstone items record reason t = .ok items' →
    Listed Lists items' record

theorem storeTombstones_text (r : EntryRow) (data : List CustomDataItem) :
    (r.storeTombstones data).tombstoneText = (tombstoneText data).or r.tombstoneText := by
  unfold EntryRow.storeTombstones tombstoneText
  cases hfind : data.find? (·.key = tombstoneCustomDataKey) with
  | none => rfl
  | some item =>
    have hkey : item.key = tombstoneCustomDataKey := by simpa using List.find?_some hfind
    change item.toRow.key = _ at hkey
    have hrest : (r.customData.filter (·.key ≠ item.toRow.key)).find?
        (·.key = tombstoneCustomDataKey) = none := by
      refine List.find?_eq_none.2 fun c hc => ?_
      have hne := (List.mem_filter.1 hc).2
      rw [hkey] at hne
      simpa using hne
    unfold EntryRow.tombstoneText replaceCustomData
    dsimp only
    have hone : [item.toRow].find? (fun c => decide (c.key = tombstoneCustomDataKey)) =
        some item.toRow := List.find?_cons_of_pos (decide_eq_true hkey)
    rw [List.find?_append, hrest, hone]
    rfl

/-- A stored list lists what it listed before it was stored. -/
theorem Listed.stored {Lists : String → EntryVersion → Prop} {data : List CustomDataItem}
    {record : EntryVersion} (h : Listed Lists data record) (r : EntryRow) :
    RowLists Lists (r.storeTombstones data) record := by
  obtain ⟨item, hitem, hlists⟩ := h
  refine ⟨item.value, ?_, hlists⟩
  rw [storeTombstones_text, tombstoneText, hitem]
  rfl

/-! ## Deleting a record -/

section DeleteRecord

variable {H : HistoryLib} {m m' : Mirror} {u : Uuid} {index : Nat} {now : EpochMs}

/-- The projected entry is that of the row of its uuid. -/
theorem project_find {v : Vault} (hv : m.project = .ok v) {e : Entry}
    (he : v.entries.find? (·.id = u) = some e) :
    ∃ row, m.entries.find? u = some row ∧ e = row.toEntry := by
  obtain ⟨row, hrow, rfl⟩ := project_entry_row hv (List.mem_of_find?_eq_some he)
  have hid := List.find?_some he
  have hid : row.uuid = u := of_decide_eq_true hid
  exact ⟨row, Table.find?_eq_some.2 ⟨hrow, hid⟩, rfl⟩

/-- **What a deletion of a record writes**: the tombstone is that of the record at the position. -/
theorem deleteHistoryAt_row (h : m.deleteHistoryAt H u index now = .ok m') :
    ∃ row snap data, m.entries.find? u = some row ∧ row.history[index]? = some snap ∧
      H.addHistoryTombstone row.toEntry.customData (snap.toVersion u) .userDelete now.toDateTime =
        .ok data ∧
      m'.entries.find? u = some { row with
        customData := (row.storeTombstones data).customData
        history := row.history.eraseIdx index } := by
  unfold Mirror.deleteHistoryAt at h
  obtain ⟨v, hv, h⟩ := except_bind_ok.1 h
  split at h
  · cases h
  · rename_i e he
    obtain ⟨row, hrow, rfl⟩ := project_find hv he
    have huuid : row.uuid = u := (Table.find?_eq_some.1 hrow).2
    split at h
    · cases h
    · rename_i record hrecord
      obtain ⟨data, hdata, h⟩ := except_bind_ok.1 h
      obtain ⟨m₁, h₁, h⟩ := except_bind_ok.1 h
      obtain ⟨row₀, row₁, hrow₀, hrow₁, hfind₁⟩ := editEntry_row h₁
      obtain rfl := Option.some.inj (hrow.symm.trans hrow₀)
      obtain rfl := Except.ok.inj hrow₁
      obtain ⟨row₂, row₃, hrow₂, hrow₃, hfind₂⟩ := editEntry_row h
      obtain rfl := Option.some.inj (hfind₁.symm.trans hrow₂)
      rw [EntryRow.toEntry, List.getElem?_map, huuid] at hrecord
      obtain ⟨snap, hsnap, rfl⟩ := Option.map_eq_some_iff.1 hrecord
      split at hrow₃
      · obtain rfl := Except.ok.inj hrow₃
        refine ⟨row, snap, data, hrow, hsnap, serialised_ok.1 hdata, ?_⟩
        rw [hfind₂, storeTombstones_keeps]
      · cases hrow₃

/-- A deletion succeeds when the projection and the tombstone do. -/
theorem deleteHistoryAt_succeeds {v : Vault} (hv : m.project = .ok v) {e : Entry}
    (he : v.entries.find? (·.id = u) = some e) {row : EntryRow} (hrow : m.entries.find? u = some row)
    {snap : HistorySnapshot} (hsnap : row.history[index]? = some snap) {data : List CustomDataItem}
    (hdata : H.addHistoryTombstone e.customData (snap.toVersion u) .userDelete now.toDateTime =
      .ok data) : ∃ m', m.deleteHistoryAt H u index now = .ok m' := by
  obtain ⟨row', hrow', rfl⟩ := project_find hv he
  obtain rfl := Option.some.inj (hrow.symm.trans hrow')
  have huuid : row.uuid = u := (Table.find?_eq_some.1 hrow).2
  have hrecord : row.toEntry.history[index]? = some (snap.toVersion u) := by
    rw [EntryRow.toEntry, List.getElem?_map, hsnap, huuid]
    rfl
  have hlt : index < row.history.length := (List.getElem?_eq_some_iff.1 hsnap).1
  have hfind := (putEntryRow_row m u (row.storeTombstones data)).2
  rw [hrow, Option.map_some] at hfind
  obtain ⟨m', hm'⟩ : ∃ m', (m.putEntryRow u (row.storeTombstones data)).editEntry u (fun e =>
      if index < e.history.length then .ok { e with history := e.history.eraseIdx index }
      else .error (.notFound "history_snapshot")) = .ok m' := by
    refine ⟨_, editEntry_ok.2 ⟨_, _, hfind, if_pos ?_, rfl⟩⟩
    rw [storeTombstones_keeps]
    exact hlt
  refine ⟨m', ?_⟩
  unfold Mirror.deleteHistoryAt
  refine except_bind_ok.2 ⟨v, hv, ?_⟩
  rw [he]
  dsimp only
  rw [hrecord]
  exact except_bind_ok.2 ⟨data, serialised_ok.2 hdata,
    except_bind_ok.2 ⟨_, editEntry_ok.2 ⟨row, _, hrow, rfl, rfl⟩, hm'⟩⟩

end DeleteRecord

/-! ## Runs -/

/-- **Every transaction keeps the rows dense.** -/
theorem historyCompanion_keeps {Λ : Libs} (hM : Lawful Λ.merge) :
    (historyCompanion Λ).Keeps (fun _ _ => True) HistoryStored where
  entries h he := h.of_entries he
  mutate hs _ hm hx := EngineOp.run_history hs hm hx
  pull hs _ hv hst := by
    obtain ⟨st, hpeer, hx⟩ := except_bind_ok.1 hst
    obtain ⟨T, hT, hx⟩ := except_bind_ok.1 hx
    obtain ⟨rfl, rfl⟩ := Prod.mk.inj (Except.ok.inj hx)
    exact ingestPeer_history hM hv hs hpeer hT
  ingest hm hx := ingestHistory_stored hm hx

/-- The deletion of the record under an index, in a state with dense rows: it succeeds when the
projection and the construction of the tombstone do, the entry's tombstone list then lists the snapshot
under the index, and the rows left are the others, in their order. -/
def DeletesOne {Λ : Libs} (Lists : String → EntryVersion → Prop)
    (t : EngineState Λ.vaults × HistoryTable) (u : Uuid) (index : Nat) (now : EpochMs)
    (snap : HistorySnapshot) : Prop :=
  (∀ v e data, t.1.mirror.project = .ok v → v.entries.find? (·.id = u) = some e →
      Λ.env.history.addHistoryTombstone e.customData (snap.toVersion u) .userDelete now.toDateTime =
        .ok data →
      ∃ t', (EngineTxn.mutate (.editEntry u (.deleteHistoryAt index now))).runWith (historyCompanion Λ) t =
        .ok t') ∧
    ∀ t', (EngineTxn.mutate (.editEntry u (.deleteHistoryAt index now))).runWith (historyCompanion Λ) t =
        .ok t' →
      ∃ row row' data, t.1.mirror.entries.find? u = some row ∧ row.history[index]? = some snap ∧
        Λ.env.history.addHistoryTombstone row.toEntry.customData (snap.toVersion u) .userDelete
          now.toDateTime = .ok data ∧
        t'.1.mirror.entries.find? u = some row' ∧ RowLists Lists row' (snap.toVersion u) ∧
        row' = { row with
          customData := (row.storeTombstones data).customData
          history := row.history.eraseIdx index } ∧
        ordered (t'.2 u) = numbered 0 (row.history.eraseIdx index) ∧
        ∀ w, w ≠ u → t'.2 w = t.2 w

theorem HistoryStored.deletes {Λ : Libs} {t : EngineState Λ.vaults × HistoryTable}
    (ht : HistoryStored t.1.mirror t.2) {Lists : String → EntryVersion → Prop}
    (hH : ListsTombstones Λ.env.history Lists) {u : Uuid} {index : Nat} {snap : HistorySnapshot}
    (hsnap : ((index : Int), snap) ∈ t.2 u) (now : EpochMs) : DeletesOne Lists t u index now snap := by
  have hget := (ht u).mem.1 hsnap
  obtain ⟨row, hrow⟩ : ∃ row, t.1.mirror.entries.find? u = some row := by
    cases hrow : t.1.mirror.entries.find? u with
    | none =>
      rw [historyOf, hrow] at hget
      cases hget
    | some row => exact ⟨row, rfl⟩
  have hhistory : historyOf t.1.mirror u = row.history := by rw [historyOf, hrow]; rfl
  rw [hhistory] at hget
  have hdense : Dense (t.2 u) row.history := hhistory ▸ ht u
  constructor
  · intro v e data hv he hdata
    obtain ⟨m', hm'⟩ := deleteHistoryAt_succeeds hv he hrow hget hdata
    obtain ⟨rows', hrows', -⟩ := deleteHistoryAt_dense hdense (List.getElem?_eq_some_iff.1 hget).1
    have hT : (historyCompanion Λ).mutate (.editEntry u (.deleteHistoryAt index now)) t.1.mirror m' t.2 =
        .ok (Function.update t.2 u rows') := by
      simp only [historyCompanion, EngineOp.historyRows, hrow]
      exact except_bind_ok.2 ⟨rows', hrows', rfl⟩
    exact ⟨_, except_bind_ok.2 ⟨m', hm', except_bind_ok.2 ⟨_, hT, rfl⟩⟩⟩
  · intro t' h
    obtain ⟨m', hm', h⟩ := except_bind_ok.1 h
    obtain ⟨T', hT', h⟩ := except_bind_ok.1 h
    obtain rfl := Except.ok.inj h
    obtain ⟨row', snap', data, hrow', hsnap', hdata, hfind⟩ := deleteHistoryAt_row hm'
    obtain rfl := Option.some.inj (hrow.symm.trans hrow')
    obtain rfl := Option.some.inj (hget.symm.trans hsnap')
    have hlists : RowLists Lists { row with
        customData := (row.storeTombstones data).customData
        history := row.history.eraseIdx index } (snap.toVersion u) := (hH hdata).stored row
    refine ⟨row, _, data, hrow, hget, hdata, hfind, hlists, rfl, ?_⟩
    simp only [historyCompanion, EngineOp.historyRows, hrow] at hT'
    obtain ⟨rows', hrows', hT'⟩ := except_bind_ok.1 hT'
    obtain rfl := Except.ok.inj hT'
    dsimp only
    rw [Function.update_self]
    exact ⟨(deleteHistoryAt_ok hdense hrows').ordered, fun w hw => Function.update_of_ne hw _ _⟩

/-- **The history indices are dense, and a deletion tombstones what it deletes.** In every state a run
reaches from an ingest, the rows of each entry read in the order of the index are its history under
`0, 1, …`, and the deletion of the record under any index there is puts that record on the tombstone list
and removes it. -/
theorem history_dense {Λ : Libs} (hM : Lawful Λ.merge) {vault : Vault} {source : Source} {m m' : Mirror}
    (hingest : ingestVaultWithHeader vault source m = .ok m') {T : HistoryTable}
    (hT : ingestHistory vault = .ok T) {pending : List (PendingConflictContext Λ.vaults)}
    {t : EngineState Λ.vaults × HistoryTable}
    (hrun : Lib.Run (EngineTxn.runWith (historyCompanion Λ)) (fun _ _ => True) (⟨m', pending⟩, T) t) :
    (∀ u, ordered (t.2 u) = numbered 0 (historyOf t.1.mirror u)) ∧
      ∀ Lists : String → EntryVersion → Prop, ListsTombstones Λ.env.history Lists →
        ∀ (u : Uuid) (index : Nat) (now : EpochMs) (snap : HistorySnapshot),
          ((index : Int), snap) ∈ t.2 u → DeletesOne Lists t u index now snap := by
  have hstored : HistoryStored t.1.mirror t.2 := (historyCompanion_keeps hM).run hingest hT hrun
  exact ⟨fun u => (hstored u).ordered, fun Lists hH u index now snap hsnap =>
    hstored.deletes hH hsnap now⟩

/-- A library whose tombstone list is the titles on it, each with its end marked. -/
def titleHistory : HistoryLib where
  addHistoryTombstone items record _ _ :=
    let old := (tombstoneText items).getD ""
    .ok (⟨tombstoneCustomDataKey, old ++ (record.title ++ ";"), none⟩ :: items)
  snapshotSize _ := 0

def TitleListed (value : String) (record : EntryVersion) : Prop :=
  (record.title ++ ";").toList <:+: value.toList

theorem titleHistory_lists : ListsTombstones titleHistory TitleListed := by
  rintro items record reason t items' h
  obtain rfl := Except.ok.inj h
  refine ⟨_, List.find?_cons_of_pos (by simp), ?_⟩
  simp only [TitleListed, String.toList_append]
  exact (List.suffix_append _ _).isInfix

def titleLibs : Libs := ⟨{ plainEnv with history := titleHistory }, fieldMerge, fieldVaults⟩

/-- An entry with one earlier version. -/
def versionedVault : Vault where
  root := .node { id := 1, name := "root" } [{ id := 9, title := "new", history := [{ id := 9 }] }] []
  metadata := {}
  deletedObjects := []

/-- The vault ingested, then an edit, and a restore of the first version. -/
def versionedRun : Except EngineError (EngineState fieldVaults × HistoryTable) := do
  let T ← ingestHistory versionedVault
  [.mutate (.editEntry 9 (.updateEntry { title := some "newer" } (.atSecond 50))),
    .mutate (.editEntry 9 (.restoreEntryFromHistory 0 (.atSecond 60)))].foldlM
      (EngineTxn.runWith (historyCompanion titleLibs))
      (⟨ingested versionedVault freshMirror, []⟩, T)

theorem history_dense_restored :
    ∃ t, versionedRun = .ok t ∧ (t.2 9).map (fun r => (r.1, r.2.title)) = [(0, ""), (1, "new"), (2, "newer")] ∧
      (∀ u, ordered (t.2 u) = numbered 0 (historyOf t.1.mirror u)) ∧
      ∀ (u : Uuid) (index : Nat) (now : EpochMs) (snap : HistorySnapshot), ((index : Int), snap) ∈ t.2 u →
        DeletesOne (Λ := titleLibs) TitleListed t u index now snap := by
  have hingest : ingestVaultWithHeader versionedVault (.inMemory none) freshMirror =
      .ok (ingested versionedVault freshMirror) := ingestVault_ingested (by decide +kernel)
  have hend : versionedRun.toOption.map (fun t => (t.2 9).map fun r => (r.1, r.2.title)) =
      some [(0, ""), (1, "new"), (2, "newer")] := by decide +kernel
  cases hrun : versionedRun with
  | error e =>
    rw [hrun] at hend
    cases hend
  | ok t =>
    rw [hrun] at hend
    obtain ⟨T, hT, hrun⟩ := except_bind_ok.1 hrun
    obtain ⟨hdense, hdeletes⟩ := history_dense (Λ := titleLibs) fieldMerge_lawful hingest hT
      (.of_foldlM hrun)
    exact ⟨t, rfl, Option.some.inj hend, hdense, hdeletes TitleListed titleHistory_lists⟩

end KeysCore.Verify
