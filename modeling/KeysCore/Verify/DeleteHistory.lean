import KeysCore.DeleteHistory
import KeysCore.Verify.HistoryRows

/-!
# Deleting a snapshot among other connections

`Engine::delete_history_at` tombstones a snapshot in one transaction and deletes a row in the next, which
it finds by the index alone. When it fails in between, the tombstone stands and the snapshot is still
there; when another connection has moved the history, the row is that of another snapshot. What the call
does to the mirror are its own transactions, each the mirror it found and the one it left (`Accounts`).
`delete_history_iff`: they put the snapshot on the tombstone list and take it out of the history, or
change nothing, exactly if from the tombstone on the call does not fail and the snapshot at the index is
still the one it projected.
-/

namespace KeysCore.Verify

open Lib

/-- The transaction put the snapshot `s` of `u` on the entry's tombstone list, and did nothing else. -/
def Tombstones (Lists : String → EntryVersion → Prop) (u : Uuid) (s : HistorySnapshot)
    (c : Mirror × Mirror) : Prop :=
  ∃ row customData, c.1.entries.find? u = some row ∧
    c.2 = c.1.putEntryRow u { row with customData } ∧
    RowLists Lists { row with customData } (s.toVersion u)

/-- The transaction took the snapshot `s` out of the history of `u`, and did nothing else. -/
def Removes (u : Uuid) (s : HistorySnapshot) (c : Mirror × Mirror) : Prop :=
  ∃ row i, c.1.entries.find? u = some row ∧ row.history[i]? = some s ∧
    c.2 = c.1.putEntryRow u { row with history := row.history.eraseIdx i }

/-- What a call that started from `m` did to the mirror: nothing, or it tombstoned the snapshot that was
at the index and removed that very one. -/
def AllOrNothing (Lists : String → EntryVersion → Prop) (m : Mirror) (u : Uuid) (index : Nat)
    (o : DeleteOutcome) : Prop :=
  (∀ c ∈ o.commits, c.2 = c.1) ∨
    ∃ s c d, m.snapshotAt u index = some s ∧ o.commits = [c, d] ∧ Tombstones Lists u s c ∧ Removes u s d

/-- The mirror a call leaves is what its own transactions and those of the others between them make of
the one it starts from. -/
def Accounts (w : DeleteSurroundings) (m : Mirror) (o : DeleteOutcome) : Prop :=
  match o.commits with
  | [] => o.mirror = m ∨ o.mirror = w.afterProjection m
  | [c] => c.1 = w.afterProjection m ∧ o.mirror = w.afterTombstone c.2
  | [c, d] => c.1 = w.afterProjection m ∧ d.1 = w.afterTombstone c.2 ∧ o.mirror = d.2
  | _ => False

/-- The call gets to commit a tombstone of the snapshot `s`, which leaves the mirror `a`. -/
structure CommitsTombstone (w : DeleteSurroundings) (H : HistoryLib) (u : Uuid)
    (index : Nat) (now : EpochMs) (m : Mirror) (s : HistorySnapshot) (a : Mirror) : Prop where
  late : ∀ f ∈ w.failsAt, f.1 = .rowDelete ∨ f.1 = .renumbering
  snapshot : m.snapshotAt u index = some s
  stored : ∃ v e data, m.project = .ok v ∧ v.entries.find? (·.id = u) = some e ∧
    H.addHistoryTombstone e.customData (s.toVersion u) .userDelete now.toDateTime = .ok data ∧
    (w.afterProjection m).storeHistoryTombstone u data = .ok a

/-- Once the tombstone is committed the call does not fail any more, and the snapshot at the index is
still that of the tombstone. -/
def Harmless (w : DeleteSurroundings) (H : HistoryLib) (u : Uuid) (index : Nat)
    (now : EpochMs) (m : Mirror) : Prop :=
  ∀ s a, CommitsTombstone w H u index now m s a →
    w.failsAt = none ∧ (w.afterTombstone a).snapshotAt u index = some s

section Call

variable {w : DeleteSurroundings} {H : HistoryLib} {Lists : String → EntryVersion → Prop} {u : Uuid}
  {index : Nat} {now : EpochMs} {m m' : Mirror}

theorem attempt_ok {α : Type} {stage : DeleteStage} {x : Except EngineError α} {a : α} :
    w.attempt stage x = .ok a ↔ (∀ f ∈ w.failsAt, f.1 ≠ stage) ∧ x = .ok a := by
  unfold DeleteSurroundings.attempt
  split
  · rename_i h
    simp [h]
  · rename_i s e h
    rw [h]
    by_cases hs : s = stage
    · simp [hs]
    · simp [hs]

theorem deleteHistoryRow_ok :
    m.deleteHistoryRow u index = .ok m' ↔ ∃ row, m.entries.find? u = some row ∧
      index < row.history.length ∧
      m' = m.putEntryRow u { row with history := row.history.eraseIdx index } := by
  unfold Mirror.deleteHistoryRow
  constructor
  · intro h
    split at h
    · cases h
    · rename_i row hrow
      split at h
      · rename_i hlt
        obtain rfl := Except.ok.inj h
        exact ⟨row, hrow, hlt, rfl⟩
      · cases h
  · rintro ⟨row, hrow, hlt, rfl⟩
    rw [hrow]
    dsimp only
    rw [if_pos hlt]

theorem Listed.any {data : List CustomDataItem} {record : EntryVersion} (h : Listed Lists data record) :
    data.any (·.key = tombstoneCustomDataKey) = true := by
  obtain ⟨item, hitem, -⟩ := h
  have hkey := List.find?_some hitem
  exact List.any_eq_true.2 ⟨item, List.mem_of_find?_eq_some hitem, hkey⟩

/-- A rewrite of a row is seen in the sequence number. -/
theorem putEntryRow_ne {row : EntryRow} (hrow : m.entries.find? u = some row) (r : EntryRow) :
    m.putEntryRow u r ≠ m := by
  intro h
  have hmem := Table.find?_eq_some.1 hrow
  have hseq : m.mutationSeq + (m.entries.rows.filter (·.uuid = u)).length = m.mutationSeq :=
    congrArg Mirror.mutationSeq h
  have hpos : 0 < (m.entries.rows.filter (·.uuid = u)).length :=
    List.length_pos_of_mem (List.mem_filter.2 ⟨hmem.1, decide_eq_true hmem.2⟩)
  omega

/-- **The transaction of the tombstone.** -/
theorem storeHistoryTombstone_tombstones {data : List CustomDataItem} {s : HistorySnapshot}
    (hdata : Listed Lists data (s.toVersion u)) (h : m.storeHistoryTombstone u data = .ok m') :
    Tombstones Lists u s (m, m') ∧ m' ≠ m := by
  unfold Mirror.storeHistoryTombstone at h
  rw [if_pos hdata.any] at h
  split at h
  · cases h
  · rename_i row hrow
    obtain rfl := Except.ok.inj h
    have hlists := hdata.stored row
    rw [storeTombstones_keeps] at hlists
    refine ⟨⟨row, _, hrow, ?_, hlists⟩, putEntryRow_ne hrow _⟩
    rw [← storeTombstones_keeps]

/-- What is left tells the element that was taken out. -/
theorem eq_of_eraseIdx {l : List HistorySnapshot} {i j : Nat} {a b : HistorySnapshot}
    (ha : l[i]? = some a) (hb : l[j]? = some b) (h : l.eraseIdx i = l.eraseIdx j) : a = b := by
  obtain ⟨hi, rfl⟩ := List.getElem?_eq_some_iff.1 ha
  obtain ⟨hj, rfl⟩ := List.getElem?_eq_some_iff.1 hb
  have hperm : (l[i] :: l.eraseIdx i).Perm (l[j] :: l.eraseIdx i) :=
    (List.getElem_cons_eraseIdx_perm hi).trans (h ▸ List.getElem_cons_eraseIdx_perm hj).symm
  exact (Multiset.cons_inj_left (l.eraseIdx i : Multiset HistorySnapshot)).1 (Multiset.coe_eq_coe.2 hperm)

/-- **The transaction of the row** removes the snapshot at the index and no other. -/
theorem removes_iff {row : EntryRow} (hrow : m.entries.find? u = some row) {p : HistorySnapshot}
    (hp : row.history[index]? = some p) (s : HistorySnapshot) :
    Removes u s (m, m.putEntryRow u { row with history := row.history.eraseIdx index }) ↔ p = s := by
  constructor
  · rintro ⟨row', i, hrow', hs, hm⟩
    obtain rfl := Option.some.inj (hrow.symm.trans hrow')
    have hfind := congrArg (fun m : Mirror => (m.entries.find? u).map (·.history)) hm
    simp only [(putEntryRow_row m u _).2, hrow, Option.map_some, Option.some.injEq] at hfind
    exact eq_of_eraseIdx hp hs hfind
  · rintro rfl
    exact ⟨row, index, hrow, hp, rfl⟩

/-- **The tombstone that is constructed** is of the snapshot at the index. -/
theorem constructTombstone_ok {data : List CustomDataItem} :
    constructTombstone w H u index now m = .ok data ↔
      (∀ f ∈ w.failsAt, f.1 ≠ .projection ∧ f.1 ≠ .construction) ∧
      ∃ s, m.snapshotAt u index = some s ∧ ∃ v e, m.project = .ok v ∧
        v.entries.find? (·.id = u) = some e ∧
        H.addHistoryTombstone e.customData (s.toVersion u) .userDelete now.toDateTime = .ok data := by
  have hrecord : ∀ {v : Vault} {e : Entry}, m.project = .ok v →
      v.entries.find? (·.id = u) = some e →
      e.history[index]? = (m.snapshotAt u index).map (·.toVersion u) := by
    intro v e hv he
    obtain ⟨row, hrow, rfl⟩ := project_find hv he
    rw [EntryRow.toEntry, List.getElem?_map, Mirror.snapshotAt, hrow, Table.find?_key hrow]
    rfl
  unfold constructTombstone
  constructor
  · intro h
    obtain ⟨v, hv, h⟩ := except_bind_ok.1 h
    obtain ⟨hprojection, hv⟩ := attempt_ok.1 hv
    split at h
    · cases h
    · rename_i e he
      split at h
      · cases h
      · rename_i record hsome
        obtain ⟨hconstruction, hdata⟩ := attempt_ok.1 h
        rw [hrecord hv he] at hsome
        obtain ⟨s, hs, rfl⟩ := Option.map_eq_some_iff.1 hsome
        exact ⟨fun f hf => ⟨hprojection f hf, hconstruction f hf⟩, s, hs, v, e, hv, he,
          serialised_ok.1 hdata⟩
  · rintro ⟨hearly, s, hs, v, e, hv, he, hdata⟩
    refine except_bind_ok.2 ⟨v, attempt_ok.2 ⟨fun f hf => (hearly f hf).1, hv⟩, ?_⟩
    rw [he]
    dsimp only
    rw [hrecord hv he, hs]
    exact attempt_ok.2 ⟨fun f hf => (hearly f hf).2, serialised_ok.2 hdata⟩

variable (w u index now m) in
/-- The two courses of a call: it stops before a tombstone is committed, or goes on to the row. -/
theorem deleteHistoryAtAmong_cases (hH : ListsTombstones H Lists) :
    ((deleteHistoryAtAmong w H u index now m).commits = [] ∧
      ((deleteHistoryAtAmong w H u index now m).mirror = m ∨
        (deleteHistoryAtAmong w H u index now m).mirror = w.afterProjection m) ∧
      ∀ s a, ¬ CommitsTombstone w H u index now m s a) ∨
    ∃ s a, CommitsTombstone w H u index now m s a ∧
      (∀ s' a', CommitsTombstone w H u index now m s' a' → s' = s ∧ a' = a) ∧
      (Tombstones Lists u s (w.afterProjection m, a) ∧ a ≠ w.afterProjection m) ∧
      deleteHistoryAtAmong w H u index now m =
        removeRow w u index (w.afterTombstone a) [(w.afterProjection m, a)] := by
  unfold deleteHistoryAtAmong
  cases hdata : constructTombstone w H u index now m with
  | error err =>
    refine .inl ⟨rfl, .inl rfl, ?_⟩
    rintro s a ⟨hlate, hs, v, e, data, hv, he, hadd, -⟩
    have hok : constructTombstone w H u index now m = .ok data := by
      refine constructTombstone_ok.2 ⟨fun f hf => ?_, s, hs, v, e, hv, he, hadd⟩
      rcases hlate f hf with h | h <;> simp [h]
    rw [hdata] at hok
    cases hok
  | ok data =>
    obtain ⟨hearly, s, hs, v, e, hv, he, hadd⟩ := constructTombstone_ok.1 hdata
    have hunique : ∀ s' a', CommitsTombstone w H u index now m s' a' →
        s' = s ∧ (w.afterProjection m).storeHistoryTombstone u data = .ok a' := by
      rintro s' a' ⟨-, hs', v', e', data', hv', he', hadd', hstore⟩
      obtain rfl := Option.some.inj (hs.symm.trans hs')
      obtain rfl := Except.ok.inj (hv.symm.trans hv')
      obtain rfl := Option.some.inj (he.symm.trans he')
      obtain rfl := Except.ok.inj (hadd.symm.trans hadd')
      exact ⟨rfl, hstore⟩
    dsimp only
    cases hstore : w.attempt .tombstoneWrite ((w.afterProjection m).storeHistoryTombstone u data) with
    | error err =>
      refine .inl ⟨rfl, .inr rfl, fun s' a' hw => ?_⟩
      have hwrite : ∀ f ∈ w.failsAt, f.1 ≠ .tombstoneWrite := by
        intro f hf
        rcases hw.late f hf with h | h <;> simp [h]
      rw [attempt_ok.2 ⟨hwrite, (hunique s' a' hw).2⟩] at hstore
      cases hstore
    | ok a =>
      obtain ⟨hwrite, hstore⟩ := attempt_ok.1 hstore
      refine .inr ⟨s, a, ⟨fun f hf => ?_, hs, v, e, data, hv, he, hadd, hstore⟩, fun s' a' hw => ?_,
        storeHistoryTombstone_tombstones (hH hadd) hstore, ?_⟩
      · obtain ⟨h₁, h₂⟩ := hearly f hf
        have h₃ := hwrite f hf
        revert h₁ h₂ h₃
        cases f.1 <;> simp
      · obtain ⟨rfl, hstore'⟩ := hunique s' a' hw
        exact ⟨rfl, Except.ok.inj (hstore'.symm.trans hstore)⟩
      · dsimp only
        rw [if_pos (hH hadd).any]

variable (u index m) in
/-- The two courses of the transaction of the row: it does not come about, or removes the snapshot at the
index. -/
theorem removeRow_cases (commits : List (Mirror × Mirror))
    (hlate : ∀ f ∈ w.failsAt, f.1 = .rowDelete ∨ f.1 = .renumbering) :
    ((removeRow w u index m commits).commits = commits ∧ (removeRow w u index m commits).mirror = m ∧
      ∀ s, ¬ (w.failsAt = none ∧ m.snapshotAt u index = some s)) ∨
    ∃ row p, w.failsAt = none ∧ m.entries.find? u = some row ∧ row.history[index]? = some p ∧
      (removeRow w u index m commits).mirror =
        m.putEntryRow u { row with history := row.history.eraseIdx index } ∧
      (removeRow w u index m commits).commits =
        commits ++ [(m, (removeRow w u index m commits).mirror)] := by
  unfold removeRow
  cases hrow : w.attempt .rowDelete (w.attempt .renumbering (m.deleteHistoryRow u index)) with
  | error e =>
    refine .inl ⟨rfl, rfl, ?_⟩
    rintro s ⟨hnone, hs⟩
    obtain ⟨row, hfind, hsnap⟩ := Option.bind_eq_some_iff.1 hs
    have hok : m.deleteHistoryRow u index =
        .ok (m.putEntryRow u { row with history := row.history.eraseIdx index }) :=
      deleteHistoryRow_ok.2 ⟨row, hfind, (List.getElem?_eq_some_iff.1 hsnap).1, rfl⟩
    rw [attempt_ok.2 ⟨by simp [hnone], attempt_ok.2 ⟨by simp [hnone], hok⟩⟩] at hrow
    cases hrow
  | ok m' =>
    obtain ⟨hdelete, hrow⟩ := attempt_ok.1 hrow
    obtain ⟨hrenumber, hrow⟩ := attempt_ok.1 hrow
    obtain ⟨row, hfind, hlt, rfl⟩ := deleteHistoryRow_ok.1 hrow
    have hnone : w.failsAt = none := by
      cases hf : w.failsAt with
      | none => rfl
      | some f =>
        rcases hlate f hf with h | h
        · exact absurd h (hdelete f hf)
        · exact absurd h (hrenumber f hf)
    exact .inr ⟨row, row.history[index], hnone, hfind, List.getElem?_eq_getElem hlt, rfl, rfl⟩

/-- A call that got to its tombstone did all or nothing if the snapshot at the index is that of the
tombstone. -/
theorem allOrNothing_iff {s : HistorySnapshot} {a : Mirror} {o : DeleteOutcome}
    (hs : m.snapshotAt u index = some s)
    (ha : Tombstones Lists u s (w.afterProjection m, a) ∧ a ≠ w.afterProjection m)
    {d : Mirror × Mirror} (ho : o.commits = [(w.afterProjection m, a), d]) :
    AllOrNothing Lists m u index o ↔ Removes u s d := by
  constructor
  · rintro (hnothing | ⟨s', c', d', hs', ho', -, hremoves⟩)
    · exact absurd (hnothing _ (ho ▸ List.mem_cons_self ..)) ha.2
    · obtain rfl := Option.some.inj (hs.symm.trans hs')
      obtain ⟨-, hd⟩ := List.cons.inj (ho.symm.trans ho')
      obtain ⟨rfl, -⟩ := List.cons.inj hd
      exact hremoves
  · exact fun h => .inr ⟨s, _, d, hs, ho, ha.1, h⟩

/-- A tombstone alone is neither. -/
theorem not_allOrNothing {o : DeleteOutcome} {c : Mirror × Mirror} (hc : c.2 ≠ c.1)
    (ho : o.commits = [c]) : ¬ AllOrNothing Lists m u index o := by
  rintro (hnothing | ⟨s, c', d, -, ho', -⟩)
  · exact hc (hnothing c (ho ▸ List.mem_cons_self ..))
  · rw [ho] at ho'
    cases ho'

/-- A call that changed something and did all found the snapshot in the history when it removed it. -/
theorem AllOrNothing.found {o : DeleteOutcome} {s : HistorySnapshot}
    (hs : m.snapshotAt u index = some s) (h : AllOrNothing Lists m u index o)
    (hchanged : ∃ c ∈ o.commits, c.2.mutationSeq ≠ c.1.mutationSeq) :
    ∃ c d, o.commits = [c, d] ∧ s ∈ historyOf d.1 u := by
  rcases h with hnothing | ⟨s', c, d, hs', ho, -, row, i, hrow, hi, -⟩
  · obtain ⟨c, hc, hseq⟩ := hchanged
    exact absurd (congrArg Mirror.mutationSeq (hnothing c hc)) hseq
  · obtain rfl := Option.some.inj (hs.symm.trans hs')
    refine ⟨c, d, ho, ?_⟩
    rw [historyOf, hrow]
    exact List.mem_of_getElem? hi

/-- The tombstone list is written to the custom data, and the history stays. -/
theorem storeHistoryTombstone_snapshots {data : List CustomDataItem}
    (h : m.storeHistoryTombstone u data = .ok m') : m'.snapshotAt u index = m.snapshotAt u index := by
  unfold Mirror.storeHistoryTombstone at h
  split at h
  · split at h
    · cases h
    · rename_i row hrow
      obtain rfl := Except.ok.inj h
      rw [Mirror.snapshotAt, (putEntryRow_row m u _).2, Mirror.snapshotAt, hrow, storeTombstones_keeps]
      rfl
  · obtain rfl := Except.ok.inj h
    rfl

/-- A call that does not fail, among connections that leave the snapshot at the index where it is. -/
theorem harmless_of_undisturbed (hfail : w.failsAt = none)
    (hfirst : ∀ a, (w.afterProjection a).snapshotAt u index = a.snapshotAt u index)
    (hsecond : ∀ a, (w.afterTombstone a).snapshotAt u index = a.snapshotAt u index) :
    Harmless w H u index now m := by
  rintro s a ⟨-, hs, v, e, data, -, -, -, hstore⟩
  refine ⟨hfail, ?_⟩
  rw [hsecond, storeHistoryTombstone_snapshots hstore, hfirst, hs]

/-- **Alone, the call is `Mirror.deleteHistoryAt`.** -/
theorem deleteHistoryAtAmong_alone (hH : ListsTombstones H Lists)
    (h : m.deleteHistoryAt H u index now = .ok m') :
    (deleteHistoryAtAmong {} H u index now m).mirror = m' ∧
      (deleteHistoryAtAmong {} H u index now m).result = .ok () := by
  unfold Mirror.deleteHistoryAt at h
  obtain ⟨v, hv, h⟩ := except_bind_ok.1 h
  split at h
  · cases h
  · rename_i e he
    split at h
    · cases h
    · rename_i record hrecord
      obtain ⟨data, hdata, h⟩ := except_bind_ok.1 h
      obtain ⟨m₁, h₁, h⟩ := except_bind_ok.1 h
      have hconstruct : constructTombstone {} H u index now m = .ok data := by
        unfold constructTombstone
        refine except_bind_ok.2 ⟨v, hv, ?_⟩
        rw [he]
        dsimp only
        rw [hrecord]
        exact hdata
      have hstore : m.storeHistoryTombstone u data = .ok m₁ := by
        unfold Mirror.storeHistoryTombstone
        obtain ⟨row, row', hrow, hrow', rfl⟩ := editEntry_ok.1 h₁
        rw [if_pos (hH (serialised_ok.1 hdata)).any, hrow, ← Except.ok.inj hrow']
      have hrow : m₁.deleteHistoryRow u index = .ok m' := by
        obtain ⟨row, row', hfind, hrow', rfl⟩ := editEntry_ok.1 h
        split at hrow'
        · rename_i hlt
          obtain rfl := Except.ok.inj hrow'
          exact deleteHistoryRow_ok.2 ⟨row, hfind, hlt, rfl⟩
        · cases hrow'
      unfold deleteHistoryAtAmong
      rw [hconstruct]
      have hstore' : DeleteSurroundings.attempt {} .tombstoneWrite
          (((id : Mirror → Mirror) m).storeHistoryTombstone u data) = .ok m₁ := hstore
      dsimp only
      rw [hstore']
      have hrow' : DeleteSurroundings.attempt {} .rowDelete (DeleteSurroundings.attempt {} .renumbering
          (((id : Mirror → Mirror) m₁).deleteHistoryRow u index)) = .ok m' := hrow
      dsimp only
      unfold removeRow
      rw [hrow']
      exact ⟨rfl, rfl⟩

end Call

/-! ## Runs -/

/-- An entry with two earlier versions. -/
def versionsMirror : Mirror :=
  { namedRoot with
    entries := ⟨[{ uuid := 9, groupUuid := 1, history := [{ title := "first" }, { title := "second" }] }],
      by decide⟩
    fkGroup := by decide }

/-- Another connection deletes the first version. -/
def firstDeleted (m : Mirror) : Mirror := (m.deleteHistoryRow 9 0).toOption.getD m

end KeysCore.Verify
