import KeysCore.Verify.HistoryRows

/-!
# Archives return

An archive appends a record and trims the history to the budgets, with a tombstone for each record it
drops. The newest record stays when the budgets keep one such (`keptHistory_newest`), and the whole
returns when the tombstone list of the entry can be read (`archive_returns`, `restoreFrom_returns`).
-/

namespace KeysCore

/-- The budgets of a vault keep a snapshot that is the newest. -/
def HistoryLib.KeepsNewest (H : HistoryLib) (s : Settings) (snap : HistorySnapshot) : Prop :=
  (∀ c ∈ EntryRow.budget s.historyMaxItems, 0 < c) ∧
    ∀ c ∈ EntryRow.budget s.historyMaxSize, H.snapshotSize snap ≤ c

/-- `add_history_tombstone` reads the text of the list it is given. It returns when it can, and leaves a
list it can read. -/
def HistoryLib.Returns (H : HistoryLib) (Readable : Option String → Prop) : Prop :=
  ∀ items v reason t, Readable (KeysCore.tombstoneText items) →
    ∃ items', H.addHistoryTombstone items v reason t = .ok items' ∧
      Readable (KeysCore.tombstoneText items')

end KeysCore

namespace KeysCore.Verify

open Lib

/-! ## The newest record -/

theorem keptHistory_newest {H : HistoryLib} {s : Settings} {snap : HistorySnapshot}
    (hfits : H.KeepsNewest s snap) (history : List HistorySnapshot) :
    (keptHistory H s (history ++ [snap])).getLast? = some snap := by
  have hfirst : (∀ c ∈ EntryRow.budget s.historyMaxItems, 0 < c) ∧
      ∀ c ∈ EntryRow.budget s.historyMaxSize, 0 + H.snapshotSize snap ≤ c := by
    exact ⟨hfits.1, fun c hc => by simpa using hfits.2 c hc⟩
  unfold keptHistory EntryRow.budgeted
  rw [List.reverse_append, List.reverse_singleton, List.singleton_append, EntryRow.keepNewest,
    if_pos hfirst, List.reverse_cons, List.filter_append, List.map_append]
  simp

theorem trimmedHistory_newest {maxItems : Int} (hcap : ∀ c ∈ EntryRow.budget maxItems, 0 < c)
    (history : List HistorySnapshot) (snap : HistorySnapshot) :
    (trimmedHistory maxItems (history ++ [snap])).getLast? = some snap := by
  unfold trimmedHistory
  cases hbudget : EntryRow.budget maxItems with
  | none => simp
  | some cap =>
    have hcap := hcap cap hbudget
    have hlen : (history ++ [snap]).length - cap ≤ history.length := by
      rw [List.length_append, List.length_singleton]
      omega
    dsimp only
    rw [List.drop_append_of_le_length hlen]
    simp

/-! ## Tombstones of trimmed records -/

section Returns

variable {H : HistoryLib} {Readable : Option String → Prop} {r : EntryRow} {s : Settings}

/-- **The tombstones of trimmed records are written.** -/
theorem tombstoneTrimmed_returns (hH : H.Returns Readable) (hr : Readable r.tombstoneText)
    (now : EpochMs) (dropped : List HistorySnapshot) :
    ∃ r', r.tombstoneTrimmed H now dropped = .ok r' ∧ Readable r'.tombstoneText := by
  have hstep : ∀ (snap : HistorySnapshot) (_ : List HistorySnapshot) items,
      Readable (tombstoneText items) →
        ∃ items', (fun data (s : HistorySnapshot) => serialised (H.addHistoryTombstone data
          (s.toVersion r.uuid) .quotaTrim now.toDateTime)) items snap = .ok items' ∧
            Readable (tombstoneText items') := by
    intro snap _ items hitems
    obtain ⟨items', hok, hread⟩ := hH items (snap.toVersion r.uuid) .quotaTrim now.toDateTime hitems
    exact ⟨items', serialised_ok.2 hok, hread⟩
  have hcarrier : tombstoneText ((r.customData.filter (·.key = tombstoneCustomDataKey)).map
      fun c => ⟨c.key, c.value, none⟩) = r.tombstoneText := by
    unfold tombstoneText EntryRow.tombstoneText
    rw [List.find?_map, List.find?_filter, Option.map_map]
    simp [Function.comp_def]
  obtain ⟨data, hdata, hread⟩ := foldlM_ok (fun _ items => Readable (tombstoneText items)) hstep
    (l := dropped) (by rwa [hcarrier])
  refine ⟨_, except_bind_ok.2 ⟨data, hdata, rfl⟩, ?_⟩
  rw [storeTombstones_text]
  cases htext : tombstoneText data with
  | none => exact hr
  | some text =>
    rw [htext] at hread
    exact hread

/-- **An archive returns.** -/
theorem archive_returns (hH : H.Returns Readable) (hr : Readable r.tombstoneText) (s : Settings)
    (now : EpochMs) (snap : HistorySnapshot) :
    ∃ r', r.archive H s now snap = .ok r' ∧ Readable r'.tombstoneText := by
  unfold EntryRow.archive EntryRow.pruneHistory
  dsimp only
  split
  · exact ⟨_, rfl, hr⟩
  · obtain ⟨r', hr', hread⟩ := tombstoneTrimmed_returns hH
      (r := { r with history := r.history ++ [snap] }) hr now
      (((EntryRow.budgeted H s (r.history ++ [snap])).filter fun x => !x.2).map (·.1))
    exact ⟨_, except_bind_ok.2 ⟨r', hr', rfl⟩, hread⟩

theorem keptHistory_sublist (H : HistoryLib) (s : Settings) (history : List HistorySnapshot) :
    (keptHistory H s history).Sublist history := by
  have h := (List.filter_sublist (p := fun x : HistorySnapshot × Bool => x.2)
    (l := EntryRow.budgeted H s history)).map Prod.fst
  rwa [budgeted_fst] at h

/-- **What an archive leaves**: the row, but for its custom data and a history of the records there were
and the new one. -/
theorem archive_row (hH : H.Returns Readable) (hr : Readable r.tombstoneText) (s : Settings)
    (now : EpochMs) (snap : HistorySnapshot) :
    ∃ history customData, r.archive H s now snap = .ok { r with history, customData } ∧
      Readable (EntryRow.tombstoneText { r with customData }) ∧
      ∀ x ∈ history, x ∈ r.history ∨ x = snap := by
  obtain ⟨r', hr', hread⟩ := archive_returns hH hr s now snap
  have hkeep := archive_keeps hr'
  refine ⟨r'.history, r'.customData, hkeep ▸ hr', ?_, fun x hx => ?_⟩
  · exact hread
  · rw [archive_history hr'] at hx
    simpa using (keptHistory_sublist H s _).subset hx

theorem restoreFrom_returns (hH : H.Returns Readable) (hr : Readable r.tombstoneText)
    (maxItems : Int) (now : EpochMs) (snap : HistorySnapshot) :
    ∃ r', r.restoreFrom H maxItems now snap = .ok r' ∧ Readable r'.tombstoneText := by
  unfold EntryRow.restoreFrom
  cases EntryRow.budget maxItems with
  | none => exact ⟨_, rfl, hr⟩
  | some cap =>
    dsimp only
    split
    · exact ⟨_, rfl, hr⟩
    · obtain ⟨r', hr', hread⟩ := tombstoneTrimmed_returns hH
        (r := { r.restored snap now with history := r.history ++ [r.liveSnapshot] }) hr now
        ((r.history ++ [r.liveSnapshot]).take ((r.history ++ [r.liveSnapshot]).length - cap))
      exact ⟨_, except_bind_ok.2 ⟨r', hr', rfl⟩, hread⟩

end Returns

end KeysCore.Verify
