import KeysCore.QuotaPrune
import KeysCore.Verify.HistoryRows

/-!
# What a quota prune evicts

`prune_history` is to evict the oldest snapshots: what it keeps is to be the longest run of newest
snapshots within both caps (`NewestFit`). Its walk goes on after a snapshot that does not fit, so an
older, smaller one may be kept over a newer one. `pruneHistory_evictsOldest_iff` says when that does not
happen, in terms of the history and the caps: the items cap is reached, or none of the older snapshots
fits in what the run leaves of the size cap.
-/

namespace KeysCore.Verify

open Lib Lib.Indexed Lib.Greedy QuotaPrune

section Prune

variable {maxItems maxSize : Int} {history : List String} {rows rows' : List (Int × String)}
  {L : QuotaLib} {now : EpochMs} {data data' : List CustomDataRow}

/-- The size of some snapshots together. -/
def totalSize (jsons : List String) : Nat := (jsons.map String.length).sum

@[simp] theorem totalSize_nil : totalSize [] = 0 := rfl

@[simp] theorem totalSize_cons (json : String) (jsons : List String) :
    totalSize (json :: jsons) = json.length + totalSize jsons := by simp [totalSize]

theorem totalSize_reverse (jsons : List String) : totalSize jsons.reverse = totalSize jsons := by
  simp [totalSize, List.sum_reverse]

/-! ## The walk -/

/-- The walk over snapshots that fit together. -/
theorem foldlM_keepRow {jsons : List String} {n t : Nat} (hn : n + jsons.length ≤ itemsCap maxItems)
    (ht : min (t + totalSize jsons) i64Max ≤ sizeCap maxSize) :
    jsons.foldlM (keepRow maxItems maxSize) (n, min t i64Max) =
      some (n + jsons.length, min (t + totalSize jsons) i64Max) := by
  induction jsons generalizing n t with
  | nil => rfl
  | cons json jsons ih =>
    simp only [List.length_cons, totalSize_cons] at hn ht
    have hsum : saturatingAdd (min t i64Max) json.length = min (t + json.length) i64Max := by
      unfold saturatingAdd
      omega
    have hstep : keepRow maxItems maxSize (n, min t i64Max) json =
        some (n + 1, min (t + json.length) i64Max) := by
      simp only [keepRow, hsum]
      rw [if_pos ⟨by omega, by omega⟩]
    rw [List.foldlM_cons, hstep]
    have hrest := ih (n := n + 1) (t := t + json.length) (by omega) (by omega)
    simp only [List.length_cons, totalSize_cons, Option.bind_eq_bind, Option.bind_some, hrest]
    congr 2
    · omega
    · omega

theorem of_foldlM_keepRow {jsons : List String} {n t : Nat} {s : Nat × Nat}
    (hn : n ≤ itemsCap maxItems)
    (h : jsons.foldlM (keepRow maxItems maxSize) (n, min t i64Max) = some s) :
    s = (n + jsons.length, min (t + totalSize jsons) i64Max) ∧
      n + jsons.length ≤ itemsCap maxItems := by
  induction jsons generalizing n t with
  | nil =>
    obtain rfl := Option.some.inj h
    simpa using hn
  | cons json jsons ih =>
    rw [List.foldlM_cons] at h
    obtain ⟨mid, hmid, h⟩ := Option.bind_eq_some_iff.1 h
    have hsum : saturatingAdd (min t i64Max) json.length = min (t + json.length) i64Max := by
      unfold saturatingAdd
      omega
    simp only [keepRow, hsum] at hmid
    split at hmid
    · rename_i hfits
      obtain rfl := Option.some.inj hmid
      obtain ⟨rfl, hlen⟩ := ih (by omega) h
      simp only [List.length_cons, totalSize_cons, Prod.mk.injEq]
      omega
    · cases hmid

/-- A snapshot the walk passes over does not fit beside those kept. -/
theorem keepRow_eq_none_iff {n t : Nat} {json : String} :
    keepRow maxItems maxSize (n, t) json = none ↔
      itemsCap maxItems ≤ n ∨ sizeCap maxSize < saturatingAdd t json.length := by
  simp only [keepRow]
  split
  · simp only [reduceCtorEq, false_iff]
    omega
  · simp only [true_iff]
    omega

/-! ## The longest run of newest snapshots -/

/-- Within both caps; a negative one is off. -/
def Fits (maxItems maxSize : Int) (jsons : List String) : Prop :=
  (0 ≤ maxItems → (jsons.length : Int) ≤ maxItems) ∧ (0 ≤ maxSize → (totalSize jsons : Int) ≤ maxSize)

/-- `kept` is the longest run of newest snapshots of `history` within both caps, `dropped` the older
ones. -/
structure NewestFit (maxItems maxSize : Int) (history dropped kept : List String) : Prop where
  split : history = dropped ++ kept
  fits : Fits maxItems maxSize kept
  longest : ∀ older newer, history = older ++ newer → kept.length < newer.length →
    ¬ Fits maxItems maxSize newer

theorem Fits.size_le (h : Fits maxItems maxSize history) :
    min (totalSize history) i64Max ≤ sizeCap maxSize := by
  have := h.2
  unfold sizeCap
  split <;> omega

/-- The flags of the walk where it keeps the newest snapshots and refuses the others. -/
theorem keep_append {dropped kept : List String} (hkept : kept.length ≤ itemsCap maxItems)
    (hsize : min (totalSize kept) i64Max ≤ sizeCap maxSize)
    (hdropped : ∀ json ∈ dropped, kept.length = itemsCap maxItems ∨
      sizeCap maxSize < saturatingAdd (min (totalSize kept) i64Max) json.length) :
    keep maxItems maxSize (dropped ++ kept) = dropped.map (·, false) ++ kept.map (·, true) := by
  have hrun : kept.reverse.foldlM (keepRow maxItems maxSize) (0, 0) =
      some (kept.length, min (totalSize kept) i64Max) := by
    have hlen : 0 + kept.reverse.length ≤ itemsCap maxItems := by simpa using hkept
    have htotal : min (0 + totalSize kept.reverse) i64Max ≤ sizeCap maxSize := by
      simpa only [totalSize_reverse, Nat.zero_add] using hsize
    simpa only [List.length_reverse, totalSize_reverse, Nat.zero_add, Nat.zero_min] using
      foldlM_keepRow hlen htotal
  have hmarks := marks_append hrun fun json (hj : json ∈ dropped.reverse) =>
    keepRow_eq_none_iff.2 ((hdropped json (List.mem_reverse.1 hj)).imp_left (·.ge))
  rw [keep, List.reverse_append, hmarks]
  simp [List.reverse_append, List.map_reverse]

/-! ## The rows -/

section Rows

variable {dropped kept : List String}

/-- The rows with their flags. -/
theorem zip_flags (dropped kept : List String) :
    (numbered 0 (dropped ++ kept)).zip
        ((dropped.map (·, false) ++ kept.map (·, true)).map Prod.snd) =
      (numbered 0 dropped).map (·, false) ++ (numbered dropped.length kept).map (·, true) := by
  have hflags : (dropped.map (·, false) ++ kept.map (·, true)).map Prod.snd =
      (dropped.map fun _ => false) ++ kept.map fun _ => true := by
    rw [List.map_append, List.map_map, List.map_map]
    rfl
  rw [hflags, numbered_append, List.zip_append (by simp), numbered_zip_const, numbered_zip_const,
    zero_add]

theorem filter_down (dropped kept : List String) :
    ((numbered 0 dropped).map (·, false) ++ (numbered dropped.length kept).map (·, true)).filter
      (fun r => !r.2) = (numbered 0 dropped).map (·, false) := by
  simp [List.filter_append, List.filter_map, Function.comp_def]

theorem filter_up (dropped kept : List String) :
    ((numbered 0 dropped).map (·, false) ++ (numbered dropped.length kept).map (·, true)).filter
      (·.2) = (numbered dropped.length kept).map (·, true) := by
  simp [List.filter_append, List.filter_map, Function.comp_def]

/-- The rows that are left. -/
theorem filter_survivors (hrows : Dense rows (dropped ++ kept)) :
    (rows.filter (·.1 ∉ indices (numbered 0 dropped))).Perm (numbered dropped.length kept) := by
  refine (hrows.filter _).trans (.of_eq ?_)
  have hfront : (numbered 0 dropped).filter (·.1 ∉ indices (numbered 0 dropped)) = [] := by
    rw [List.filter_eq_nil_iff]
    intro r hr
    have hmem : r.1 ∈ indices (numbered 0 dropped) := List.mem_map_of_mem hr
    simp [hmem]
  have hback : (numbered (dropped.length : Int) kept).filter
      (·.1 ∉ indices (numbered 0 dropped)) = numbered dropped.length kept := by
    rw [List.filter_eq_self]
    intro r hr
    have := (le_of_mem_numbered hr).1
    simp only [decide_eq_true_eq, mem_indices_numbered]
    omega
  rw [numbered_append, zero_add, List.filter_append, hfront, hback, List.nil_append]

/-- The survivors can be shifted out of the way when there are no more than the offset. -/
theorem shift_survivors_isSome (hrows : Dense rows (dropped ++ kept)) :
    (shift? HistoryRows.shiftOffset (fun _ => true)
        (rows.filter (·.1 ∉ indices (numbered 0 dropped)))).isSome = true ↔
      (kept.length : Int) ≤ HistoryRows.shiftOffset := by
  have hperm := filter_survivors hrows
  have hidx : (indices (rows.filter (·.1 ∉ indices (numbered 0 dropped)))).Perm
      (indices (numbered dropped.length kept)) := hperm.map _
  rw [shift?_up_isSome_iff (by decide) (hidx.nodup_iff.2 (numbered_nodup _ _))]
  have hmem : ∀ i, i ∈ indices (rows.filter (·.1 ∉ indices (numbered 0 dropped))) ↔
      (dropped.length : Int) ≤ i ∧ i < dropped.length + kept.length := fun i => by
    rw [hidx.mem_iff, mem_indices_numbered]
  have hoffset : HistoryRows.shiftOffset = 1000000000 := rfl
  constructor
  · intro h
    by_contra hlt
    exact h dropped.length ((hmem _).2 (by omega)) ((hmem _).2 (by omega))
  · intro hle i hi hid
    have := (hmem i).1 hi
    have := (hmem _).1 hid
    omega

/-- The survivors can be moved back: no place of theirs is beyond the offset. -/
theorem renumber_survivors_isSome (hrows : Dense rows (dropped ++ kept))
    (hle : (kept.length : Int) ≤ HistoryRows.shiftOffset) {mid : List (Int × String)}
    (hmid : shift? HistoryRows.shiftOffset (fun _ => true)
      (rows.filter (·.1 ∉ indices (numbered 0 dropped))) = some mid) (places : List Int)
    (hplaces : places.length = kept.length) :
    (((numbered 0 places).map Prod.swap).foldlM move? mid).isSome = true := by
  have hidx : (indices (rows.filter (·.1 ∉ indices (numbered 0 dropped)))).Perm
      (indices (numbered dropped.length kept)) := (filter_survivors hrows).map _
  have hup := shift?_eq (hidx.nodup_iff.2 (numbered_nodup _ _)) hmid
  have hhigh : ∀ i ∈ indices mid, HistoryRows.shiftOffset ≤ i := by
    intro i hi
    rw [hup] at hi
    obtain ⟨r, hr, rfl⟩ := List.mem_map.1 hi
    obtain ⟨q, hq, rfl⟩ := List.mem_map.1 hr
    have hq' := mem_indices_numbered.1 (hidx.mem_iff.1 (List.mem_map_of_mem hq))
    simp only [if_true]
    omega
  refine moves_isSome ?_ fun p hp hmem => ?_
  · rw [List.map_map]
    exact numbered_nodup 0 places
  · obtain ⟨q, hq, rfl⟩ := List.mem_map.1 hp
    have hlow := (le_of_mem_numbered hq).2
    have := hhigh _ hmem
    simp only [Prod.snd_swap] at this
    omega

/-- The prune of rows whose flags split them into old ones and new ones, statement by statement. -/
theorem pruneHistory_eq (hrows : Dense rows (dropped ++ kept)) (hne : dropped ≠ [])
    (hkeep : keep maxItems maxSize (dropped ++ kept) = dropped.map (·, false) ++ kept.map (·, true)) :
    pruneHistory L maxItems maxSize now rows data = (do
      let data ← tombstoneQuotaTrimmedSnapshots L now dropped data
      let rows ← unlessTaken (shift? HistoryRows.shiftOffset (fun _ => true)
        (rows.filter (·.1 ∉ indices (numbered 0 dropped))))
      let rows ← unlessTaken (((numbered 0 ((numbered (dropped.length : Int) kept).map
        (·.1 + HistoryRows.shiftOffset))).map Prod.swap).foldlM move? rows)
      return (rows, data)) := by
  have hdelete : ((numbered 0 dropped).map (·, false)).map (·.1.1) = indices (numbered 0 dropped) := by
    simp [indices, Function.comp_def]
  have hdropped : ((numbered 0 dropped).map (·, false)).map (·.1.2) = dropped := by
    rw [List.map_map]
    exact numbered_values 0 dropped
  have hnil : (indices (numbered 0 dropped)).isEmpty = false := by
    cases dropped with
    | nil => exact absurd rfl hne
    | cons json dropped => rfl
  have hplaces : ((numbered (dropped.length : Int) kept).map (·, true)).map
      (·.1.1 + HistoryRows.shiftOffset) =
        (numbered (dropped.length : Int) kept).map (·.1 + HistoryRows.shiftOffset) := by
    rw [List.map_map]
    rfl
  unfold pruneHistory
  simp only [hrows.ordered, numbered_values, hkeep, zip_flags, filter_down, filter_up, hdelete, hdropped,
    hnil, Bool.false_eq_true, if_false, foldl_deleteAt, hplaces]

theorem pruneHistory_ok (hrows : Dense rows (dropped ++ kept)) (hne : dropped ≠ [])
    (hkeep : keep maxItems maxSize (dropped ++ kept) = dropped.map (·, false) ++ kept.map (·, true))
    (hle : (kept.length : Int) ≤ HistoryRows.shiftOffset)
    (hdata : tombstoneQuotaTrimmedSnapshots L now dropped data = .ok data') :
    ∃ rows', pruneHistory L maxItems maxSize now rows data = .ok (rows', data') := by
  obtain ⟨mid, hmid⟩ := Option.isSome_iff_exists.1 ((shift_survivors_isSome hrows).2 hle)
  obtain ⟨rows', hrows'⟩ := Option.isSome_iff_exists.1
    (renumber_survivors_isSome hrows hle hmid
      ((numbered (dropped.length : Int) kept).map (·.1 + HistoryRows.shiftOffset)) (by simp))
  rw [pruneHistory_eq hrows hne hkeep]
  exact ⟨rows', except_bind_ok.2 ⟨data', hdata, except_bind_ok.2 ⟨mid, unlessTaken_ok.2 hmid,
    except_bind_ok.2 ⟨rows', unlessTaken_ok.2 hrows', rfl⟩⟩⟩⟩

theorem pruneHistory_length (hrows : Dense rows (dropped ++ kept)) (hne : dropped ≠ [])
    (hkeep : keep maxItems maxSize (dropped ++ kept) = dropped.map (·, false) ++ kept.map (·, true))
    (h : pruneHistory L maxItems maxSize now rows data = .ok (rows', data')) :
    (kept.length : Int) ≤ HistoryRows.shiftOffset := by
  rw [pruneHistory_eq hrows hne hkeep] at h
  obtain ⟨_, -, h⟩ := except_bind_ok.1 h
  obtain ⟨mid, hmid, -⟩ := except_bind_ok.1 h
  exact (shift_survivors_isSome hrows).1 (Option.isSome_iff_exists.2 ⟨mid, unlessTaken_ok.1 hmid⟩)

end Rows

theorem keep_fst (maxItems maxSize : Int) (history : List String) :
    (keep maxItems maxSize history).map Prod.fst = history := by
  rw [keep, List.map_reverse, marks_fst, List.reverse_reverse]

/-- The snapshots a prune keeps. -/
theorem keep_taken (maxItems maxSize : Int) (history : List String) :
    ((keep maxItems maxSize history).filter (·.2)).map (·.1) =
      (taken (keepRow maxItems maxSize) (0, 0) history.reverse).reverse := by
  simp [keep, taken, List.filter_reverse, List.map_reverse]

/-- **The rows a prune leaves are those the walk takes, densely.** -/
theorem prunedRows_dense (hrows : Dense rows history)
    (h : pruneHistory L maxItems maxSize now rows data = .ok (rows', data')) :
    Dense rows' (taken (keepRow maxItems maxSize) (0, 0) history.reverse).reverse := by
  rw [← keep_taken]
  unfold pruneHistory at h
  simp only [hrows.ordered, numbered_values] at h
  split at h
  · rename_i hempty
    obtain ⟨rfl, -⟩ := Prod.mk.inj (Except.ok.inj h)
    rw [Dense.all_kept (keep_fst maxItems maxSize history) hempty]
    exact hrows
  · obtain ⟨_, -, h⟩ := except_bind_ok.1 h
    obtain ⟨mid, hmid, h⟩ := except_bind_ok.1 h
    obtain ⟨last, hlast, h⟩ := except_bind_ok.1 h
    obtain ⟨rfl, -⟩ := Prod.mk.inj (Except.ok.inj h)
    exact hrows.of_selection (keep_fst maxItems maxSize history) rfl (unlessTaken_ok.1 hmid)
      (unlessTaken_ok.1 hlast)

/-! ## The tombstones -/

/-- What the engine relies on in `add_history_tombstone`: the record goes on the list, those on it stay,
and it returns when the list it is given is readable, leaving a readable one. -/
structure TombstoneLaws (L : QuotaLib) (Lists : String → EntryVersion → Prop)
    (Readable : List CustomDataItem → Prop) : Prop where
  adds : ∀ {items record r t items'},
    L.addHistoryTombstone items record r t = .ok items' → Listed Lists items' record
  keeps : ∀ {items record r t items' other}, L.addHistoryTombstone items record r t = .ok items' →
    Listed Lists items other → Listed Lists items' other
  returns : ∀ {items} record r t, Readable items →
    ∃ items', L.addHistoryTombstone items record r t = .ok items' ∧ Readable items'

section Tombstones

variable {Lists : String → EntryVersion → Prop} {Readable : List CustomDataItem → Prop}
  (hL : TombstoneLaws L Lists Readable)

include hL

/-- The step of the loop over the dropped texts. -/
theorem tombstones_ok (now : EpochMs) (jsons : List String) {items : List CustomDataItem}
    (hitems : Readable items) :
    ∃ items', jsons.foldlM (tombstoneDropped L now) items = .ok items' ∧
      (∀ other, Listed Lists items other → Listed Lists items' other) ∧
      ∀ json ∈ jsons, ∀ record, L.snapshotJsonToEntry json = some record →
        Listed Lists items' record := by
  induction jsons generalizing items with
  | nil => exact ⟨items, rfl, fun _ h => h, by simp⟩
  | cons json jsons ih =>
    cases hrecord : L.snapshotJsonToEntry json with
    | none =>
      obtain ⟨items', h, hkeep, hlist⟩ := ih hitems
      refine ⟨items', ?_, hkeep, List.forall_mem_cons.2 ⟨by simp [hrecord], hlist⟩⟩
      have hstep : tombstoneDropped L now items json = .ok items := by simp [tombstoneDropped, hrecord]
      rw [List.foldlM_cons, hstep]
      exact h
    | some record =>
      obtain ⟨mid, hmid, hread⟩ := hL.returns record .quotaTrim now.toDateTime hitems
      obtain ⟨items', h, hkeep, hlist⟩ := ih hread
      refine ⟨items', ?_, fun other ho => hkeep other (hL.keeps hmid ho),
        List.forall_mem_cons.2 ⟨?_, hlist⟩⟩
      · have hstep : tombstoneDropped L now items json = .ok mid := by
          simpa [tombstoneDropped, hrecord] using serialised_ok.2 hmid
        rw [List.foldlM_cons, hstep]
        exact h
      · intro other ho
        rw [hrecord, Option.some.injEq] at ho
        exact hkeep _ (ho ▸ hL.adds hmid)

/-- **Every dropped snapshot that can be rebuilt is on the list that is stored.** -/
theorem tombstoneQuotaTrimmedSnapshots_lists (now : EpochMs) (jsons : List String)
    (hread : Readable (tombstoneCarrier data)) :
    ∃ data', tombstoneQuotaTrimmedSnapshots L now jsons data = .ok data' ∧
      ∀ json ∈ jsons, ∀ record, L.snapshotJsonToEntry json = some record →
        ∃ r ∈ data', r.key = tombstoneCustomDataKey ∧ Lists r.value record := by
  obtain ⟨items, h, -, hlist⟩ := tombstones_ok hL now jsons hread
  unfold tombstoneQuotaTrimmedSnapshots
  rw [h]
  cases hitem : items.find? (·.key = tombstoneCustomDataKey) with
  | none =>
    refine ⟨data, by simp [bind, Except.bind, hitem, pure, Except.pure], fun json hj record hr => ?_⟩
    obtain ⟨item, hfound, -⟩ := hlist json hj record hr
    simp [hitem] at hfound
  | some item =>
    refine ⟨replaceCustomData data item.toRow,
      by simp [bind, Except.bind, hitem, pure, Except.pure], fun json hj record hr => ?_⟩
    obtain ⟨found, hfound, hlists⟩ := hlist json hj record hr
    rw [hitem, Option.some.injEq] at hfound
    subst hfound
    refine ⟨item.toRow, List.mem_append_right _ (List.mem_singleton.2 rfl), ?_, hlists⟩
    simpa [CustomDataItem.toRow] using List.find?_some hitem

end Tombstones

/-! ## The walk on snapshots -/

/-- **The walk on the texts is the walk on the snapshots they encode**, while neither the number of
snapshots nor their total size leaves its integer type. -/
theorem keep_eq_budgeted {H : HistoryLib} {s : Settings} {encode : HistorySnapshot → String}
    (hsize : ∀ x, (encode x).length = H.snapshotSize x) {snaps : List HistorySnapshot}
    (hlen : snaps.length ≤ i32Max) (htotal : totalSize (snaps.map encode) ≤ i64Max) :
    keep s.historyMaxItems s.historyMaxSize (snaps.map encode) =
      (EntryRow.budgeted H s snaps).map fun r => (encode r.1, r.2) := by
  have hwalk : ∀ (l : List HistorySnapshot) (n t : Nat), n + l.length ≤ i32Max →
      t + totalSize (l.map encode) ≤ i64Max →
      marks (keepRow s.historyMaxItems s.historyMaxSize) (n, t) (l.map encode) =
        (EntryRow.keepNewest H.snapshotSize (EntryRow.budget s.historyMaxItems)
          (EntryRow.budget s.historyMaxSize) n t l).map fun r => (encode r.1, r.2) := by
    intro l
    induction l with
    | nil => intro n t _ _; rfl
    | cons x l ih =>
      intro n t hn ht
      simp only [List.length_cons, List.map_cons, totalSize_cons, hsize] at hn ht
      have hsum : saturatingAdd t (encode x).length = t + H.snapshotSize x := by
        rw [hsize, saturatingAdd]
        omega
      have hitems : (∀ c ∈ EntryRow.budget s.historyMaxItems, n < c) ↔
          n < itemsCap s.historyMaxItems := by
        unfold EntryRow.budget itemsCap
        split
        · simp
          omega
        · simp
      have hcap : (∀ c ∈ EntryRow.budget s.historyMaxSize, t + H.snapshotSize x ≤ c) ↔
          t + H.snapshotSize x ≤ sizeCap s.historyMaxSize := by
        unfold EntryRow.budget sizeCap
        split
        · simp
          omega
        · simp
      have hcond := and_congr hitems hcap
      unfold EntryRow.keepNewest
      by_cases hfits : n < itemsCap s.historyMaxItems ∧
          t + H.snapshotSize x ≤ sizeCap s.historyMaxSize
      · have hstep : keepRow s.historyMaxItems s.historyMaxSize (n, t) (encode x) =
            some (n + 1, t + H.snapshotSize x) := by
          simp only [keepRow, hsum, if_pos hfits]
        rw [List.map_cons, marks_cons_some hstep, if_pos (hcond.2 hfits), List.map_cons,
          ih _ _ (by omega) (by omega)]
      · have hstep : keepRow s.historyMaxItems s.historyMaxSize (n, t) (encode x) = none := by
          simp only [keepRow, hsum, if_neg hfits]
        rw [List.map_cons, marks_cons_none hstep, if_neg (hfits ∘ hcond.1), List.map_cons,
          ih _ _ (by omega) (by omega)]
  have hrev := hwalk snaps.reverse 0 0 (by simpa using hlen)
    (by simpa [List.map_reverse, totalSize_reverse] using htotal)
  rw [keep, EntryRow.budgeted, ← List.map_reverse, hrev, List.map_reverse]

/-! ## When the oldest are evicted -/

/-- The prune keeps the longest run of newest snapshots within both caps, under the indices from zero on
in order, and tombstones every snapshot it drops that can be rebuilt. -/
def EvictsOldest (L : QuotaLib) (Lists : String → EntryVersion → Prop) (maxItems maxSize : Int)
    (now : EpochMs) (history : List String) (rows : List (Int × String)) (data : List CustomDataRow) :
    Prop :=
  ∃ dropped kept rows' data', NewestFit maxItems maxSize history dropped kept ∧
    pruneHistory L maxItems maxSize now rows data = .ok (rows', data') ∧ Dense rows' kept ∧
    ∀ json ∈ dropped, ∀ record, L.snapshotJsonToEntry json = some record →
      ∃ r ∈ data', r.key = tombstoneCustomDataKey ∧ Lists r.value record

/-- Past the longest run of newest snapshots within both caps there is nothing, or the run is as long as
the items cap, or no older snapshot fits in what the run leaves of the size cap. The items cap that is
off counts as the largest `i32`, and a run longer than the offset cannot be renumbered. -/
def NothingOlderFits (maxItems maxSize : Int) (history : List String) : Prop :=
  ∃ dropped kept, NewestFit maxItems maxSize history dropped kept ∧
    kept.length ≤ itemsCap maxItems ∧
    (dropped = [] ∨ (kept.length : Int) ≤ HistoryRows.shiftOffset ∧
      (kept.length = itemsCap maxItems ∨ ∀ json ∈ dropped,
        sizeCap maxSize < saturatingAdd (min (totalSize kept) i64Max) json.length))

/-- Rows are dense for one list only. -/
theorem dense_unique {l l' : List String} (h : Dense rows l) (h' : Dense rows l') : l = l' := by
  have heq : numbered 0 l = numbered 0 l' := by rw [← h.ordered, h'.ordered]
  rw [← numbered_values 0 l, heq, numbered_values]

/-- Nothing over budget: the prune returns at once. -/
theorem pruneHistory_all (hrows : Dense rows history)
    (hkeep : keep maxItems maxSize history = history.map (·, true)) :
    pruneHistory L maxItems maxSize now rows data = .ok (rows, data) := by
  have hflags : (history.map (·, true)).map (·.2) = history.map fun _ => true := by
    rw [List.map_map]
    rfl
  have hnone : ((numbered 0 history).map (·, true)).filter (fun r => !r.2) = [] := by
    simp [List.filter_map, Function.comp_def]
  unfold pruneHistory
  simp only [hrows.ordered, numbered_values, hkeep, hflags, numbered_zip_const, hnone, List.map_nil,
    List.isEmpty_nil, if_true]
  rfl

/-- **When a quota prune evicts the oldest first.** The rows of a history under dense indices, any caps:
the prune keeps the longest run of newest snapshots within both caps, renumbers it, and tombstones what
it drops, if and only if no older snapshot fits in what that run leaves. -/
theorem pruneHistory_evictsOldest_iff {Lists : String → EntryVersion → Prop}
    {Readable : List CustomDataItem → Prop} (hL : TombstoneLaws L Lists Readable)
    (hread : Readable (tombstoneCarrier data)) (hrows : Dense rows history) :
    EvictsOldest L Lists maxItems maxSize now history rows data ↔
      NothingOlderFits maxItems maxSize history := by
  constructor
  · rintro ⟨dropped, kept, rows', data', hfit, h, hdense, -⟩
    -- what the walk takes is `kept`, a prefix of the history read backwards
    have htaken := dense_unique hdense (prunedRows_dense hrows h)
    have hprefix : taken (keepRow maxItems maxSize) (0, 0) history.reverse <+: history.reverse := by
      have hrev := congrArg List.reverse htaken
      rw [List.reverse_reverse] at hrev
      rw [← hrev, hfit.split, List.reverse_append]
      exact List.prefix_append _ _
    obtain ⟨run, rest, s, hsplit, hrun, hrest⟩ := taken_isPrefix_iff.1 hprefix
    rw [hsplit, taken_append hrun hrest] at htaken
    subst htaken
    have hdropped : rest = dropped.reverse := by
      have := hfit.split
      rw [← List.reverse_reverse history, hsplit, List.reverse_append] at this
      rw [← List.append_cancel_right this, List.reverse_reverse]
    subst hdropped
    obtain ⟨rfl, hlen⟩ := of_foldlM_keepRow (t := 0) (Nat.zero_le _) hrun
    simp only [Nat.zero_add] at hlen hrest
    refine ⟨dropped, run.reverse, hfit, by simpa using hlen, ?_⟩
    by_cases hne : dropped = []
    · exact .inl hne
    · have hrefused : run.reverse.length = itemsCap maxItems ∨ ∀ json ∈ dropped, sizeCap maxSize <
          saturatingAdd (min (totalSize run.reverse) i64Max) json.length := by
        rw [List.length_reverse, totalSize_reverse]
        by_cases hfull : run.length = itemsCap maxItems
        · exact .inl hfull
        · refine .inr fun json hj => ?_
          have := keepRow_eq_none_iff.1 (hrest json (List.mem_reverse.2 hj))
          omega
      have hkeep := keep_append (by simpa using hlen) hfit.fits.size_le
        fun json (hj : json ∈ dropped) => hrefused.imp_right fun h => h json hj
      rw [hfit.split] at hrows
      exact .inr ⟨pruneHistory_length hrows hne hkeep h, hrefused⟩
  · rintro ⟨dropped, kept, hfit, hlen, hcase⟩
    have hrefused : ∀ json ∈ dropped, kept.length = itemsCap maxItems ∨
        sizeCap maxSize < saturatingAdd (min (totalSize kept) i64Max) json.length := by
      intro json hj
      rcases hcase with rfl | ⟨-, hfull | hsize⟩
      · cases hj
      · exact .inl hfull
      · exact .inr (hsize json hj)
    have hkeep := keep_append hlen hfit.fits.size_le hrefused
    rw [hfit.split] at hrows
    rcases hcase with rfl | ⟨hoffset, -⟩
    · simp only [List.map_nil, List.nil_append] at hkeep hrows
      exact ⟨[], kept, rows, data, hfit, pruneHistory_all hrows hkeep, hrows, by simp⟩
    · by_cases hne : dropped = []
      · subst hne
        simp only [List.map_nil, List.nil_append] at hkeep hrows
        exact ⟨[], kept, rows, data, hfit, pruneHistory_all hrows hkeep, hrows, by simp⟩
      · obtain ⟨data', hdata, hlist⟩ :=
          tombstoneQuotaTrimmedSnapshots_lists hL now dropped hread
        obtain ⟨rows', h⟩ := pruneHistory_ok hrows hne hkeep hoffset hdata
        refine ⟨dropped, kept, rows', data', hfit, h, ?_, hlist⟩
        have hdense := prunedRows_dense hrows h
        rw [← keep_taken, hkeep] at hdense
        simpa [List.filter_append, List.filter_map, Function.comp_def] using hdense

end Prune

/-! ## Two histories -/

/-- A text is a snapshot of that title, and the tombstone list is the titles on it. -/
def titleLib : QuotaLib where
  snapshotJsonToEntry json := if json = "" then none else some { id := 1, title := json }
  addHistoryTombstone := titleHistory.addHistoryTombstone

theorem titleLib_laws : TombstoneLaws titleLib TitleListed fun _ => True where
  adds {items record r t items'} h := @titleHistory_lists items record r t items' h
  keeps := by
    rintro items record r t items' other h ⟨item, hitem, hlists⟩
    obtain rfl := Except.ok.inj h
    refine ⟨_, List.find?_cons_of_pos (by simp), ?_⟩
    simp only [tombstoneText, hitem, Option.map_some, Option.getD_some, TitleListed,
      String.toList_append]
    unfold TitleListed at hlists
    rw [String.toList_append] at hlists
    exact hlists.trans (List.prefix_append _ _).isInfix
  returns := fun _ _ _ _ => ⟨_, rfl, trivial⟩

/-- With room for two snapshots the oldest of three goes. -/
theorem evictsOldest_two :
    EvictsOldest titleLib TitleListed 2 (-1) default ["first", "second", "third"]
      (numbered 0 ["first", "second", "third"]) [] := by
  have hfit : NewestFit 2 (-1) ["first", "second", "third"] ["first"] ["second", "third"] := by
    refine ⟨rfl, ⟨fun _ => le_rfl, fun h => absurd h (by decide)⟩, ?_⟩
    rintro older newer - hlen ⟨hitems, -⟩
    have hcap := hitems (by decide)
    simp only [List.length_cons, List.length_nil] at hlen
    omega
  exact (pruneHistory_evictsOldest_iff titleLib_laws trivial (.refl _)).2
    ⟨["first"], ["second", "third"], hfit, by decide, .inr ⟨by decide, .inl (by decide)⟩⟩

/-- A large snapshot between two small ones: the older small one stays. -/
theorem larger_evicted_first :
    (pruneHistory titleLib (-1) 4 default (numbered 0 ["a", "rotated", "b"]) []).toOption.map (·.1) =
        some [(0, "a"), (1, "b")] ∧
      ¬ EvictsOldest titleLib TitleListed (-1) 4 default ["a", "rotated", "b"]
        (numbered 0 ["a", "rotated", "b"]) [] := by
  have hrun : (pruneHistory titleLib (-1) 4 default (numbered 0 ["a", "rotated", "b"]) []).toOption.map
      (·.1) = some [(0, "a"), (1, "b")] := by decide +kernel
  refine ⟨hrun, ?_⟩
  rintro ⟨dropped, kept, rows', data', hfit, h, hdense, -⟩
  rw [h] at hrun
  simp only [Except.toOption, Option.map_some, Option.some.injEq] at hrun
  obtain rfl : kept = ["a", "b"] := dense_unique hdense (hrun ▸ .refl _)
  have hlen : dropped.length = 1 := by simpa using (congrArg List.length hfit.split).symm
  obtain ⟨json, rfl⟩ := List.length_eq_one_iff.1 hlen
  simpa using hfit.split

end KeysCore.Verify
