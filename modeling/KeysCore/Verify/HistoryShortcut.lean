import KeysCore.Pools
import KeysCore.Verify.MergeStamps
import Mathlib.Data.Multiset.Basic

/-!
# The early return of the history fold

`fold_entry_history_into_mirror` returns early on two histories that are equally long and in which each
record has a twin on the other side. A history is compared through its records: the second and the
content of each, the order within the content forgotten (`RecordKey`). The test says that the two lists
of records have the same length and the same members (`historiesIdentical_iff`), which leaves their
multiplicities open: `converged_agrees_iff`, the fold would have changed nothing and the two sides hold
the same records exactly when no record of the base is repeated.
-/

namespace KeysCore

/-! ## Records -/

/-- What a history record is told apart by: its second and its content. -/
structure RecordKey where
  second : Option DateTime
  fields : List String
  customFields : Multiset CustomField
  tags : Multiset String
  attachments : Multiset Attachment
deriving DecidableEq

def EntryVersion.record (v : EntryVersion) : RecordKey where
  second := v.times.lastModificationTime.map (·.floorToSecond)
  fields := [v.title, v.username, v.password, v.url, v.notes]
  customFields := v.customFields
  tags := v.tags
  attachments := v.attachments

/-- The records of a history, oldest first. -/
def Entry.records (e : Entry) : List RecordKey := e.history.map (·.record)

def RefEntry.records (pool : List Binary) (e : RefEntry) : List RecordKey :=
  e.history.map fun v => (v.inlined pool).record

end KeysCore

namespace KeysCore.Verify

open Lib

theorem records_inlined (pool : List Binary) (e : RefEntry) :
    (e.inlined pool).records = e.records pool := by
  unfold Entry.records RefEntry.records RefEntry.inlined
  rw [List.map_map]
  rfl

theorem sameContent_iff {x y : EntryVersion} :
    sameContent x y = true ↔
      sameVersion x y = true ∧ x.attachments.Perm y.attachments := by
  simp only [sameContent, Bool.and_eq_true, List.isPerm_iff]

/-- Twins are the versions with one record. -/
theorem record_eq_iff {x y : EntryVersion} :
    x.record = y.record ↔
      x.times.lastModificationTime.map (·.floorToSecond) =
        y.times.lastModificationTime.map (·.floorToSecond) ∧ sameContent x y = true := by
  rw [sameContent_iff, sameVersion_iff]
  simp only [EntryVersion.record, RecordKey.mk.injEq, List.cons.injEq, Multiset.coe_eq_coe, and_true,
    and_assoc]

theorem historiesIdentical_records {a b : Entry} :
    historiesIdentical a b = true ↔
      a.records.length = b.records.length ∧ a.records ⊆ b.records ∧ b.records ⊆ a.records := by
  have twin (x : EntryVersion) (side : Entry) :
      (side.history.any fun y => x.times.lastModificationTime.map (·.floorToSecond) =
        y.times.lastModificationTime.map (·.floorToSecond) && sameContent x y) = true ↔
        x.record ∈ side.records := by
    simp only [List.any_eq_true, Bool.and_eq_true, decide_eq_true_eq, ← record_eq_iff, Entry.records,
      List.mem_map, @eq_comm _ _ x.record]
  have all (a b : Entry) : (∀ x ∈ a.history, x.record ∈ b.records) ↔ a.records ⊆ b.records :=
    List.forall_mem_map.symm
  simp only [historiesIdentical, Bool.and_eq_true, decide_eq_true_eq, List.all_eq_true, twin, all,
    and_assoc]
  simp only [Entry.records, List.length_map]

/-! ## Pools -/

theorem bound_isSome {pool : List Binary} {a : AttachmentRef} :
    (a.bound pool).isSome ↔ a.refId < pool.length := by
  simp [AttachmentRef.bound]

/-- The attachments of a version resolve when no reference dangles, and then none is skipped. -/
theorem bound?_eq {pool : List Binary} (v : RefVersion) (x : List Attachment) :
    v.bound? pool = some x ↔ v.Resolves pool ∧ (v.inlined pool).attachments = x := by
  unfold RefVersion.bound? RefVersion.Resolves RefVersion.inlined
  induction v.attachments generalizing x with
  | nil => simp
  | cons a as ih =>
    cases ha : a.bound pool with
    | none =>
      have : ¬a.refId < pool.length := fun h => by
        have := bound_isSome.2 h
        rw [ha] at this
        cases this
      simp [List.mapM_cons, ha, this]
    | some b =>
      have : a.refId < pool.length := bound_isSome.1 (by rw [ha]; rfl)
      simp only [List.mapM_cons, ha, Option.pure_def, Option.bind_eq_bind, Option.bind_some,
        Option.bind_eq_some_iff, Option.some.injEq, List.mem_cons, forall_eq_or_imp, this, true_and,
        List.filterMap_cons_some ha]
      constructor
      · rintro ⟨y, hy, rfl⟩
        obtain ⟨hr, rfl⟩ := (ih y).1 hy
        exact ⟨hr, rfl⟩
      · rintro ⟨hr, rfl⟩
        exact ⟨_, (ih _).2 ⟨hr, rfl⟩, rfl⟩

/-- **Comparing by reference is comparing what the references are bound to**, and nothing is equal to
a version with a dangling reference. -/
theorem sameContent_inlined {p q : List Binary} {x y : RefVersion} :
    InPool.sameContent (x, p) (y, q) = true ↔
      (x.Resolves p ∧ y.Resolves q) ∧ sameContent (x.inlined p) (y.inlined q) = true := by
  have version : sameVersion (x.inlined p) (y.inlined q) = sameVersion x.facets y.facets := rfl
  rw [sameContent_iff, version]
  unfold InPool.sameContent
  dsimp only
  cases hx : x.bound? p with
  | none =>
    have : ¬x.Resolves p := fun h => by
      rw [(bound?_eq x _).2 ⟨h, rfl⟩] at hx
      cases hx
    simp [this]
  | some ax =>
    obtain ⟨hrx, rfl⟩ := (bound?_eq x ax).1 hx
    cases hy : y.bound? q with
    | none =>
      have : ¬y.Resolves q := fun h => by
        rw [(bound?_eq y _).2 ⟨h, rfl⟩] at hy
        cases hy
      simp [this]
    | some ay =>
      obtain ⟨hry, rfl⟩ := (bound?_eq y ay).1 hy
      simp [hrx, hry, List.isPerm_iff]

theorem hasTwin_iff {p q : List Binary} {x : RefVersion} {e : RefEntry} :
    InPool.hasTwin (x, p) (e, q) = true ↔
      ∃ y ∈ e.history, (x.Resolves p ∧ y.Resolves q) ∧
        (x.inlined p).record = (y.inlined q).record := by
  simp only [InPool.hasTwin, List.any_eq_true, Bool.and_eq_true, decide_eq_true_eq,
    sameContent_inlined, record_eq_iff]
  refine exists_congr fun y => and_congr_right fun _ => ?_
  exact and_left_comm

/-- The early return compares lengths and members. -/
theorem historiesIdentical_iff {a b : RefEntry} {p q : List Binary} :
    InPool.historiesIdentical (a, p) (b, q) = true ↔
      (a.Resolves p ∧ b.Resolves q) ∧ a.history.length = b.history.length ∧
        a.records p ⊆ b.records q ∧ b.records q ⊆ a.records p := by
  unfold InPool.historiesIdentical
  simp only [Bool.and_eq_true, decide_eq_true_eq, List.all_eq_true, hasTwin_iff, and_assoc]
  constructor
  · rintro ⟨hlen, hab, hba⟩
    refine ⟨fun x hx => ?_, fun y hy => ?_, hlen, ?_, ?_⟩
    · obtain ⟨_, -, hr, -⟩ := hab x hx
      exact hr
    · obtain ⟨_, -, hr, -⟩ := hba y hy
      exact hr
    · refine List.forall_mem_map.2 fun x hx => ?_
      obtain ⟨y, hy, -, -, heq⟩ := hab x hx
      exact List.mem_map.2 ⟨y, hy, heq.symm⟩
    · refine List.forall_mem_map.2 fun y hy => ?_
      obtain ⟨x, hx, -, -, heq⟩ := hba y hy
      exact List.mem_map.2 ⟨x, hx, heq.symm⟩
  · rintro ⟨ha, hb, hlen, hab, hba⟩
    refine ⟨hlen, fun x hx => ?_, fun y hy => ?_⟩
    · obtain ⟨y, hy, heq⟩ := List.mem_map.1 (List.forall_mem_map.1 hab x hx)
      exact ⟨y, hy, ha x hx, hb y hy, heq.symm⟩
    · obtain ⟨x, hx, heq⟩ := List.mem_map.1 (List.forall_mem_map.1 hba y hy)
      exact ⟨x, hx, hb y hy, ha x hx, heq.symm⟩

/-- The comparison by reference against the one on inlined entries. -/
theorem historiesIdentical_inlined {a b : RefEntry} {p q : List Binary} :
    InPool.historiesIdentical (a, p) (b, q) = true ↔
      (a.Resolves p ∧ b.Resolves q) ∧
        historiesIdentical (a.inlined p) (b.inlined q) = true := by
  rw [historiesIdentical_iff, historiesIdentical_records, records_inlined, records_inlined]
  simp only [RefEntry.records, List.length_map]

/-- A pool that grew at its end binds what resolved before as before. -/
theorem inlined_of_grown {p q : List Binary} (h : p <+: q) {v : RefVersion} (hv : v.Resolves p) :
    v.inlined q = v.inlined p := by
  obtain ⟨t, rfl⟩ := h
  have hbound : ∀ a ∈ v.attachments, a.bound (p ++ t) = a.bound p := by
    intro a ha
    unfold AttachmentRef.bound
    rw [List.getElem?_append_left (hv a ha)]
  unfold RefVersion.inlined
  rw [List.filterMap_congr hbound]

theorem resolves_of_grown {p q : List Binary} (h : p <+: q) {v : RefVersion} (hv : v.Resolves p) :
    v.Resolves q :=
  fun a ha => lt_of_lt_of_le (hv a ha) h.length_le

theorem records_of_grown {p q : List Binary} (h : p <+: q) {e : RefEntry} (he : e.Resolves p) :
    e.records q = e.records p :=
  List.map_congr_left fun v hv => by rw [inlined_of_grown h (he v hv)]

/-- The pass's copy of a pool is the pool, grown at its end. -/
theorem prefix_getD {binaries : List Binary} {basePool : Option (List Binary)}
    (hpool : ∀ pool ∈ basePool, binaries <+: pool) : binaries <+: basePool.getD binaries := by
  cases basePool with
  | none => exact List.prefix_refl _
  | some pool => exact hpool pool rfl

/-! ## The fold -/

/-- `merged` is the union of two histories: the records of both, each once, the base's own records
where the base has them. The flag compares the sets of records. -/
structure UnionOf (base other : RefEntry) (pool binaries : List Binary) (merged : RefEntry)
    (pool' : List Binary) (flag : Bool) : Prop where
  nodup : (merged.records pool').Nodup
  mem : ∀ k, k ∈ merged.records pool' ↔ k ∈ base.records pool ∨ k ∈ other.records binaries
  own : ∀ v ∈ merged.history, (v.inlined pool').record ∈ base.records pool → v ∈ base.history
  flag : flag = true ↔ ¬merged.records pool' ⊆ base.records pool
  untombstoned : merged.hasHistoryTombstone = false

/-- What the early return takes from keepass-merge: without tombstones the fold is the union of the two
histories, the prune drops the oldest records over the caps, and the caps bound the number and the size
of the records in whichever order. -/
structure Unions (F : FoldLib) : Prop where
  fold : ∀ {base other : RefEntry} {pool binaries : List Binary},
    base.hasHistoryTombstone = false → other.hasHistoryTombstone = false → base.Resolves pool →
    other.Resolves binaries → ∃ merged pool' flag,
      F.foldEntryHistory base other pool binaries = .ok (merged, pool', flag) ∧
        UnionOf base other pool binaries merged pool' flag
  prune : ∀ {e : RefEntry} (items size : Int) (pool : List Binary) (now : DateTime),
    e.hasHistoryTombstone = false → ∃ kept,
      F.pruneHistoryWithTombstones e items size pool now =
          .ok (kept, F.computeHistoryDropCount e.history items size) ∧
        kept.history = e.history.drop (F.computeHistoryDropCount e.history items size)
  caps : ∀ {h h' : List RefVersion} (items size : Int), h.Perm h' →
    F.computeHistoryDropCount h items size = 0 → F.computeHistoryDropCount h' items size = 0

/-- A union with a history that adds no record is as long as the base exactly when the base repeats no
record. -/
theorem UnionOf.length_iff {base other merged : RefEntry} {pool binaries pool' : List Binary}
    {flag : Bool} (h : UnionOf base other pool binaries merged pool' flag)
    (hsub : other.records binaries ⊆ base.records pool) :
    merged.history.length = base.history.length ↔ (base.records pool).Nodup := by
  have hmem : merged.records pool' ⊆ base.records pool := fun k hk =>
    ((h.mem k).1 hk).elim id fun hk => hsub hk
  have hsubperm := h.nodup.subperm hmem
  have hlen : (merged.records pool').length = merged.history.length := List.length_map ..
  have hlen' : (base.records pool).length = base.history.length := List.length_map ..
  constructor
  · intro heq
    exact (hsubperm.perm_of_length_le (by omega)).nodup_iff.1 h.nodup
  · intro hnodup
    have hback := hnodup.subperm fun k hk => (h.mem k).2 (.inl hk)
    have := hsubperm.length_le
    have := hback.length_le
    omega

/-- A union as long as the base that adds no record holds the base's own versions. -/
theorem UnionOf.perm {base other merged : RefEntry} {pool binaries pool' : List Binary}
    {flag : Bool} (h : UnionOf base other pool binaries merged pool' flag)
    (hsub : other.records binaries ⊆ base.records pool)
    (hlen : merged.history.length = base.history.length) : merged.history.Perm base.history := by
  have hnodup : merged.history.Nodup := List.Nodup.of_map _ h.nodup
  have hown : merged.history ⊆ base.history := fun v hv => by
    refine h.own v hv ?_
    exact ((h.mem _).1 (List.mem_map_of_mem hv)).elim id fun hk => hsub hk
  exact (hnodup.subperm hown).perm_of_length_le (by omega)

/-! ## The fold on inlined entries -/

/-- `M` is what `F` does, seen on inlined entries. -/
structure Inlines (F : FoldLib) (M : MergeLib) : Prop where
  fold : ∀ {base other : RefEntry} {pool binaries : List Binary}, base.Resolves pool →
    other.Resolves binaries →
    M.foldEntryHistory (base.inlined pool) (other.inlined binaries) =
      (F.foldEntryHistory base other pool binaries).map fun r => (r.1.inlined r.2.1, r.2.2)
  prune : ∀ (e : RefEntry) (items size : Int) (pool : List Binary) (now : DateTime),
    M.pruneHistoryWithTombstones (e.inlined pool) items size now =
      (F.pruneHistoryWithTombstones e items size pool now).map fun r => (r.1.inlined pool, r.2)
  dropCount : ∀ (e : RefEntry) (items size : Int) (pool : List Binary),
    M.computeHistoryDropCount (e.inlined pool).history items size =
      F.computeHistoryDropCount e.history items size

theorem foldedInPool_inlined {F : FoldLib} {M : MergeLib} (hFM : Inlines F M)
    {ctx : HistoryFoldContext} {base other : InPool RefEntry} {basePool : Option (List Binary)}
    (hpool : ∀ pool ∈ basePool, base.2 <+: pool) (hbase : base.1.Resolves base.2)
    (hother : other.1.Resolves other.2) :
    (foldedInPool F ctx base other basePool).map (fun r => (r.1.inlined r.2.1, r.2.2)) =
      foldedHistory M ctx (base.1.inlined (basePool.getD base.2)) (other.1.inlined other.2) := by
  have hpre := prefix_getD hpool
  unfold foldedInPool foldedHistory
  rw [hFM.fold (fun v hv => resolves_of_grown hpre (hbase v hv)) hother]
  cases F.foldEntryHistory base.1 other.1 (basePool.getD base.2) other.2 with
  | error e => rfl
  | ok r =>
    obtain ⟨merged, pool, folded⟩ := r
    change Except.map _ (serialised (F.pruneHistoryWithTombstones merged _ _ pool _) >>= _) =
      (serialised (M.pruneHistoryWithTombstones (merged.inlined pool) _ _ _) >>= _)
    rw [hFM.prune]
    cases F.pruneHistoryWithTombstones merged ctx.maxItems ctx.maxSize pool ctx.now with
    | error e => rfl
    | ok r =>
      change Except.ok _ = Except.ok _
      simp only [RefEntry.inlined, List.length_map]

/-- **The fold by reference, seen on inlined entries, is the fold of the other modules.** -/
theorem foldInPoolIntoMirror_inlined {F : FoldLib} {M : MergeLib} (hFM : Inlines F M)
    {ctx : HistoryFoldContext} {base other : InPool RefEntry} {basePool : Option (List Binary)}
    (hpool : ∀ pool ∈ basePool, base.2 <+: pool) (hbase : base.1.Resolves base.2)
    (hother : other.1.Resolves other.2) (m : Mirror) :
    (foldInPoolIntoMirror F ctx base other basePool m).map (fun r => (r.1, r.2.2)) =
      foldEntryHistoryIntoMirror M ctx (base.1.inlined (basePool.getD base.2))
        (other.1.inlined other.2) m := by
  have hsame : historiesIdentical (base.1.inlined (basePool.getD base.2))
      (other.1.inlined other.2) = InPool.historiesIdentical base other := by
    rw [Bool.eq_iff_iff, historiesIdentical_records, historiesIdentical_iff, records_inlined,
      records_inlined, records_of_grown (prefix_getD hpool) hbase]
    simp only [RefEntry.records, List.length_map, hbase, hother, true_and]
  have hconverged : (!hasHistoryTombstone (base.1.inlined (basePool.getD base.2)) &&
      !hasHistoryTombstone (other.1.inlined other.2) &&
      historiesIdentical (base.1.inlined (basePool.getD base.2)) (other.1.inlined other.2) &&
      decide (M.computeHistoryDropCount (base.1.inlined (basePool.getD base.2)).history
        ctx.maxItems ctx.maxSize = 0)) = converged F ctx base other := by
    rw [hsame]
    simp only [hFM.dropCount]
    rfl
  unfold foldInPoolIntoMirror foldEntryHistoryIntoMirror
  rw [hconverged, ← foldedInPool_inlined hFM hpool hbase hother]
  by_cases h : converged F ctx base other = true
  · rw [if_pos h, if_pos h]
    rfl
  · rw [if_neg h, if_neg h]
    cases foldedInPool F ctx base other basePool with
    | error e => rfl
    | ok r =>
      obtain ⟨merged, pool, changed⟩ := r
      cases changed with
      | false => rfl
      | true =>
        change Except.map _ (m.persistEntryHistory (merged.inlined pool) >>= _) =
          (m.persistEntryHistory (merged.inlined pool) >>= _)
        cases m.persistEntryHistory (merged.inlined pool) <;> rfl

/-! ## A union of histories -/

/-- A version with its references moved up by `n`. -/
def rebased (n : Nat) (v : RefVersion) : RefVersion :=
  { v with attachments := v.attachments.map fun a => { a with refId := n + a.refId } }

/-- One version of each record. -/
def distinctRecords (pool : List Binary) (l : List RefVersion) : List RefVersion :=
  l.pwFilter fun a b => (a.inlined pool).record ≠ (b.inlined pool).record

/-- The versions of the base and those of the other side whose record the base lacks, one of each,
oldest first. -/
def unionHistory (pool : List Binary) (own foreign : List RefVersion) : List RefVersion :=
  (distinctRecords pool own ++ distinctRecords pool (foreign.filter fun v =>
    (v.inlined pool).record ∉ own.map fun w => (w.inlined pool).record)).insertionSort fun a b =>
      optKey (InPool.second a) ≤ optKey (InPool.second b)

/-- The records over a cap on their number. -/
def overItems (history : List RefVersion) (items : Int) : Nat :=
  if items < 0 then 0 else history.length - items.toNat

/-- The folds as a union of histories and a cap on the number of records. -/
def unionLib : FoldLib where
  foldEntryHistory base other pool binaries :=
    let grown := pool ++ binaries
    let merged := { base with
      history := unionHistory grown base.history (other.history.map (rebased pool.length)) }
    .ok (merged, grown, !decide (merged.records grown ⊆ base.records pool))
  pruneHistoryWithTombstones e items _ _ _ :=
    .ok ({ e with history := e.history.drop (overItems e.history items) },
      overItems e.history items)
  computeHistoryDropCount history items _ := overItems history items

theorem inlined_rebased (pool binaries : List Binary) (v : RefVersion) :
    (rebased pool.length v).inlined (pool ++ binaries) = v.inlined binaries := by
  unfold RefVersion.inlined rebased
  rw [List.filterMap_map]
  have : AttachmentRef.bound (pool ++ binaries) ∘
      (fun a : AttachmentRef => { a with refId := pool.length + a.refId }) =
      AttachmentRef.bound binaries := by
    funext a
    simp only [Function.comp_apply, AttachmentRef.bound]
    rw [List.getElem?_append_right (Nat.le_add_right ..), Nat.add_sub_cancel_left]
  rw [this]

section Union

variable {pool : List Binary} {own foreign : List RefVersion}

theorem distinctRecords_subset (l : List RefVersion) : distinctRecords pool l ⊆ l :=
  List.pwFilter_subset l

theorem distinctRecords_nodup (l : List RefVersion) :
    ((distinctRecords pool l).map fun v => (v.inlined pool).record).Nodup :=
  List.pairwise_map.2 (List.pairwise_pwFilter l)

/-- A version left out has the record of one that stays. -/
theorem mem_records_distinctRecords (l : List RefVersion) (k : RecordKey) :
    k ∈ (distinctRecords pool l).map (fun v => (v.inlined pool).record) ↔
      k ∈ l.map fun v => (v.inlined pool).record := by
  refine ⟨fun h => List.map_subset _ (distinctRecords_subset l) h, fun h => ?_⟩
  obtain ⟨v, hv, rfl⟩ := List.mem_map.1 h
  by_contra hout
  have hne : ∀ w ∈ distinctRecords pool l, (v.inlined pool).record ≠ (w.inlined pool).record :=
    fun w hw heq => hout (heq ▸ List.mem_map_of_mem hw)
  refine (List.forall_mem_pwFilter
    (R := fun a b : RefVersion => (a.inlined pool).record ≠ (b.inlined pool).record) ?_ v l).1
      hne v hv rfl
  intro a b c hac
  by_cases hab : (a.inlined pool).record = (b.inlined pool).record
  · exact .inr fun hbc => hac (hab.trans hbc)
  · exact .inl hab

theorem unionHistory_perm (pool : List Binary) (own foreign : List RefVersion) :
    (unionHistory pool own foreign).Perm (distinctRecords pool own ++
      distinctRecords pool (foreign.filter fun v =>
        (v.inlined pool).record ∉ own.map fun w => (w.inlined pool).record)) :=
  List.perm_insertionSort ..

theorem unionHistory_nodup :
    ((unionHistory pool own foreign).map fun v => (v.inlined pool).record).Nodup := by
  rw [((unionHistory_perm pool own foreign).map _).nodup_iff, List.map_append, List.nodup_append']
  refine ⟨distinctRecords_nodup _, distinctRecords_nodup _, fun k hk hk' => ?_⟩
  rw [mem_records_distinctRecords] at hk hk'
  obtain ⟨v, hv, rfl⟩ := List.mem_map.1 hk'
  exact of_decide_eq_true (List.mem_filter.1 hv).2 hk

theorem mem_records_unionHistory (k : RecordKey) :
    k ∈ (unionHistory pool own foreign).map (fun v => (v.inlined pool).record) ↔
      k ∈ own.map (fun v => (v.inlined pool).record) ∨
        k ∈ foreign.map (fun v => (v.inlined pool).record) := by
  rw [((unionHistory_perm pool own foreign).map _).mem_iff, List.map_append, List.mem_append,
    mem_records_distinctRecords, mem_records_distinctRecords]
  by_cases hk : k ∈ own.map fun v => (v.inlined pool).record
  · simp only [hk, true_or]
  · simp only [hk, false_or, List.mem_map, List.mem_filter, decide_eq_true_eq]
    refine exists_congr fun v => ⟨fun h => ⟨h.1.1, h.2⟩, ?_⟩
    rintro ⟨hv, rfl⟩
    exact ⟨⟨hv, by simpa using hk⟩, rfl⟩

/-- A version whose record the base has is the base's own. -/
theorem unionHistory_own {v : RefVersion} (hv : v ∈ unionHistory pool own foreign)
    (hown : (v.inlined pool).record ∈ own.map fun w => (w.inlined pool).record) : v ∈ own := by
  rw [(unionHistory_perm ..).mem_iff, List.mem_append] at hv
  rcases hv with hv | hv
  · exact distinctRecords_subset _ hv
  · exact absurd hown (of_decide_eq_true (List.mem_filter.1 (distinctRecords_subset _ hv)).2)

end Union

theorem records_rebased (pool binaries : List Binary) (l : List RefVersion) :
    ((l.map (rebased pool.length)).map fun v => (v.inlined (pool ++ binaries)).record) =
      l.map fun v => (v.inlined binaries).record := by
  rw [List.map_map]
  exact List.map_congr_left fun v _ => congrArg _ (inlined_rebased pool binaries v)

theorem unionLib_unions : Unions unionLib where
  fold {base other pool binaries} hbase _ hresolves _ := by
    have hrecords := records_of_grown (List.prefix_append pool binaries) hresolves
    refine ⟨_, _, _, rfl, unionHistory_nodup, fun k => ?_, fun v hv hown => ?_, ?_, hbase⟩
    · rw [← hrecords, RefEntry.records, mem_records_unionHistory, records_rebased]
      rfl
    · rw [← hrecords] at hown
      exact unionHistory_own hv hown
    · simp only [Bool.not_eq_true', decide_eq_false_iff_not]
  prune _ _ _ _ _ := ⟨_, rfl, rfl⟩
  caps _ _ hperm := by simp only [unionLib, overItems, hperm.length_eq, imp_self]

/-! ## The early return -/

/-- The early return's condition, clause by clause. -/
theorem converged_iff {F : FoldLib} {ctx : HistoryFoldContext} {base other : InPool RefEntry} :
    converged F ctx base other = true ↔
      base.1.hasHistoryTombstone = false ∧ other.1.hasHistoryTombstone = false ∧
        InPool.historiesIdentical base other = true ∧
          F.computeHistoryDropCount base.1.history ctx.maxItems ctx.maxSize = 0 := by
  simp only [converged, Bool.and_eq_true, Bool.not_eq_true', decide_eq_true_eq, and_assoc]

/-- The slow path on what the early return accepts: the fold adds no record, so that the history is
another only by what the prune drops and by its length. -/
theorem foldedInPool_converged {F : FoldLib} (hF : Unions F) {ctx : HistoryFoldContext}
    {base other : InPool RefEntry} {basePool : Option (List Binary)}
    (hpool : ∀ pool ∈ basePool, base.2 <+: pool) (h : converged F ctx base other = true) :
    ∃ merged kept pool,
      UnionOf base.1 other.1 (basePool.getD base.2) other.2 merged pool false ∧
      other.1.records other.2 ⊆ base.1.records (basePool.getD base.2) ∧
      kept.history =
        merged.history.drop (F.computeHistoryDropCount merged.history ctx.maxItems ctx.maxSize) ∧
      foldedInPool F ctx base other basePool = .ok (kept, pool,
        0 < F.computeHistoryDropCount merged.history ctx.maxItems ctx.maxSize ||
          kept.history.length ≠ base.1.history.length) := by
  obtain ⟨hbase, hother, hsame, -⟩ := converged_iff.1 h
  obtain ⟨⟨hresolves, hresolves'⟩, -, -, hsub⟩ := historiesIdentical_iff.1 hsame
  have hpre := prefix_getD hpool
  obtain ⟨merged, pool, flag, hfold, hunion⟩ := hF.fold hbase hother
    (fun v hv => resolves_of_grown hpre (hresolves v hv)) hresolves'
  obtain ⟨kept, hprune, hkept⟩ :=
    hF.prune ctx.maxItems ctx.maxSize pool ctx.now hunion.untombstoned
  rw [← records_of_grown hpre hresolves] at hsub
  have hflag : flag = false := by
    refine Bool.eq_false_iff.2 fun hflag => hunion.flag.1 hflag fun k hk => ?_
    exact ((hunion.mem k).1 hk).elim id fun hk => hsub hk
  rw [hflag] at hfold hunion
  refine ⟨merged, kept, pool, hunion, hsub, hkept, ?_⟩
  unfold foldedInPool
  rw [hfold]
  change (serialised (F.pruneHistoryWithTombstones merged _ _ pool _) >>= _) = _
  rw [hprune]
  rfl

/-- The version of entry 9 titled `title` at second `s`, with an attachment at `refId`. -/
def letter (title : String) (s : EpochMs) (refId : Nat) : RefVersion where
  facets := { id := 9, title := title, times := { lastModificationTime := some s.toDateTime } }
  attachments := [⟨"scan.png", refId⟩]

/-- Entry 9 with a history. -/
def letters (history : List RefVersion) : RefEntry :=
  { letter "Letter" (.atSecond 60) 0 with history := history }

def scan : Binary := ⟨[1, 2, 3], true⟩

def otherScan : Binary := ⟨[4], false⟩

def tenItems : HistoryFoldContext := ⟨10, -1, (EpochMs.atSecond 90).toDateTime⟩

/-- **The early return agrees with the slow path when the base repeats no record.** On any two versions
it accepts, the fold and the prune would have left the base's history as it is and the two sides hold
the same records, as often, exactly when no two records of the base have one second and one content. -/
theorem converged_agrees_iff {F : FoldLib} (hF : Unions F) (ctx : HistoryFoldContext)
    {base other : InPool RefEntry} {basePool : Option (List Binary)}
    (hpool : ∀ pool ∈ basePool, base.2 <+: pool) (h : converged F ctx base other = true) :
    ((∃ merged pool, foldedInPool F ctx base other basePool = .ok (merged, pool, false) ∧
        merged.history.Perm base.1.history) ∧
      (base.1.records base.2).Perm (other.1.records other.2)) ↔ (base.1.records base.2).Nodup := by
  obtain ⟨-, -, hsame, hfits⟩ := converged_iff.1 h
  obtain ⟨⟨hresolves, -⟩, hlen, hsub, -⟩ := historiesIdentical_iff.1 hsame
  obtain ⟨merged, kept, pool, hunion, hadd, hkept, hslow⟩ := foldedInPool_converged hF hpool h
  have hrecords := records_of_grown (prefix_getD hpool) hresolves
  rw [hslow, ← hrecords]
  constructor
  · rintro ⟨⟨merged', pool', hquiet, -⟩, -⟩
    simp only [Except.ok.injEq, Prod.mk.injEq, Bool.or_eq_false_iff, decide_eq_false_iff_not] at hquiet
    obtain ⟨-, -, hdrop, hlen'⟩ := hquiet
    have hdrop : F.computeHistoryDropCount merged.history ctx.maxItems ctx.maxSize = 0 := by omega
    rw [hdrop, List.drop_zero] at hkept
    refine (hunion.length_iff hadd).1 ?_
    rw [← hkept]
    exact not_not.1 hlen'
  · intro hnodup
    have hlen' := (hunion.length_iff hadd).2 hnodup
    have hperm := hunion.perm hadd hlen'
    have hdrop := hF.caps _ _ hperm.symm hfits
    rw [hdrop, List.drop_zero] at hkept
    refine ⟨⟨kept, pool, ?_, hkept ▸ hperm⟩, ?_⟩
    · simp [hdrop, hkept, hlen']
    · refine (List.Nodup.subperm hnodup ?_).perm_of_length_le ?_
      · rw [hrecords]
        exact hsub
      · simp only [RefEntry.records, List.length_map]
        omega

/-- Two replicas with the same two records in two orders and two pools. -/
theorem converged_agrees_iff_letters :
    let base := (letters [letter "Draft" (.atSecond 20) 0, letter "Copy" (.atSecond 40) 0], [scan])
    let other := (letters [letter "Copy" (.atSecond 40) 1, letter "Draft" (.atSecond 20) 1],
      [otherScan, scan])
    (∃ merged pool, foldedInPool unionLib tenItems base other none = .ok (merged, pool, false) ∧
        merged.history.Perm base.1.history) ∧
      (base.1.records base.2).Perm (other.1.records other.2) :=
  (converged_agrees_iff unionLib_unions tenItems (by simp) (by decide +kernel)).2 (by decide +kernel)

/-- The early return on two histories of three records of which two repeat one another, another one on
each side. The fold would have changed the base, and the sides hold the records differently often. -/
theorem converged_of_repeated_record :
    let base := (letters [letter "Draft" (.atSecond 20) 0, letter "Draft" (.atSecond 20) 0,
      letter "Copy" (.atSecond 40) 0], [scan])
    let other := (letters [letter "Draft" (.atSecond 20) 1, letter "Copy" (.atSecond 40) 1,
      letter "Copy" (.atSecond 40) 1], [otherScan, scan])
    converged unionLib tenItems base other = true ∧
      (∀ merged pool, foldedInPool unionLib tenItems base other none ≠ .ok (merged, pool, false)) ∧
      ¬(base.1.records base.2).Perm (other.1.records other.2) := by
  intro base other
  have hslow : (foldedInPool unionLib tenItems base other none).map (·.2.2) = .ok true := by
    decide +kernel
  refine ⟨by decide +kernel, fun merged pool hquiet => ?_, by decide +kernel⟩
  rw [hquiet] at hslow
  cases hslow

end KeysCore.Verify
