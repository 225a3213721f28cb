import KeysCore.Verify.FieldMerge
import KeysCore.Verify.Replicas

/-!
# The stamp of an auto-merge on both replicas

Two replicas hold the versions `a` and `b` of an entry, each pulls the other's, and the classifier merges
them the same way on both sides. `with_advanced_mtime` picks the stamp by comparing the merged version
with the peer's in fields and tags; attachments travel beside it. `autoMerge_stamps_agree_iff`: the two
stamps agree, and are past both inputs when both sides contributed, exactly when no side's contribution
is in its attachments alone, apart from the ends of the time range.
-/

namespace KeysCore.Verify

open Lib

/-! ## Versions -/

theorem sameVersion_iff {a b : EntryVersion} :
    sameVersion a b = true ↔
      (a.title = b.title ∧ a.username = b.username ∧ a.password = b.password ∧ a.url = b.url ∧
        a.notes = b.notes) ∧ a.customFields.Perm b.customFields ∧ a.tags.Perm b.tags := by
  simp only [sameVersion, Bool.and_eq_true, decide_eq_true_eq, List.isPerm_iff, and_assoc]

theorem sameVersion_symm {a b : EntryVersion} (h : sameVersion a b = true) :
    sameVersion b a = true := by
  obtain ⟨⟨h₁, h₂, h₃, h₄, h₅⟩, hf, ht⟩ := sameVersion_iff.1 h
  exact sameVersion_iff.2 ⟨⟨h₁.symm, h₂.symm, h₃.symm, h₄.symm, h₅.symm⟩, hf.symm, ht.symm⟩

theorem sameVersion_trans {a b c : EntryVersion} (h : sameVersion a b = true)
    (h' : sameVersion b c = true) : sameVersion a c = true := by
  obtain ⟨⟨h₁, h₂, h₃, h₄, h₅⟩, hf, ht⟩ := sameVersion_iff.1 h
  obtain ⟨⟨k₁, k₂, k₃, k₄, k₅⟩, kf, kt⟩ := sameVersion_iff.1 h'
  exact sameVersion_iff.2 ⟨⟨h₁.trans k₁, h₂.trans k₂, h₃.trans k₃, h₄.trans k₄, h₅.trans k₅⟩,
    hf.trans kf, ht.trans kt⟩

/-! ## The pulled version -/

/-- The replica of `m` holds the version `a` of an entry and pulls a vault that holds `b`. -/
structure PullsVersion (M : MergeLib) (ord : HashOrder) (P : PeerPull) (m : Mirror) (a b : Entry)
    (st : Mirror × IngestPeerOutcome) : Prop where
  projected : m.project = .ok P.localVault
  held : P.localEntry b.id = some a
  offered : b ∈ P.peer.entries
  peerIds : (P.peer.entries.map (·.id)).Nodup
  returns : ingestPeer M ord P m = .ok st

/-- The row of the version a replica holds. -/
theorem PullsVersion.row {M : MergeLib} {ord : HashOrder} {P : PeerPull} {m : Mirror} {a b : Entry}
    {st : Mirror × IngestPeerOutcome} (h : PullsVersion M ord P m a b st) :
    ∃ row, m.entries.find? b.id = some row ∧ a = row.toEntry :=
  localEntry_row h.projected h.held

/-- The row a pull leaves of an auto-merged entry carries the stamp of the merge. -/
theorem PullsVersion.stamp {M : MergeLib} (hM : Lawful M) {ord : HashOrder} {P : PeerPull} {m : Mirror}
    {a b merged : Entry} {changes : List AttachmentChange} {st : Mirror × IngestPeerOutcome}
    (h : PullsVersion M ord P m a b st) (hc : M.classify a b = .autoMerged merged changes) :
    ∃ r, st.1.entries.find? b.id = some r ∧
      r.modifiedAt = dtToMs (autoMergedEntry a b merged changes).times.lastModificationTime := by
  obtain ⟨row, hrow, rfl⟩ := h.row
  obtain ⟨⟨b', parent⟩, hpe, rfl⟩ : ∃ x ∈ P.peer.entriesWithParent, x.1 = b := by
    have := h.offered
    rw [← entriesWithParent_map_fst] at this
    exact List.mem_map.1 this
  obtain ⟨st₁, -, hres⟩ := ingestPeer_shared hM h.peerIds hpe h.held h.returns
  obtain ⟨result, -, hfind⟩ := hres.row
  rw [hrow, Option.map_some] at hfind
  refine ⟨_, hfind, ?_⟩
  simp only [sharedRow, historyRow_modifiedAt, locatedRow_modifiedAt, armRow, hc]
  rfl

/-! ## Whole seconds -/

/-- An instant at a whole second. -/
def WholeSecond (t : DateTime) : Prop := t.nanos % 1000000000 = 0

theorem wholeSecond_floored (t : EpochMs) : WholeSecond t.floored := by
  unfold WholeSecond EpochMs.floored EpochMs.toDateTime EpochMs.floorSecond
  dsimp only
  omega

theorem timestampMillis_inj {s t : DateTime} (hs : WholeSecond s) (ht : WholeSecond t) :
    s.timestampMillis = t.timestampMillis ↔ s = t := by
  refine ⟨fun h => DateTime.ext ?_, fun h => by rw [h]⟩
  have h := congrArg EpochMs.val h
  simp only [DateTime.timestampMillis] at h
  unfold WholeSecond at hs ht
  omega

theorem timestampMillis_lt {s t : DateTime} (hs : WholeSecond s) (ht : WholeSecond t) :
    s.timestampMillis < t.timestampMillis ↔ s < t := by
  rw [EpochMs.lt_iff, DateTime.lt_iff]
  simp only [DateTime.timestampMillis]
  unfold WholeSecond at hs ht
  omega

/-- One step past an instant, or the instant itself at the end of the range. -/
def stepPast (t : DateTime) : DateTime := (t.checkedAddSeconds 1).getD t

theorem checkedAddSeconds_eq_some {t u : DateTime} (h : t.checkedAddSeconds 1 = some u) :
    u.nanos = t.nanos + 1000000000 := by
  unfold DateTime.checkedAddSeconds at h
  split at h
  · obtain rfl := Option.some.inj h
    simp
  · cases h

theorem wholeSecond_stepPast {t : DateTime} (h : WholeSecond t) : WholeSecond (stepPast t) := by
  unfold stepPast
  cases hu : t.checkedAddSeconds 1 with
  | none => exact h
  | some u =>
    have := checkedAddSeconds_eq_some hu
    unfold WholeSecond at h ⊢
    rw [Option.getD_some]
    omega

theorem lt_stepPast {t : DateTime} (h : t.checkedAddSeconds 1 ≠ none) : t < stepPast t := by
  unfold stepPast
  cases hu : t.checkedAddSeconds 1 with
  | none => exact absurd hu h
  | some u =>
    have := checkedAddSeconds_eq_some hu
    rw [Option.getD_some, DateTime.lt_iff]
    omega

theorem stepPast_of_none {t : DateTime} (h : t.checkedAddSeconds 1 = none) : stepPast t = t := by
  unfold stepPast
  rw [h]
  rfl

/-! ## The two stamps -/

section Stamps

variable {M : MergeLib} {a b merged merged' : Entry} {changes changes' : List AttachmentChange}

/-- The stamp of the merge of `b` into `a`, when both are dated. -/
theorem autoMergedEntry_stamp (htimes : merged.times = a.times) {ta tb : DateTime}
    (ha : a.times.lastModificationTime = some ta) (hb : b.times.lastModificationTime = some tb) :
    (autoMergedEntry a b merged changes).times.lastModificationTime = some
      (if movesLocal a merged changes then
        if sameVersion merged.toEntryVersion b.toEntryVersion then tb else stepPast (max ta tb)
      else ta) := by
  have hsnap : ∀ (e : Entry) (moves : Bool),
      (withPreMergeSnapshot e moves a b).times = e.times := by
    intro e moves
    unfold withPreMergeSnapshot
    split <;> rfl
  unfold autoMergedEntry
  dsimp only
  rw [hsnap]
  unfold withAdvancedMtime
  cases movesLocal a merged changes with
  | false => simp [htimes, ha]
  | true =>
    simp only [if_true, Entry.withMtime, mergedMtime, ha, hb]
    split
    · rfl
    · rfl

/-- The classifier merges `a` and `b` the same way in both directions: the same fields and tags, and
the same attachments once the adopted changes are applied. -/
structure MergesAlike (M : MergeLib) (a b merged merged' : Entry)
    (changes changes' : List AttachmentChange) : Prop where
  left : M.classify a b = .autoMerged merged changes
  right : M.classify b a = .autoMerged merged' changes'
  version : sameVersion merged.toEntryVersion merged'.toEntryVersion = true
  attachments :
    (changes.foldl AttachmentChange.apply (a.attachments.map fun x => (x.name, x.data))).Perm
      (changes'.foldl AttachmentChange.apply (b.attachments.map fun x => (x.name, x.data)))

/-- The stamps of the two rows agree, and lie past both inputs when each side takes something over from
the other and the time range has room for the step. -/
def StampsAgree (a b merged merged' : Entry) (changes changes' : List AttachmentChange)
    (r r' : EntryRow) : Prop :=
  r.modifiedAt = r'.modifiedAt ∧
    (movesLocal a merged changes = true → movesLocal b merged' changes' = true →
      ((laterOf a.times.lastModificationTime b.times.lastModificationTime).bind
        (·.checkedAddSeconds 1)).isSome = true →
      dtToMs a.times.lastModificationTime < r.modifiedAt ∧
        dtToMs b.times.lastModificationTime < r.modifiedAt)

/-- When neither side moves, the inputs have one time. When both do, the merged version has the fields
and tags of neither input; or else the later time cannot be stepped past, and each input whose fields
and tags it has is dated with that time. -/
def ContributesVersions (a b merged merged' : Entry) (changes changes' : List AttachmentChange) :
    Prop :=
  (movesLocal a merged changes = false → movesLocal b merged' changes' = false →
      a.times.lastModificationTime = b.times.lastModificationTime) ∧
    (movesLocal a merged changes = true → movesLocal b merged' changes' = true →
      (sameVersion a.toEntryVersion merged.toEntryVersion = false ∧
          sameVersion b.toEntryVersion merged'.toEntryVersion = false) ∨
        ((laterOf a.times.lastModificationTime b.times.lastModificationTime).bind
            (·.checkedAddSeconds 1) = none ∧
          (sameVersion a.toEntryVersion merged.toEntryVersion = true →
            laterOf a.times.lastModificationTime b.times.lastModificationTime =
              a.times.lastModificationTime) ∧
          (sameVersion b.toEntryVersion merged'.toEntryVersion = true →
            laterOf a.times.lastModificationTime b.times.lastModificationTime =
              b.times.lastModificationTime)))

/-- The stamps as functions of the two times, of whether each side moves (`u`, `w`) and of whether the
merged version has the fields and tags of each input (`x`, `y`). -/
theorem stamps_iff (ta tb : DateTime) {u w x y : Bool} (hx : u = false → x = true)
    (hy : w = false → y = true) {sa sb : DateTime}
    (hsa : sa = if u then if y then tb else stepPast (max ta tb) else ta)
    (hsb : sb = if w then if x then ta else stepPast (max ta tb) else tb) :
    (sa = sb ∧ (u = true → w = true → (max ta tb).checkedAddSeconds 1 ≠ none → ta < sa ∧ tb < sa)) ↔
      (u = false → w = false → ta = tb) ∧
        (u = true → w = true → (x = false ∧ y = false) ∨
          ((max ta tb).checkedAddSeconds 1 = none ∧ (x = true → max ta tb = ta) ∧
            (y = true → max ta tb = tb))) := by
  subst hsa hsb
  cases u with
  | false =>
    cases w with
    | false => simp
    | true => simp [hx rfl]
  | true =>
    cases w with
    | false => simp [hy rfl]
    | true =>
      simp only [if_true, true_implies, Bool.true_eq_false, false_implies, true_and]
      -- both sides move: the stamps are the step unless a version is one of the inputs
      by_cases hover : (max ta tb).checkedAddSeconds 1 = none
      · rw [stepPast_of_none hover]
        cases x <;> cases y <;> simp [hover]
        exact ⟨fun h => ⟨le_of_eq h, le_of_eq h.symm⟩, fun h => le_antisymm h.1 h.2⟩
      · have hlt := lt_stepPast hover
        have ha := lt_of_le_of_lt (le_max_left ta tb) hlt
        have hb := lt_of_le_of_lt (le_max_right ta tb) hlt
        cases x <;> cases y <;> simp [hover, ha, hb]
        · intro h
          rw [h] at ha
          exact absurd ha (lt_irrefl _)

theorem movesLocal_eq_false (h : movesLocal a merged changes = false) :
    sameVersion a.toEntryVersion merged.toEntryVersion = true := by
  unfold movesLocal at h
  simp only [Bool.or_eq_false_iff, Bool.not_eq_false'] at h
  exact h.2

/-- The merged version is the peer's exactly when the mirrored one is. -/
theorem sameVersion_merged (hv : sameVersion merged.toEntryVersion merged'.toEntryVersion = true) :
    sameVersion merged.toEntryVersion b.toEntryVersion =
      sameVersion b.toEntryVersion merged'.toEntryVersion := by
  rw [Bool.eq_iff_iff]
  constructor
  · intro h
    exact sameVersion_trans (sameVersion_symm h) hv
  · intro h
    exact sameVersion_trans hv (sameVersion_symm h)

/-- **The stamps of an auto-merge on both replicas.** Two replicas that hold `a` and `b`, pull each
other's and merge alike leave the same modification time, past both inputs when each side contributes,
exactly when no contribution is in attachments alone. -/
theorem autoMerge_stamps_agree_iff (hM : Lawful M) {ord ord' : HashOrder} {P P' : PeerPull}
    {m m' : Mirror} {st st' : Mirror × IngestPeerOutcome} (hA : PullsVersion M ord P m a b st)
    (hB : PullsVersion M ord' P' m' b a st') (hc : MergesAlike M a b merged merged' changes changes') :
    ∃ r r', st.1.entries.find? a.id = some r ∧ st'.1.entries.find? a.id = some r' ∧
      (StampsAgree a b merged merged' changes changes' r r' ↔
        ContributesVersions a b merged merged' changes changes') := by
  obtain ⟨r, hr, hstamp⟩ := hA.stamp hM hc.left
  obtain ⟨r', hr', hstamp'⟩ := hB.stamp hM hc.right
  obtain ⟨row, -, harow⟩ := hA.row
  obtain ⟨row', -, hbrow⟩ := hB.row
  have hid : a.id = b.id := localEntry_id hA.held
  have hta : a.times.lastModificationTime = some row.modifiedAt.floored := by rw [harow]; rfl
  have htb : b.times.lastModificationTime = some row'.modifiedAt.floored := by rw [hbrow]; rfl
  refine ⟨r, r', by rw [hid]; exact hr, hr', ?_⟩
  have hwa := wholeSecond_floored row.modifiedAt
  have hwb := wholeSecond_floored row'.modifiedAt
  generalize row.modifiedAt.floored = ta at hta hwa
  generalize row'.modifiedAt.floored = tb at htb hwb
  rw [autoMergedEntry_stamp (hM.merged_times hc.left) hta htb, sameVersion_merged hc.version] at hstamp
  rw [autoMergedEntry_stamp (hM.merged_times hc.right) htb hta,
    sameVersion_merged (sameVersion_symm hc.version), max_comm] at hstamp'
  have hwmax : WholeSecond (max ta tb) := by
    rcases max_choice ta tb with h | h
    · rwa [h]
    · rwa [h]
  have hlater : laterOf (some ta) (some tb) = some (max ta tb) := rfl
  unfold StampsAgree ContributesVersions
  rw [hta, htb, hlater, hstamp, hstamp']
  generalize hsa : (if movesLocal a merged changes then
      if sameVersion b.toEntryVersion merged'.toEntryVersion then tb else stepPast (max ta tb)
    else ta) = sa
  generalize hsb : (if movesLocal b merged' changes' then
      if sameVersion a.toEntryVersion merged.toEntryVersion then ta else stepPast (max ta tb)
    else tb) = sb
  have hwsa : WholeSecond sa := by
    rw [← hsa]
    split
    · split
      · exact hwb
      · exact wholeSecond_stepPast hwmax
    · exact hwa
  have hwsb : WholeSecond sb := by
    rw [← hsb]
    split
    · split
      · exact hwa
      · exact wholeSecond_stepPast hwmax
    · exact hwb
  show (sa.timestampMillis = sb.timestampMillis ∧ (_ → _ → _ →
    ta.timestampMillis < sa.timestampMillis ∧ tb.timestampMillis < sa.timestampMillis)) ↔ _
  rw [timestampMillis_inj hwsa hwsb, timestampMillis_lt hwa hwsa, timestampMillis_lt hwb hwsa,
    Option.bind_some, Option.isSome_iff_ne_none, Option.some.injEq, Option.some.injEq,
    Option.some.injEq]
  exact stamps_iff ta tb movesLocal_eq_false movesLocal_eq_false hsa.symm hsb.symm

end Stamps

/-! ## Two replicas -/

/-- Entry `9` under root `1`, edited at `mtime` since a first version without anything in it. -/
def editedMirror (title username : String) (files : List (String × List UInt8)) (mtime : EpochMs) :
    Mirror :=
  { loneRoot with
    entries := ⟨[{ uuid := 9, groupUuid := 1, title, username, modifiedAt := mtime
                   attachments := files, history := [{}] }], List.nodup_singleton _⟩
    fkGroup := by
      intro e he
      rw [List.mem_singleton.1 he]
      exact List.mem_cons_self .. }

/-- The version of entry `9` in such a mirror. -/
def editedEntry (m : Mirror) : Entry := ((m.entries.find? 9).map (·.toEntry)).getD { id := 9 }

/-- The pull of `B` from `A`. -/
def filePull (A B : Mirror) : Mirror × IngestPeerOutcome :=
  afterPull fileMerge .insertion "peer" (.atSecond 500) (view B) A

theorem filePull_pullsVersion {A B : Mirror} (hA : A.project.isOk = true)
    (hheld : PeerPull.localEntry ⟨"peer", view A, view B, .atSecond 500⟩ (editedEntry B).id =
      some (editedEntry A))
    (hoffered : editedEntry B ∈ (view B).entries) (hids : ((view B).entries.map (·.id)).Nodup)
    (hok : (ingestPeer fileMerge .insertion ⟨"peer", view A, view B, .atSecond 500⟩ A).isOk = true) :
    PullsVersion fileMerge .insertion ⟨"peer", view A, view B, .atSecond 500⟩ A (editedEntry A)
      (editedEntry B) (filePull A B) :=
  ⟨project_view hA, hheld, hoffered, hids, ingestPeer_afterPull hok⟩

/-- One side edits the title and the other the username: both replicas date the merge one second past
the later edit. -/
theorem autoMerge_stamps_agree_two_fields :
    let A := editedMirror "mail" "" [] (.atSecond 100)
    let B := editedMirror "" "me" [] (.atSecond 200)
    let merged := { editedEntry A with username := "me" }
    let merged' := { editedEntry B with title := "mail" }
    MergesAlike fileMerge (editedEntry A) (editedEntry B) merged merged' [] [] ∧
      ∃ r r', (filePull A B).1.entries.find? 9 = some r ∧ (filePull B A).1.entries.find? 9 = some r' ∧
        StampsAgree (editedEntry A) (editedEntry B) merged merged' [] [] r r' := by
  intro A B merged merged'
  have halike : MergesAlike fileMerge (editedEntry A) (editedEntry B) merged merged' [] [] :=
    ⟨by decide +kernel, by decide +kernel, by decide +kernel, by decide +kernel⟩
  have hAB := filePull_pullsVersion (A := A) (B := B) (by decide +kernel) (by decide +kernel)
    (by decide +kernel) (by decide +kernel) (by decide +kernel)
  have hBA := filePull_pullsVersion (A := B) (B := A) (by decide +kernel) (by decide +kernel)
    (by decide +kernel) (by decide +kernel) (by decide +kernel)
  obtain ⟨r, r', hr, hr', hiff⟩ := autoMerge_stamps_agree_iff fileMerge_lawful hAB hBA halike
  exact ⟨halike, r, r', hr, hr', hiff.2 ⟨by decide +kernel, fun _ _ => .inl (by decide +kernel)⟩⟩

/-- One side adds a file and the other another one. The merged version has the fields and tags of both
inputs, so each replica dates it with the other's time. -/
theorem attachment_merge_stamps_differ :
    let A := editedMirror "" "" [("a", [1])] (.atSecond 100)
    let B := editedMirror "" "" [("b", [2])] (.atSecond 200)
    MergesAlike fileMerge (editedEntry A) (editedEntry B) (editedEntry A) (editedEntry B)
        [.take "b" [2]] [.take "a" [1]] ∧
      PullsVersion fileMerge .insertion ⟨"peer", view A, view B, .atSecond 500⟩ A (editedEntry A)
        (editedEntry B) (filePull A B) ∧
      PullsVersion fileMerge .insertion ⟨"peer", view B, view A, .atSecond 500⟩ B (editedEntry B)
        (editedEntry A) (filePull B A) ∧
      ((filePull A B).1.entries.find? 9).map (·.modifiedAt) = some (.atSecond 200) ∧
      ((filePull B A).1.entries.find? 9).map (·.modifiedAt) = some (.atSecond 100) := by
  intro A B
  refine ⟨⟨by decide +kernel, by decide +kernel, by decide +kernel, by decide +kernel⟩, ?_, ?_,
    by decide +kernel, by decide +kernel⟩
  · exact filePull_pullsVersion (by decide +kernel) (by decide +kernel) (by decide +kernel)
      (by decide +kernel) (by decide +kernel)
  · exact filePull_pullsVersion (by decide +kernel) (by decide +kernel) (by decide +kernel)
      (by decide +kernel) (by decide +kernel)

end KeysCore.Verify
