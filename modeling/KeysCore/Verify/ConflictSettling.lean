import KeysCore.Verify.FieldMerge
import KeysCore.Verify.Replicas

/-!
# Two replicas with clashing versions of an entry

Each side ingests the other's pre-sync state. A side that resolved the clash, with no later edit on
the other side, keeps its version (`Settles`), and the other adopts it; with no such side both park.
`conflict_settled_iff` says when one of the two happens: unless both sides settle it, each for its own
version, in which case neither adopts nor parks.
-/

namespace KeysCore.Verify

open Lib

/-- A side with the resolution record `resolvedAt` has settled the clash with a version edited at
`otherMtime`. -/
def Settles (resolvedAt otherMtime : Option DateTime) : Prop :=
  resolvedAt.isSome = true ∧ editedAfter otherMtime resolvedAt = false

instance (r m : Option DateTime) : Decidable (Settles r m) := inferInstanceAs (Decidable (_ ∧ _))

section Verdict

variable {localRes peerRes localMtime peerMtime : Option DateTime}

theorem conflictVerdict_adoptPeer :
    KeysCore.conflictVerdict localRes peerRes localMtime peerMtime = .adoptPeer ↔
      ¬ Settles localRes peerMtime ∧ Settles peerRes localMtime := by
  unfold KeysCore.conflictVerdict Settles
  cases localRes.isSome <;> cases editedAfter peerMtime localRes <;> cases peerRes.isSome <;>
    cases editedAfter localMtime peerRes <;> decide

theorem conflictVerdict_holdOpen :
    KeysCore.conflictVerdict localRes peerRes localMtime peerMtime = .holdOpen ↔
      ¬ Settles localRes peerMtime ∧ ¬ Settles peerRes localMtime := by
  unfold KeysCore.conflictVerdict Settles
  cases localRes.isSome <;> cases editedAfter peerMtime localRes <;> cases peerRes.isSome <;>
    cases editedAfter localMtime peerRes <;> decide

end Verdict

/-- The latest resolution of `u` a vault records. -/
def resolvedIn (M : MergeLib) (v : Vault) (u : Uuid) : Option DateTime :=
  resolutionTime M v.metadata.customData u

/-- A conflict row of `owner` for the entry `u` is there. -/
def Parked (m : Mirror) (owner : String) (u : Uuid) : Prop :=
  (m.conflicts.find? (owner, u)).isSome = true

/-- The row of the entry is the peer's version, but for its place, its history and its custom data, which
a pull reconciles on their own. -/
def HoldsVersion (m : Mirror) (p : Entry) : Prop :=
  ∃ r, m.entries.find? p.id = some r ∧ r = { p.toRow r.groupUuid r.isRecycled with
    previousParentUuid := r.previousParentUuid
    locationChangedAt := r.locationChangedAt
    customData := r.customData
    history := r.history }

/-- A row written from the peer's version holds it after the location and the history pass. -/
theorem holdsVersion_passes {m m' : Mirror} {p : Entry} {parent g : Uuid} {recycled : Bool}
    {result : Option Entry} (h : m.entries.find? p.id =
      some (historyRow result (locatedRow m' p parent (p.toRow g recycled)))) : HoldsVersion m p := by
  refine ⟨_, h, ?_⟩
  unfold locatedRow
  cases result with
  | none => split_ifs <;> rfl
  | some e =>
    unfold historyRow EntryRow.withHistoryOf
    split_ifs <;> rfl

/-- One side's pull of the other's state, on an entry that clashes: what it parks and adopts. -/
theorem pull_of_conflict {M : MergeLib} (hM : Lawful M) {m m' : Mirror} {v peer : Vault}
    (ht : GroupTree m) (hv : m.project = .ok v) (ht' : GroupTree m') (hpeer : m'.project = .ok peer)
    {a b : Entry} (ha : a ∈ v.entries) (hb : b ∈ peer.entries) (hid : a.id = b.id)
    (hc : ∃ r, M.classify a b = .conflict r) {ord : HashOrder} {owner : String} {now : DateTime}
    {st : Mirror × IngestPeerOutcome} (h : ingestPeer M ord ⟨owner, v, peer, now⟩ m = .ok st) :
    (Parked st.1 owner b.id ↔
        ¬ Settles (resolvedIn M v b.id) b.times.lastModificationTime ∧
          ¬ Settles (resolvedIn M peer b.id) a.times.lastModificationTime) ∧
      (b.id ∈ st.2.autoMerged ↔
        ¬ Settles (resolvedIn M v b.id) b.times.lastModificationTime ∧
          Settles (resolvedIn M peer b.id) a.times.lastModificationTime) ∧
      (b.id ∈ st.2.autoMerged → HoldsVersion st.1 b) := by
  have hat := project_attaches ht hv
  have hat' := project_attaches ht' hpeer
  obtain ⟨⟨b', parent⟩, hpe, hb'⟩ : ∃ x ∈ peer.entriesWithParent, x.1 = b := by
    rw [← entriesWithParent_map_fst] at hb
    exact List.mem_map.1 hb
  obtain rfl : b' = b := hb'
  obtain ⟨row, hrow, rfl⟩ := List.mem_map.1 (hat.entries_perm.mem_iff.1 ha)
  have hl : PeerPull.localEntry ⟨owner, v, peer, now⟩ b'.id = some row.toEntry := by
    rw [hat.localEntry rfl, ← hid, show row.toEntry.id = row.uuid from rfl, Table.find?_of_mem hrow]
    rfl
  obtain ⟨st₁, -, hres⟩ := ingestPeer_shared hM hat'.entry_ids_nodup hpe hl h
  have hdecides : ∀ d, Decides M ⟨owner, v, peer, now⟩ row.toEntry b' d ↔
      KeysCore.conflictVerdict (resolvedIn M v b'.id) (resolvedIn M peer b'.id)
        row.toEntry.times.lastModificationTime b'.times.lastModificationTime = d :=
    fun d => and_iff_right hc
  have hadopts : b'.id ∈ st.2.autoMerged ↔ Decides M ⟨owner, v, peer, now⟩ row.toEntry b' .adoptPeer := by
    obtain ⟨r, hr⟩ := hc
    rw [hres.autoMerged]
    constructor
    · rintro (⟨merged, changes, hm⟩ | hd)
      · rw [hr] at hm
        cases hm
      · exact hd
    · exact .inr
  refine ⟨?_, ?_, fun hadopted => ?_⟩
  · rw [← conflictVerdict_holdOpen, ← hdecides]
    constructor
    · intro hp
      by_contra hd
      rw [Parked, hres.cleared hd] at hp
      cases hp
    · intro hd
      rw [Parked, hres.parked hd]
      rfl
  · rw [hadopts, ← conflictVerdict_adoptPeer, ← hdecides]
  · obtain ⟨⟨r, hr⟩, hverdict⟩ := hadopts.1 hadopted
    obtain ⟨result, -, hfind⟩ := hres.row
    have hhere : m.entries.find? b'.id = some row := by
      rw [← hid, show row.toEntry.id = row.uuid from rfl, Table.find?_of_mem hrow]
    have harm : armRow M ⟨owner, v, peer, now⟩ row.toEntry b' row =
        b'.toRow row.groupUuid row.isRecycled := by
      simp only [armRow, hr, hverdict]
    rw [hhere, Option.map_some, sharedRow, harm] at hfind
    exact holdsVersion_passes hfind

/-- **Two replicas that clash on an entry and ingest each other's state: one of them parks, or
exactly one adopts the other's version, unless both hold a resolution that the other's version does
not postdate.** A side that reports the entry merged has the other's version in its row. -/
theorem conflict_settled_iff {M : MergeLib} (hM : Lawful M) {A B : Mirror} {vA vB : Vault}
    (hA : GroupTree A) (hvA : A.project = .ok vA) (hB : GroupTree B) (hvB : B.project = .ok vB)
    {a b : Entry} (ha : a ∈ vA.entries) (hb : b ∈ vB.entries) (hid : a.id = b.id)
    (hab : ∃ r, M.classify a b = .conflict r) (hba : ∃ r, M.classify b a = .conflict r)
    {ordA ordB : HashOrder} {ownerA ownerB : String} {nowA nowB : DateTime}
    {stA stB : Mirror × IngestPeerOutcome}
    (hstA : ingestPeer M ordA ⟨ownerB, vA, vB, nowA⟩ A = .ok stA)
    (hstB : ingestPeer M ordB ⟨ownerA, vB, vA, nowB⟩ B = .ok stB) :
    (((Parked stA.1 ownerB a.id ∨ Parked stB.1 ownerA a.id ∨
          Xor (a.id ∈ stA.2.autoMerged) (a.id ∈ stB.2.autoMerged)) ∧
        ¬ (a.id ∈ stA.2.autoMerged ∧ a.id ∈ stB.2.autoMerged)) ↔
      ¬ (Settles (resolvedIn M vA a.id) b.times.lastModificationTime ∧
        Settles (resolvedIn M vB a.id) a.times.lastModificationTime)) ∧
      (a.id ∈ stA.2.autoMerged → HoldsVersion stA.1 b) ∧
      (a.id ∈ stB.2.autoMerged → HoldsVersion stB.1 a) := by
  obtain ⟨hparkA, hadoptA, hrowA⟩ := pull_of_conflict hM hA hvA hB hvB ha hb hid hab hstA
  obtain ⟨hparkB, hadoptB, hrowB⟩ := pull_of_conflict hM hB hvB hA hvA hb ha hid.symm hba hstB
  rw [← hid] at hparkA hadoptA hrowA
  refine ⟨?_, hrowA, hrowB⟩
  rw [hparkA, hparkB, hadoptA, hadoptB]
  by_cases hsA : Settles (resolvedIn M vA a.id) b.times.lastModificationTime <;>
    by_cases hsB : Settles (resolvedIn M vB a.id) a.times.lastModificationTime <;>
    simp [hsA, hsB, Xor]

/-- The row of a resolution of entry `9`, when there is one. -/
theorem resolutionRow_nodup (resolved : Option EpochMs) :
    ((resolved.map fun t => (⟨"keys.conflict_resolutions.v1", "9", some t⟩ : CustomDataRow)).toList.map
      CustomDataRow.key).Nodup := by
  cases resolved <;> simp

/-- Entry `9` under root `1`, edited at `mtime` and perhaps resolved since. -/
def clashMirror (title : String) (mtime : EpochMs) (resolved : Option EpochMs) : Mirror :=
  { loneRoot with
    entries := ⟨[{ uuid := 9, groupUuid := 1, title, modifiedAt := mtime }], List.nodup_singleton _⟩
    settings := { customData :=
      ⟨(resolved.map fun t => ⟨"keys.conflict_resolutions.v1", "9", some t⟩).toList,
        resolutionRow_nodup resolved⟩ }
    fkGroup := by
      intro e he
      rw [List.mem_singleton.1 he]
      exact List.mem_cons_self .. }

theorem clashMirror_groupTree (title : String) (mtime : EpochMs) (resolved : Option EpochMs) :
    GroupTree (clashMirror title mtime resolved) := by
  refine groupTree_iff.2 ⟨1, List.mem_cons_self .., rfl, fun _ hp => (mem_keys_of_parentOf hp).2,
    fun {x} hx => ?_⟩
  obtain rfl : x = 1 := List.mem_singleton.1 hx
  exact ⟨0, rfl⟩

/-- Resolved on one side only: the other adopts, and has the resolver's version. -/
theorem conflict_settled_resolver_and_peer :
    let A := clashMirror "a" (.atSecond 5) (some (.atSecond 10))
    let B := clashMirror "b" (.atSecond 6) none
    let stA := afterPull fieldMerge .insertion "B" (.atSecond 20) (view B) A
    let stB := afterPull fieldMerge .insertion "A" (.atSecond 20) (view A) B
    (Parked stA.1 "B" 9 ∨ Parked stB.1 "A" 9 ∨
        Xor ((9 : Uuid) ∈ stA.2.autoMerged) ((9 : Uuid) ∈ stB.2.autoMerged)) ∧
      ¬ ((9 : Uuid) ∈ stA.2.autoMerged ∧ (9 : Uuid) ∈ stB.2.autoMerged) ∧
      HoldsVersion stB.1 (A.entries.rows[0].toEntry) := by
  intro A B stA stB
  have hvA : A.project = .ok (view A) := project_view (by decide +kernel)
  have hvB : B.project = .ok (view B) := project_view (by decide +kernel)
  have hstA : ingestPeer fieldMerge .insertion ⟨"B", view A, view B, .atSecond 20⟩ A = .ok stA :=
    ingestPeer_afterPull (by decide +kernel)
  have hstB : ingestPeer fieldMerge .insertion ⟨"A", view B, view A, .atSecond 20⟩ B = .ok stB :=
    ingestPeer_afterPull (by decide +kernel)
  obtain ⟨hiff, -, hholds⟩ := conflict_settled_iff (a := A.entries.rows[0].toEntry) (b := B.entries.rows[0].toEntry)
    fieldMerge_lawful (clashMirror_groupTree _ _ _) hvA (clashMirror_groupTree _ _ _) hvB
    (by decide +kernel) (by decide +kernel) rfl ⟨B.entries.rows[0].toEntry, by decide +kernel⟩
    ⟨A.entries.rows[0].toEntry, by decide +kernel⟩ hstA hstB
  obtain ⟨hsettled, hone⟩ := hiff.2 (by decide +kernel)
  have hadopted : (9 : Uuid) ∈ stB.2.autoMerged := by decide +kernel
  exact ⟨hsettled, hone, hholds hadopted⟩

/-- Both replicas resolved the clash, each for its own version, in the same second after both edits:
neither parks and neither adopts, and the titles stay apart. -/
theorem both_resolved_diverge_silently :
    let A := clashMirror "a" (.atSecond 5) (some (.atSecond 10))
    let B := clashMirror "b" (.atSecond 6) (some (.atSecond 10))
    let stA := afterPull fieldMerge .insertion "B" (.atSecond 20) (view B) A
    let stB := afterPull fieldMerge .insertion "A" (.atSecond 20) (view A) B
    ingestPeer fieldMerge .insertion ⟨"B", view A, view B, .atSecond 20⟩ A = .ok stA ∧
      ingestPeer fieldMerge .insertion ⟨"A", view B, view A, .atSecond 20⟩ B = .ok stB ∧
      ¬ Parked stA.1 "B" 9 ∧ ¬ Parked stB.1 "A" 9 ∧
      (9 : Uuid) ∉ stA.2.autoMerged ∧ (9 : Uuid) ∉ stB.2.autoMerged ∧
      (stA.1.entries.find? 9).map (·.title) = some "a" ∧
      (stB.1.entries.find? 9).map (·.title) = some "b" := by
  intro A B stA stB
  refine ⟨ingestPeer_afterPull (by decide +kernel), ingestPeer_afterPull (by decide +kernel), ?_⟩
  unfold Parked
  decide +kernel

end KeysCore.Verify
