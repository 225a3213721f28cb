import KeysCore.Verify.EntryBodies
import KeysCore.Verify.Replicas

/-!
# The entries a pull writes

The walk of a pull writes the row of an entry of the peer, or leaves it (`PeerPull.writtenEntry`). What
of a row is not moved by a new place, a folded history or a changed attachment has after the walk the
value of the last entry written, and where none was written the value it had (`ingestEntries_values`).
-/

namespace KeysCore.Verify

open Lib

variable {β : Type}

/-- `f` of every entry's row. -/
def valuesOf (f : EntryRow → β) (m : Mirror) (u : Uuid) : Option β := (m.entries.find? u).map f

/-- `f` of a row is `g` of the entry it was written for, and what else a pull does to a row keeps it. -/
structure Follows (f : EntryRow → β) (g : Entry → β) : Prop where
  row (e : Entry) (group : Uuid) (isRecycled : Bool) : f (e.toRow group isRecycled) = g e
  place (r : EntryRow) (group : Uuid) (previous : Option Uuid) (isRecycled : Bool) (at' : Option EpochMs) :
    f { r with
      groupUuid := group
      previousParentUuid := previous
      isRecycled := isRecycled
      locationChangedAt := at' } = f r
  history (r : EntryRow) (history : List HistorySnapshot) (data : List CustomDataRow) :
    f { r with history := history, customData := data } = f r
  attachments (r : EntryRow) (attachments : List (String × List UInt8)) :
    f { r with attachments := attachments } = f r

section Walk

variable {M : MergeLib} {P : PeerPull} {f : EntryRow → β} {g : Entry → β}

theorem writtenEntry_id (hM : Lawful M) {p e : Entry} (h : P.writtenEntry M p = some e) :
    e.id = p.id := by
  unfold PeerPull.writtenEntry at h
  split at h
  · split at h
    · cases h
    · obtain rfl := Option.some.inj h
      rfl
  · rename_i l hl
    split at h
    · cases h
    · rename_i merged changes hc
      obtain rfl := Option.some.inj h
      rw [autoMergedEntry_id, hM.merged_id hc, localEntry_id hl]
    · rename_i remote hc
      split at h
      · obtain rfl := Option.some.inj h
        rw [hM.remote hc]
      · cases h

theorem writtenEntry_peerOnly {p : Entry} (hl : P.localEntry p.id = none) :
    (Blocked P p → P.writtenEntry M p = none) ∧ (¬ Blocked P p → P.writtenEntry M p = some p) := by
  unfold PeerPull.writtenEntry
  rw [hl]
  exact ⟨fun hb => if_pos (blocked_iff.2 hb), fun hb => if_neg (fun h => hb (blocked_iff.1 h))⟩

/-- What the arm of a shared entry leaves is the row of the entry written, or the row there was. -/
theorem armRow_value (hM : Lawful M)
    (hrow : ∀ (e : Entry) (group : Uuid) (isRecycled : Bool), f (e.toRow group isRecycled) = g e)
    (hattachments : ∀ (r : EntryRow) (a : List (String × List UInt8)), f { r with attachments := a } = f r)
    {l p : Entry} (hl : P.localEntry p.id = some l) (r : EntryRow) :
    f (armRow M P l p r) = match P.writtenEntry M p with
      | none => f r
      | some e => g e := by
  unfold armRow PeerPull.writtenEntry
  rw [hl]
  dsimp only
  cases hc : M.classify l p with
  | inSync => rfl
  | autoMerged merged changes => exact (hattachments _ _).trans (hrow _ _ _)
  | conflict remote =>
    have hr := hM.remote hc
    subst hr
    dsimp only
    cases P.conflictVerdict M l remote with
    | localHolds => rfl
    | adoptPeer => exact hrow _ _ _
    | holdOpen => rfl

theorem Follows.locatedRow (hf : Follows f g) (m : Mirror) (p : Entry) (parent : Uuid) (r : EntryRow) :
    f (locatedRow m p parent r) = f r := by
  unfold Verify.locatedRow
  split
  · rfl
  · split
    · exact hf.place _ _ _ _ _
    · rfl

theorem Follows.historyRow (hf : Follows f g) (result : Option Entry) (r : EntryRow) :
    f (historyRow result r) = f r := by
  cases result with
  | none => rfl
  | some e => exact hf.history _ _ _

/-- The values after the walk wrote one entry of the peer. -/
def writtenAfter (M : MergeLib) (P : PeerPull) (g : Entry → β) (values : Uuid → Option β)
    (pe : Entry × Uuid) : Uuid → Option β :=
  match P.writtenEntry M pe.1 with
  | none => values
  | some e => Function.update values pe.1.id (some (g e))

/-- What one step of the walk does to the values, in a mirror that holds the entries of the local
vault. -/
theorem ingestEntry_values (hf : Follows f g) (hM : Lawful M) {st st' : Mirror × IngestPeerOutcome}
    {pe : Entry × Uuid} (hlocal : ∀ l, P.localEntry pe.1.id = some l → pe.1.id ∈ st.1.entries.keys)
    (h : P.ingestEntry M st pe = .ok st') :
    valuesOf f st'.1 = writtenAfter M P g (valuesOf f st.1) pe := by
  have hothers : ∀ u, u ≠ pe.1.id → valuesOf f st'.1 u = valuesOf f st.1 u := by
    intro u hu
    rw [valuesOf, valuesOf, (ingestEntry_touches hM h).1.entries u hu]
  have hself : valuesOf f st'.1 pe.1.id = match P.writtenEntry M pe.1 with
      | none => valuesOf f st.1 pe.1.id
      | some e => some (g e) := by
    unfold PeerPull.ingestEntry at h
    split at h
    · rename_i hnone
      obtain ⟨hskip, hwrite⟩ := writtenEntry_peerOnly (M := M) hnone
      rcases ingestPeerOnly_spec h with ⟨hb, rfl⟩ | ⟨hb, -, -, -, hfind, -⟩
      · rw [hskip hb]
      · rw [hwrite hb, valuesOf, hfind, Option.map_some, hf.row]
    · rename_i l hl
      obtain ⟨row, hrow⟩ := Table.exists_find?.2 (hlocal l hl)
      obtain ⟨-, -, ⟨result, -, hfind⟩, -⟩ := ingestShared_spec hM (localEntry_id hl) h
      rw [hrow, Option.map_some] at hfind
      rw [valuesOf, valuesOf, hfind, hrow, Option.map_some, Option.map_some, sharedRow, hf.historyRow,
        hf.locatedRow, armRow_value hM hf.row hf.attachments hl]
      cases P.writtenEntry M pe.1 with
      | none => rfl
      | some e => rfl
  funext u
  unfold writtenAfter
  by_cases e : u = pe.1.id
  · subst e
    rw [hself]
    cases P.writtenEntry M pe.1 with
    | none => rfl
    | some e => simp only [Function.update_self]
  · rw [hothers u e]
    cases P.writtenEntry M pe.1 with
    | none => rfl
    | some e' => simp only [Function.update_of_ne e]

theorem ingestEntry_keeps_entry (hM : Lawful M) {st st' : Mirror × IngestPeerOutcome}
    {pe : Entry × Uuid} (h : P.ingestEntry M st pe = .ok st') {u : Uuid}
    (hu : u ∈ st.1.entries.keys) : u ∈ st'.1.entries.keys := by
  rw [← Table.find?_isSome] at hu ⊢
  by_cases e : u = pe.1.id
  · subst e
    unfold PeerPull.ingestEntry at h
    split at h
    · rcases ingestPeerOnly_spec h with ⟨-, rfl⟩ | ⟨-, -, -, -, hfind, -⟩
      · exact hu
      · rw [hfind]
        rfl
    · rename_i l hl
      obtain ⟨-, -, ⟨result, -, hfind⟩, -⟩ := ingestShared_spec hM (localEntry_id hl) h
      rw [hfind, Option.isSome_map]
      exact hu
  · rw [(ingestEntry_touches hM h).1.entries u e]
    exact hu

/-- **The values after the walk**: each entry written has the value of the last write. -/
theorem ingestEntries_values (hf : Follows f g) (hM : Lawful M) {l : List (Entry × Uuid)}
    {st st' : Mirror × IngestPeerOutcome}
    (hlocal : ∀ u e, P.localEntry u = some e → u ∈ st.1.entries.keys)
    (h : l.foldlM (P.ingestEntry M) st = .ok st') :
    valuesOf f st'.1 = l.foldl (writtenAfter M P g) (valuesOf f st.1) := by
  induction l generalizing st with
  | nil =>
    obtain rfl := Except.ok.inj h
    rfl
  | cons pe l ih =>
    rw [List.foldlM_cons] at h
    obtain ⟨mid, hmid, h⟩ := except_bind_ok.1 h
    rw [List.foldl_cons, ← ingestEntry_values hf hM (fun e he => hlocal _ e he) hmid]
    exact ih (fun u e he => ingestEntry_keeps_entry hM hmid (hlocal u e he)) h

/-- The local vault is the mirror's: the groups' pass leaves its entries in the mirror. -/
theorem localEntry_keys {m m' : Mirror} (hv : m.project = .ok P.localVault)
    (he : m'.entries = m.entries) {u : Uuid} {e : Entry} (hl : P.localEntry u = some e) :
    u ∈ m'.entries.keys := by
  obtain ⟨row, hrow, -⟩ := localEntry_row hv hl
  rw [he]
  exact Table.exists_find?.1 ⟨row, hrow⟩

/-- **The values after a pull** are those after the walk, for the entries that are left. -/
theorem ingestPeer_values (hf : Follows f g) (hM : Lawful M) {ord : HashOrder} {m : Mirror}
    {st : Mirror × IngestPeerOutcome} (hv : m.project = .ok P.localVault)
    (h : ingestPeer M ord P m = .ok st) {u : Uuid} {x : β} (hx : valuesOf f st.1 u = some x) :
    P.peer.entriesWithParent.foldl (writtenAfter M P g) (valuesOf f m) u = some x := by
  obtain ⟨st₁, st₂, -, hsame, -, -, h₂, -, -, -, hentries, -⟩ := ingestPeer_steps hM h
  have hwalk := ingestEntries_values hf hM
    (fun u e he => localEntry_keys hv hsame.entries he) h₂
  have hfirst : valuesOf f st₁.1 = valuesOf f m := by
    funext u
    rw [valuesOf, valuesOf, hsame.entries]
  rw [hfirst] at hwalk
  rw [← hwalk]
  rw [valuesOf, hentries u] at hx
  split at hx
  · cases hx
  · exact hx

end Walk

end KeysCore.Verify
