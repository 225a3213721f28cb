import KeysCore.Verify.EntryLocation
import KeysCore.Verify.SyncRuns

/-!
# A relocation that is the newest

Entries and groups are placed by a stamp and a parent (`Placed.place`), and a file shows the place
its mirror holds (`Placed.shown_project`). One ingest leaves the held place or the shown one, the
newer of the two when nothing hinders it (`pull_place`). So a move stamped later than every stamp
around reaches each replica that ingests it, and no older file takes it back
(`newest_move_wins`). What hinders is named in `Unhindered`; `recycle_group` writes no stamp at all
(`StructuralOp.Stamps`).
-/

namespace KeysCore.Verify

open Lib Lib.Forest

/-! ## Places -/

/-- An entry or a group. -/
inductive Placed where
  | entry (u : Uuid)
  | group (u : Uuid)
deriving DecidableEq

namespace Placed

def uuid : Placed → Uuid
  | entry u => u
  | group u => u

end Placed

/-- The stamp and the group of an entry's location. -/
def EntryLocation.place (l : EntryLocation) : GroupLocation :=
  toLex ((ofLex l).1, ((ofLex (ofLex l).2).1 : WithBot Uuid))

/-- The stamp of a place. -/
def GroupLocation.stamp (l : GroupLocation) : WithBot EpochMs := (ofLex l).1

namespace Placed

/-- Where a mirror has it. -/
def place (m : Mirror) : Placed → Option GroupLocation
  | entry u => (entryLocationOf m u).map EntryLocation.place
  | group u => locationOf m u

/-- Where a file has it. -/
def shown (v : Vault) : Placed → Option GroupLocation
  | entry u => (v.entriesWithParent.find? (·.1.id = u)).map fun pe =>
      EntryLocation.place (pe.1.location pe.2)
  | group u => peerLocation u v

end Placed

theorem find_entryWithParent {v : Vault} (hnd : (v.entries.map (·.id)).Nodup) {e : Entry} {g : Uuid}
    (h : (e, g) ∈ v.entriesWithParent) :
    v.entriesWithParent.find? (·.1.id = e.id) = some (e, g) := by
  cases hfind : v.entriesWithParent.find? (·.1.id = e.id) with
  | none => simpa using List.find?_eq_none.1 hfind _ h
  | some x =>
    have hid : x.1.id = e.id := by simpa using List.find?_some hfind
    rw [List.inj_on_of_nodup_map (nodup_entriesWithParent hnd) (List.mem_of_find?_eq_some hfind) h hid]

theorem find_entryWithParent_none {v : Vault} {u : Uuid} (h : u ∉ v.entries.map (·.id)) :
    v.entriesWithParent.find? (·.1.id = u) = none := by
  rw [List.find?_eq_none]
  rintro ⟨e, g⟩ hmem
  simp only [decide_eq_true_eq]
  rintro rfl
  exact h (List.mem_map.2 ⟨e, mem_entries hmem, rfl⟩)

/-- A projection shows where the mirror has it. The root is nowhere. -/
theorem Placed.shown_project {m : Mirror} {r : Uuid} {v : Vault} (hr : RootedAt m r)
    (hv : m.project = .ok v) {o : Placed} (ho : o ≠ .group r) : o.shown v = o.place m := by
  have ha := project_attaches (groupTree_iff.2 ⟨r, hr⟩) hv
  cases o with
  | entry u =>
    cases hrow : m.entries.find? u with
    | none =>
      have hnot : u ∉ v.entries.map (·.id) := by
        rw [ha.mem_entry_ids]
        exact Table.find?_eq_none.1 hrow
      rw [shown, find_entryWithParent_none hnot, place, entryLocationOf, hrow]
      rfl
    | some row =>
      obtain ⟨hmem, rfl⟩ := Table.find?_eq_some.1 hrow
      have hpe : (row.toEntry, row.groupUuid) ∈ v.entriesWithParent :=
        ha.mem_entriesWithParent.2 ⟨row, hmem, rfl, rfl⟩
      have hfind := find_entryWithParent ha.entry_ids_nodup hpe
      rw [shown, show row.uuid = row.toEntry.id from rfl, hfind, place, entryLocationOf,
        show row.toEntry.id = row.uuid from rfl, hrow, Option.map_some, Option.map_some,
        Option.map_some, toEntry_location]
  | group u =>
    cases hrow : m.groups.find? u with
    | none =>
      rw [shown, peerLocation, ha.find_group_none hrow, place, locationOf, hrow]
      rfl
    | some row =>
      obtain ⟨f, hf, hi, hp⟩ := ha.find_group hrow
      obtain ⟨hmem, rfl⟩ := Table.find?_eq_some.1 hrow
      obtain ⟨p, hpar⟩ : ∃ p, row.parentUuid = some p := by
        rw [← Option.isSome_iff_exists, Option.isSome_iff_ne_none]
        intro hn
        refine ho (congrArg Placed.group (hr.eq_root (Table.key_mem hmem) ?_))
        rw [parentOf_of_mem hmem, hn]
      rw [shown, peerLocation, hf, Option.bind_some, hp, hi, hpar, Option.map_some,
        toInfo_location hpar, place, locationOf, hrow, Option.map_some]

/-! ## One ingest -/

/-- The place an ingest leaves, of the one held and the one shown: one of the two, and the newer one
when their stamps differ. -/
structure Newer (held shown left : Option GroupLocation) : Prop where
  of_not_held : held = none → left = shown
  of_not_shown : shown = none → left = held
  either : ∀ l q, held = some l → shown = some q → left = some l ∨ left = some q
  older : ∀ l q, held = some l → shown = some q →
    GroupLocation.stamp q < GroupLocation.stamp l → left = some l
  newer : ∀ l q, held = some l → shown = some q →
    GroupLocation.stamp l < GroupLocation.stamp q → left = some q

/-- An ingest that lets the newer place through: the object is not deleted on either side; the
verdict on an entry keeps its location; a group is not re-rooted to break a cycle, and no newer
place of it names the parent it has. -/
def Unhindered (M : MergeLib) (o : Placed) (P : PeerPull) (m : Mirror) : Prop :=
  m.tombstones.find? o.uuid = none ∧ tombstoneTime P.peer.deletedObjects o.uuid = none ∧
    match o with
    | .entry u => ∀ row p parent, m.entries.find? u = some row →
        (p, parent) ∈ P.peer.entriesWithParent → p.id = u → KeepsLocation M P row p parent
    | .group u => ¬ CycleMin (mergedParent m P.peer) u ∧
        ∀ l q, locationOf m u = some l → peerLocation u P.peer = some q → l < q →
          GroupLocation.parent l ≠ GroupLocation.parent q

theorem stamp_le_of_le {l q : GroupLocation} (h : l ≤ q) :
    GroupLocation.stamp l ≤ GroupLocation.stamp q := Prod.Lex.monotone_fst _ _ h

theorem place_stamp_le_of_le {l q : EntryLocation} (h : l ≤ q) :
    GroupLocation.stamp (EntryLocation.place l) ≤ GroupLocation.stamp (EntryLocation.place q) :=
  show (ofLex l).1 ≤ (ofLex q).1 from Prod.Lex.monotone_fst l q h

theorem Newer.of_none (q : Option GroupLocation) : Newer none q q := by
  refine ⟨fun _ => rfl, fun h => h, ?_, ?_, ?_⟩
  all_goals
    intro l q' h
    cases h

theorem Newer.of_not_offered (l : Option GroupLocation) : Newer l none l := by
  refine ⟨fun h => h, fun _ => rfl, ?_, ?_, ?_⟩
  all_goals
    intro l' q _ h
    cases h

theorem newer_offer {l q left : GroupLocation}
    (hlab : l < q → GroupLocation.parent l ≠ GroupLocation.parent q)
    (h : left = offer GroupLocation.parent l q) : Newer (some l) (some q) (some left) := by
  have hleft : left = l ∧ q ≤ l ∨ left = q ∧ l < q := by
    rw [h]
    rcases le_or_gt q l with hle | hlt
    · exact .inl ⟨if_pos (.inl hle), hle⟩
    · exact .inr ⟨if_neg (not_or.2 ⟨not_le.2 hlt, hlab hlt⟩), hlt⟩
  refine ⟨nofun, nofun, ?_, ?_, ?_⟩
  · rintro _ _ ⟨⟩ ⟨⟩
    exact hleft.imp (fun h => congrArg some h.1) (fun h => congrArg some h.1)
  · rintro _ _ ⟨⟩ ⟨⟩ hlt
    rcases hleft with ⟨rfl, -⟩ | ⟨-, hle⟩
    · rfl
    · exact absurd hlt (not_lt.2 (stamp_le_of_le hle.le))
  · rintro _ _ ⟨⟩ ⟨⟩ hlt
    rcases hleft with ⟨-, hle⟩ | ⟨rfl, -⟩
    · exact absurd hlt (not_lt.2 (stamp_le_of_le hle))
    · rfl

theorem newer_max (l q : EntryLocation) :
    Newer (some (EntryLocation.place l)) (some (EntryLocation.place q))
      (some (EntryLocation.place (max l q))) := by
  refine ⟨nofun, nofun, ?_, ?_, ?_⟩
  · rintro _ _ ⟨⟩ ⟨⟩
    rcases max_choice l q with h | h
    · exact .inl (by rw [h])
    · exact .inr (by rw [h])
  · rintro _ _ ⟨⟩ ⟨⟩ hlt
    rw [max_eq_left]
    exact le_of_not_ge fun h => absurd hlt (not_lt.2 (place_stamp_le_of_le h))
  · rintro _ _ ⟨⟩ ⟨⟩ hlt
    rw [max_eq_right]
    exact le_of_not_ge fun h => absurd hlt (not_lt.2 (place_stamp_le_of_le h))

section Pull

variable {M : MergeLib} {m : Mirror} {r : Uuid} {P : PeerPull} {ord : HashOrder}
  {st : Mirror × IngestPeerOutcome}

theorem pull_entry_place (hM : Lawful M) (hr : RootedAt m r) (hf : FileOf r P.peer)
    (hv : m.project = .ok P.localVault) {u : Uuid} (hun : Unhindered M (.entry u) P m)
    (h : ingestPeer M ord P m = .ok st) :
    Newer ((Placed.entry u).place m) ((Placed.entry u).shown P.peer) ((Placed.entry u).place st.1) := by
  obtain ⟨hhere, hthere, hkeep⟩ := hun
  have hpeer := hf.peerOf hr
  have ha := project_attaches (groupTree_iff.2 ⟨r, hr⟩) hv
  by_cases hu : u ∈ P.peer.entries.map (·.id)
  · rw [← entriesWithParent_map_fst, List.map_map] at hu
    obtain ⟨⟨p, parent⟩, hpe, rfl⟩ := List.mem_map.1 hu
    have hshown : (Placed.entry p.id).shown P.peer = some (EntryLocation.place (p.location parent)) := by
      rw [Placed.shown, find_entryWithParent hf.entries hpe]
      rfl
    show Newer ((Placed.entry p.id).place m) ((Placed.entry p.id).shown P.peer)
      ((Placed.entry p.id).place st.1)
    rw [hshown]
    cases hrow : m.entries.find? p.id with
    | some row =>
      have hplace : (Placed.entry p.id).place m = some (EntryLocation.place row.location) := by
        rw [Placed.place, entryLocationOf, hrow]
        rfl
      have hjoin := (pull_location_iff hM hpeer hv hf.entries hpe hrow h).2
        (hkeep row p parent hrow hpe rfl)
      rw [hplace, Placed.place, hjoin]
      exact newer_max row.location (p.location parent)
    | none =>
      -- nothing here tombstones it, so it is added where the peer has it
      have hl : P.localEntry p.id = none := by
        rw [ha.localEntry rfl, hrow]
        rfl
      have hnot : ¬ Blocked P p := by
        rintro ⟨d, hd, -⟩
        rw [project_tombstoneTime hv, show m.tombstones.find? p.id = none from hhere] at hd
        cases hd
      obtain ⟨st₁, h₁, ⟨hb, -⟩ | ⟨-, hfind, -⟩⟩ := ingestPeer_peerOnly hM hf.entries hpe hl h
      · exact absurd hb hnot
      · obtain ⟨f, hfm, hfg⟩ := mem_groups_of_entry hpe
        rw [if_pos (hfg ▸ hpeer.group_mem h₁ hfm)] at hfind
        have hplace : (Placed.entry p.id).place m = none := by
          rw [Placed.place, entryLocationOf, hrow]
          rfl
        rw [hplace, Placed.place, entryLocationOf, hfind, Option.map_some, Option.map_some,
          toRow_location]
        exact Newer.of_none _
  · obtain ⟨st₁, -, hfind, -⟩ := ingestPeer_absent hM hu h
    have hnot : ¬ DeletedByPeer P u := by
      rintro ⟨l, d, -, hd, -⟩
      rw [show tombstoneTime P.peer.deletedObjects u = none from hthere] at hd
      cases hd
    rw [if_neg hnot] at hfind
    rw [show (Placed.entry u).shown P.peer = none by
      rw [Placed.shown, find_entryWithParent_none hu]; rfl, Placed.place, Placed.place,
      entryLocationOf, entryLocationOf, hfind]
    exact Newer.of_not_offered _

theorem location_mergeRow (f : FlatGroup) (row : GroupRow) :
    (mergeRow f row).location = (relocateRow f row).location := by
  have hmeta : (mergeMetadata f.info row).location = row.location := by
    unfold mergeMetadata
    split <;> rfl
  unfold mergeRow relocateRow
  cases f.parent with
  | none => exact hmeta
  | some p => rw [location_mergeLocation, location_mergeLocation, hmeta]

/-- The location of a group before cycles are broken. -/
theorem mergedRow_location (hf : FileOf r P.peer) {u : Uuid} (hu : u ≠ r) :
    (mergedRow m P.peer u).map (·.location) =
      match locationOf m u with
      | none => peerLocation u P.peer
      | some l => some (offerFrom GroupLocation.parent (peerLocation u) l P.peer) := by
  unfold mergedRow locationOf
  cases hrow : m.groups.find? u with
  | some row =>
    rw [Option.some_or, Option.map_some, Option.map_some, Option.map_some]
    show some _ = some _
    rw [← location_mergeFrom]
    unfold mergeFrom
    cases P.peer.groups.find? (·.info.id = u) with
    | none => rfl
    | some f => exact congrArg some (location_mergeRow f row)
  | none =>
    have hroot : ¬ (decide ((rootNode P.peer).info.id = u)) = true := by
      rw [decide_eq_true_eq]
      rintro rfl
      exact hu hf.root
    have hfind : P.peer.groups.find? (·.info.id = u) = (belowRoot P.peer).find? (·.info.id = u) := by
      rw [groups_eq_cons, List.find?_cons_of_neg (p := fun x : FlatGroup => x.info.id = u) hroot]
    rw [Option.none_or, Option.map_none, adoptedRow]
    show _ = peerLocation u P.peer
    unfold mergeFrom peerLocation
    rw [hfind]
    cases hg : (belowRoot P.peer).find? (·.info.id = u) with
    | none => rfl
    | some f =>
      obtain ⟨p, hp⟩ := Option.isSome_iff_exists.1
        ((parentsFirst_belowRoot P.peer).parent_isSome (List.mem_of_find?_eq_some hg))
      show some (mergeRow f f.toRow).location = f.parent.map f.info.location
      rw [mergeRow_toRow, hp, Option.map_some]
      have hms : (f.info.times.locationChanged.map (·.timestampMillis)).map (·.floorSecond) =
          f.info.locationMs := by
        simp [GroupInfo.locationMs, DateTime.floorToSecond, Option.map_map, Function.comp_def]
      show some (toLex (optKey ((f.info.times.locationChanged.map
        (·.timestampMillis)).map (·.floorSecond)), optKey f.parent)) = _
      rw [hms, hp]
      rfl

theorem pull_group_place (hM : Lawful M) (hr : RootedAt m r) (hf : FileOf r P.peer) {u : Uuid}
    (hu : u ≠ r) (hun : Unhindered M (.group u) P m) (h : ingestPeer M ord P m = .ok st) :
    Newer ((Placed.group u).place m) ((Placed.group u).shown P.peer) ((Placed.group u).place st.1) := by
  obtain ⟨hhere, hthere, hcycle, hlab⟩ := hun
  have hpeer := hf.peerOf hr
  obtain ⟨st₁, -, h₁, -, -, -, -, -, -, -, -, -, hkept, -⟩ := ingestPeer_steps hM h
  obtain ⟨st', hst', -, -, hfind⟩ :=
    hpeer.reconcile_spec ord {} ((hpeer.reconcile_ok_iff ord {}).1 ⟨st₁, h₁⟩)
  rw [h₁, Except.ok.injEq] at hst'
  subst hst'
  have hloc : locationOf st.1 u = (mergedRow m P.peer u).map (·.location) := by
    rw [hkept u hhere hthere, locationOf, hfind u, Option.map_map, canonical, if_neg hcycle,
      mergedParent]
    cases mergedRow m P.peer u <;> rfl
  rw [mergedRow_location hf hu] at hloc
  show Newer (locationOf m u) (peerLocation u P.peer) (locationOf st.1 u)
  rw [hloc]
  cases hl : locationOf m u with
  | none => exact Newer.of_none _
  | some l =>
    dsimp only
    unfold offerFrom
    cases hq : peerLocation u P.peer with
    | none => exact Newer.of_not_offered _
    | some q => exact newer_offer (hlab l q hl hq) rfl

/-- **An unhindered ingest leaves the newer place.** -/
theorem pull_place (hM : Lawful M) (hr : RootedAt m r) (hf : FileOf r P.peer)
    (hv : m.project = .ok P.localVault) {o : Placed} (ho : o ≠ .group r)
    (hun : Unhindered M o P m) (h : ingestPeer M ord P m = .ok st) :
    Newer (o.place m) (o.shown P.peer) (o.place st.1) := by
  cases o with
  | entry u => exact pull_entry_place hM hr hf hv hun h
  | group u => exact pull_group_place hM hr hf (fun e => ho (congrArg Placed.group e)) hun h

end Pull

/-! ## The operations -/

namespace StructuralOp

/-- What a relocating operation moves, and when. -/
def moves : StructuralOp → Option (Placed × EpochMs)
  | moveEntry u _ now => some (.entry u, now)
  | recycleEntry u now _ => some (.entry u, now)
  | restoreEntry u now => some (.entry u, now)
  | moveGroup u _ now => some (.group u, now)
  | recycleGroup u now => some (.group u, now)
  | _ => none

/-- The operation relocates and says so: the entry it recycles is outside the bin, and there is or
will be one; the entry it restores is in the bin. Recycling a group writes no stamp. -/
def Stamps (m : Mirror) : StructuralOp → Prop
  | moveEntry .. => True
  | recycleEntry u _ _ => ∀ row, m.entries.find? u = some row →
      m.groupInBinSubtree row.groupUuid = false ∧
        (m.recycleBinUuid.isSome = true ∨ m.readRecycleBinEnabled = true)
  | restoreEntry u _ => ∀ row, m.entries.find? u = some row →
      m.groupInBinSubtree row.groupUuid = true
  | moveGroup .. => True
  | _ => False

end StructuralOp

theorem ReplicaOf.rooted_of_entry {m : Mirror} {r u : Uuid} {row : EntryRow} (h : ReplicaOf r m)
    (hrow : m.entries.find? u = some row) : RootedAt m r := by
  refine h.resolve_right fun hnone => ?_
  have hmem := m.fkGroup row (Table.find?_mem hrow)
  rw [hnone] at hmem
  cases hmem

theorem ReplicaOf.rooted_of_group {m : Mirror} {r u : Uuid} (h : ReplicaOf r m)
    (hu : u ∈ m.groups.keys) : RootedAt m r := by
  refine h.resolve_right fun hnone => ?_
  rw [hnone] at hu
  cases hu

/-- The place of an entry that a statement put in `g` with the stamp `now`. -/
theorem placeEntry_place {m m' : Mirror} {u g : Uuid} {f : EntryRow → EntryRow}
    {hu : ∀ r, (f r).uuid = r.uuid} (h : m.placeEntry u g f hu = .ok m') {row : EntryRow}
    (hrow : m.entries.find? u = some row) {now : EpochMs}
    (hf : ∀ r, (f r).locationChangedAt = some now) :
    (Placed.entry u).place m' = some (toLex ((now.floorSecond : WithBot EpochMs), (g : WithBot Uuid))) := by
  rw [Placed.place, entryLocationOf, (placeEntry_row h).2, hrow]
  show some (EntryLocation.place (toLex (optKey ((f row).locationChangedAt.map (·.floorSecond)),
    toLex (g, _)))) = _
  rw [hf row]
  rfl

theorem setParent_row {m m' : Mirror} {u p : Uuid} {f : GroupRow → GroupRow}
    {hu : ∀ r, (f r).uuid = r.uuid} (h : m.setParent u p f hu = .ok m') (hp : p ∈ m.groups.keys) :
    m'.groups.find? u = (m.groups.find? u).map fun r => { f r with parentUuid := some p } := by
  unfold Mirror.setParent at h
  rw [dif_pos hp] at h
  obtain rfl := Except.ok.inj h
  have hfind := Table.find?_modify (f := fun r => { f r with parentUuid := some p }) hu m.groups u
  exact (hfind u).trans (if_pos rfl)

/-- A moved group is not the root, and the groups are a tree again. -/
theorem setParent_place {m m' : Mirror} {u p r : Uuid} {f : GroupRow → GroupRow}
    {hf : ∀ r, (f r).uuid = r.uuid} (h : m.setParent u p f hf = .ok m') (hm : ReplicaOf r m)
    (hu : u ∈ m.groups.keys) (hreach : ¬ Reach m.parentOf p u) {now : EpochMs}
    (hstamp : ∀ r, (f r).locationChangedAt = some now) :
    RootedAt m' r ∧ u ≠ r ∧ (Placed.group u).place m' =
      some (toLex ((now.floorSecond : WithBot EpochMs), (p : WithBot Uuid))) := by
  have hr := hm.rooted_of_group hu
  obtain ⟨hp, hkeys, hpar⟩ := setParent_ok h hu
  obtain ⟨row, hrow⟩ := Table.exists_find?.2 hu
  refine ⟨?_, ?_, ?_⟩
  · unfold RootedAt
    rw [hkeys, hpar]
    exact hr.setParent hp hreach
  · rintro rfl
    exact hreach (hr.reach_root hp)
  · rw [Placed.place, locationOf, setParent_row h hp, hrow]
    show some (toLex (optKey ((f row).locationChangedAt.map (·.floorSecond)), _)) = _
    rw [hstamp row]
    rfl

/-- **An operation that stamps leaves its object stamped with its own time.** -/
theorem StructuralOp.run_stamps {m m' : Mirror} {r : Uuid} {op : StructuralOp}
    (h : op.run m = .ok m') (hm : ReplicaOf r m) {o : Placed} {now : EpochMs}
    (ho : op.moves = some (o, now)) (hs : op.Stamps m) :
    RootedAt m' r ∧ o ≠ .group r ∧ ∃ g : Uuid,
      o.place m' = some (toLex ((now.floorSecond : WithBot EpochMs), (g : WithBot Uuid))) := by
  have placed : ∀ {a : Mirror} {u g : Uuid} {row : EntryRow} {f : EntryRow → EntryRow}
      {hu : ∀ r, (f r).uuid = r.uuid} {t : EpochMs}, RootedAt a r → a.entries.find? u = some row →
      a.placeEntry u g f hu = .ok m' → (∀ r, (f r).locationChangedAt = some t) →
      some (Placed.entry u, t) = some (o, now) →
      RootedAt m' r ∧ o ≠ .group r ∧ ∃ g : Uuid,
        o.place m' = some (toLex ((now.floorSecond : WithBot EpochMs), (g : WithBot Uuid))) := by
    intro a u g row f hu t hr hrow hplace hf ho
    obtain ⟨rfl, rfl⟩ := Prod.mk.inj (Option.some.inj ho)
    exact ⟨(SameParents.of_groups (placeEntry_groups hplace)).rooted hr, Placed.noConfusion, g,
      placeEntry_place hplace hrow hf⟩
  cases run_commits h with
  | moveGroup hu hreach hset =>
    obtain ⟨rfl, rfl⟩ := Prod.mk.inj (Option.some.inj ho)
    obtain ⟨hr, hne, hplace⟩ := setParent_place hset hm hu hreach fun _ => rfl
    exact ⟨hr, fun e => hne (Placed.group.inj e), _, hplace⟩
  | moveEntry hrow hplace => exact placed (hm.rooted_of_entry hrow) hrow hplace (fun _ => rfl) ho
  | recycled hrow _ _ hplace => exact placed (hm.rooted_of_entry hrow) hrow hplace (fun _ => rfl) ho
  | @recycledNew u _ _ row a _ hrow _ _ _ hbin hplace =>
    have hrow' : a.entries.find? u = some row := by
      rw [createRecycleBinGroup_entries hbin]
      exact hrow
    exact placed (createRecycleBinGroup_rooted hbin (hm.rooted_of_entry hrow)) hrow' hplace
      (fun _ => rfl) ho
  | restored hrow _ _ hplace => exact placed (hm.rooted_of_entry hrow) hrow hplace (fun _ => rfl) ho
  -- the other branches move nothing, or leave the object where it is
  | inBin hrow hin => simp [(hs _ hrow).1] at hin
  | deleted hrow _ hbin hen => simpa [hbin, hen] using (hs _ hrow).2
  | unflagged hrow hin _ => simp [hs _ hrow] at hin
  | outside hrow hin _ => simp [hs _ hrow] at hin
  | recycleGroup => exact hs.elim
  | createGroup => cases ho
  | reorderGroup => cases ho
  | deleteGroup => cases ho
  | noBin => cases ho
  | emptyBin => cases ho
  | setBin => cases ho
  | clearBin => cases ho

/-! ## Runs -/

/-- Replica `i` moved something and holds `m` now; what is ingested counts from here. -/
def World.afterMove {ι : Type} [DecidableEq ι] (w : World ι) (i : ι) (m : Mirror) : World ι where
  mirror := Function.update w.mirror i m
  files := w.files
  ingested := fun _ => []

section Runs

variable {ι : Type}

/-- Nothing is newer than `W`, and the mover and those who ingested `W` have it. -/
def Informed (o : Placed) (W : GroupLocation) (mover i : ι) (vs : List Vault) (m : Mirror) : Prop :=
  (∀ l, o.place m = some l → l = W ∨ GroupLocation.stamp l < GroupLocation.stamp W) ∧
    ((i = mover ∨ ∃ v ∈ vs, o.shown v = some W) → o.place m = some W)

/-- An unhindered ingest of a file with nothing newer than `W` keeps this. -/
theorem Informed.pull {M : MergeLib} (hM : Lawful M) {m : Mirror} {r : Uuid} {P : PeerPull}
    {ord : HashOrder} {st : Mirror × IngestPeerOutcome} (hr : RootedAt m r) (hf : FileOf r P.peer)
    (hv : m.project = .ok P.localVault) {o : Placed} (ho : o ≠ .group r)
    (hun : Unhindered M o P m) (h : ingestPeer M ord P m = .ok st) {W : GroupLocation}
    {mover i : ι} {vs : List Vault} (hm : Informed o W mover i vs m)
    (hshown : ∀ l, o.shown P.peer = some l → l = W ∨ GroupLocation.stamp l < GroupLocation.stamp W) :
    Informed o W mover i (P.peer :: vs) st.1 := by
  have hnew := pull_place hM hr hf hv ho hun h
  obtain ⟨hbound, hhas⟩ := hm
  constructor
  · intro l hl
    cases hh : o.place m with
    | none => exact hshown l ((hnew.of_not_held hh).symm.trans hl)
    | some a =>
      cases hs : o.shown P.peer with
      | none => exact hbound l ((hnew.of_not_shown hs).symm.trans hl)
      | some q =>
        rcases hnew.either a q hh hs with e | e
        · exact hbound l (hh.trans (e.symm.trans hl))
        · exact hshown l (hs.trans (e.symm.trans hl))
  · intro hi
    -- the mover and earlier ingests of `W` have it and keep it; a first ingest of `W` takes it
    have hcases : o.place m = some W ∨ o.shown P.peer = some W := by
      rcases hi with hi | ⟨v, hv, hvW⟩
      · exact .inl (hhas (.inl hi))
      · rcases List.mem_cons.1 hv with rfl | hv
        · exact .inr hvW
        · exact .inl (hhas (.inr ⟨v, hv, hvW⟩))
    rcases hcases with hh | hs
    · cases hs : o.shown P.peer with
      | none => exact (hnew.of_not_shown hs).trans hh
      | some q =>
        rcases hshown q hs with rfl | hlt
        · exact (hnew.either q q hh hs).elim id id
        · exact hnew.older W q hh hs hlt
    · cases hh : o.place m with
      | none => exact (hnew.of_not_held hh).trans hs
      | some l =>
        rcases hbound l hh with rfl | hlt
        · exact (hnew.either l l hh hs).elim id id
        · exact hnew.newer l W hh hs hlt

/-- **A move stamped later than every other stamp of its object is where the mover and every replica
that ingested the moved vault have the object, in every state a run reaches.** -/
theorem newest_move_wins [DecidableEq ι] {M : MergeLib} (hM : Lawful M) {r : Uuid} {w : World ι}
    (hw : w.Sound r) {mover : ι} {op : StructuralOp} {o : Placed} {now : EpochMs} {m : Mirror}
    (hop : op.run (w.mirror mover) = .ok m) (hmoves : op.moves = some (o, now))
    (hstamps : op.Stamps (w.mirror mover))
    (hmirrors : ∀ i l, o.place (w.mirror i) = some l → GroupLocation.stamp l < now.floorSecond)
    (hfiles : ∀ v ∈ w.files, ∀ l, o.shown v = some l → GroupLocation.stamp l < now.floorSecond)
    {w' : World ι} (hrun : SyncRun M (Unhindered M o) (w.afterMove mover m) w') {v : Vault}
    (hv : m.project = .ok v) {i : ι} (hi : i = mover ∨ v ∈ w'.ingested i) :
    (o.place m).isSome = true ∧ o.place (w'.mirror i) = o.place m := by
  obtain ⟨hr, ho, g, hplace⟩ := op.run_stamps hop (hw.mirrors mover) hmoves hstamps
  have hsound : (w.afterMove mover m).Sound r := by
    refine ⟨fun j => ?_, hw.files⟩
    show ReplicaOf r (Function.update w.mirror mover m j)
    rw [Function.update_apply]
    split
    · exact .inl hr
    · exact hw.mirrors j
  have hstart : ∀ j, Informed o (toLex ((now.floorSecond : WithBot EpochMs), (g : WithBot Uuid)))
      mover j [] (Function.update w.mirror mover m j) := by
    intro j
    by_cases e : j = mover
    · subst e
      rw [Function.update_self]
      refine ⟨fun l hl => .inl ?_, fun _ => hplace⟩
      rw [hplace] at hl
      exact (Option.some.inj hl).symm
    · rw [Function.update_of_ne e]
      refine ⟨fun l hl => .inr (hmirrors j l hl), ?_⟩
      rintro (hj | ⟨v, hv, -⟩)
      · exact absurd hj e
      · cases hv
  obtain ⟨-, hI, -⟩ := SyncRun.invariant hM (I := Informed o _ mover)
    (F := fun v => ∀ l, o.shown v = some l →
      l = toLex ((now.floorSecond : WithBot EpochMs), (g : WithBot Uuid)) ∨
        GroupLocation.stamp l < now.floorSecond)
    (fun j vs a x hra hinf hx l hl => hinf.1 l (by rw [← Placed.shown_project hra hx ho]; exact hl))
    (fun j vs a P ord st hra hf hinf hF hx hun hst =>
      hinf.pull hM hra hf hx ho hun hst hF)
    hsound hstart (fun x hx l hl => .inr (hfiles x hx l hl)) hrun
  rw [hplace]
  refine ⟨rfl, (hI i).2 (hi.imp_right fun hmem => ⟨v, hmem, ?_⟩)⟩
  rw [Placed.shown_project hr hv ho, hplace]

end Runs

/-! ## Two replicas -/

/-- Entry `9` in group `2` on both replicas since the second `1`. -/
def twoReplicas : World Bool where
  mirror := fun _ => filedMirror "a" 2 two_filed (.atSecond 1) (.atSecond 1) none
  files := []
  ingested := fun _ => []

theorem Unhindered.of_inSync {M : MergeLib} {P : PeerPull} {m : Mirror} {u g : Uuid} {row : EntryRow}
    {q : Entry} (hhere : m.tombstones.find? u = none)
    (hthere : tombstoneTime P.peer.deletedObjects u = none) (hrow : m.entries.find? u = some row)
    (hshows : P.peer.entriesWithParent = [(q, g)]) (hc : M.classify row.toEntry q = .inSync) :
    Unhindered M (.entry u) P m := by
  refine ⟨hhere, hthere, fun row' p parent hrow' hpe _ => ?_⟩
  rw [hrow] at hrow'
  rw [hshows] at hpe
  obtain ⟨rfl, rfl⟩ := Prod.mk.inj (List.mem_singleton.1 hpe)
  obtain rfl := Option.some.inj hrow'
  exact .of_inSync hc

/-- One replica moves the entry to group `3` at the second `20`, the other ingests the result. -/
theorem newest_move_wins_two_replicas :
    let A := (StructuralOp.moveEntry 9 3 (.atSecond 20)).next (twoReplicas.mirror false)
    let stB := afterPull fieldMerge .insertion "A" (.atSecond 30) (view A) (twoReplicas.mirror true)
    ((Placed.entry 9).place A).isSome = true ∧
      (Placed.entry 9).place stB.1 = (Placed.entry 9).place A := by
  intro A stB
  let B := twoReplicas.mirror true
  have hr := filedMirror_rooted "a" 2 (by decide) (.atSecond 1) (.atSecond 1) none
  have hvA : A.project = .ok (view A) := project_view (by decide +kernel)
  have hvB : B.project = .ok (view B) := project_view (by decide +kernel)
  have hstB : ingestPeer fieldMerge .insertion ⟨"A", view B, view A, .atSecond 30⟩ B = .ok stB :=
    ingestPeer_afterPull (by decide +kernel)
  have hshows : (view A).entriesWithParent = [(A.entries.rows[0].toEntry, 3)] := by decide +kernel
  have hrowB : B.entries.find? 9 = some B.entries.rows[0] := by decide +kernel
  have hsync : fieldMerge.classify B.entries.rows[0].toEntry A.entries.rows[0].toEntry = .inSync := by
    decide +kernel
  have hun : Unhindered fieldMerge (.entry 9) ⟨"A", view B, view A, .atSecond 30⟩ B :=
    .of_inSync (by decide +kernel) (by decide +kernel) hrowB hshows hsync
  have hold : ∀ i l, (Placed.entry 9).place (twoReplicas.mirror i) = some l →
      GroupLocation.stamp l < ((EpochMs.atSecond 20).floorSecond : WithBot EpochMs) := by
    intro i l hl
    have hplace : (Placed.entry 9).place B =
        some (toLex (((EpochMs.atSecond 1) : WithBot EpochMs), ((2 : Uuid) : WithBot Uuid))) := by
      decide +kernel
    obtain rfl := Option.some.inj (hplace.symm.trans hl)
    decide +kernel
  let w₁ := twoReplicas.afterMove false A
  have hpull : SyncStep fieldMerge (Unhindered fieldMerge (.entry 9)) (w₁.publish (view A))
      ((w₁.publish (view A)).pull true (view A) stB.1) :=
    .pull (i := true) (P := ⟨"A", view B, view A, .atSecond 30⟩) (List.mem_cons_self ..) hvB hun hstB
  have hrun : SyncRun fieldMerge (Unhindered fieldMerge (.entry 9)) w₁
      ((w₁.publish (view A)).pull true (view A) stB.1) :=
    (Relation.ReflTransGen.single (.publish (i := false) hvA)).tail hpull
  have hop : (StructuralOp.moveEntry 9 3 (.atSecond 20)).run (twoReplicas.mirror false) = .ok A :=
    StructuralOp.run_next (by decide +kernel)
  have hsound : twoReplicas.Sound 1 := ⟨fun _ => .inl hr, fun v hv => by cases hv⟩
  let w₂ := w₁.publish (view A)
  have h := newest_move_wins fieldMerge_lawful hsound hop rfl trivial hold (fun v hv => by cases hv)
    hrun hvA (.inr (w₂.mem_ingested_pull true (view A) stB.1))
  rwa [w₂.pull_mirror true (view A) stB.1] at h

/-- Group `5` under `3` since the second `1`, with `2` as the bin. -/
def binMirror : Mirror where
  groups := ⟨[
    { uuid := 1, parentUuid := none },
    { uuid := 2, parentUuid := some 1, isRecycleBin := true },
    { uuid := 3, parentUuid := some 1 },
    { uuid := 5, parentUuid := some 3, locationChangedAt := some (.atSecond 1) }], by decide⟩
  fkParent := by decide
  fkGroup := by decide

/-- One of two equal replicas recycles group `5` at the second `20`. Its stamp stays that of the second
`1`: the other replica, ingesting the result, keeps the group under `3`, and an ingest of the older
state takes it out of the bin again. -/
theorem recycled_group_comes_back :
    let A := (StructuralOp.recycleGroup 5 (.atSecond 20)).next binMirror
    let stB := afterPull fieldMerge .insertion "A" (.atSecond 30) (view A) binMirror
    let stA := afterPull fieldMerge .insertion "B" (.atSecond 30) (view binMirror) A
    (StructuralOp.recycleGroup 5 (.atSecond 20)).run binMirror = .ok A ∧ A.parentOf 5 = some 2 ∧
      ingestPeer fieldMerge .insertion ⟨"A", view binMirror, view A, .atSecond 30⟩ binMirror =
        .ok stB ∧ stB.1.parentOf 5 = some 3 ∧
      ingestPeer fieldMerge .insertion ⟨"B", view A, view binMirror, .atSecond 30⟩ A = .ok stA ∧
        stA.1.parentOf 5 = some 3 := by
  intro A stB stA
  exact ⟨StructuralOp.run_next (by decide +kernel), by decide +kernel,
    ingestPeer_afterPull (by decide +kernel), by decide +kernel,
    ingestPeer_afterPull (by decide +kernel), by decide +kernel⟩

end KeysCore.Verify
