import KeysCore.Verify.PeerPull

/-!
# Replicas that ingest each other's projections

What the projection of a mirror shows of an entry and of a tombstone, and a pull with the projection
of the mirror it runs on (`pullFrom`). A pull leaves a tree with the same root, unless it deletes the
root as an empty tombstoned group and with it everything (`ingestPeer_rooted`).
-/

namespace KeysCore.Verify

open Lib Lib.Forest

/-! ## Entries of a projection -/

section Attached

variable {m : Mirror} {v : Vault} (ha : Attached m v)

include ha

theorem Attached.mem_entriesWithParent {e : Entry} {g : Uuid} :
    (e, g) ∈ v.entriesWithParent ↔
      ∃ row ∈ m.entries.rows, e = row.toEntry ∧ g = row.groupUuid := by
  rw [ha.entries.mem_iff, List.mem_map]
  constructor
  · rintro ⟨row, hrow, he⟩
    obtain ⟨rfl, rfl⟩ := Prod.mk.inj he
    exact ⟨row, hrow, rfl, rfl⟩
  · rintro ⟨row, hrow, rfl, rfl⟩
    exact ⟨row, hrow, rfl⟩

theorem Attached.entries_perm : v.entries.Perm (m.entries.rows.map (·.toEntry)) := by
  have h := ha.entries.map Prod.fst
  rw [entriesWithParent_map_fst, List.map_map] at h
  exact h

theorem Attached.entry_ids_nodup : (v.entries.map (·.id)).Nodup := by
  have h := ha.entries_perm.map (·.id)
  rw [List.map_map] at h
  exact h.nodup_iff.2 m.entries.nodup

theorem Attached.mem_entry_ids {u : Uuid} : u ∈ v.entries.map (·.id) ↔ u ∈ m.entries.keys := by
  have h := ha.entries_perm.map (·.id)
  rw [List.map_map] at h
  exact h.mem_iff

/-- The local entry of a pull is the projection of its row. -/
theorem Attached.localEntry {P : PeerPull} (hP : P.localVault = v) (u : Uuid) :
    P.localEntry u = (m.entries.find? u).map (·.toEntry) := by
  unfold PeerPull.localEntry
  rw [hP]
  cases hrow : m.entries.find? u with
  | none =>
    rw [Option.map_none, List.find?_eq_none]
    intro e he
    rw [List.mem_reverse] at he
    simp only [decide_eq_true_eq]
    rintro rfl
    exact Table.find?_eq_none.1 hrow (ha.mem_entry_ids.1 (List.mem_map.2 ⟨e, he, rfl⟩))
  | some row =>
    obtain ⟨hmem, hkey⟩ := Table.find?_eq_some.1 hrow
    have hin : row.toEntry ∈ v.entries :=
      ha.entries_perm.mem_iff.2 (List.mem_map.2 ⟨row, hmem, rfl⟩)
    rw [Option.map_some]
    cases hfind : v.entries.reverse.find? (·.id = u) with
    | none =>
      have hne := List.find?_eq_none.1 hfind row.toEntry (List.mem_reverse.2 hin)
      exact absurd (show row.toEntry.id = u from hkey) (by simpa using hne)
    | some e =>
      have he : e.id = u := by simpa using List.find?_some hfind
      have hmem' : e ∈ v.entries := List.mem_reverse.1 (List.mem_of_find?_eq_some hfind)
      rw [List.inj_on_of_nodup_map ha.entry_ids_nodup hmem' hin (he.trans hkey.symm)]

end Attached

/-- The projection of another replica under the same root is a peer. -/
theorem PeerOf.of_project {m m' : Mirror} {r : Uuid} {v : Vault} (h : RootedAt m r)
    (h' : RootedAt m' r) (hv : m'.project = .ok v) : PeerOf m v := by
  have ha := project_attaches (groupTree_iff.2 ⟨r, h'⟩) hv
  exact ⟨ha.ids_nodup, by rw [ha.root_eq h']; exact h⟩

/-- An entry of a projected vault is the projection of a row. -/
theorem project_entry_row {m : Mirror} {v : Vault} (h : m.project = .ok v) {e : Entry}
    (he : e ∈ v.entries) : ∃ row ∈ m.entries.rows, e = row.toEntry := by
  obtain ⟨-, g, -, rfl⟩ := project_ok h
  have hgroups : (g.attach m.entriesOf).flatten = _ := collect_attach m.entriesOf none 0 g
  rw [Vault.entries, Vault.groups, hgroups, List.flatMap_map] at he
  obtain ⟨f, -, he⟩ := List.mem_flatMap.1 he
  obtain ⟨row, hrow, rfl⟩ := List.mem_map.1 he
  exact ⟨row, (List.mem_filter.1 hrow).1, rfl⟩

/-- An entry of the local vault has a row. -/
theorem localEntry_row {m : Mirror} {P : PeerPull} (h : m.project = .ok P.localVault) {u : Uuid}
    {l : Entry} (hl : P.localEntry u = some l) :
    ∃ row, m.entries.find? u = some row ∧ l = row.toEntry := by
  have hmem : l ∈ P.localVault.entries := by
    have := List.mem_of_find?_eq_some hl
    rwa [List.mem_reverse] at this
  obtain ⟨row, hrow, rfl⟩ := project_entry_row h hmem
  have hid : row.uuid = u := localEntry_id hl
  exact ⟨row, by rw [← hid]; exact Table.find?_of_mem hrow, rfl⟩

/-! ## Tombstones of a projection -/

theorem project_deletedObjects {m : Mirror} {v : Vault} (h : m.project = .ok v) :
    v.deletedObjects = m.readDeletedObjects := by
  obtain ⟨-, g, -, rfl⟩ := project_ok h
  rfl

theorem tombstoneTime_of_nodup {l : List DeletedObject} (hnd : (l.map (·.uuid)).Nodup) (u : Uuid) :
    tombstoneTime l u = (l.find? (·.uuid = u)).map (·.deletedAt) := by
  unfold tombstoneTime
  induction l with
  | nil => rfl
  | cons d l ih =>
    rw [List.map_cons, List.nodup_cons] at hnd
    by_cases e : d.uuid = u
    · have hnil : l.filter (·.uuid = u) = [] := by
        rw [List.filter_eq_nil_iff]
        intro x hx hxu
        refine hnd.1 (List.mem_map.2 ⟨x, hx, ?_⟩)
        rw [e]
        simpa using hxu
      rw [List.filter_cons_of_pos (by simpa using e), hnil, List.find?_cons_of_pos (by simpa using e)]
      rfl
    · rw [List.filter_cons_of_neg (by simpa using e), List.find?_cons_of_neg (by simpa using e)]
      exact ih hnd.2

/-- The tombstone a projection shows is the row's, at the resolution of the column. -/
theorem project_tombstoneTime {m : Mirror} {v : Vault} (h : m.project = .ok v) (u : Uuid) :
    tombstoneTime v.deletedObjects u =
      (m.tombstones.find? u).map fun r => r.deletedAt.map (·.toDateTime) := by
  have hperm : (m.tombstones.rows.insertionSort fun a b => a.uuid ≤ b.uuid).Perm m.tombstones.rows :=
    List.perm_insertionSort _ _
  let T : Table TombstoneRow.uuid :=
    ⟨m.tombstones.rows.insertionSort fun a b => a.uuid ≤ b.uuid,
      (hperm.map _).nodup_iff.2 m.tombstones.nodup⟩
  have hT : T.find? u = m.tombstones.find? u := by
    apply Option.ext
    intro r
    rw [Table.find?_eq_some, Table.find?_eq_some, hperm.mem_iff]
  rw [project_deletedObjects h, tombstoneTime_of_nodup, ← hT]
  · show ((T.rows.map fun r => (⟨r.uuid, r.deletedAt.map (·.toDateTime)⟩ : DeletedObject)).find? _).map
      _ = _
    rw [List.find?_map, Option.map_map]
    rfl
  · show ((T.rows.map fun r => (⟨r.uuid, r.deletedAt.map (·.toDateTime)⟩ : DeletedObject)).map
      _).Nodup
    rw [List.map_map]
    exact T.nodup

/-! ## A pull over the mirror's own projection -/

/-- Project the mirror and ingest the peer, with nothing in between. -/
def pullFrom (M : MergeLib) (ord : HashOrder) (owner : String) (now : DateTime) (peer : Vault)
    (m : Mirror) : Except EngineError (Mirror × IngestPeerOutcome) := do
  let localVault ← m.project
  ingestPeer M ord ⟨owner, localVault, peer, now⟩ m

/-- The vault a mirror projects to, one bare group when it does not. -/
def view (m : Mirror) : Vault := m.project.toOption.getD ⟨.node { id := 0 } [] [], {}, []⟩

theorem project_view {m : Mirror} (h : m.project.isOk = true) : m.project = .ok (view m) := by
  cases hp : m.project with
  | error e => rw [hp] at h; cases h
  | ok v => rw [view, hp]; rfl

/-- A pull over the mirror's own projection, the mirror itself when it fails. -/
def afterPull (M : MergeLib) (ord : HashOrder) (owner : String) (now : DateTime) (peer : Vault)
    (m : Mirror) : Mirror × IngestPeerOutcome :=
  (ingestPeer M ord ⟨owner, view m, peer, now⟩ m).toOption.getD (m, {})

theorem ingestPeer_afterPull {M : MergeLib} {ord : HashOrder} {owner : String} {now : DateTime}
    {peer : Vault} {m : Mirror} (h : (ingestPeer M ord ⟨owner, view m, peer, now⟩ m).isOk = true) :
    ingestPeer M ord ⟨owner, view m, peer, now⟩ m = .ok (afterPull M ord owner now peer m) := by
  cases hp : ingestPeer M ord ⟨owner, view m, peer, now⟩ m with
  | error e => rw [hp] at h; cases h
  | ok st => rw [afterPull, hp]; rfl

theorem mem_keys_of_locationOf {m : Mirror} {u : Uuid} :
    u ∈ m.groups.keys ↔ locationOf m u ≠ none := by
  rw [← Table.find?_isSome, locationOf, ← Option.isSome_iff_ne_none, Option.isSome_map]

theorem parentOf_of_locationOf {m m' : Mirror} {u : Uuid} (h : locationOf m' u = locationOf m u) :
    m'.parentOf u = m.parentOf u := by
  unfold locationOf at h
  rw [Mirror.parentOf, Mirror.parentOf, parentIn, parentIn]
  cases ha : m.groups.find? u with
  | none =>
    rw [ha, Option.map_none, Option.map_eq_none_iff] at h
    rw [h]
  | some a =>
    rw [ha, Option.map_some] at h
    obtain ⟨b, hb, he⟩ := Option.map_eq_some_iff.1 h
    rw [hb]
    exact optKey_injective (Prod.mk.inj (congrArg ofLex he)).2

/-- Rows taken out of a rooted table leave a rooted table or none: a row keeps its parent. -/
theorem RootedAt.of_sub {m m' : Mirror} {r : Uuid} (h : RootedAt m r)
    (hsub : ∀ u, locationOf m' u = none ∨ locationOf m' u = locationOf m u) :
    RootedAt m' r ∨ m'.groups.keys = [] := by
  have hkeep : ∀ u ∈ m'.groups.keys, locationOf m' u = locationOf m u := fun u hu =>
    (hsub u).resolve_left (mem_keys_of_locationOf.1 hu)
  have hpar : ∀ u ∈ m'.groups.keys, m'.parentOf u = m.parentOf u := fun u hu =>
    parentOf_of_locationOf (hkeep u hu)
  have hold : ∀ u ∈ m'.groups.keys, u ∈ m.groups.keys := fun u hu =>
    mem_keys_of_locationOf.2 (hkeep u hu ▸ mem_keys_of_locationOf.1 hu)
  have hclosed : ∀ u p, u ∈ m'.groups.keys → m.parentOf u = some p → p ∈ m'.groups.keys :=
    fun u p hu hp => (mem_keys_of_parentOf ((hpar u hu).trans hp)).2
  by_cases hroot : r ∈ m'.groups.keys
  · exact .inl (Rooted.restrict h hold hroot hclosed hpar)
  · right
    rw [List.eq_nil_iff_forall_not_mem]
    intro u hu
    -- every row that is left has its whole chain of parents left, up to the root
    obtain ⟨k, hk⟩ := h.reach_root (hold u hu)
    refine hroot ?_
    clear hpar hkeep
    induction k generalizing u with
    | zero => exact (Option.some.inj hk) ▸ hu
    | succ k ih =>
      cases hp : m.parentOf u with
      | none => simp [up, hp] at hk
      | some p =>
        rw [up_succ_of_par hp] at hk
        exact ih p (hclosed u p hu hp) hk

/-- **A pull of a peer of the same replica set leaves a tree under the same root, or no group.** -/
theorem ingestPeer_rooted {M : MergeLib} (hM : Lawful M) {ord : HashOrder} {P : PeerPull}
    {m : Mirror} {st : Mirror × IngestPeerOutcome} (hpeer : PeerOf m P.peer)
    (h : ingestPeer M ord P m = .ok st) :
    RootedAt st.1 P.peer.root.id ∨ st.1.groups.keys = [] := by
  obtain ⟨st₁, -, h₁, -, -, -, -, -, -, -, -, -, -, hsub⟩ := ingestPeer_steps hM h
  exact (hpeer.reconcile_rooted h₁).of_sub hsub

end KeysCore.Verify
