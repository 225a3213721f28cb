import KeysCore.Lib.Offers
import KeysCore.Verify.GroupConvergence

/-!
# Relocations offered by any number of peers

A row's location is a register of `KeysCore.Lib.Offers`: `reconcile_group_location` takes a larger
location unless its parent is the one held, in which case the newer stamp is skipped. So ingesting a
list of peers in some order is a schedule of offers (`relocateAll_spec`), and
`relocations_order_independent_iff` says when every order and repetition ends with the largest
location.
-/

namespace KeysCore.Verify

open Lib

/-! ## One peer -/

/-- The location half of pass 2 for one group. -/
def relocateGroup (st : Mirror × IngestPeerOutcome) (f : FlatGroup) :
    Except EngineError (Mirror × IngestPeerOutcome) :=
  match f.parent with
  | none => .ok st
  | some p => reconcileGroupLocation f.info p st

/-- A peer's groups adopted and relocated. -/
def relocateFrom (st : Mirror × IngestPeerOutcome) (peer : Vault) :
    Except EngineError (Mirror × IngestPeerOutcome) := do
  let st ← peer.groups.foldlM adoptGroup st
  peer.groups.foldlM relocateGroup st

/-- A row after the location half of pass 2. -/
def relocateRow (f : FlatGroup) (row : GroupRow) : GroupRow :=
  match f.parent with
  | none => row
  | some p => mergeLocation f.info p row

theorem relocateGroup_spec (f : FlatGroup) (st : Mirror × IngestPeerOutcome)
    (hp : ∀ p ∈ f.parent, p ∈ st.1.groups.keys) :
    ∃ st', relocateGroup st f = .ok st' ∧ Rewrites st.1 st'.1 f.info.id (relocateRow f) := by
  unfold relocateGroup
  cases hpar : f.parent with
  | none =>
    refine ⟨st, rfl, .of_eq fun row _ => ?_⟩
    rw [relocateRow, hpar]
  | some p =>
    rw [show relocateRow f = mergeLocation f.info p from funext fun row => by rw [relocateRow, hpar]]
    exact reconcileGroupLocation_spec f.info st (hp p (by rw [hpar]; rfl))

/-- The location a peer gives the group `u`, unless `u` is its root or not one of its groups. -/
def peerLocation (u : Uuid) (peer : Vault) : Option GroupLocation :=
  (peer.groups.find? (·.info.id = u)).bind fun f => f.parent.map f.info.location

/-- The parent a location names. -/
def GroupLocation.parent (l : GroupLocation) : WithBot Uuid := (ofLex l).2

/-- The location pass is an offer to the row's location. -/
theorem location_mergeLocation (g : GroupInfo) (p : Uuid) (row : GroupRow) :
    (mergeLocation g p row).location =
      offer GroupLocation.parent row.location (g.location p) := by
  have hlabel : GroupLocation.parent row.location = GroupLocation.parent (g.location p) ↔
      row.parentUuid = some p := by
    show optKey row.parentUuid = optKey (some p) ↔ _
    exact optKey_injective.eq_iff
  unfold mergeLocation offer
  by_cases hkeep : g.location p ≤ row.location ∨ row.parentUuid = some p
  · rw [if_pos hkeep, if_pos (hkeep.imp_right hlabel.2)]
  · rw [if_neg hkeep, if_neg fun h => hkeep (h.imp_right hlabel.1)]
    have hfloor : g.locationMs.map (·.floorSecond) = g.locationMs := by
      simp [GroupInfo.locationMs, Option.map_map, Function.comp_def, DateTime.floorToSecond]
    show toLex (optKey (g.locationMs.map (·.floorSecond)), optKey (some p)) = g.location p
    rw [hfloor]
    rfl

theorem location_mergeFrom (peer : Vault) (u : Uuid) (row : GroupRow) :
    (mergeFrom relocateRow peer.groups u row).location =
      offerFrom GroupLocation.parent (peerLocation u) row.location peer := by
  unfold mergeFrom offerFrom peerLocation
  cases peer.groups.find? (·.info.id = u) with
  | none => rfl
  | some f =>
    cases hp : f.parent with
    | none => simp [relocateRow, hp]
    | some p => simp [relocateRow, hp, location_mergeLocation]

/-- One peer's relocations return, and offer each row here the peer's location. -/
theorem relocateFrom_spec {peer : Vault} (hnd : (peer.groups.map (·.info.id)).Nodup)
    (st : Mirror × IngestPeerOutcome) (hroot : peer.root.id ∈ st.1.groups.keys) :
    ∃ st', relocateFrom st peer = .ok st' ∧ ∀ u row, st.1.groups.find? u = some row →
      ∃ row', st'.1.groups.find? u = some row' ∧
        row'.location = offerFrom GroupLocation.parent (peerLocation u) row.location peer := by
  obtain ⟨mid, hmid, -, hfind⟩ := adopt_spec st hroot
  obtain ⟨st', hst', -, hfind'⟩ := foldlM_rewrites
    (P := fun f m => ∀ p ∈ f.parent, p ∈ m.groups.keys) relocateGroup_spec
    (fun hrew h p hp => hrew.mem_keys.2 (h p hp)) mid
    fun f hf p hp => parent_mem_of_adopted hroot hfind hf hp
  refine ⟨st', ?_, fun u row hrow => ⟨mergeFrom relocateRow peer.groups u row, ?_, ?_⟩⟩
  · unfold relocateFrom
    rw [hmid]
    exact hst'
  · rw [hfind', hfind, hrow, Option.some_or, Option.map_some, mergeAll_of_nodup hnd]
  · exact location_mergeFrom peer u row

/-! ## A schedule of peers -/

/-- **A run over peers of one root is a schedule of offers to each row's location.** -/
theorem relocateAll_spec {root : Uuid} {sched : List Vault}
    (hpeers : ∀ v ∈ sched, (v.groups.map (·.info.id)).Nodup ∧ v.root.id = root)
    (st : Mirror × IngestPeerOutcome) (hroot : root ∈ st.1.groups.keys) :
    ∃ st', sched.foldlM relocateFrom st = .ok st' ∧ ∀ u row, st.1.groups.find? u = some row →
      ∃ row', st'.1.groups.find? u = some row' ∧
        row'.location = sched.foldl (offerFrom GroupLocation.parent (peerLocation u)) row.location := by
  induction sched generalizing st with
  | nil => exact ⟨st, rfl, fun u row hrow => ⟨row, hrow, rfl⟩⟩
  | cons v sched ih =>
    obtain ⟨hnd, hv⟩ := hpeers v (by simp)
    obtain ⟨mid, hmid, hrows⟩ := relocateFrom_spec hnd st (hv ▸ hroot)
    have hroot' : root ∈ mid.1.groups.keys := by
      obtain ⟨row, hrow⟩ := Table.exists_find?.2 hroot
      obtain ⟨row', hrow', -⟩ := hrows root row hrow
      exact Table.exists_find?.1 ⟨row', hrow'⟩
    obtain ⟨st', hst', hrows'⟩ :=
      ih (fun w hw => hpeers w (List.mem_cons_of_mem _ hw)) mid hroot'
    refine ⟨st', ?_, fun u row hrow => ?_⟩
    · rw [List.foldlM_cons, hmid]
      exact hst'
    · obtain ⟨row₁, h₁, hloc₁⟩ := hrows u row hrow
      obtain ⟨row₂, h₂, hloc₂⟩ := hrows' u row₁ h₁
      exact ⟨row₂, h₂, by rw [hloc₂, hloc₁, List.foldl_cons]⟩

/-- The location of the group `u`. -/
def locationOf (m : Mirror) (u : Uuid) : Option GroupLocation :=
  (m.groups.find? u).map (·.location)

/-- **Every order and repetition of the peers leaves a group with the largest location, exactly when
no location that is neither below the local one nor the largest names the largest one's parent.** -/
theorem relocations_order_independent_iff {m : Mirror} {root u : Uuid} {row : GroupRow}
    {peers : List Vault} (hroot : root ∈ m.groups.keys)
    (hpeers : ∀ v ∈ peers, (v.groups.map (·.info.id)).Nodup ∧ v.root.id = root)
    (hrow : m.groups.find? u = some row) (out : IngestPeerOutcome) :
    (∀ sched : List Vault, (∀ v, v ∈ sched ↔ v ∈ peers) →
        ∃ st, sched.foldlM relocateFrom (m, out) = .ok st ∧
          locationOf st.1 u = some (best (peerLocation u) row.location peers)) ↔
      WinnerOnly GroupLocation.parent (peerLocation u) row.location peers := by
  rw [← offers_eq_best_iff]
  refine forall_congr' fun sched => forall_congr' fun hsched => ?_
  obtain ⟨st, hst, hrows⟩ := relocateAll_spec (fun v hv => hpeers v ((hsched v).1 hv)) (m, out) hroot
  obtain ⟨row', hrow', hloc⟩ := hrows u row hrow
  have hlocation : locationOf st.1 u =
      some (sched.foldl (offerFrom GroupLocation.parent (peerLocation u)) row.location) := by
    rw [locationOf, hrow', Option.map_some, hloc]
  constructor
  · rintro ⟨st', hst', hbest⟩
    rw [hst, Except.ok.injEq] at hst'
    subst hst'
    rw [hlocation, Option.some.injEq] at hbest
    exact hbest
  · intro hbest
    exact ⟨st, hst, by rw [hlocation, hbest]⟩

/-! ## Three replicas -/

/-- Groups `2` and `3` under root `1`, and group `4` under `2` since the second `1`. -/
def relocationMirror : Mirror where
  groups := ⟨[
    { uuid := 1, parentUuid := none },
    { uuid := 2, parentUuid := some 1 },
    { uuid := 3, parentUuid := some 1 },
    { uuid := 4, parentUuid := some 2, locationChangedAt := some (.atSecond 1) }], by decide⟩
  fkParent := by decide
  fkGroup := by decide

/-- A peer with the same groups, the group `4` as given. -/
def relocationPeer (under2 under3 : List GroupInfo) : Vault where
  root := .node { id := 1 } [] [
    .node { id := 2 } [] (under2.map fun g => .node g [] []),
    .node { id := 3 } [] (under3.map fun g => .node g [] [])]

/-- Group `4` as it was moved at the second `s`. -/
def movedAt (s : DateTime) : GroupInfo := { id := 4, times := { locationChanged := some s } }

/-- One peer moved group `4` under `3` at the second `3`, another had it under `2` a second before:
in any order it ends under `3`. -/
theorem relocations_order_independent_two_moves :
    let peers := [relocationPeer [] [movedAt (.atSecond 3)], relocationPeer [movedAt (.atSecond 2)] []]
    ∀ sched : List Vault, (∀ v, v ∈ sched ↔ v ∈ peers) →
      ∃ st, sched.foldlM relocateFrom (relocationMirror, {}) = .ok st ∧
        locationOf st.1 4 = some ((movedAt (.atSecond 3)).location 3) := by
  intro peers
  have hbest : best (peerLocation 4) ((movedAt (.atSecond 1)).location 2) peers =
      (movedAt (.atSecond 3)).location 3 := by decide
  rw [← hbest]
  have hrow : relocationMirror.groups.find? 4 = some relocationMirror.groups.rows[3] := by decide
  have hroot : 1 ∈ relocationMirror.groups.keys := by decide
  refine (relocations_order_independent_iff hroot (by decide) hrow {}).2 ?_
  rintro s ⟨-, hs⟩ hlab
  rcases hs with rfl | ⟨v, hv, hs⟩
  · exact absurd hlab (by decide)
  · rcases List.mem_cons.1 hv with rfl | hv
    · rw [← Option.some.inj hs]
      decide
    · rw [List.mem_singleton.1 hv] at hs
      rw [← Option.some.inj hs] at hlab
      exact absurd hlab (by decide)

/-- Group `4` moved back under `2` at the second `5` by one peer and under `3` at the second `3` by
another: with the newer peer first, its stamp is skipped and the older move wins. -/
theorem same_parent_skip_reverts_newest :
    let newest := relocationPeer [movedAt (.atSecond 5)] []
    let older := relocationPeer [] [movedAt (.atSecond 3)]
    let ends := fun sched : List Vault =>
      (sched.foldlM relocateFrom (relocationMirror, {})).map fun st => locationOf st.1 4
    best (peerLocation 4) ((movedAt (.atSecond 1)).location 2) [newest, older] =
        (movedAt (.atSecond 5)).location 2 ∧
      ends [older, newest] = .ok (some ((movedAt (.atSecond 5)).location 2)) ∧
      ends [newest, older] = .ok (some ((movedAt (.atSecond 3)).location 3)) := by
  intro newest older ends
  exact ⟨by decide, by decide, by decide⟩

end KeysCore.Verify
