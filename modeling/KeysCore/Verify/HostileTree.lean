import KeysCore.Verify.BreakCycles
import KeysCore.Verify.PeerGroups

/-!
# A peer tree with repeated uuids

Nothing keeps a peer's file from giving one uuid to several groups. `reconcile_peer_groups` then offers
the local row of that uuid each of their parents in turn (`mergeAll mergeRow`). For a group other than
the root that does no harm: every group keeps a parent, and the cycle break makes a tree of whatever
results. A nested group with the uuid of the root offers the root a parent. When the root takes it,
no group is left without a parent, every pass of `break_group_cycles` finds a cycle, and its loop
does not end (`breakGroupCycles_diverges`).

`reconcilePeerGroups_safe_iff`: that is the only way the peer's tree breaks the local one.
-/

namespace KeysCore.Verify

open Lib Lib.Forest

/-! ## A root with a parent -/

/-- Every group has a parent, the root too. -/
def AllParented (m : Mirror) : Prop := ∀ u ∈ m.groups.keys, m.parentOf u ≠ none

theorem AllParented.findOneCycle {m : Mirror} (h : AllParented m) {r : Uuid}
    (hr : r ∈ m.groups.keys) (keys : List Uuid) (hkeys : ∀ x, m.parentOf x ≠ none → x ∈ keys) :
    ∃ cycle, findOneCycle m.parentOf keys = some cycle ∧ cycle.min? ≠ none := by
  cases hf : KeysCore.findOneCycle m.parentOf keys with
  | some cycle => exact ⟨cycle, rfl, (findOneCycle_some hf).min?_ne_none⟩
  | none =>
    refine absurd (findOneCycle_none hkeys hf) (not_acyclic_of_parented hr fun y hy => ?_)
    obtain ⟨p, hp⟩ := Option.ne_none_iff_exists'.1 (h y hy)
    exact ⟨p, (mem_keys_of_parentOf hp).2, hp⟩

/-- **With a parent above the root the loop finds a cycle at every pass.** -/
theorem breakGroupCycles_diverges {ord : HashOrder} {root : Uuid} {st : Mirror × IngestPeerOutcome}
    (hroot : root ∈ st.1.groups.keys) (hall : AllParented st.1) (fuel n : Nat) :
    breakGroupCycles ord root fuel n st = .error .diverges := by
  induction fuel generalizing n st with
  | zero => rfl
  | succ fuel ih =>
    obtain ⟨cycle, hcycle, hmin⟩ := hall.findOneCycle hroot (ord.order n st.1.childKeys)
      fun x hx => (ord.perm n _).mem_iff.2 (mem_childKeys hx)
    obtain ⟨victim, hv⟩ := Option.ne_none_iff_exists'.1 hmin
    obtain ⟨m, hm, hkeys, -, -, -, -, hrep⟩ := setParent_reparented (v := victim) hroot
    unfold breakGroupCycles
    simp only [hcycle, hv, hm, bind, Except.bind]
    refine @ih (m, _) (hkeys ▸ hroot) (fun u hu => ?_) (n + 1)
    have hu' : u ∈ st.1.groups.keys := hkeys ▸ hu
    show m.parentOf u ≠ none
    rw [hrep.parentOf hu']
    by_cases e : u = victim
    · rw [e, Function.update_self]
      exact Option.some_ne_none root
    · rw [Function.update_of_ne e]
      exact hall u hu'

/-! ## What the passes make of a row -/

theorem mergeMetadata_place (g : GroupInfo) (row : GroupRow) :
    (mergeMetadata g row).parentUuid = row.parentUuid ∧
      (mergeMetadata g row).location = row.location := by
  unfold mergeMetadata
  split
  · exact ⟨rfl, rfl⟩
  · exact ⟨rfl, rfl⟩

theorem mergeRow_parent_of_some {f : FlatGroup} {row : GroupRow} (h : row.parentUuid ≠ none) :
    (mergeRow f row).parentUuid ≠ none := by
  unfold mergeRow
  cases f.parent with
  | none => exact (mergeMetadata_place f.info row).1 ▸ h
  | some p =>
    show (mergeLocation f.info p (mergeMetadata f.info row)).parentUuid ≠ none
    unfold mergeLocation
    split
    · exact (mergeMetadata_place f.info row).1 ▸ h
    · exact Option.some_ne_none p

theorem mergeAll_parent_of_some {fs : List FlatGroup} {u : Uuid} {row : GroupRow}
    (h : row.parentUuid ≠ none) : (mergeAll mergeRow fs u row).parentUuid ≠ none := by
  unfold mergeAll
  induction fs.filter (·.info.id = u) generalizing row with
  | nil => exact h
  | cons f fs ih => exact ih (mergeRow_parent_of_some h)

/-- The offer of a group with parent `p` to a row without a parent. -/
theorem mergeRow_of_none {f : FlatGroup} {row : GroupRow} (h : row.parentUuid = none) :
    (∀ p, f.parent = some p → f.info.location p ≤ row.location) ∧
        (mergeRow f row).parentUuid = none ∧ (mergeRow f row).location = row.location ∨
      (¬ ∀ p, f.parent = some p → f.info.location p ≤ row.location) ∧
        (mergeRow f row).parentUuid ≠ none := by
  obtain ⟨hpar, hloc⟩ := mergeMetadata_place f.info row
  unfold mergeRow
  cases hp : f.parent with
  | none => exact .inl ⟨by simp, hpar.trans h, hloc⟩
  | some p =>
    simp only [Option.some.injEq, forall_eq']
    unfold mergeLocation
    rw [hpar, hloc, h]
    by_cases hle : f.info.location p ≤ row.location
    · exact .inl ⟨hle, by rw [if_pos (.inl hle)]; exact ⟨hpar.trans h, hloc⟩⟩
    · refine .inr ⟨hle, ?_⟩
      rw [if_neg (not_or.2 ⟨hle, by simp⟩)]
      exact Option.some_ne_none p

/-- **A row without a parent keeps none when no offer is newer than where it is.** -/
theorem mergeAll_parent_eq_none_iff {fs : List FlatGroup} {u : Uuid} {row : GroupRow}
    (h : row.parentUuid = none) : (mergeAll mergeRow fs u row).parentUuid = none ↔
      ∀ f ∈ fs, f.info.id = u → ∀ p, f.parent = some p → f.info.location p ≤ row.location := by
  induction fs generalizing row with
  | nil => simp [mergeAll, h]
  | cons f fs ih =>
    rw [List.forall_mem_cons]
    by_cases e : f.info.id = u
    · have hcons : mergeAll mergeRow (f :: fs) u row = mergeAll mergeRow fs u (mergeRow f row) := by
        simp [mergeAll, e]
      rw [hcons]
      rcases mergeRow_of_none (f := f) h with ⟨hle, hpar, hloc⟩ | ⟨hle, hpar⟩
      · rw [ih hpar, hloc]
        exact ⟨fun hrest => ⟨fun _ => hle, hrest⟩, fun hall => hall.2⟩
      · exact iff_of_false (mergeAll_parent_of_some hpar) fun hall => hle (hall.1 e)
    · have hcons : mergeAll mergeRow (f :: fs) u row = mergeAll mergeRow fs u row := by
        simp [mergeAll, e]
      rw [hcons, ih h]
      exact ⟨fun hrest => ⟨fun he => absurd he e, hrest⟩, fun hall => hall.2⟩

/-! ## The passes -/

theorem reconcileGroupMetadata_error {g : GroupInfo} {st : Mirror × IngestPeerOutcome}
    {e : EngineError} (h : reconcileGroupMetadata g st = .error e) :
    e = .sqlite (.invalidColumnType "icon_index") := by
  unfold reconcileGroupMetadata at h
  grind

theorem reconcileGroupLocation_error {g : GroupInfo} {p : Uuid} {st : Mirror × IngestPeerOutcome}
    {e : EngineError} (h : reconcileGroupLocation g p st = .error e) :
    e = .sqlite .constraintForeignKey := by
  unfold reconcileGroupLocation at h
  cases hm : st.1.setParent g.id p (fun r => { r with locationChangedAt := g.locationMs })
      fun _ => rfl with
  | ok m =>
    simp only [hm, bind, Except.bind, pure, Except.pure] at h
    grind
  | error e' =>
    have he' : e' = .sqlite .constraintForeignKey := by
      unfold Mirror.setParent at hm
      grind
    simp only [hm, bind, Except.bind] at h
    grind

theorem reconcileGroup_error {f : FlatGroup} {st : Mirror × IngestPeerOutcome} {e : EngineError}
    (h : reconcileGroup st f = .error e) :
    e = .sqlite (.invalidColumnType "icon_index") ∨ e = .sqlite .constraintForeignKey := by
  unfold reconcileGroup at h
  cases hm : reconcileGroupMetadata f.info st with
  | error e' =>
    rw [hm] at h
    obtain rfl := Except.error.inj h
    exact .inl (reconcileGroupMetadata_error hm)
  | ok mid =>
    rw [hm] at h
    cases hp : f.parent with
    | none => simp [hp, bind, Except.bind, pure, Except.pure] at h
    | some p =>
      simp only [hp, bind, Except.bind] at h
      exact .inr (reconcileGroupLocation_error h)

section Passes

variable {m : Mirror} {peer : Vault} {row : GroupRow}

/-- The peer offers the root a parent that wins over its own place. -/
def OffersRootParent (peer : Vault) (row : GroupRow) : Prop :=
  ∃ f ∈ peer.groups, f.info.id = peer.root.id ∧ ∃ p, f.parent = some p ∧
    ¬ f.info.location p ≤ row.location

/-- A group of the peer is here with an icon `reconcile_group_metadata` cannot decode. -/
def NullIcon (m : Mirror) (peer : Vault) : Prop :=
  ∃ f ∈ peer.groups, ∃ row, m.groups.find? f.info.id = some row ∧ row.iconIndex = none

/-- **The parents before cycles are broken.** Only the root can be without one. -/
theorem merged_parents (hr : RootedAt m peer.root.id) (hrow : m.groups.find? peer.root.id = some row)
    (hicon : ¬ NullIcon m peer) (out : IngestPeerOutcome) :
    ∃ st₁ st₂, peer.groups.foldlM adoptGroup (m, out) = .ok st₁ ∧
      peer.groups.foldlM reconcileGroup st₁ = .ok st₂ ∧ peer.root.id ∈ st₂.1.groups.keys ∧
      (∀ u ∈ st₂.1.groups.keys, u ≠ peer.root.id → st₂.1.parentOf u ≠ none) ∧
      (st₂.1.parentOf peer.root.id = none ↔ ¬ OffersRootParent peer row) := by
  obtain ⟨st₁, h₁, -, hfind₁⟩ := adopt_spec (m, out) hr.root_mem
  obtain ⟨st₂, h₂, -, hfind₂⟩ := reconcileGroups_all st₁
    (fun f hf r hfr => PeerOf.icon_of_adopted
      (fun g hg s hs hnull => hicon ⟨g, hg, s, hs, hnull⟩) hf rfl (hfind₁ _ ▸ hfr))
    (fun f hf p hp => parent_mem_of_adopted hr.root_mem hfind₁ hf hp)
  have hroot₂ : st₂.1.groups.find? peer.root.id =
      some (mergeAll mergeRow peer.groups peer.root.id row) := by
    rw [hfind₂, hfind₁, hrow, Option.some_or, Option.map_some]
  refine ⟨st₁, st₂, h₁, h₂, Table.exists_find?.1 ⟨_, hroot₂⟩, fun u hu hne => ?_, ?_⟩
  · obtain ⟨r₂, hr₂⟩ := Table.exists_find?.2 hu
    rw [Mirror.parentOf, parentIn, hr₂, Option.bind_some]
    rw [hfind₂] at hr₂
    obtain ⟨r₁, hr₁, rfl⟩ := Option.map_eq_some_iff.1 hr₂
    refine mergeAll_parent_of_some fun hnone => ?_
    rw [hfind₁] at hr₁
    cases hm : m.groups.find? u with
    | some r =>
      rw [hm, Option.some_or, Option.some.injEq] at hr₁
      subst hr₁
      refine hne (hr.eq_root (Table.exists_find?.1 ⟨r, hm⟩) ?_)
      rw [Mirror.parentOf, parentIn, hm, Option.bind_some, hnone]
    | none =>
      rw [hm, Option.none_or, adoptedRow] at hr₁
      obtain ⟨f, hf, rfl⟩ := Option.map_eq_some_iff.1 hr₁
      have hsome := (parentsFirst_belowRoot peer).parent_isSome (List.mem_of_find?_eq_some hf)
      rw [show f.parent = none from hnone] at hsome
      cases hsome
  · have hpar : row.parentUuid = none := by
      have hroot := hr.root_par
      rwa [Mirror.parentOf, parentIn, hrow, Option.bind_some] at hroot
    rw [Mirror.parentOf, parentIn, hroot₂, Option.bind_some, mergeAll_parent_eq_none_iff hpar,
      OffersRootParent]
    push Not
    rfl

/-- The whole reconcile, once pass 2 went through. -/
theorem reconcilePeerGroups_eq {ord : HashOrder} {st st₁ st₂ : Mirror × IngestPeerOutcome}
    (h₁ : peer.groups.foldlM adoptGroup st = .ok st₁)
    (h₂ : peer.groups.foldlM reconcileGroup st₁ = .ok st₂) :
    reconcilePeerGroups ord peer st =
      breakGroupCycles ord peer.root.id (st₂.1.groups.rows.length + 1) 0 st₂ := by
  unfold reconcilePeerGroups
  simp only [h₁, h₂, bind, Except.bind]

/-- A NULL icon stops the reconcile with an error before any cycle is looked for. -/
theorem reconcilePeerGroups_nullIcon (hr : RootedAt m peer.root.id) (hicon : NullIcon m peer)
    (ord : HashOrder) (out : IngestPeerOutcome) :
    ∃ e, e ≠ .diverges ∧ reconcilePeerGroups ord peer (m, out) = .error e := by
  obtain ⟨f, hf, row, hrow, hnull⟩ := hicon
  obtain ⟨st₁, h₁, -, hfind₁⟩ := adopt_spec (m, out) hr.root_mem
  cases h₂ : peer.groups.foldlM reconcileGroup st₁ with
  | ok st₂ =>
    refine absurd h₂ (reconcileGroups_error st₁
      (fun g hg p hp => parent_mem_of_adopted hr.root_mem hfind₁ hg hp) hf ?_ hnull st₂)
    rw [hfind₁, hrow, Option.some_or]
  | error e =>
    refine ⟨e, ?_, ?_⟩
    · rintro rfl
      obtain ⟨g, -, st, hst⟩ := foldlM_error h₂
      rcases reconcileGroup_error hst with he | he <;> cases he
    · unfold reconcilePeerGroups
      simp only [h₁, h₂, bind, Except.bind]

/-- **When a peer's tree, well formed or not, cannot break the local one.** The reconcile returns, and
what it commits is a tree under the unparented root, if and only if it fails on a NULL icon, and
commits nothing, or no nested group of the peer with the uuid of the root offers it a parent that wins
over the root's own place. -/
theorem reconcilePeerGroups_safe_iff (hr : RootedAt m peer.root.id)
    (hrow : m.groups.find? peer.root.id = some row) (ord : HashOrder) (out : IngestPeerOutcome) :
    (reconcilePeerGroups ord peer (m, out) ≠ .error .diverges ∧
      ∀ st, reconcilePeerGroups ord peer (m, out) = .ok st → RootedAt st.1 peer.root.id) ↔
    NullIcon m peer ∨ ¬ OffersRootParent peer row := by
  by_cases hicon : NullIcon m peer
  · obtain ⟨e, hne, h⟩ := reconcilePeerGroups_nullIcon hr hicon ord out
    refine iff_of_true ⟨?_, fun st hst => ?_⟩ (.inl hicon)
    · rw [h]
      exact fun he => hne (Except.error.inj he)
    · rw [h] at hst
      cases hst
  · obtain ⟨st₁, st₂, h₁, h₂, hroot, hparented, hnone⟩ := merged_parents hr hrow hicon out
    rw [reconcilePeerGroups_eq h₁ h₂, or_iff_right hicon, ← hnone]
    constructor
    · rintro ⟨hreturns, -⟩
      by_contra hsome
      refine hreturns (breakGroupCycles_diverges hroot (fun u hu => ?_) _ _)
      by_cases e : u = peer.root.id
      · exact e ▸ hsome
      · exact hparented u hu e
    · intro hroot_none
      have hparents : ∀ u p, st₂.1.parentOf u = some p →
          p = peer.root.id ∨ st₂.1.parentOf p ≠ none := fun u p hp =>
        or_iff_not_imp_left.2 fun hpr => hparented p (mem_keys_of_parentOf hp).2 hpr
      obtain ⟨st', h, hrep, hacyc, -⟩ := @breakGroupCycles_spec ord _ _ st₂ 0 hroot hroot_none
        (Nat.lt_succ_of_le (card_cycleMins_le st₂.1))
      rw [h]
      refine ⟨by simp, fun st hst => ?_⟩
      obtain rfl := Except.ok.inj hst
      have hpar := parentOf_of_reparented hrep
      have hroot' : st'.1.parentOf peer.root.id = none := by
        rw [hpar, canonical, if_neg fun hc => hc.1.par_ne_none (.refl _) hroot_none, hroot_none]
      refine ⟨hrep.mem_keys.2 hroot, hroot', fun _ hp => (mem_keys_of_parentOf hp).2, fun {u} hu => ?_⟩
      by_cases e : u = peer.root.id
      · exact e ▸ .refl u
      · rw [hpar] at hacyc ⊢
        exact canonical_reach hroot_none hparents hacyc (hparented u (hrep.mem_keys.1 hu) e)

end Passes

/-- Group 3 under group 2 under the root. -/
def chain : Mirror where
  groups := ⟨[{ uuid := 1, parentUuid := none }, { uuid := 2, parentUuid := some 1 },
    { uuid := 3, parentUuid := some 2 }], by decide⟩
  fkParent := by decide
  fkGroup := by decide

/-- A peer in which group 2 is held by the root and again by group 3. -/
def tangledPeer : Vault where
  root := .node { id := 1 } [] [.node { id := 2 } [] [], .node { id := 3 } [] [.node { id := 2 } [] []]]

theorem chain_rooted : RootedAt chain tangledPeer.root.id :=
  .of_walks (by decide) (by decide) (by decide)

theorem chain_safe :
    reconcilePeerGroups .insertion tangledPeer (chain, {}) ≠ .error .diverges ∧
      ∀ st, reconcilePeerGroups .insertion tangledPeer (chain, {}) = .ok st →
        RootedAt st.1 tangledPeer.root.id := by
  have hrow : chain.groups.find? tangledPeer.root.id = some { uuid := 1, parentUuid := none } := by
    decide
  refine (reconcilePeerGroups_safe_iff chain_rooted hrow .insertion {}).2 (.inr ?_)
  rintro ⟨f, hf, hid, p, hp, -⟩
  have hroot : ∀ f ∈ tangledPeer.groups, f.info.id = tangledPeer.root.id → f.parent = none := by
    decide
  rw [hroot f hf hid] at hp
  cases hp

/-- A peer whose root holds a group of its own uuid. -/
def nestedRoot : Vault where
  root := .node { id := 1 } [] [.node { id := 1 } [] []]

/-- The root goes under itself, and no number of passes breaks that. -/
theorem nestedRoot_diverges :
    RootedAt loneRoot nestedRoot.root.id ∧
      (∀ ord, reconcilePeerGroups ord nestedRoot (loneRoot, {}) = .error .diverges) ∧
      ∃ st₁ st₂, nestedRoot.groups.foldlM adoptGroup (loneRoot, {}) = .ok st₁ ∧
        nestedRoot.groups.foldlM reconcileGroup st₁ = .ok st₂ ∧ st₂.1.parentOf 1 = some 1 ∧
        ∀ ord fuel n, breakGroupCycles ord nestedRoot.root.id fuel n st₂ = .error .diverges := by
  have hrooted : RootedAt loneRoot nestedRoot.root.id := .of_walks (by decide) (by decide) (by decide)
  have hicon : ¬ NullIcon loneRoot nestedRoot := by
    rintro ⟨f, -, row, hrow, hnull⟩
    have hall : ∀ row ∈ loneRoot.groups.rows, row.iconIndex ≠ none := by decide
    exact hall row (Table.find?_mem hrow) hnull
  have hrow : loneRoot.groups.find? nestedRoot.root.id = some { uuid := 1, parentUuid := none } := by
    decide
  obtain ⟨st₁, st₂, h₁, h₂, hroot, hparented, -⟩ := merged_parents hrooted hrow hicon {}
  have hpar : st₂.1.parentOf 1 = some 1 := by
    have hrun : ((nestedRoot.groups.foldlM adoptGroup (loneRoot, {})).bind fun st =>
        (nestedRoot.groups.foldlM reconcileGroup st).map fun st => st.1.parentOf 1) =
          .ok (some 1) := by decide +kernel
    simpa only [h₁, h₂, Except.bind, Except.map, Except.ok.injEq] using hrun
  have hall : AllParented st₂.1 := fun u hu => by
    by_cases e : u = nestedRoot.root.id
    · rw [e, show nestedRoot.root.id = 1 from rfl, hpar]
      exact Option.some_ne_none 1
    · exact hparented u hu e
  refine ⟨hrooted, fun ord => ?_, st₁, st₂, h₁, h₂, hpar, fun ord => breakGroupCycles_diverges hroot hall⟩
  rw [reconcilePeerGroups_eq h₁ h₂]
  exact breakGroupCycles_diverges hroot hall _ _

end KeysCore.Verify
