import KeysCore.Verify.BreakCycles

/-!
# The passes of a peer's group reconcile

`PeerOf.reconcile_spec` gives the group table after `reconcile_peer_groups` row by row: a row is the
local one, or else the one adopted from the peer, merged with the peer's group of the same uuid
(`mergeRow`), under the parent the canonical break gives it. It returns exactly when no group held by
both has a NULL `icon_index` here (`PeerOf.reconcile_ok_iff`).
-/

namespace KeysCore.Verify

open Lib Lib.Forest

/-! ## The peer's tree, parents first -/

/-- Every group of the list has a parent that is known or stands before it. -/
def ParentsFirst : (Uuid → Prop) → List FlatGroup → Prop
  | _, [] => True
  | K, f :: fs => (∃ p, f.parent = some p ∧ K p) ∧ ParentsFirst (fun x => K x ∨ x = f.info.id) fs

theorem ParentsFirst.mono {fs : List FlatGroup} {K K' : Uuid → Prop} (h : ParentsFirst K fs)
    (hK : ∀ x, K x → K' x) : ParentsFirst K' fs := by
  induction fs generalizing K K' with
  | nil => trivial
  | cons f fs ih =>
    obtain ⟨⟨p, hp, hKp⟩, hrest⟩ := h
    exact ⟨⟨p, hp, hK p hKp⟩, ih hrest fun x hx => hx.imp (hK x) id⟩

theorem ParentsFirst.append {fs gs : List FlatGroup} {K : Uuid → Prop} (h : ParentsFirst K fs)
    (h' : ParentsFirst K gs) : ParentsFirst K (fs ++ gs) := by
  induction fs generalizing K with
  | nil => exact h'
  | cons f fs ih => exact ⟨h.1, ih h.2 (h'.mono fun x hx => .inl hx)⟩

mutual

theorem parentsFirst_collect {K : Uuid → Prop} {p : Uuid} (hp : K p) (s : Nat) :
    ∀ g : Group, ParentsFirst K (g.collect (some p) s)
  | .node i es gs => by
    unfold Group.collect
    exact ⟨⟨p, rfl, hp⟩, parentsFirst_collectAll (.inr rfl) 0 gs⟩

theorem parentsFirst_collectAll {K : Uuid → Prop} {p : Uuid} (hp : K p) (idx : Nat) :
    ∀ gs : List Group, ParentsFirst K (Group.collectAll p idx gs)
  | [] => by
    unfold Group.collectAll
    trivial
  | g :: gs => by
    unfold Group.collectAll
    exact (parentsFirst_collect hp _ g).append (parentsFirst_collectAll hp (idx + 1) gs)

end

theorem ParentsFirst.parent_isSome {fs : List FlatGroup} {K : Uuid → Prop} (h : ParentsFirst K fs)
    {f : FlatGroup} (hf : f ∈ fs) : f.parent.isSome = true := by
  induction fs generalizing K with
  | nil => cases hf
  | cons g fs ih =>
    rcases List.mem_cons.1 hf with rfl | hf
    · obtain ⟨⟨p, hp, -⟩, -⟩ := h
      simp [hp]
    · exact ih h.2 hf

theorem ParentsFirst.parent_known {fs : List FlatGroup} {K : Uuid → Prop} (h : ParentsFirst K fs)
    {f : FlatGroup} (hf : f ∈ fs) {p : Uuid} (hp : f.parent = some p) :
    K p ∨ p ∈ fs.map (·.info.id) := by
  induction fs generalizing K with
  | nil => cases hf
  | cons g fs ih =>
    rcases List.mem_cons.1 hf with rfl | hf
    · obtain ⟨⟨q, hq, hK⟩, -⟩ := h
      rw [hp, Option.some.injEq] at hq
      exact .inl (hq ▸ hK)
    · rcases ih h.2 hf with (hK | rfl) | hmem
      · exact .inl hK
      · exact .inr (by simp)
      · exact .inr (List.mem_cons_of_mem _ hmem)

/-- The root of a vault as the walk meets it. -/
def rootNode (v : Vault) : FlatGroup := ⟨v.root.info, v.root.entries, none, 0⟩

/-- The groups of a vault below its root. -/
def belowRoot (v : Vault) : List FlatGroup := Group.collectAll v.root.id 0 v.root.groups

theorem groups_eq_cons (v : Vault) : v.groups = rootNode v :: belowRoot v := by
  unfold Vault.groups Group.flatten rootNode belowRoot
  cases v.root
  rfl

theorem parentsFirst_belowRoot (v : Vault) : ParentsFirst (· = v.root.id) (belowRoot v) :=
  parentsFirst_collectAll (K := (· = v.root.id)) rfl 0 _

/-! ## Pass 1 -/

/-- The row a peer's groups give `u`. -/
def adoptedRow (fs : List FlatGroup) (u : Uuid) : Option GroupRow :=
  (fs.find? (·.info.id = u)).map (·.toRow)

theorem insertGroup_ok {m : Mirror} {g : GroupRow} {p : Uuid} (hnew : g.uuid ∉ m.groups.keys)
    (hp : g.parentUuid = some p) (hpk : p ∈ m.groups.keys) :
    ∃ m', m.insertGroup g = .ok m' ∧ SameButGroups m m' ∧
      ∀ u, m'.groups.find? u = if g.uuid = u then some g else m.groups.find? u := by
  unfold Mirror.insertGroup
  split
  · rename_i h
    unfold Table.insert? at h
    rw [dif_neg hnew] at h
    cases h
  · rename_i T hT
    rw [dif_pos]
    · exact ⟨_, rfl, ⟨rfl, rfl, rfl, rfl⟩, fun u => Table.find?_insert hT u⟩
    · intro q hq
      rw [hp, Option.mem_def, Option.some.injEq] at hq
      rw [Table.keys_insert hT, ← hq]
      exact List.mem_append_left _ hpk

/-- **Pass 1 adopts what is missing.** -/
theorem adoptGroups_spec {fs : List FlatGroup} {K : Uuid → Prop} (hfs : ParentsFirst K fs)
    (st : Mirror × IngestPeerOutcome) (hK : ∀ x, K x → x ∈ st.1.groups.keys) :
    ∃ st', fs.foldlM adoptGroup st = .ok st' ∧ SameButGroups st.1 st'.1 ∧
      ∀ u, st'.1.groups.find? u = (st.1.groups.find? u).or (adoptedRow fs u) := by
  induction fs generalizing K st with
  | nil => exact ⟨st, rfl, .refl _, fun u => by simp [adoptedRow]⟩
  | cons f fs ih =>
    obtain ⟨⟨p, hp, hKp⟩, hrest⟩ := hfs
    obtain ⟨mid, hmid, hsame, hfind⟩ : ∃ mid, adoptGroup st f = .ok mid ∧ SameButGroups st.1 mid.1 ∧
        ∀ u, mid.1.groups.find? u =
          (st.1.groups.find? u).or (if f.info.id = u then some f.toRow else none) := by
      unfold adoptGroup
      by_cases hex : st.1.groupExists f.info.id = true
      · refine ⟨st, by simp [hex], .refl _, fun u => ?_⟩
        by_cases e : f.info.id = u
        · obtain ⟨row, hrow⟩ := Table.exists_find?.2 (groupExists_iff.1 hex)
          rw [← e, hrow]
          rfl
        · rw [if_neg e, Option.or_none]
      · obtain ⟨m, hm, hsame, hfind⟩ := insertGroup_ok (g := f.toRow)
          (fun hk => hex (groupExists_iff.2 hk)) hp (hK p hKp)
        refine ⟨(m, { st.2 with groupsAdded := st.2.groupsAdded ++ [f.info.id] }), ?_, hsame,
          fun u => ?_⟩
        · simp only [hp, Option.isNone_some, Bool.false_or, hex, Bool.false_eq_true, if_false]
          rw [hm]
          rfl
        · rw [hfind u]
          by_cases e : f.toRow.uuid = u
          · have hnone : st.1.groups.find? u = none := by
              rw [← e]
              exact Table.find?_eq_none.2 fun hk => hex (groupExists_iff.2 hk)
            rw [if_pos e, if_pos (show f.info.id = u from e), hnone, Option.none_or]
          · rw [if_neg e, if_neg (show ¬ f.info.id = u from e), Option.or_none]
    have hK' : ∀ x, (K x ∨ x = f.info.id) → x ∈ mid.1.groups.keys := by
      intro x hx
      rw [← Table.find?_isSome, hfind x, Option.isSome_or, Bool.or_eq_true]
      rcases hx with hx | rfl
      · exact .inl (Table.find?_isSome.2 (hK x hx))
      · exact .inr (by simp)
    obtain ⟨st', hst', hsame', hfind'⟩ := ih hrest mid hK'
    refine ⟨st', ?_, hsame.trans hsame', fun u => ?_⟩
    · rw [List.foldlM_cons, hmid]
      exact hst'
    · rw [hfind' u, hfind u, Option.or_assoc]
      congr 1
      by_cases e : f.info.id = u
      · simp [adoptedRow, e]
      · simp [adoptedRow, e]

/-! ## Pass 2 -/

/-- The metadata of a row as the reconcile compares it. -/
def rowMetadataKey (row : GroupRow) : MetadataKey :=
  metadataKey row.modifiedAt row.name row.notes (builtinIconIndex row.iconIndex) row.iconCustomUuid

/-- A row after the metadata pass. -/
def mergeMetadata (g : GroupInfo) (row : GroupRow) : GroupRow :=
  if g.metadataKey ≤ rowMetadataKey row then row else row.adoptMetadata g

/-- A row after the location pass. -/
def mergeLocation (g : GroupInfo) (p : Uuid) (row : GroupRow) : GroupRow :=
  if g.location p ≤ row.location ∨ row.parentUuid = some p then row
  else { row with parentUuid := some p, locationChangedAt := g.locationMs }

/-- A row after both. -/
def mergeRow (f : FlatGroup) (row : GroupRow) : GroupRow :=
  match f.parent with
  | none => mergeMetadata f.info row
  | some p => mergeLocation f.info p (mergeMetadata f.info row)

/-- The group table with one row changed. -/
structure Rewrites (m m' : Mirror) (u : Uuid) (f : GroupRow → GroupRow) : Prop where
  find : ∀ v, m'.groups.find? v = if v = u then (m.groups.find? v).map f else m.groups.find? v
  rest : SameButGroups m m'

namespace Rewrites

variable {m m' m'' : Mirror} {u : Uuid} {f g : GroupRow → GroupRow}

theorem mem_keys (h : Rewrites m m' u f) {v : Uuid} :
    v ∈ m'.groups.keys ↔ v ∈ m.groups.keys := by
  rw [← Table.find?_isSome, ← Table.find?_isSome, h.find v]
  split
  · rw [Option.isSome_map]
  · rfl

theorem trans (h : Rewrites m m' u f) (h' : Rewrites m' m'' u g) : Rewrites m m'' u (g ∘ f) := by
  refine ⟨fun v => ?_, h.rest.trans h'.rest⟩
  rw [h'.find v, h.find v]
  split
  · rw [Option.map_map]
  · rfl

theorem of_eq (hm : ∀ row, m.groups.find? u = some row → f row = row) : Rewrites m m u f := by
  refine ⟨fun v => ?_, .refl m⟩
  split
  · rename_i e
    subst e
    cases h : m.groups.find? v with
    | none => rfl
    | some row => rw [Option.map_some, hm row h]
  · rfl

end Rewrites

theorem reconcileGroupMetadata_spec (g : GroupInfo) (st : Mirror × IngestPeerOutcome)
    (hicon : ∀ row, st.1.groups.find? g.id = some row → row.iconIndex ≠ none) :
    ∃ st', reconcileGroupMetadata g st = .ok st' ∧ Rewrites st.1 st'.1 g.id (mergeMetadata g) := by
  unfold reconcileGroupMetadata
  cases hrow : st.1.groups.find? g.id with
  | none => exact ⟨st, rfl, .of_eq fun row h => by rw [hrow] at h; cases h⟩
  | some row =>
    cases hi : row.iconIndex with
    | none => exact absurd hi (hicon row hrow)
    | some icon =>
      have hkey : rowMetadataKey row =
          metadataKey row.modifiedAt row.name row.notes icon row.iconCustomUuid := by
        rw [rowMetadataKey, hi]
        rfl
      simp only [hi]
      by_cases hle : g.metadataKey ≤ rowMetadataKey row
      · refine ⟨st, by rw [if_pos (hkey ▸ hle)], .of_eq fun r hr => ?_⟩
        rw [hrow, Option.some.injEq] at hr
        rw [← hr, mergeMetadata, if_pos hle]
      · rw [if_neg (hkey ▸ hle)]
        refine ⟨_, rfl, fun v => ?_, ⟨rfl, rfl, rfl, rfl⟩⟩
        refine (Table.find?_update (p := fun r => r.uuid = g.id) (f := GroupRow.adoptMetadata g)
          (fun _ => rfl) st.1.groups v).trans ?_
        by_cases e : v = g.id
        · subst e
          rw [hrow, if_pos rfl, Option.map_some, Option.map_some,
            if_pos (Table.find?_key hrow), mergeMetadata, if_neg hle]
        · rw [if_neg e]
          cases hv : st.1.groups.find? v with
          | none => rfl
          | some r => rw [Option.map_some, if_neg (fun h => e ((Table.find?_key hv).symm.trans h))]

theorem reconcileGroupLocation_spec (g : GroupInfo) {p : Uuid} (st : Mirror × IngestPeerOutcome)
    (hp : p ∈ st.1.groups.keys) :
    ∃ st', reconcileGroupLocation g p st = .ok st' ∧
      Rewrites st.1 st'.1 g.id (mergeLocation g p) := by
  unfold reconcileGroupLocation
  cases hrow : st.1.groups.find? g.id with
  | none => exact ⟨st, rfl, .of_eq fun row h => by rw [hrow] at h; cases h⟩
  | some row =>
    by_cases hkeep : g.location p ≤ row.location ∨ row.parentUuid = some p
    · refine ⟨st, ?_, .of_eq fun r hr => ?_⟩
      · rcases hkeep with h | h
        · simp only [if_pos h]
        · simp only [if_pos h, ite_self]
      · rw [hrow, Option.some.injEq] at hr
        rw [← hr, mergeLocation, if_pos hkeep]
    · rw [not_or] at hkeep
      simp only [if_neg hkeep.1, if_neg hkeep.2]
      unfold Mirror.setParent
      rw [dif_pos hp]
      refine ⟨_, rfl, fun v => ?_, ⟨rfl, rfl, rfl, rfl⟩⟩
      simp only [Table.find?_modify]
      by_cases e : v = g.id
      · subst e
        rw [if_pos rfl, if_pos rfl, hrow, Option.map_some, Option.map_some, mergeLocation,
          if_neg (not_or.2 hkeep)]
      · rw [if_neg e, if_neg e]

theorem reconcileGroup_spec (f : FlatGroup) (st : Mirror × IngestPeerOutcome)
    (hicon : ∀ row, st.1.groups.find? f.info.id = some row → row.iconIndex ≠ none)
    (hp : ∀ p ∈ f.parent, p ∈ st.1.groups.keys) :
    ∃ st', reconcileGroup st f = .ok st' ∧ Rewrites st.1 st'.1 f.info.id (mergeRow f) := by
  obtain ⟨mid, hmid, hrew⟩ := reconcileGroupMetadata_spec f.info st hicon
  unfold reconcileGroup
  rw [hmid]
  cases hpar : f.parent with
  | none =>
    refine ⟨mid, rfl, ?_⟩
    rwa [show mergeRow f = mergeMetadata f.info from funext fun row => by rw [mergeRow, hpar]]
  | some p =>
    obtain ⟨st', hst', hrew'⟩ := reconcileGroupLocation_spec f.info mid
      (hrew.mem_keys.2 (hp p (by rw [hpar]; rfl)))
    refine ⟨st', hst', ?_⟩
    rw [show mergeRow f = mergeLocation f.info p ∘ mergeMetadata f.info from
      funext fun row => by rw [mergeRow, hpar]; rfl]
    exact hrew.trans hrew'

/-- The row `row` under `u` after a pass over the groups `fs` that changes each one's row by `eff`. -/
def mergeFrom (eff : FlatGroup → GroupRow → GroupRow) (fs : List FlatGroup) (u : Uuid)
    (row : GroupRow) : GroupRow :=
  match fs.find? (·.info.id = u) with
  | none => row
  | some f => eff f row

/-- The row `row` under `u` after a pass that changes it by `eff` at each group of that uuid. -/
def mergeAll (eff : FlatGroup → GroupRow → GroupRow) (fs : List FlatGroup) (u : Uuid)
    (row : GroupRow) : GroupRow :=
  (fs.filter (·.info.id = u)).foldl (fun row f => eff f row) row

theorem mergeAll_of_nodup {eff : FlatGroup → GroupRow → GroupRow} {fs : List FlatGroup}
    (hnd : (fs.map (·.info.id)).Nodup) (u : Uuid) : mergeAll eff fs u = mergeFrom eff fs u := by
  funext row
  unfold mergeAll mergeFrom
  induction fs with
  | nil => rfl
  | cons f fs ih =>
    rw [List.map_cons, List.nodup_cons] at hnd
    by_cases e : f.info.id = u
    · have hnone : fs.filter (·.info.id = u) = [] := by
        rw [List.filter_eq_nil_iff]
        intro g hg
        simpa using fun h : g.info.id = u => hnd.1 (List.mem_map.2 ⟨g, hg, h.trans e.symm⟩)
      rw [List.filter_cons_of_pos (by simpa using e), List.find?_cons_of_pos (by simpa using e), hnone]
      rfl
    · rw [List.filter_cons_of_neg (by simpa using e), List.find?_cons_of_neg (by simpa using e)]
      exact ih hnd.2

/-- A pass whose step changes the row of its group only. `P` is what a step needs, and every step
keeps. -/
theorem foldlM_rewrites {step : Mirror × IngestPeerOutcome → FlatGroup →
      Except EngineError (Mirror × IngestPeerOutcome)}
    {eff : FlatGroup → GroupRow → GroupRow} {P : FlatGroup → Mirror → Prop}
    (hstep : ∀ f st, P f st.1 →
      ∃ st', step st f = .ok st' ∧ Rewrites st.1 st'.1 f.info.id (eff f))
    (hP : ∀ {f g m m'}, Rewrites m m' g.info.id (eff g) → P f m → P f m')
    {fs : List FlatGroup} (st : Mirror × IngestPeerOutcome) (h : ∀ f ∈ fs, P f st.1) :
    ∃ st', fs.foldlM step st = .ok st' ∧ SameButGroups st.1 st'.1 ∧
      ∀ u, st'.1.groups.find? u = (st.1.groups.find? u).map (mergeAll eff fs u) := by
  induction fs generalizing st with
  | nil => exact ⟨st, rfl, .refl _, fun u => by simp [show mergeAll eff [] u = id from rfl]⟩
  | cons f fs ih =>
    obtain ⟨mid, hmid, hrew⟩ := hstep f st (h f (by simp))
    obtain ⟨st', hst', hsame, hfind⟩ := ih mid fun g hg => hP hrew (h g (List.mem_cons_of_mem _ hg))
    refine ⟨st', ?_, hrew.rest.trans hsame, fun u => ?_⟩
    · rw [List.foldlM_cons, hmid]
      exact hst'
    · rw [hfind u, hrew.find u]
      by_cases e : u = f.info.id
      · subst e
        rw [if_pos rfl, Option.map_map]
        congr 1
        funext row
        simp [mergeAll]
      · rw [if_neg e]
        congr 1
        funext row
        simp [mergeAll, Ne.symm e]

theorem mergeMetadata_icon {g : GroupInfo} {row : GroupRow} (h : row.iconIndex ≠ none) :
    (mergeMetadata g row).iconIndex ≠ none := by
  unfold mergeMetadata
  split
  · exact h
  · exact Option.some_ne_none g.iconId

theorem mergeRow_icon {f : FlatGroup} {row : GroupRow} (h : row.iconIndex ≠ none) :
    (mergeRow f row).iconIndex ≠ none := by
  unfold mergeRow
  cases f.parent with
  | none => exact mergeMetadata_icon h
  | some p =>
    show (mergeLocation f.info p (mergeMetadata f.info row)).iconIndex ≠ none
    unfold mergeLocation
    split
    · exact mergeMetadata_icon h
    · exact mergeMetadata_icon (g := f.info) h

/-- **Pass 2 merges the groups of one uuid in turn.** -/
theorem reconcileGroups_all {fs : List FlatGroup} (st : Mirror × IngestPeerOutcome)
    (hicon : ∀ f ∈ fs, ∀ row, st.1.groups.find? f.info.id = some row → row.iconIndex ≠ none)
    (hp : ∀ f ∈ fs, ∀ p ∈ f.parent, p ∈ st.1.groups.keys) :
    ∃ st', fs.foldlM reconcileGroup st = .ok st' ∧ SameButGroups st.1 st'.1 ∧
      ∀ u, st'.1.groups.find? u = (st.1.groups.find? u).map (mergeAll mergeRow fs u) := by
  refine foldlM_rewrites (P := fun f m =>
      (∀ row, m.groups.find? f.info.id = some row → row.iconIndex ≠ none) ∧
        ∀ p ∈ f.parent, p ∈ m.groups.keys)
    (fun f st h => reconcileGroup_spec f st h.1 h.2) (fun hrew h => ⟨fun row hrow => ?_, ?_⟩)
    st fun f hf => ⟨hicon f hf, hp f hf⟩
  · rw [hrew.find] at hrow
    split at hrow
    · obtain ⟨r, hr, rfl⟩ := Option.map_eq_some_iff.1 hrow
      exact mergeRow_icon (h.1 r hr)
    · exact h.1 row hrow
  · exact fun p hp => hrew.mem_keys.2 (h.2 p hp)

/-- **Pass 2 merges each group once, when the uuids are distinct.** -/
theorem reconcileGroups_spec {fs : List FlatGroup} (hnd : (fs.map (·.info.id)).Nodup)
    (st : Mirror × IngestPeerOutcome)
    (hicon : ∀ f ∈ fs, ∀ row, st.1.groups.find? f.info.id = some row → row.iconIndex ≠ none)
    (hp : ∀ f ∈ fs, ∀ p ∈ f.parent, p ∈ st.1.groups.keys) :
    ∃ st', fs.foldlM reconcileGroup st = .ok st' ∧ SameButGroups st.1 st'.1 ∧
      ∀ u, st'.1.groups.find? u = (st.1.groups.find? u).map (mergeFrom mergeRow fs u) := by
  obtain ⟨st', hst', hsame, hfind⟩ := reconcileGroups_all st hicon hp
  exact ⟨st', hst', hsame, fun u => by rw [hfind u, mergeAll_of_nodup hnd]⟩

/-- A NULL icon under a group the peer also holds stops pass 2. -/
theorem reconcileGroups_error {fs : List FlatGroup} (st : Mirror × IngestPeerOutcome)
    (hp : ∀ f ∈ fs, ∀ p ∈ f.parent, p ∈ st.1.groups.keys)
    {f : FlatGroup} (hf : f ∈ fs) {row : GroupRow} (hrow : st.1.groups.find? f.info.id = some row)
    (hnull : row.iconIndex = none) (st' : Mirror × IngestPeerOutcome) :
    fs.foldlM reconcileGroup st ≠ .ok st' := by
  induction fs generalizing st with
  | nil => cases hf
  | cons g fs ih =>
    rw [List.foldlM_cons]
    intro h
    obtain ⟨mid, hmid, h⟩ := except_bind_ok.1 h
    by_cases hicon : ∀ r, st.1.groups.find? g.info.id = some r → r.iconIndex ≠ none
    · obtain ⟨mid', hmid', hrew⟩ := reconcileGroup_spec g st hicon (hp g (by simp))
      rw [hmid, Except.ok.injEq] at hmid'
      subst hmid'
      -- the row of `g` decodes, so it is not the one with the NULL
      have hne : f.info.id ≠ g.info.id := fun e => hicon row (e ▸ hrow) hnull
      rcases List.mem_cons.1 hf with rfl | hf
      · exact hne rfl
      · refine ih mid (fun a ha p hap => hrew.mem_keys.2 (hp a (List.mem_cons_of_mem _ ha) p hap))
          hf ?_ h
        rw [hrew.find, if_neg hne, hrow]
    · push Not at hicon
      obtain ⟨r, hr, hrn⟩ := hicon
      unfold reconcileGroup reconcileGroupMetadata at hmid
      simp only [hr, hrn, bind, Except.bind] at hmid
      cases hmid

/-! ## The whole reconcile -/

/-- A peer vault of the same replica set: its group uuids are distinct, and its root is the root of
the local tree. -/
structure PeerOf (m : Mirror) (peer : Vault) : Prop where
  nodup : (peer.groups.map (·.info.id)).Nodup
  rooted : RootedAt m peer.root.id

/-- The row under `u` before cycles are broken. -/
def mergedRow (m : Mirror) (peer : Vault) (u : Uuid) : Option GroupRow :=
  ((m.groups.find? u).or (adoptedRow (belowRoot peer) u)).map (mergeFrom mergeRow peer.groups u)

/-- The parents before cycles are broken. -/
def mergedParent (m : Mirror) (peer : Vault) (u : Uuid) : Option Uuid :=
  (mergedRow m peer u).bind (·.parentUuid)

/-- Pass 1 of a peer whose root is here. -/
theorem adopt_spec {peer : Vault} (st : Mirror × IngestPeerOutcome)
    (hroot : peer.root.id ∈ st.1.groups.keys) :
    ∃ st', peer.groups.foldlM adoptGroup st = .ok st' ∧ SameButGroups st.1 st'.1 ∧
      ∀ u, st'.1.groups.find? u = (st.1.groups.find? u).or (adoptedRow (belowRoot peer) u) := by
  rw [groups_eq_cons, List.foldlM_cons]
  refine adoptGroups_spec (parentsFirst_belowRoot peer) st ?_
  rintro x rfl
  exact hroot

/-- After pass 1 every parent the peer names is here. -/
theorem parent_mem_of_adopted {m : Mirror} {peer : Vault} (hroot : peer.root.id ∈ m.groups.keys)
    {T : Table GroupRow.uuid}
    (hT : ∀ u, T.find? u = (m.groups.find? u).or (adoptedRow (belowRoot peer) u))
    {f : FlatGroup} (hf : f ∈ peer.groups) {p : Uuid} (hp : f.parent = some p) : p ∈ T.keys := by
  rw [← Table.find?_isSome, hT p, Option.isSome_or, Bool.or_eq_true]
  rw [groups_eq_cons] at hf
  rcases List.mem_cons.1 hf with rfl | hf
  · cases hp
  · rcases (parentsFirst_belowRoot peer).parent_known hf hp with rfl | hmem
    · exact .inl (Table.find?_isSome.2 hroot)
    · obtain ⟨g, hg, hgp⟩ := List.mem_map.1 hmem
      refine .inr ?_
      rw [adoptedRow, Option.isSome_map, List.find?_isSome]
      exact ⟨g, hg, by simpa using hgp⟩

namespace PeerOf

variable {m : Mirror} {peer : Vault}

theorem icon_of_adopted {f : FlatGroup} {u : Uuid} {row : GroupRow}
    (hicon : ∀ f ∈ peer.groups, ∀ row, m.groups.find? f.info.id = some row → row.iconIndex ≠ none)
    (hf : f ∈ peer.groups) (hu : f.info.id = u)
    (hrow : (m.groups.find? u).or (adoptedRow (belowRoot peer) u) = some row) :
    row.iconIndex ≠ none := by
  cases hm : m.groups.find? u with
  | some r =>
    rw [hm, Option.some_or, Option.some.injEq] at hrow
    subst hrow
    exact hicon f hf r (hu ▸ hm)
  | none =>
    rw [hm, Option.none_or, adoptedRow] at hrow
    obtain ⟨g, -, rfl⟩ := Option.map_eq_some_iff.1 hrow
    simp [FlatGroup.toRow]

/-- The root is not re-parented. -/
theorem mergedParent_root (h : PeerOf m peer) : mergedParent m peer peer.root.id = none := by
  obtain ⟨row, hrow⟩ := Table.exists_find?.2 h.rooted.root_mem
  have hnone : row.parentUuid = none := by
    have := h.rooted.root_par
    rwa [Mirror.parentOf, parentIn, hrow] at this
  have hfind : peer.groups.find? (·.info.id = peer.root.id) = some (rootNode peer) := by
    rw [groups_eq_cons, List.find?_cons_of_pos]
    simp [rootNode, Group.id]
  rw [mergedParent, mergedRow, hrow, Option.some_or, Option.map_some, Option.bind_some, mergeFrom,
    hfind]
  show (mergeMetadata peer.root.info row).parentUuid = none
  unfold mergeMetadata
  split
  · exact hnone
  · exact hnone

/-- **The group table after the reconcile, row by row.** -/
theorem reconcile_spec (h : PeerOf m peer) (ord : HashOrder) (out : IngestPeerOutcome)
    (hicon : ∀ f ∈ peer.groups, ∀ row, m.groups.find? f.info.id = some row → row.iconIndex ≠ none) :
    ∃ st, reconcilePeerGroups ord peer (m, out) = .ok st ∧ SameButGroups m st.1 ∧
      Acyclic st.1.parentOf ∧
      ∀ u, st.1.groups.find? u = (mergedRow m peer u).map fun row =>
        { row with parentUuid := canonical (mergedParent m peer) peer.root.id u } := by
  obtain ⟨st₁, h₁, hsame₁, hfind₁⟩ := adopt_spec (m, out) h.rooted.root_mem
  obtain ⟨st₂, h₂, hsame₂, hfind₂⟩ := reconcileGroups_spec h.nodup st₁
    (fun f hf row hrow => icon_of_adopted hicon hf rfl (hfind₁ _ ▸ hrow))
    (fun f hf p hp => parent_mem_of_adopted h.rooted.root_mem hfind₁ hf hp)
  have hrows : ∀ u, st₂.1.groups.find? u = mergedRow m peer u := fun u => by
    rw [hfind₂ u, hfind₁ u, mergedRow]
  have hpar : st₂.1.parentOf = mergedParent m peer := funext fun u => by
    rw [Mirror.parentOf, parentIn, hrows u, mergedParent]
  have hroot : peer.root.id ∈ st₂.1.groups.keys := by
    rw [← Table.find?_isSome, hfind₂, hfind₁, Option.isSome_map, Option.isSome_or, Bool.or_eq_true]
    exact .inl (Table.find?_isSome.2 h.rooted.root_mem)
  obtain ⟨st₃, h₃, hrep, hacyc, hsame₃⟩ := breakGroupCycles_spec 0 hroot
    (by rw [hpar]; exact h.mergedParent_root) (Nat.lt_succ_of_le (card_cycleMins_le st₂.1))
  refine ⟨st₃, ?_, (hsame₁.trans hsame₂).trans hsame₃, hacyc, fun u => ?_⟩
  · unfold reconcilePeerGroups
    rw [h₁]
    simp only [bind, Except.bind]
    rw [h₂]
    exact h₃
  · rw [hrep u, hrows u, hpar]

/-- It returns exactly when no group of the peer is here with a NULL icon. -/
theorem reconcile_ok_iff (h : PeerOf m peer) (ord : HashOrder) (out : IngestPeerOutcome) :
    (∃ st, reconcilePeerGroups ord peer (m, out) = .ok st) ↔
      ∀ f ∈ peer.groups, ∀ row, m.groups.find? f.info.id = some row → row.iconIndex ≠ none := by
  constructor
  · rintro ⟨st, hst⟩ f hf row hrow hnull
    obtain ⟨st₁, h₁, -, hfind₁⟩ := adopt_spec (m, out) h.rooted.root_mem
    unfold reconcilePeerGroups at hst
    obtain ⟨mid, hmid, hst⟩ := except_bind_ok.1 hst
    obtain ⟨st₂, h₂, -⟩ := except_bind_ok.1 hst
    rw [h₁, Except.ok.injEq] at hmid
    subst hmid
    have hrow₁ : st₁.1.groups.find? f.info.id = some row := by
      rw [hfind₁, hrow, Option.some_or]
    exact reconcileGroups_error st₁
      (fun f hf p hp => parent_mem_of_adopted h.rooted.root_mem hfind₁ hf hp) hf hrow₁ hnull st₂ h₂
  · intro hicon
    obtain ⟨st, hst, -⟩ := h.reconcile_spec ord out hicon
    exact ⟨st, hst⟩

end PeerOf

end KeysCore.Verify
