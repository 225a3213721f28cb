import KeysCore.Verify.PeerGroups
import KeysCore.Verify.StructuralRuns

/-!
# Two replicas converge on the group tree

Each side of `reconcile_converges_iff` merges its rows with the other's projection. What a group's row
becomes is, on either side, the larger of the two metadata keys and the parent of the larger of the
two locations (`rowMetadataKey_mergeMetadata`, `parent_mergeLocation`), so both sides reach the same
parent map before cycles are broken, and the canonical break of it is the same whatever order the
hash maps yield. The two converge exactly when neither side trips over a NULL icon.
-/

namespace KeysCore.Verify

open Lib Lib.Forest

/-! ## The merged row as a maximum -/

theorem rowMetadataKey_adoptMetadata (g : GroupInfo) (row : GroupRow) :
    rowMetadataKey (row.adoptMetadata g) = g.metadataKey := rfl

theorem rowMetadataKey_mergeMetadata (g : GroupInfo) (row : GroupRow) :
    rowMetadataKey (mergeMetadata g row) = max (rowMetadataKey row) g.metadataKey := by
  unfold mergeMetadata
  split
  · rename_i h
    rw [max_eq_left h]
  · rename_i h
    rw [rowMetadataKey_adoptMetadata, max_eq_right (le_of_not_ge h)]

@[simp] theorem parent_mergeMetadata (g : GroupInfo) (row : GroupRow) :
    (mergeMetadata g row).parentUuid = row.parentUuid := by
  unfold mergeMetadata
  split <;> rfl

@[simp] theorem location_mergeMetadata (g : GroupInfo) (row : GroupRow) :
    (mergeMetadata g row).location = row.location := by
  unfold mergeMetadata
  split <;> rfl

@[simp] theorem rowMetadataKey_mergeLocation (g : GroupInfo) (p : Uuid) (row : GroupRow) :
    rowMetadataKey (mergeLocation g p row) = rowMetadataKey row := by
  unfold mergeLocation
  split <;> rfl

/-- The merged parent is the parent of the larger location, whether or not its stamp is taken. -/
theorem parent_mergeLocation (g : GroupInfo) (p : Uuid) (row : GroupRow) :
    optKey (mergeLocation g p row).parentUuid =
      (ofLex (max row.location (g.location p))).2 := by
  unfold mergeLocation
  split
  · rename_i h
    rcases le_total (g.location p) row.location with hle | hle
    · rw [max_eq_left hle]
      rfl
    · rw [max_eq_right hle]
      rcases h with h | h
      · rw [le_antisymm h hle]
        rfl
      · rw [h]
        rfl
  · rename_i h
    rw [max_eq_right (le_of_not_ge (not_or.1 h).1)]
    rfl

theorem optKey_injective {α : Type} : Function.Injective (optKey (α := α)) := by
  intro a b h
  cases a with
  | none =>
    cases b with
    | none => rfl
    | some b => exact absurd h (by simp [optKey])
  | some a =>
    cases b with
    | none => exact absurd h (by simp [optKey])
    | some b =>
      simp only [optKey, WithBot.coe_inj] at h
      rw [h]

/-- The icon a row shows. -/
def rowIcon (row : GroupRow) : IconIndex × Option Uuid :=
  (builtinIconIndex row.iconIndex, row.iconCustomUuid)

theorem eq_of_rowMetadataKey {a b : GroupRow} (h : rowMetadataKey a = rowMetadataKey b) :
    a.name = b.name ∧ a.notes = b.notes ∧ rowIcon a = rowIcon b := by
  have h := congrArg ofLex h
  obtain ⟨-, h⟩ := Prod.mk.inj h
  obtain ⟨hname, h⟩ := Prod.mk.inj (congrArg ofLex h)
  obtain ⟨hnotes, h⟩ := Prod.mk.inj (congrArg ofLex h)
  obtain ⟨hicon, hcustom⟩ := Prod.mk.inj (congrArg ofLex h)
  exact ⟨hname, hnotes, Prod.ext hicon (optKey_injective hcustom)⟩

/-! ## A projected row as a peer's group -/

theorem toInfo_metadataKey (row : GroupRow) : row.toInfo.metadataKey = rowMetadataKey row := by
  unfold GroupInfo.metadataKey rowMetadataKey metadataKey
  simp [GroupRow.toInfo, buildTimes, dtToMs]

theorem toInfo_locationMs (row : GroupRow) :
    row.toInfo.locationMs = row.locationChangedAt.map (·.floorSecond) := by
  simp [GroupInfo.locationMs, GroupRow.toInfo, buildTimes, Option.map_map, Function.comp_def]

theorem toInfo_location {row : GroupRow} {p : Uuid} (h : row.parentUuid = some p) :
    row.toInfo.location p = row.location := by
  rw [GroupInfo.location, GroupRow.location, toInfo_locationMs, h]
  rfl

/-- A row adopted from a group has the group's metadata and location already. -/
theorem mergeRow_toRow (f : FlatGroup) : mergeRow f f.toRow = f.toRow := by
  have hmeta : mergeMetadata f.info f.toRow = f.toRow := by
    have hkey : f.info.metadataKey = rowMetadataKey f.toRow := rfl
    rw [mergeMetadata, if_pos (le_of_eq hkey)]
  cases hp : f.parent with
  | none => rw [mergeRow, hp]; exact hmeta
  | some p =>
    rw [mergeRow, hp]
    show mergeLocation f.info p (mergeMetadata f.info f.toRow) = f.toRow
    rw [hmeta, mergeLocation, if_pos]
    exact .inr hp

section Attached

variable {m : Mirror} {v : Vault} (ha : Attached m v)

include ha

theorem Attached.ids_nodup : (v.groups.map (·.info.id)).Nodup := by
  have h := ha.groups.map (fun x : GroupInfo × Option Uuid => x.1.id)
  rw [List.map_map, List.map_map] at h
  exact h.nodup_iff.2 m.groups.nodup

theorem Attached.of_mem {f : FlatGroup} (hf : f ∈ v.groups) :
    ∃ row ∈ m.groups.rows, f.info = row.toInfo ∧ f.parent = row.parentUuid := by
  have := ha.groups.subset (List.mem_map_of_mem (f := fun f => (f.info, f.parent)) hf)
  obtain ⟨row, hrow, he⟩ := List.mem_map.1 this
  obtain ⟨h₁, h₂⟩ := Prod.mk.inj he
  exact ⟨row, hrow, h₁.symm, h₂.symm⟩

/-- The peer's group of a uuid is its row's projection. -/
theorem Attached.find_group {u : Uuid} {row : GroupRow} (h : m.groups.find? u = some row) :
    ∃ f, v.groups.find? (·.info.id = u) = some f ∧ f.info = row.toInfo ∧ f.parent = row.parentUuid := by
  obtain ⟨hrow, hu⟩ := Table.find?_eq_some.1 h
  have := ha.groups.symm.subset (List.mem_map_of_mem (f := fun g => (g.toInfo, g.parentUuid)) hrow)
  obtain ⟨f, hf, he⟩ := List.mem_map.1 this
  obtain ⟨h₁, h₂⟩ := Prod.mk.inj he
  cases hfind : v.groups.find? (·.info.id = u) with
  | none =>
    have hne : ¬ f.info.id = u := by simpa using List.find?_eq_none.1 hfind f hf
    rw [h₁] at hne
    exact absurd hu hne
  | some g =>
    have hid : g.info.id = f.info.id := by
      have hg : g.info.id = u := by simpa using List.find?_some hfind
      rw [hg, h₁, ← hu]
      rfl
    rw [List.inj_on_of_nodup_map ha.ids_nodup (List.mem_of_find?_eq_some hfind) hf hid]
    exact ⟨f, rfl, h₁, h₂⟩

theorem Attached.find_group_none {u : Uuid} (h : m.groups.find? u = none) :
    v.groups.find? (·.info.id = u) = none := by
  rw [List.find?_eq_none]
  intro f hf
  obtain ⟨row, hrow, hi, -⟩ := ha.of_mem hf
  simp only [decide_eq_true_eq]
  rintro rfl
  rw [hi] at h
  exact Table.find?_eq_none.1 h (Table.key_mem hrow)

theorem Attached.root_eq {r : Uuid} (hr : RootedAt m r) : v.root.id = r := by
  obtain ⟨row, hrow, hi, hp⟩ := ha.of_mem (f := rootNode v) (by rw [groups_eq_cons]; simp)
  have hid : v.root.id = row.uuid := congrArg GroupInfo.id hi
  rw [hid]
  refine hr.eq_root (Table.key_mem hrow) ?_
  rw [parentOf_of_mem hrow, ← hp]
  rfl

/-- A row only the peer has is adopted as its projection. -/
theorem Attached.adoptedRow_eq {u : Uuid} {row : GroupRow} (h : m.groups.find? u = some row)
    (hu : u ≠ v.root.id) :
    ∃ f, adoptedRow (belowRoot v) u = some f.toRow ∧
      v.groups.find? (·.info.id = u) = some f ∧ f.info = row.toInfo ∧ f.parent = row.parentUuid := by
  obtain ⟨f, hf, hi, hp⟩ := ha.find_group h
  refine ⟨f, ?_, hf, hi, hp⟩
  have hroot : ¬ (decide ((rootNode v).info.id = u)) = true := by
    rw [decide_eq_true_eq]
    exact Ne.symm hu
  rw [groups_eq_cons, List.find?_cons_of_neg (p := fun x : FlatGroup => x.info.id = u) hroot] at hf
  rw [adoptedRow, hf]
  rfl

theorem Attached.adoptedRow_none {u : Uuid} (h : m.groups.find? u = none) :
    adoptedRow (belowRoot v) u = none := by
  have hnone := ha.find_group_none h
  rw [groups_eq_cons, List.find?_eq_none] at hnone
  have : (belowRoot v).find? (·.info.id = u) = none :=
    List.find?_eq_none.2 fun f hf => hnone f (List.mem_cons_of_mem _ hf)
  rw [adoptedRow, this]
  rfl

end Attached

/-! ## Both sides merge alike -/

/-- Two rows that show the same group in the same place. -/
structure SameGroup (a b : GroupRow) : Prop where
  key : rowMetadataKey a = rowMetadataKey b
  parent : a.parentUuid = b.parentUuid

/-- Merging `b`'s projection into `a` gives what merging `a`'s into `b` gives. -/
theorem mergeRow_comm {a b : GroupRow} {f g : FlatGroup} (hf : f.info = b.toInfo)
    (hfp : f.parent = b.parentUuid) (hg : g.info = a.toInfo) (hgp : g.parent = a.parentUuid)
    (hroot : a.parentUuid = none ↔ b.parentUuid = none) :
    SameGroup (mergeRow f a) (mergeRow g b) := by
  unfold mergeRow
  rw [hf, hfp, hg, hgp]
  cases hb : b.parentUuid with
  | none =>
    rw [hroot.2 hb]
    refine ⟨?_, ?_⟩
    · rw [rowMetadataKey_mergeMetadata, rowMetadataKey_mergeMetadata, toInfo_metadataKey,
        toInfo_metadataKey, max_comm]
    · rw [parent_mergeMetadata, parent_mergeMetadata, hb, hroot.2 hb]
  | some q =>
    cases hap : a.parentUuid with
    | none =>
      rw [hroot.1 hap] at hb
      cases hb
    | some p =>
      refine ⟨?_, optKey_injective ?_⟩
      · rw [rowMetadataKey_mergeLocation, rowMetadataKey_mergeLocation,
          rowMetadataKey_mergeMetadata, rowMetadataKey_mergeMetadata, toInfo_metadataKey,
          toInfo_metadataKey, max_comm]
      · rw [parent_mergeLocation, parent_mergeLocation, location_mergeMetadata,
          location_mergeMetadata, toInfo_location hb, toInfo_location hap, max_comm]

/-- A row as another replica adopts it. -/
theorem sameGroup_toRow {b : GroupRow} {f : FlatGroup} (hf : f.info = b.toInfo)
    (hfp : f.parent = b.parentUuid) : SameGroup f.toRow b := by
  refine ⟨?_, hfp⟩
  rw [← toInfo_metadataKey b, ← hf]
  rfl

section Replicas

variable {A B : Mirror} {r : Uuid} {vA vB : Vault} (hA : RootedAt A r) (hB : RootedAt B r)
  (haA : Attached A vA) (haB : Attached B vB)

include hA hB haA haB

/-- Before cycles are broken, the two sides hold the same groups in the same places. -/
theorem mergedRow_comm (u : Uuid) :
    (mergedRow A vB u = none ∧ mergedRow B vA u = none) ∨
      ∃ a b, mergedRow A vB u = some a ∧ mergedRow B vA u = some b ∧ SameGroup a b := by
  have hrootA : ∀ {a : GroupRow}, A.groups.find? u = some a → (a.parentUuid = none ↔ u = r) := by
    intro a ha
    have hp : A.parentOf u = a.parentUuid := by rw [Mirror.parentOf, parentIn, ha]; rfl
    rw [← hp]
    exact ⟨fun hn => hA.eq_root (Table.exists_find?.1 ⟨a, ha⟩) hn, fun e => e ▸ hA.root_par⟩
  have hrootB : ∀ {b : GroupRow}, B.groups.find? u = some b → (b.parentUuid = none ↔ u = r) := by
    intro b hb
    have hp : B.parentOf u = b.parentUuid := by rw [Mirror.parentOf, parentIn, hb]; rfl
    rw [← hp]
    exact ⟨fun hn => hB.eq_root (Table.exists_find?.1 ⟨b, hb⟩) hn, fun e => e ▸ hB.root_par⟩
  cases ha : A.groups.find? u with
  | some a =>
    cases hb : B.groups.find? u with
    | some b =>
      obtain ⟨f, hf, hfi, hfp⟩ := haB.find_group hb
      obtain ⟨g, hg, hgi, hgp⟩ := haA.find_group ha
      refine .inr ⟨mergeRow f a, mergeRow g b, ?_, ?_,
        mergeRow_comm hfi hfp hgi hgp ((hrootA ha).trans (hrootB hb).symm)⟩
      · rw [mergedRow, ha, Option.some_or, Option.map_some, mergeFrom, hf]
      · rw [mergedRow, hb, Option.some_or, Option.map_some, mergeFrom, hg]
    | none =>
      have hu : u ≠ vA.root.id := by
        rw [haA.root_eq hA]
        rintro rfl
        exact Table.find?_eq_none.1 hb hB.root_mem
      obtain ⟨g, hg, hgf, hgi, hgp⟩ := haA.adoptedRow_eq ha hu
      refine .inr ⟨a, g.toRow, ?_, ?_, ?_⟩
      · rw [mergedRow, ha, Option.some_or, Option.map_some, mergeFrom, haB.find_group_none hb]
      · rw [mergedRow, hb, Option.none_or, hg, Option.map_some, mergeFrom, hgf]
        simp only [mergeRow_toRow]
      · have h := sameGroup_toRow hgi hgp
        exact ⟨h.key.symm, h.parent.symm⟩
  | none =>
    cases hb : B.groups.find? u with
    | some b =>
      have hu : u ≠ vB.root.id := by
        rw [haB.root_eq hB]
        rintro rfl
        exact Table.find?_eq_none.1 ha hA.root_mem
      obtain ⟨f, hf, hff, hfi, hfp⟩ := haB.adoptedRow_eq hb hu
      refine .inr ⟨f.toRow, b, ?_, ?_, sameGroup_toRow hfi hfp⟩
      · rw [mergedRow, ha, Option.none_or, hf, Option.map_some, mergeFrom, hff]
        simp only [mergeRow_toRow]
      · rw [mergedRow, hb, Option.some_or, Option.map_some, mergeFrom, haA.find_group_none ha]
    | none =>
      refine .inl ⟨?_, ?_⟩
      · rw [mergedRow, ha, Option.none_or, haB.adoptedRow_none hb]
        rfl
      · rw [mergedRow, hb, Option.none_or, haA.adoptedRow_none ha]
        rfl

theorem mergedParent_comm : mergedParent A vB = mergedParent B vA := by
  funext u
  unfold mergedParent
  rcases mergedRow_comm hA hB haA haB u with ⟨ha, hb⟩ | ⟨a, b, ha, hb, h⟩
  · rw [ha, hb]
  · rw [ha, hb]
    exact h.parent

end Replicas

/-! ## The tree after the reconcile -/

theorem parent_mergeRow_ne_none {f : FlatGroup} {row : GroupRow} (h : row.parentUuid ≠ none) :
    (mergeRow f row).parentUuid ≠ none := by
  unfold mergeRow
  split
  · rwa [parent_mergeMetadata]
  · unfold mergeLocation
    split
    · rwa [parent_mergeMetadata]
    · simp

/-- Only the root is without parent before cycles are broken. -/
theorem PeerOf.mergedParent_eq_none {m : Mirror} {peer : Vault} (h : PeerOf m peer) {u : Uuid}
    (hu : (mergedRow m peer u).isSome = true) (hn : mergedParent m peer u = none) :
    u = peer.root.id := by
  by_contra hne
  obtain ⟨row, hrow⟩ := Option.isSome_iff_exists.1 hu
  rw [mergedParent, hrow, Option.bind_some] at hn
  obtain ⟨base, hbase, rfl⟩ := Option.map_eq_some_iff.1 hrow
  have hparent : base.parentUuid ≠ none := by
    cases hm : m.groups.find? u with
    | some a =>
      rw [hm, Option.some_or, Option.some.injEq] at hbase
      subst hbase
      intro hnone
      refine hne (h.rooted.eq_root (Table.exists_find?.1 ⟨a, hm⟩) ?_)
      rw [Mirror.parentOf, parentIn, hm]
      exact hnone
    | none =>
      rw [hm, Option.none_or, adoptedRow] at hbase
      obtain ⟨f, hf, rfl⟩ := Option.map_eq_some_iff.1 hbase
      have := (parentsFirst_belowRoot peer).parent_isSome (List.mem_of_find?_eq_some hf)
      exact Option.isSome_iff_ne_none.1 this
  unfold mergeFrom at hn
  split at hn
  · exact hparent hn
  · exact parent_mergeRow_ne_none hparent hn

/-- **The reconcile leaves a tree under the same root.** -/
theorem PeerOf.reconcile_rooted {m : Mirror} {peer : Vault} (h : PeerOf m peer) {ord : HashOrder}
    {out : IngestPeerOutcome} {st : Mirror × IngestPeerOutcome}
    (hst : reconcilePeerGroups ord peer (m, out) = .ok st) : RootedAt st.1 peer.root.id := by
  obtain ⟨st', hst', -, hacyc, hfind⟩ :=
    h.reconcile_spec ord out ((h.reconcile_ok_iff ord out).1 ⟨st, hst⟩)
  rw [hst, Except.ok.injEq] at hst'
  subst hst'
  have hparent : ∀ u ∈ st.1.groups.keys,
      st.1.parentOf u = canonical (mergedParent m peer) peer.root.id u := by
    intro u hu
    obtain ⟨row, hrow⟩ := Table.exists_find?.2 hu
    rw [hfind u] at hrow
    obtain ⟨a, ha, rfl⟩ := Option.map_eq_some_iff.1 hrow
    rw [Mirror.parentOf, parentIn, hfind u, ha]
    rfl
  have hroot : peer.root.id ∈ st.1.groups.keys := by
    obtain ⟨row, hrow⟩ := Table.exists_find?.2 h.rooted.root_mem
    rw [← Table.find?_isSome, hfind, Option.isSome_map, mergedRow, hrow]
    rfl
  have hcanon : canonical (mergedParent m peer) peer.root.id peer.root.id = none := by
    rw [canonical, if_neg, h.mergedParent_root]
    intro hmin
    exact hmin.1.par_ne_none (.refl _) h.mergedParent_root
  refine Rooted.of_acyclic hacyc hroot (by rw [hparent _ hroot, hcanon])
    (fun x p _ hp => (mem_keys_of_parentOf hp).2) fun u hu hn => ?_
  rw [hparent u hu] at hn
  unfold canonical at hn
  split at hn
  · cases hn
  · refine h.mergedParent_eq_none ?_ hn
    rwa [← Table.find?_isSome, hfind, Option.isSome_map] at hu

/-! ## Convergence -/

/-- Two mirrors with the same groups, each with the same name, notes, icon and parent. -/
structure Converged (A B : Mirror) : Prop where
  keys : ∀ u, u ∈ A.groups.keys ↔ u ∈ B.groups.keys
  rows : ∀ a ∈ A.groups.rows, ∀ b ∈ B.groups.rows, a.uuid = b.uuid →
    a.name = b.name ∧ a.notes = b.notes ∧ rowIcon a = rowIcon b ∧ a.parentUuid = b.parentUuid

/-- **Two trees with one root that reconcile with each other's projection end with the same groups
in the same places, exactly when no group held by both has a NULL icon column on either side.** -/
theorem reconcile_converges_iff {A B : Mirror} {r : Uuid} {vA vB : Vault} (hA : RootedAt A r)
    (hB : RootedAt B r) (hvA : A.project = .ok vA) (hvB : B.project = .ok vB) (oA oB : HashOrder)
    (outA outB : IngestPeerOutcome) :
    (∃ A' B', reconcilePeerGroups oA vB (A, outA) = .ok A' ∧
        reconcilePeerGroups oB vA (B, outB) = .ok B' ∧ Converged A'.1 B'.1 ∧
        RootedAt A'.1 r ∧ RootedAt B'.1 r) ↔
      ∀ a ∈ A.groups.rows, ∀ b ∈ B.groups.rows, a.uuid = b.uuid →
        a.iconIndex ≠ none ∧ b.iconIndex ≠ none := by
  have haA := project_attaches (groupTree_iff.2 ⟨r, hA⟩) hvA
  have haB := project_attaches (groupTree_iff.2 ⟨r, hB⟩) hvB
  have hpB : PeerOf A vB := ⟨haB.ids_nodup, by rw [haB.root_eq hB]; exact hA⟩
  have hpA : PeerOf B vA := ⟨haA.ids_nodup, by rw [haA.root_eq hA]; exact hB⟩
  constructor
  · rintro ⟨A', B', hA', hB', -⟩ a ha b hb he
    obtain ⟨f, hf, hfi, -⟩ := haB.find_group (Table.find?_of_mem hb)
    obtain ⟨g, hg, hgi, -⟩ := haA.find_group (Table.find?_of_mem ha)
    refine ⟨(hpB.reconcile_ok_iff oA outA).1 ⟨A', hA'⟩ f (List.mem_of_find?_eq_some hf) a ?_,
      (hpA.reconcile_ok_iff oB outB).1 ⟨B', hB'⟩ g (List.mem_of_find?_eq_some hg) b ?_⟩
    · rw [hfi]
      exact Table.find?_eq_some.2 ⟨ha, he⟩
    · rw [hgi]
      exact Table.find?_eq_some.2 ⟨hb, he.symm⟩
  · intro hicon
    obtain ⟨A', hA', -, -, hfindA⟩ := hpB.reconcile_spec oA outA fun f hf a ha => by
      obtain ⟨b, hb, hfi, -⟩ := haB.of_mem hf
      rw [hfi] at ha
      exact (hicon a (Table.find?_mem ha) b hb (Table.find?_key ha)).1
    obtain ⟨B', hB', -, -, hfindB⟩ := hpA.reconcile_spec oB outB fun g hg b hb => by
      obtain ⟨a, ha, hgi, -⟩ := haA.of_mem hg
      rw [hgi] at hb
      exact (hicon a ha b (Table.find?_mem hb) (Table.find?_key hb).symm).2
    have hrA := hpB.reconcile_rooted hA'
    have hrB := hpA.reconcile_rooted hB'
    rw [haB.root_eq hB] at hrA hfindA
    rw [haA.root_eq hA] at hrB hfindB
    refine ⟨A', B', hA', hB', ⟨fun u => ?_, fun a ha b hb he => ?_⟩, hrA, hrB⟩
    · rw [← Table.find?_isSome, ← Table.find?_isSome, hfindA u, hfindB u, Option.isSome_map,
        Option.isSome_map]
      rcases mergedRow_comm hA hB haA haB u with ⟨ha, hb⟩ | ⟨a, b, ha, hb, -⟩
      · rw [ha, hb]
      · rw [ha, hb]
        rfl
    · have hfa := Table.find?_of_mem ha
      have hfb := Table.find?_of_mem hb
      rw [← he, hfindB] at hfb
      rw [hfindA] at hfa
      rcases mergedRow_comm hA hB haA haB a.uuid with ⟨hna, -⟩ | ⟨a', b', ha', hb', hsame⟩
      · rw [hna] at hfa
        cases hfa
      · rw [ha', Option.map_some, Option.some.injEq] at hfa
        rw [hb', Option.map_some, Option.some.injEq] at hfb
        obtain ⟨hname, hnotes, hic⟩ := eq_of_rowMetadataKey hsame.key
        rw [← hfa, ← hfb]
        refine ⟨hname, hnotes, hic, ?_⟩
        show canonical (mergedParent A vB) r a.uuid = canonical (mergedParent B vA) r a.uuid
        rw [mergedParent_comm hA hB haA haB]

/-- Root `1` and group `2` under it, with the given icon columns. -/
def iconMirror (icon : Option IconIndex) (custom : Option Uuid) : Mirror where
  groups := ⟨[
    { uuid := 1, parentUuid := none, name := "Root" },
    { uuid := 2, parentUuid := some 1, name := "Work", iconIndex := icon, iconCustomUuid := custom }],
    show [(1 : Uuid), 2].Nodup by decide⟩
  fkParent := by
    intro g hg p hp
    rcases List.mem_cons.1 hg with rfl | hg
    · cases hp
    · rw [List.mem_singleton.1 hg] at hp
      rw [← Option.some.inj hp]
      exact List.mem_cons_self ..
  fkGroup := by simp [Table.empty]

theorem iconMirror_rooted (icon : Option IconIndex) (custom : Option Uuid) :
    RootedAt (iconMirror icon custom) 1 := by
  refine ⟨List.mem_map.2 ⟨_, List.mem_cons_self .., rfl⟩, rfl,
    fun _ hp => (mem_keys_of_parentOf hp).2, fun {x} hx => ?_⟩
  have hx : x = 1 ∨ x = 2 := by simpa [iconMirror, Table.keys] using hx
  rcases hx with rfl | rfl
  · exact ⟨0, rfl⟩
  · exact ⟨1, rfl⟩

theorem iconMirror_projects (icon : Option IconIndex) (custom : Option Uuid) :
    ∃ v, (iconMirror icon custom).project = .ok v := by
  refine (project_ok_iff (groupTree_iff.2 ⟨1, iconMirror_rooted icon custom⟩)).2 fun g hg => ?_
  rcases List.mem_cons.1 hg with rfl | hg
  · decide
  · rw [List.mem_singleton.1 hg]
    exact ⟨le_refl (0 : Int), by show (0 : Int) < 2 ^ 32; decide⟩

/-- With both icon columns set, the two replicas converge. -/
theorem reconcile_converges_custom_icon :
    ∃ vA vB A' B', (iconMirror (some 0) (some 7)).project = .ok vA ∧
      (iconMirror (some 48) none).project = .ok vB ∧
      reconcilePeerGroups .insertion vB (iconMirror (some 0) (some 7), {}) = .ok A' ∧
      reconcilePeerGroups .insertion vA (iconMirror (some 48) none, {}) = .ok B' ∧
      Converged A'.1 B'.1 := by
  obtain ⟨vA, hvA⟩ := iconMirror_projects (some 0) (some 7)
  obtain ⟨vB, hvB⟩ := iconMirror_projects (some 48) none
  obtain ⟨A', B', hA', hB', hconv, -⟩ :=
    (reconcile_converges_iff (iconMirror_rooted _ _) (iconMirror_rooted _ _) hvA hvB .insertion
      .insertion {} {}).2 (by decide)
  exact ⟨vA, vB, A', B', hvA, hvB, hA', hB', hconv⟩

/-- A group given a custom icon here (so `icon_index` is NULL) and since adopted by the other
replica: that replica reconciles, this one fails on every ingest. -/
theorem null_icon_stops_reconcile :
    let A := iconMirror none (some 7)
    let B := iconMirror (some 0) (some 7)
    RootedAt A 1 ∧ RootedAt B 1 ∧
      (A.project.bind fun v => reconcilePeerGroups .insertion v (B, {})).isOk = true ∧
      ((B.project.bind fun v => reconcilePeerGroups .insertion v (A, {})).map
        fun st => st.1.groups.keys) = .error (.sqlite (.invalidColumnType "icon_index")) :=
  ⟨iconMirror_rooted _ _, iconMirror_rooted _ _, by decide, by decide⟩

end KeysCore.Verify
