import KeysCore.GroupReads
import KeysCore.Verify.BreakCycles
import KeysCore.Verify.RoundTrip

/-!
# Reordering siblings

`reorder_group` writes one permutation of the groups under a parent, and every reader shows it: the
restriction of `group_tree` to the parent, the children of the projected node, and the mirror an ingest
of the projection leaves (`reorder_seen_alike`). The readers sort by one key, whatever the values
(`Shows.siblings`), so nothing is assumed of the `sort_order` the siblings have before.

A `sort_order` is read as a `u32`. With more than `2 ^ 32` siblings the last position does not fit, and
both reads fail for the whole mirror.
-/

namespace KeysCore

open Lib

/-- The groups under `p`, in sibling order. -/
def Mirror.siblings (m : Mirror) (p : Uuid) : List Uuid :=
  (Mirror.sortRows (m.groups.rows.filter (·.parentUuid = some p))).map (·.uuid)

end KeysCore

namespace KeysCore.Verify

open Lib

/-! ## Splicing -/

section Splice

variable {l : List Uuid} {u : Uuid} {k : Nat}

theorem spliceSiblings_perm (hu : u ∈ l) : (Mirror.spliceSiblings l u k).Perm l := by
  have hins := List.perm_insertIdx u (l.erase u) (Nat.min_le_right k (l.erase u).length)
  exact hins.trans (List.perm_cons_erase hu).symm

theorem getElem?_spliceSiblings (hu : u ∈ l) :
    (Mirror.spliceSiblings l u k)[min k (l.length - 1)]? = some u := by
  have hlen : (l.erase u).length = l.length - 1 := List.length_erase_of_mem hu
  unfold Mirror.spliceSiblings
  dsimp only
  rw [hlen, List.getElem?_insertIdx_self, if_pos]
  omega

/-- Taking the target out again leaves the others as they were. -/
theorem erase_spliceSiblings (hnd : l.Nodup) : (Mirror.spliceSiblings l u k).erase u = l.erase u := by
  have hout : u ∉ l.erase u := hnd.not_mem_erase
  have hins : ∀ (r : List Uuid) (i : Nat), u ∉ r → i ≤ r.length → (r.insertIdx i u).erase u = r := by
    intro r
    induction r with
    | nil =>
      intro i _ hi
      obtain rfl : i = 0 := by simpa using hi
      simp
    | cons a r ih =>
      intro i hu hi
      rw [List.mem_cons, not_or] at hu
      cases i with
      | zero => simp
      | succ i =>
        rw [List.insertIdx_succ_cons, List.erase_cons_tail (by simpa using Ne.symm hu.1),
          ih i hu.2 (by simpa using hi)]
  exact hins _ _ hout (Nat.min_le_right ..)

end Splice

/-! ## Renumbering -/

/-- The rows and the rest of a mirror whose groups in `order` are numbered from `i` on. -/
theorem renumber_rows {order : List Uuid} (hnd : order.Nodup) (i : Nat) (m : Mirror) :
    (Mirror.renumber i order m).groups.rows = m.groups.rows.map fun g =>
      if g.uuid ∈ order then { g with sortOrder := ((i + order.idxOf g.uuid : Nat) : Int) } else g := by
  induction order generalizing i m with
  | nil => simp [Mirror.renumber]
  | cons s rest ih =>
    rw [List.nodup_cons] at hnd
    rw [Mirror.renumber, ih hnd.2]
    unfold Mirror.updateGroups Table.update
    rw [List.map_map]
    refine List.map_congr_left fun g _ => ?_
    by_cases hs : g.uuid = s
    · subst hs
      simp [hnd.1]
    · by_cases hg : g.uuid ∈ rest
      · have hidx : (s :: rest).idxOf g.uuid = rest.idxOf g.uuid + 1 :=
          List.idxOf_cons_ne _ (Ne.symm hs)
        simp only [Function.comp_apply, hs, if_false, hg, if_true, List.mem_cons, or_true, hidx]
        congr 2
        omega
      · simp [hs, hg]

theorem renumber_sameButGroups (order : List Uuid) (i : Nat) (m : Mirror) :
    SameButGroups m (Mirror.renumber i order m) := by
  induction order generalizing i m with
  | nil => exact .refl m
  | cons s rest ih =>
    refine SameButGroups.trans ?_ (ih (i + 1) _)
    exact ⟨rfl, rfl, rfl, rfl⟩

/-! ## The siblings of a mirror -/

section Siblings

variable {m : Mirror} {p u : Uuid}

theorem mem_siblings {v : Uuid} : v ∈ m.siblings p ↔ m.parentOf v = some p := by
  have hperm := (sortRows_perm (m.groups.rows.filter (·.parentUuid = some p))).map (·.uuid)
  rw [Mirror.siblings, hperm.mem_iff]
  exact mem_childrenOf

theorem nodup_siblings (m : Mirror) (p : Uuid) : (m.siblings p).Nodup := by
  have hperm := (sortRows_perm (m.groups.rows.filter (·.parentUuid = some p))).map (·.uuid)
  rw [Mirror.siblings, hperm.nodup_iff]
  exact nodup_childrenOf m.groups p

theorem childrenOf_sortRows (m : Mirror) (p : Uuid) :
    childrenOf (Mirror.sortRows m.groups.rows) p = m.siblings p := by
  unfold childrenOf Mirror.siblings
  rw [sortRows_filter m.groups.nodup]

end Siblings

/-- What `reorder_group` leaves: the groups under `p` numbered by their place in `order`, and `u`
stamped. -/
structure Renumbered (m m' : Mirror) (u p : Uuid) (order : List Uuid) (now : EpochMs) : Prop where
  groups : m'.groups.rows = m.groups.rows.map fun g =>
    if g.parentUuid = some p then
      { g with
        sortOrder := (order.idxOf g.uuid : Int)
        modifiedAt := if g.uuid = u then now else g.modifiedAt }
    else g
  parents : SameParents m m'
  rest : SameButGroups m m'

theorem reorderGroup_ok {m : Mirror} {u p : Uuid} (hu : m.parentOf u = some p) (position : Nat)
    (now : EpochMs) : ∃ m', m.reorderGroup u position now =
        .ok (m', Mirror.spliceSiblings (m.siblings p) u position) ∧
      Renumbered m m' u p (Mirror.spliceSiblings (m.siblings p) u position) now := by
  have hmem : u ∈ m.siblings p := mem_siblings.2 hu
  have hfind : (m.groups.find? u).bind (·.parentUuid) = some p := hu
  have hperm : (Mirror.spliceSiblings (m.siblings p) u position).Perm (m.siblings p) :=
    spliceSiblings_perm hmem
  have hsib : (Mirror.sortRows (m.groups.rows.filter (·.parentUuid = some p))).map (·.uuid) =
      m.siblings p := rfl
  unfold Mirror.reorderGroup
  rw [hfind]
  dsimp only
  rw [hsib, if_pos hmem]
  refine ⟨_, rfl, ?_, ?_, ?_⟩
  · have hrows := renumber_rows (hperm.nodup_iff.2 (nodup_siblings m p)) 0 m
    unfold Mirror.updateGroups Table.update
    dsimp only
    rw [hrows, List.map_map]
    refine List.map_congr_left fun g hg => ?_
    have hin : g.uuid ∈ Mirror.spliceSiblings (m.siblings p) u position ↔ g.parentUuid = some p := by
      rw [hperm.mem_iff, mem_siblings, parentOf_of_mem hg]
    simp only [Function.comp_apply, hin, Nat.zero_add]
    by_cases hp : g.parentUuid = some p
    · by_cases hgu : g.uuid = u
      · simp [hp, hgu]
      · simp [hp, hgu]
    · have hgu : g.uuid ≠ u := by
        rintro rfl
        rw [parentOf_of_mem hg] at hu
        exact hp hu
      simp [hp, hgu]
  · exact (SameParents.renumber _ 0 m).trans (.updateGroups _ _ _ _ _)
  · exact (renumber_sameButGroups _ 0 m).trans ⟨rfl, rfl, rfl, rfl⟩

/-! ## What the readers show -/

/-- Every reader of the mirror that returns shows the groups of `order` under `p`. -/
structure Shows (m : Mirror) (p : Uuid) (order : List Uuid) : Prop where
  groupTree : ∀ nodes, m.groupTree = .ok nodes →
    (nodes.filter (·.parentUuid = some p)).map (·.uuid) = order
  project : ∀ v, m.project = .ok v → ∀ x ∈ v.root.nodes, x.id = p → x.groups.map (·.id) = order

/-- The list of `group_tree` in its order has the siblings of each group in theirs. -/
theorem treeOrder_filter (m : Mirror) (p : Uuid) :
    (m.groups.rows.insertionSort fun a b => Mirror.treeKey a ≤ Mirror.treeKey b).filter
        (·.parentUuid = some p) = Mirror.sortRows (m.groups.rows.filter (·.parentUuid = some p)) := by
  have htotal : Std.Total fun a b : GroupRow => Mirror.treeKey a ≤ Mirror.treeKey b :=
    ⟨fun a b => le_total _ _⟩
  have htrans : IsTrans GroupRow fun a b => Mirror.treeKey a ≤ Mirror.treeKey b :=
    ⟨fun _ _ _ => le_trans⟩
  have hsorted := (List.pairwise_insertionSort (fun a b : GroupRow =>
    Mirror.treeKey a ≤ Mirror.treeKey b) m.groups.rows).filter (·.parentUuid = some p)
  apply eq_sortRows (m.groups.nodup.sublist (List.filter_sublist.map _))
  · exact (List.perm_insertionSort _ _).filter _
  · -- among rows with a parent the first part of the key is the same
    refine hsorted.imp_of_mem fun {a b} ha hb hab => ?_
    have hpa : a.parentUuid = some p := by simpa using (List.mem_filter.1 ha).2
    have hpb : b.parentUuid = some p := by simpa using (List.mem_filter.1 hb).2
    simpa [Mirror.treeKey, hpa, hpb, Prod.Lex.toLex_le_toLex] using hab

theorem groupNode_key {m : Mirror} {g : GroupRow} {n : GroupNode} (h : m.groupNode g = .ok n) :
    n.uuid = g.uuid ∧ n.parentUuid = g.parentUuid := by
  unfold Mirror.groupNode at h
  obtain ⟨s, -, h⟩ := except_bind_ok.1 h
  obtain ⟨c, -, h⟩ := except_bind_ok.1 h
  obtain rfl := Except.ok.inj h
  exact ⟨rfl, rfl⟩

/-- **`group_tree` shows the siblings in order.** -/
theorem groupTree_siblings {m : Mirror} {nodes : List GroupNode} (h : m.groupTree = .ok nodes)
    (p : Uuid) : (nodes.filter (·.parentUuid = some p)).map (·.uuid) = m.siblings p := by
  have hrows : ∀ {rows : List GroupRow} {nodes : List GroupNode},
      List.Forall₂ (fun g n => m.groupNode g = .ok n) rows nodes →
        (nodes.filter (·.parentUuid = some p)).map (·.uuid) =
          (rows.filter (·.parentUuid = some p)).map (·.uuid) := by
    intro rows nodes hall
    induction hall with
    | nil => rfl
    | cons hgn _ ih =>
      obtain ⟨huuid, hparent⟩ := groupNode_key hgn
      rw [List.filter_cons, List.filter_cons, hparent]
      split
      · rw [List.map_cons, List.map_cons, ih, huuid]
      · exact ih
  rw [hrows (mapM_ok_iff.1 h), treeOrder_filter]
  rfl

/-- **The tree `build_subtree` builds has the children of each node in the order of the rows.** The
induction is on the depth, and inside it on the children left. -/
theorem buildSubtree_order {rows : List GroupRow} {fuel : Nat} {u : Uuid} {byUuid rest : List GroupRow}
    {g : Group} (h : buildSubtree rows fuel u byUuid = .ok (g, rest)) :
    g.id = u ∧ ∀ x ∈ g.nodes, x.groups.map (·.id) = childrenOf rows x.id := by
  induction fuel generalizing u byUuid g rest with
  | zero => cases h
  | succ fuel ih =>
    have hloop : ∀ (cs : List Uuid) (acc acc' : List Group × List GroupRow),
        cs.foldlM (buildChild rows fuel) acc = .ok acc' →
        ∃ ts, acc'.1 = acc.1 ++ ts ∧ ts.map (·.id) = cs ∧
          ∀ x ∈ Group.nodesAll ts, x.groups.map (·.id) = childrenOf rows x.id := by
      intro cs
      induction cs with
      | nil =>
        intro acc acc' h
        obtain rfl := Except.ok.inj h
        exact ⟨[], by simp, rfl, by simp [Group.nodesAll]⟩
      | cons c cs ihcs =>
        intro acc acc' h
        rw [List.foldlM_cons] at h
        obtain ⟨mid, hmid, h⟩ := except_bind_ok.1 h
        obtain ⟨⟨t, left⟩, ht, hmid⟩ := except_bind_ok.1 hmid
        obtain rfl := Except.ok.inj hmid
        obtain ⟨hid, hnodes⟩ := ih ht
        obtain ⟨ts, hts, hids, hall⟩ := ihcs _ _ h
        refine ⟨t :: ts, ?_, ?_, ?_⟩
        · rw [hts, List.append_assoc, List.singleton_append]
        · rw [List.map_cons, hid, hids]
        · intro x hx
          rw [Group.nodesAll] at hx
          rcases List.mem_append.1 hx with hx | hx
          · exact hnodes x hx
          · exact hall x hx
    unfold buildSubtree at h
    cases hfind : byUuid.find? (·.uuid = u) with
    | none =>
      rw [hfind] at h
      cases h
    | some row =>
      rw [hfind] at h
      obtain ⟨⟨children, left⟩, hfold, h⟩ := except_bind_ok.1 h
      obtain ⟨rfl, rfl⟩ := Prod.mk.inj (Except.ok.inj h)
      obtain ⟨ts, hts, hids, hall⟩ := hloop _ _ _ hfold
      have hu : row.uuid = u := by simpa using List.find?_some hfind
      have hchildren : children = ts := by simpa using hts
      subst hchildren
      refine ⟨hu, fun x hx => ?_⟩
      rw [Group.nodes] at hx
      rcases List.mem_cons.1 hx with rfl | hx
      · have hx : (Group.node row.toInfo [] children).id = u := hu
        rw [hx, ← hids]
        rfl
      · exact hall x hx

mutual

theorem nodes_attach (f : Uuid → List Entry) : ∀ g : Group,
    (g.attach f).nodes = g.nodes.map (·.attach f)
  | .node i es gs => by
    rw [Group.attach, Group.nodes, Group.nodes, List.map_cons, nodesAll_attachAll f gs]
    rfl

theorem nodesAll_attachAll (f : Uuid → List Entry) : ∀ gs : List Group,
    Group.nodesAll (Group.attachAll f gs) = (Group.nodesAll gs).map (·.attach f)
  | [] => rfl
  | g :: gs => by
    rw [Group.attachAll, Group.nodesAll, Group.nodesAll, List.map_append, nodes_attach f g,
      nodesAll_attachAll f gs]

end

theorem attachAll_ids (f : Uuid → List Entry) (gs : List Group) :
    (Group.attachAll f gs).map (·.id) = gs.map (·.id) := by
  induction gs with
  | nil => rfl
  | cons g gs ih =>
    cases g
    rw [Group.attachAll, List.map_cons, List.map_cons, ih]
    rfl

/-- **The projection shows the siblings in order.** -/
theorem project_siblings {m : Mirror} {v : Vault} (h : m.project = .ok v) {x : Group}
    (hx : x ∈ v.root.nodes) : x.groups.map (·.id) = m.siblings x.id := by
  obtain ⟨-, g, hg, rfl⟩ := project_ok h
  obtain ⟨root, rest, hsub⟩ := (buildGroupTree_ok hg).1
  dsimp only at hx
  rw [nodes_attach] at hx
  obtain ⟨y, hy, rfl⟩ := List.mem_map.1 hx
  have hkids := (buildSubtree_order hsub).2 y hy
  rw [childrenOf_sortRows] at hkids
  cases y with
  | node i es gs =>
    rw [Group.attach]
    exact (attachAll_ids m.entriesOf gs).trans hkids

/-- **The readers of a mirror agree**, whatever the values they sort by. -/
theorem Shows.siblings (m : Mirror) (p : Uuid) : Shows m p (m.siblings p) where
  groupTree _ h := groupTree_siblings h p
  project _ h _ hx hp := hp ▸ project_siblings h hx

/-! ## After a reorder -/

namespace Renumbered

variable {m m' : Mirror} {u p : Uuid} {order : List Uuid} {now : EpochMs}

/-- The rows under `p` have their place in `order`. -/
theorem row (h : Renumbered m m' u p order now) {g : GroupRow} (hg : g ∈ m'.groups.rows)
    (hp : g.parentUuid = some p) : g.sortOrder = (order.idxOf g.uuid : Int) := by
  rw [h.groups] at hg
  obtain ⟨r, -, rfl⟩ := List.mem_map.1 hg
  by_cases hr : r.parentUuid = some p
  · simp [hr]
  · simp [hr] at hp

/-- Numbered by a list of them, the siblings come in the order of the list. -/
theorem siblings (h : Renumbered m m' u p order now) (hperm : order.Perm (m.siblings p)) :
    m'.siblings p = order := by
  have hnd : order.Nodup := hperm.nodup_iff.2 (nodup_siblings m p)
  have hmem : ∀ v, v ∈ m'.siblings p ↔ v ∈ order := by
    intro v
    rw [hperm.mem_iff, mem_siblings, mem_siblings, h.parents.parent]
  have hsorted : (m'.siblings p).Pairwise fun a b => order.idxOf a ≤ order.idxOf b := by
    unfold Mirror.siblings
    rw [List.pairwise_map]
    refine (sortRows_pairwise _).imp_of_mem fun {a b} ha hb hab => ?_
    have hrow : ∀ {g}, g ∈ Mirror.sortRows (m'.groups.rows.filter (·.parentUuid = some p)) →
        g.sortOrder = (order.idxOf g.uuid : Int) := by
      intro g hg
      have hg := (sortRows_perm _).mem_iff.1 hg
      exact h.row (List.mem_filter.1 hg).1 (by simpa using (List.mem_filter.1 hg).2)
    have hle : a.sortOrder ≤ b.sortOrder := by
      rcases Prod.Lex.toLex_le_toLex.1 hab with hlt | ⟨heq, -⟩
      · exact le_of_lt hlt
      · exact le_of_eq heq
    rw [hrow ha, hrow hb] at hle
    omega
  have hplaces : order.Pairwise fun a b => order.idxOf a ≤ order.idxOf b := by
    rw [List.pairwise_iff_getElem]
    intro i j hi hj hij
    rw [hnd.idxOf_getElem, hnd.idxOf_getElem]
    omega
  refine List.Perm.eq_of_pairwise ?_ hsorted hplaces ?_
  · intro a b ha hb hab hba
    exact (List.idxOf_inj ((hmem a).1 ha)).1 (le_antisymm hab hba)
  · exact (List.perm_ext_iff_of_nodup (nodup_siblings m' p) hnd).2 hmem

/-- The numbers under `p` have no gap. -/
theorem dense (h : Renumbered m m' u p order now) (hperm : order.Perm (m.siblings p)) :
    (Mirror.sortRows (m'.groups.rows.filter (·.parentUuid = some p))).map (·.sortOrder) =
      (List.range order.length).map (fun i : Nat => (i : Int)) := by
  have hnd : order.Nodup := hperm.nodup_iff.2 (nodup_siblings m p)
  have hrows : (Mirror.sortRows (m'.groups.rows.filter (·.parentUuid = some p))).map (·.sortOrder) =
      (m'.siblings p).map fun v => (order.idxOf v : Int) := by
    unfold Mirror.siblings
    rw [List.map_map]
    refine List.map_congr_left fun g hg => ?_
    have hg := (sortRows_perm _).mem_iff.1 hg
    exact h.row (List.mem_filter.1 hg).1 (by simpa using (List.mem_filter.1 hg).2)
  rw [hrows, h.siblings hperm]
  apply List.ext_getElem
  · simp
  · intro i hi hj
    rw [List.getElem_map, List.getElem_map, List.getElem_range, hnd.idxOf_getElem]

/-- The last of more than `2 ^ 32` siblings has a number no read takes. -/
theorem exists_large (h : Renumbered m m' u p order now) (hperm : order.Perm (m.siblings p))
    (hlarge : 2 ^ 32 < order.length) : ∃ g ∈ m'.groups.rows, ¬ g.sortOrder < 2 ^ 32 := by
  have hmem : ((2 ^ 32 : Nat) : Int) ∈
      (List.range order.length).map (fun i : Nat => (i : Int)) := by
    rw [List.mem_map]
    exact ⟨2 ^ 32, List.mem_range.2 hlarge, rfl⟩
  rw [← h.dense hperm] at hmem
  obtain ⟨g, hg, hsort⟩ := List.mem_map.1 hmem
  have hg := (sortRows_perm _).mem_iff.1 hg
  refine ⟨g, (List.mem_filter.1 hg).1, ?_⟩
  omega

/-- Up to `2 ^ 32` siblings, a number is a `u32` when the numbers before were. -/
theorem range (h : Renumbered m m' u p order now) (hperm : order.Perm (m.siblings p))
    (hlen : order.length ≤ 2 ^ 32)
    (hm : ∀ g ∈ m.groups.rows, 0 ≤ g.sortOrder ∧ g.sortOrder < 2 ^ 32) :
    ∀ g ∈ m'.groups.rows, 0 ≤ g.sortOrder ∧ g.sortOrder < 2 ^ 32 := by
  intro g hg
  rw [h.groups] at hg
  obtain ⟨r, hr, rfl⟩ := List.mem_map.1 hg
  by_cases hp : r.parentUuid = some p
  · have hin : r.uuid ∈ order := by
      rw [hperm.mem_iff, mem_siblings, parentOf_of_mem hr, hp]
    have hlt := List.idxOf_lt_length_of_mem hin
    simp only [hp, if_true]
    omega
  · simpa [hp] using hm r hr

end Renumbered

theorem u32FromDbColumn_ok (value : Int) (column : String) :
    (∃ n, u32FromDbColumn value column = .ok n) ↔ 0 ≤ value ∧ value < 2 ^ 32 := by
  unfold u32FromDbColumn
  split
  · rename_i hrange
    exact iff_of_true ⟨_, rfl⟩ hrange
  · rename_i hrange
    exact iff_of_false (by rintro ⟨n, h⟩; cases h) hrange

theorem groupNode_ok {m : Mirror} {g : GroupRow} : (∃ n, m.groupNode g = .ok n) ↔
    (0 ≤ g.sortOrder ∧ g.sortOrder < 2 ^ 32) ∧ m.entryCount (some g.uuid) < 2 ^ 32 := by
  have hsort := u32FromDbColumn_ok g.sortOrder "sort_order"
  have hcount := u32FromDbColumn_ok (m.entryCount (some g.uuid)) "entry_count_direct"
  unfold Mirror.groupNode
  constructor
  · rintro ⟨n, h⟩
    obtain ⟨s, hs, h⟩ := except_bind_ok.1 h
    obtain ⟨c, hc, -⟩ := except_bind_ok.1 h
    have hcount := hcount.1 ⟨c, hc⟩
    exact ⟨hsort.1 ⟨s, hs⟩, by omega⟩
  · rintro ⟨hs, hc⟩
    obtain ⟨s, hs⟩ := hsort.2 hs
    obtain ⟨c, hc⟩ := hcount.2 (by omega)
    rw [hs, hc]
    exact ⟨_, rfl⟩

/-- `group_tree` returns when every counter is a `u32`. -/
theorem groupTree_ok_iff {m : Mirror} : (∃ nodes, m.groupTree = .ok nodes) ↔ ∀ g ∈ m.groups.rows,
    (0 ≤ g.sortOrder ∧ g.sortOrder < 2 ^ 32) ∧ m.entryCount (some g.uuid) < 2 ^ 32 := by
  have hall : ∀ rows : List GroupRow, (∃ nodes, rows.mapM m.groupNode = .ok nodes) ↔
      ∀ g ∈ rows, ∃ n, m.groupNode g = .ok n := by
    intro rows
    induction rows with
    | nil => exact iff_of_true ⟨[], rfl⟩ fun g hg => by cases hg
    | cons g rows ih =>
      rw [List.forall_mem_cons, ← ih, List.mapM_cons]
      constructor
      · rintro ⟨nodes, h⟩
        obtain ⟨n, hn, h⟩ := except_bind_ok.1 h
        obtain ⟨ns, hns, -⟩ := except_bind_ok.1 h
        exact ⟨⟨n, hn⟩, ns, hns⟩
      · rintro ⟨⟨n, hn⟩, ns, hns⟩
        rw [hn, hns]
        exact ⟨n :: ns, rfl⟩
  unfold Mirror.groupTree
  simp only [hall, List.mem_insertionSort, groupNode_ok]

/-- A node of an ingested vault has its children in order. -/
theorem siblings_ingested {vault : Vault} {source : Source} {m m' : Mirror}
    (h : ingestVaultWithHeader vault source m = .ok m') {x : Group} (hx : x ∈ vault.root.nodes)
    (hlen : x.groups.length ≤ 2 ^ 32) : m'.siblings x.id = x.groups.map (·.id) := by
  obtain ⟨hrows, -⟩ := ingestVaultWithHeader_tree h
  have hnd : (vault.root.nodes.map (·.id)).Nodup := by
    rw [← ingestedRows_uuids, ← hrows]
    exact m'.groups.nodup
  rw [← childrenOf_sortRows, hrows, childrenOf_ingested hnd hx, orderKids_of_le hlen]

/-- `order` is `siblings` with `u` moved to `position`, the last place at most. -/
structure MovedTo (siblings order : List Uuid) (u : Uuid) (position : Nat) : Prop where
  perm : order.Perm siblings
  place : order[min position (siblings.length - 1)]? = some u
  others : order.erase u = siblings.erase u

/-- **A reorder is one permutation, seen alike by every reader.** The order returned is the order the
readers showed before with the group moved to the position; its groups are numbered from `0` on and no
other group is touched. The readers show it afterwards, and so do those of a mirror the projection is
ingested into. Up to `2 ^ 32` siblings the reads that returned before return, and with more they fail. -/
theorem reorder_seen_alike {m : Mirror} {u p : Uuid} (hu : m.parentOf u = some p) (position : Nat)
    (now : EpochMs) : ∃ m' order, m.reorderGroup u position now = .ok (m', order) ∧
      Shows m p (m.siblings p) ∧ MovedTo (m.siblings p) order u position ∧
      Renumbered m m' u p order now ∧
      (Mirror.sortRows (m'.groups.rows.filter (·.parentUuid = some p))).map (·.sortOrder) =
        (List.range order.length).map (fun i : Nat => (i : Int)) ∧
      Shows m' p order ∧
      (∀ v, m'.project = .ok v → p ∈ v.root.nodes.map (·.id) → ∀ source a m'',
        ingestVaultWithHeader v source a = .ok m'' → Shows m'' p order) ∧
      ((∃ nodes, m.groupTree = .ok nodes) →
        ((∃ nodes, m'.groupTree = .ok nodes) ↔ order.length ≤ 2 ^ 32)) ∧
      (GroupTree m → (∃ v, m.project = .ok v) →
        ((∃ v, m'.project = .ok v ∧ p ∈ v.root.nodes.map (·.id)) ↔ order.length ≤ 2 ^ 32)) := by
  have hmem : u ∈ m.siblings p := mem_siblings.2 hu
  obtain ⟨m', hrun, hrow⟩ := reorderGroup_ok hu position now
  have hperm : (Mirror.spliceSiblings (m.siblings p) u position).Perm (m.siblings p) :=
    spliceSiblings_perm hmem
  have hshow := Shows.siblings m' p
  rw [hrow.siblings hperm] at hshow
  refine ⟨m', _, hrun, .siblings m p, ⟨hperm, getElem?_spliceSiblings hmem,
    erase_spliceSiblings (nodup_siblings m p)⟩, hrow, hrow.dense hperm, hshow, ?_, ?_, ?_⟩
  · intro v hv hp source a m'' hingest
    obtain ⟨x, hx, rfl⟩ := List.mem_map.1 hp
    have hkids := hshow.project v hv x hx rfl
    have hlen : (Mirror.spliceSiblings (m.siblings x.id) u position).length ≤ 2 ^ 32 := by
      by_contra hlarge
      obtain ⟨g, hg, hout⟩ := hrow.exists_large hperm (by omega)
      exact hout ((project_ok hv).1 g hg).2
    have hagain := Shows.siblings m'' x.id
    rwa [siblings_ingested hingest hx (by rwa [← hkids, List.length_map] at hlen), hkids] at hagain
  · intro hbefore
    have hbefore := groupTree_ok_iff.1 hbefore
    have hcount : ∀ g ∈ m'.groups.rows, m'.entryCount (some g.uuid) < 2 ^ 32 := by
      intro g hg
      obtain ⟨r, hr, huuid⟩ := Table.mem_keys.1 ((hrow.parents.keys g.uuid).1 (Table.key_mem hg))
      have hc := (hbefore r hr).2
      rwa [Mirror.entryCount, ← hrow.rest.entries, huuid] at hc
    rw [groupTree_ok_iff]
    constructor
    · intro hafter
      by_contra hlarge
      obtain ⟨g, hg, hout⟩ := hrow.exists_large hperm (by omega)
      exact hout (hafter g hg).1.2
    · intro hlen g hg
      exact ⟨hrow.range hperm hlen (fun g hg => (hbefore g hg).1) g hg, hcount g hg⟩
  · rintro ht ⟨v₀, hv₀⟩
    have ht' := hrow.parents.groupTree ht
    constructor
    · rintro ⟨v, hv, -⟩
      by_contra hlarge
      obtain ⟨g, hg, hout⟩ := hrow.exists_large hperm (by omega)
      exact hout ((project_ok hv).1 g hg).2
    · intro hlen
      obtain ⟨v, hv⟩ := (project_ok_iff ht').2 (hrow.range hperm hlen (project_ok hv₀).1)
      refine ⟨v, hv, ?_⟩
      have hp : p ∈ m'.groups.keys := (hrow.parents.keys p).2 (mem_keys_of_parentOf hu).2
      obtain ⟨g, hg, rfl⟩ := Table.mem_keys.1 hp
      have hattached := (project_attaches ht' hv).groups.mem_iff (a := (g.toInfo, g.parentUuid))
      obtain ⟨f, hf, hinfo⟩ := List.mem_map.1 (hattached.2 (List.mem_map_of_mem hg))
      rw [← groups_ids]
      exact List.mem_map.2 ⟨f, hf, congrArg GroupInfo.id (Prod.mk.inj hinfo).1⟩

/-! ## Ties, and too many siblings -/

/-- A root with `n` children that share their `sort_order`, the state after adopting them one by one. -/
def wideMirror (n : Nat) (h : n < 2 ^ 128) : Mirror where
  groups := ⟨{ uuid := 0, parentUuid := none, name := "Root" } ::
    (List.finRange n).map fun i : Fin n =>
      { uuid := (⟨i + 1, by omega⟩ : Fin (2 ^ 128)), parentUuid := some 0 }, by
    rw [List.map_cons, List.map_map, List.nodup_cons]
    refine ⟨fun hmem => ?_, (List.nodup_finRange n).map fun i j hij => ?_⟩
    · obtain ⟨i, -, hi⟩ := List.mem_map.1 hmem
      exact absurd (congrArg Fin.val hi) (Nat.succ_ne_zero i)
    · have hval : (i : Nat) + 1 = j + 1 := congrArg Fin.val hij
      exact Fin.ext (by omega)⟩
  fkParent := by
    intro g hg p hp
    rcases List.mem_cons.1 hg with rfl | hg
    · cases hp
    · obtain ⟨i, -, rfl⟩ := List.mem_map.1 hg
      obtain rfl := Option.some.inj hp
      exact List.mem_cons_self ..
  fkGroup := fun e he => by cases he

section Wide

variable {n : Nat} {h : n < 2 ^ 128}

theorem wideMirror_row {g : GroupRow} (hg : g ∈ (wideMirror n h).groups.rows) :
    g.sortOrder = 0 ∧ (g.uuid = 0 ∧ g.parentUuid = none ∨ g.parentUuid = some 0) := by
  rcases List.mem_cons.1 hg with rfl | hg
  · exact ⟨rfl, .inl ⟨rfl, rfl⟩⟩
  · obtain ⟨i, -, rfl⟩ := List.mem_map.1 hg
    exact ⟨rfl, .inr rfl⟩

theorem wideMirror_groupTree : GroupTree (wideMirror n h) := by
  have hroot : { uuid := 0, parentUuid := none, name := "Root" } ∈ (wideMirror n h).groups.rows :=
    List.mem_cons_self ..
  refine groupTree_iff.2 ⟨0, Table.key_mem hroot, parentOf_of_mem hroot,
    fun _ hp => (mem_keys_of_parentOf hp).2, fun {x} hx => ?_⟩
  obtain ⟨g, hg, rfl⟩ := Table.mem_keys.1 hx
  rcases (wideMirror_row hg).2 with ⟨hu, -⟩ | hp
  · rw [hu]
    exact .refl 0
  · exact .of_par (by rw [parentOf_of_mem hg, hp])

theorem wideMirror_siblings : ((wideMirror n h).siblings 0).length = n := by
  have hkids : (wideMirror n h).groups.rows.filter (·.parentUuid = some 0) =
      (wideMirror n h).groups.rows.tail := by
    rw [show (wideMirror n h).groups.rows = { uuid := 0, parentUuid := none, name := "Root" } ::
      (wideMirror n h).groups.rows.tail from rfl, List.filter_cons_of_neg (by simp), List.tail_cons,
      List.filter_eq_self]
    intro g hg
    obtain ⟨i, -, rfl⟩ := List.mem_map.1 hg
    simp
  rw [Mirror.siblings, List.length_map, (sortRows_perm _).length_eq, hkids]
  simp [wideMirror]

theorem wideMirror_parent (hn : 0 < n) : (wideMirror n h).parentOf 1 = some 0 := by
  have hrow : { uuid := 1, parentUuid := some 0 } ∈ (wideMirror n h).groups.rows :=
    List.mem_cons_of_mem _ (List.mem_map.2 ⟨⟨0, hn⟩, List.mem_finRange _, rfl⟩)
  exact parentOf_of_mem hrow

theorem wideMirror_range : ∀ g ∈ (wideMirror n h).groups.rows, 0 ≤ g.sortOrder ∧ g.sortOrder < 2 ^ 32 := by
  intro g hg
  rw [(wideMirror_row hg).1]
  omega

/-- Reordered, the children of the root have numbers up to `n - 1`. -/
theorem wideMirror_reorder (hn : 2 ^ 32 < n) : (∃ nodes, (wideMirror n h).groupTree = .ok nodes) ∧
    (∃ v, (wideMirror n h).project = .ok v) ∧
    ∃ m' order, (wideMirror n h).reorderGroup 1 0 default = .ok (m', order) ∧
      (∀ nodes, m'.groupTree ≠ .ok nodes) ∧ ∀ v, m'.project ≠ .ok v := by
  have hu : (wideMirror n h).parentOf 1 = some 0 := wideMirror_parent (by omega)
  have hperm := spliceSiblings_perm (k := 0) (mem_siblings.2 hu)
  obtain ⟨m', hrun, hrow⟩ := reorderGroup_ok hu 0 default
  obtain ⟨g, hg, hout⟩ := hrow.exists_large hperm (by rwa [hperm.length_eq, wideMirror_siblings])
  refine ⟨groupTree_ok_iff.2 fun g hg => ⟨wideMirror_range g hg, ?_⟩,
    (project_ok_iff wideMirror_groupTree).2 wideMirror_range, m', _, hrun, ?_, ?_⟩
  · exact Nat.two_pow_pos 32
  · intro nodes hnodes
    exact hout (groupTree_ok_iff.1 ⟨nodes, hnodes⟩ g hg).1.2
  · intro v hv
    exact hout ((project_ok hv).1 g hg).2

end Wide

/-- Of three children with one `sort_order` the first goes last. -/
theorem reorder_seen_alike_ties : ∃ m' order,
    (wideMirror 3 (by decide)).reorderGroup 1 7 default = .ok (m', order) ∧ order = [2, 3, 1] ∧
      Shows m' 0 order := by
  obtain ⟨m', order, hrun, -, -, -, -, hshow, -⟩ :=
    reorder_seen_alike (wideMirror_parent (h := by decide) (by decide : 0 < 3)) 7 default
  have horder : ((wideMirror 3 (by decide)).reorderGroup 1 7 default).map (·.2) = .ok [2, 3, 1] := by
    decide
  rw [hrun] at horder
  exact ⟨m', order, hrun, Except.ok.inj horder, hshow⟩

/-- The reads of a root with `2 ^ 32 + 1` children return before the first child is reordered, and fail
afterwards. -/
theorem reorder_stops_reads : ∃ h : 2 ^ 32 + 1 < 2 ^ 128, let m := wideMirror (2 ^ 32 + 1) h
    GroupTree m ∧ m.parentOf 1 = some 0 ∧
      (∀ g ∈ m.groups.rows, 0 ≤ g.sortOrder ∧ g.sortOrder < 2 ^ 32) ∧
      (∃ nodes, m.groupTree = .ok nodes) ∧ (∃ v, m.project = .ok v) ∧
      ∃ m' order, m.reorderGroup 1 0 default = .ok (m', order) ∧
        (∀ nodes, m'.groupTree ≠ .ok nodes) ∧ ∀ v, m'.project ≠ .ok v := by
  refine ⟨by decide, wideMirror_groupTree, wideMirror_parent (by decide), wideMirror_range, ?_⟩
  exact wideMirror_reorder (by decide)

end KeysCore.Verify
