import KeysCore.Verify.EntryRows
import KeysCore.Verify.NoChange
import KeysCore.Verify.Projection
import KeysCore.Verify.VaultIngest

/-!
# Ingesting a vault and projecting it

The normal form of a vault has every entry and every group in normal form, the children of a group in
their order, and the meta with its lists in the order of their keys. `ingest_project_normal`: the
mirror an ingest leaves projects to the normal form of the vault. The stamps outside groups and
entries are compared at whole seconds.

The tree is followed along `build_subtree`, one node of the vault at a time: the rows of the children
of a node are a filter of the sorted rows, and the filter of the walk is the list of the children
(`filter_collect_parent`).
-/

namespace KeysCore

open Lib

/-! ## Normal forms -/

/-- A group has no access time of its own: the column is the modification time. -/
def GroupInfo.normal (i : GroupInfo) : GroupInfo :=
  { i with times := { i.times.normal with
      lastAccessTime := some (normalInstant i.times.lastModificationTime) } }

/-- The order of a child: its position, which saturates at `u32::MAX`, then its name and uuid. -/
def kidKey (a : Group × Nat) : Int ×ₗ String ×ₗ Uuid :=
  toLex ((positionU32 a.2 : Int), toLex (a.1.info.name, a.1.id))

/-- The children of a group in the order they come back. -/
def orderKids (gs : List Group) : List Group :=
  (gs.zipIdx.insertionSort fun a b => kidKey a ≤ kidKey b).map (·.1)

mutual

def Group.normal : Group → Group
  | .node i es gs => .node i.normal (es.map (·.normal)) (orderKids (Group.normalAll gs))

def Group.normalAll : List Group → List Group
  | [] => []
  | g :: gs => g.normal :: Group.normalAll gs

end

/-- An instant of the meta, at whole seconds. -/
def flooredStamp (t : Option DateTime) : Option DateTime := t.map (·.floorToSecond)

/-- The meta with its instants at whole seconds. -/
def Meta.floored (v : Meta) : Meta :=
  { v with
    masterKeyChanged := flooredStamp v.masterKeyChanged
    databaseNameChanged := flooredStamp v.databaseNameChanged
    databaseDescriptionChanged := flooredStamp v.databaseDescriptionChanged
    defaultUsernameChanged := flooredStamp v.defaultUsernameChanged
    recycleBinChanged := flooredStamp v.recycleBinChanged
    settingsChanged := flooredStamp v.settingsChanged
    customIcons := v.customIcons.map fun i => { i with lastModified := flooredStamp i.lastModified }
    customData := v.customData.map fun c => { c with lastModified := flooredStamp c.lastModified } }

/-- A vault with the instants outside groups and entries at whole seconds. -/
def Vault.floored (v : Vault) : Vault :=
  { v with
    metadata := v.metadata.floored
    deletedObjects := v.deletedObjects.map fun d => { d with deletedAt := flooredStamp d.deletedAt } }

/-- The normal form: icons and deleted objects by uuid, custom data by key, and a bin only when it is
one of the groups. -/
def Vault.normal (v : Vault) : Vault where
  root := v.root.normal
  metadata := { v.metadata.floored with
    recycleBinUuid := v.metadata.recycleBinUuid.filter (· ∈ v.groups.map (·.info.id))
    customIcons := v.metadata.floored.customIcons.insertionSort fun a b => a.uuid ≤ b.uuid
    customData := v.metadata.floored.customData.insertionSort fun a b => a.key ≤ b.key }
  deletedObjects := v.floored.deletedObjects.insertionSort fun a b => a.uuid ≤ b.uuid

mutual

/-- The groups of a tree as subtrees, each before its children. -/
def Group.nodes : Group → List Group
  | .node i es gs => .node i es gs :: Group.nodesAll gs

def Group.nodesAll : List Group → List Group
  | [] => []
  | g :: gs => g.nodes ++ Group.nodesAll gs

end

/-- The children of `u`, from position `idx` on, as the walk meets them. -/
def heads (u : Uuid) (idx : Nat) (gs : List Group) : List FlatGroup :=
  (gs.zipIdx idx).map fun p => ⟨p.1.info, p.1.entries, some u, positionU32 p.2⟩

end KeysCore

namespace KeysCore.Verify

open Lib

/-! ## Children in order -/

theorem normalAll_eq (gs : List Group) : Group.normalAll gs = gs.map Group.normal := by
  induction gs with
  | nil => rfl
  | cons g gs ih => rw [Group.normalAll, ih, List.map_cons]

@[simp] theorem normal_id (g : Group) : g.normal.id = g.id := by
  cases g
  rfl

@[simp] theorem normal_name (g : Group) : g.normal.info.name = g.info.name := by
  cases g
  rfl

theorem orderKids_normal (gs : List Group) :
    orderKids (gs.map Group.normal) = (orderKids gs).map Group.normal := by
  unfold orderKids
  rw [List.zipIdx_map, ← List.map_insertionSort (fun a b => kidKey a ≤ kidKey b) _
    (Prod.map Group.normal id), List.map_map, List.map_map]
  · rfl
  · intro a _ b _
    simp [kidKey]

theorem orderKids_perm (gs : List Group) : (orderKids gs).Perm gs := by
  unfold orderKids
  have hperm := (List.perm_insertionSort (fun a b => kidKey a ≤ kidKey b) gs.zipIdx).map (·.1)
  rwa [List.zipIdx_map_fst] at hperm

/-- **A group with up to `2 ^ 32` children keeps their order.** -/
theorem orderKids_of_le {gs : List Group} (h : gs.length ≤ 2 ^ 32) : orderKids gs = gs := by
  have hsorted : gs.zipIdx.Pairwise fun a b => kidKey a ≤ kidKey b := by
    have hidx : gs.zipIdx.Pairwise fun a b => a.2 < b.2 := by
      have hrange : (gs.zipIdx.map (·.2)).Pairwise (· < ·) := by
        rw [List.zipIdx_map_snd]
        exact List.pairwise_lt_range'
      exact List.pairwise_map.1 hrange
    refine hidx.imp_of_mem fun {a b} _ hb hlt => ?_
    have hbound : b.2 < gs.length := by
      have := (List.mem_zipIdx' hb).1
      exact this
    refine le_of_lt (Prod.Lex.toLex_lt_toLex.2 (.inl ?_))
    show ((positionU32 a.2 : Nat) : Int) < (positionU32 b.2 : Nat)
    unfold positionU32
    omega
  unfold orderKids
  rw [List.Pairwise.insertionSort_eq hsorted, List.zipIdx_map_fst]

/-! ## The walk and its nodes -/

mutual

theorem collect_ids (p : Option Uuid) (s : Nat) :
    ∀ g : Group, (g.collect p s).map (·.info.id) = g.nodes.map (·.id)
  | .node i es gs => by
    rw [Group.collect, Group.nodes, List.map_cons, List.map_cons, collectAll_ids i.id 0 gs]
    rfl

theorem collectAll_ids (q : Uuid) (idx : Nat) :
    ∀ gs : List Group, (Group.collectAll q idx gs).map (·.info.id) = (Group.nodesAll gs).map (·.id)
  | [] => rfl
  | g :: gs => by
    rw [Group.collectAll, Group.nodesAll, List.map_append, List.map_append,
      collect_ids (some q) (positionU32 idx) g, collectAll_ids q (idx + 1) gs]

end

theorem self_mem_nodes (g : Group) : g ∈ g.nodes := by
  cases g
  exact List.mem_cons_self ..

mutual

/-- No node of a tree hangs under a group outside it, but perhaps its root. -/
theorem filter_collect_outside (u : Uuid) (p : Option Uuid) (hp : p ≠ some u) (s : Nat) :
    ∀ g : Group, u ∉ g.nodes.map (·.id) → (g.collect p s).filter (·.parent = some u) = []
  | .node i es gs, h => by
    rw [Group.nodes, List.map_cons, List.mem_cons, not_or] at h
    rw [Group.collect, List.filter_cons_of_neg (by simpa using hp)]
    exact filter_collectAll_outside u i.id (fun e => h.1 e.symm) 0 gs h.2

theorem filter_collectAll_outside (u q : Uuid) (hq : q ≠ u) (idx : Nat) :
    ∀ gs : List Group, u ∉ (Group.nodesAll gs).map (·.id) →
      (Group.collectAll q idx gs).filter (·.parent = some u) = []
  | [], _ => rfl
  | g :: gs, h => by
    rw [Group.nodesAll, List.map_append, List.mem_append, not_or] at h
    rw [Group.collectAll, List.filter_append,
      filter_collect_outside u (some q) (fun e => hq (Option.some.inj e)) (positionU32 idx) g h.1,
      filter_collectAll_outside u q hq (idx + 1) gs h.2]
    rfl

end

/-- The walk over the children of `u` meets, of the groups under `u`, the children. -/
theorem filter_collectAll_self (u : Uuid) (idx : Nat) (gs : List Group)
    (h : u ∉ (Group.nodesAll gs).map (·.id)) :
    (Group.collectAll u idx gs).filter (·.parent = some u) = heads u idx gs := by
  induction gs generalizing idx with
  | nil => rfl
  | cons g gs ih =>
    rw [Group.nodesAll, List.map_append, List.mem_append, not_or] at h
    cases g with
    | node i es ks =>
      have hout : u ∉ (Group.nodesAll ks).map (·.id) := by
        intro hu
        rw [Group.nodes, List.map_cons, List.mem_cons, not_or] at h
        exact h.1.2 hu
      have hne : i.id ≠ u := by
        intro e
        rw [Group.nodes, List.map_cons, List.mem_cons, not_or] at h
        exact h.1.1 e.symm
      rw [Group.collectAll, List.filter_append, Group.collect, List.filter_cons_of_pos (by simp),
        filter_collectAll_outside u i.id hne 0 ks hout, ih (idx + 1) h.2]
      rfl

mutual

/-- **Of the groups of a tree, those under the node `x` are its children, in order.** -/
theorem filter_collect_parent (x : Group) (p : Option Uuid) (s : Nat) :
    ∀ g : Group, x ∈ g.nodes → (g.nodes.map (·.id)).Nodup →
      (∀ q ∈ p, q ∉ g.nodes.map (·.id)) →
      (g.collect p s).filter (·.parent = some x.id) = heads x.id 0 x.groups
  | .node i es gs, hx, hnd, hp => by
    rw [Group.nodes] at hx hnd hp
    have hhead : ¬ p = some x.id := fun e => hp x.id e (List.mem_map_of_mem hx)
    rw [List.map_cons, List.nodup_cons] at hnd
    rw [Group.collect, List.filter_cons_of_neg (by simpa using hhead)]
    rcases List.mem_cons.1 hx with rfl | hx
    · exact filter_collectAll_self i.id 0 gs hnd.1
    · exact filter_collectAll_parent x i.id 0 gs hx hnd.2 hnd.1

theorem filter_collectAll_parent (x : Group) (q : Uuid) (idx : Nat) :
    ∀ gs : List Group, x ∈ Group.nodesAll gs → ((Group.nodesAll gs).map (·.id)).Nodup →
      q ∉ (Group.nodesAll gs).map (·.id) →
      (Group.collectAll q idx gs).filter (·.parent = some x.id) = heads x.id 0 x.groups
  | [], hx, _, _ => by cases hx
  | g :: gs, hx, hnd, hq => by
    rw [Group.nodesAll] at hx
    rw [Group.nodesAll, List.map_append, List.nodup_append] at hnd
    rw [Group.nodesAll, List.map_append, List.mem_append, not_or] at hq
    obtain ⟨hndg, hnds, hdisj⟩ := hnd
    rw [Group.collectAll, List.filter_append]
    rcases List.mem_append.1 hx with hx | hx
    · have hxid : x.id ∈ g.nodes.map (·.id) := List.mem_map_of_mem hx
      have hrest := filter_collectAll_outside x.id q (fun e => hq.1 (e ▸ hxid)) (idx + 1) gs
        fun h => hdisj _ hxid _ h rfl
      rw [hrest, List.append_nil]
      refine filter_collect_parent x (some q) (positionU32 idx) g hx hndg fun r hr => ?_
      rw [← Option.some.inj hr]
      exact hq.1
    · have hxid : x.id ∈ (Group.nodesAll gs).map (·.id) := List.mem_map_of_mem hx
      have hfirst := filter_collect_outside x.id (some q)
        (fun e => hq.2 (Option.some.inj e ▸ hxid)) (positionU32 idx) g fun h => hdisj _ h _ hxid rfl
      rw [hfirst, List.nil_append]
      exact filter_collectAll_parent x q (idx + 1) gs hx hnds hq.2

end

mutual

/-- Each node is met by the walk, with its fields and entries. -/
theorem collect_of_node (p : Option Uuid) (s : Nat) : ∀ g : Group, ∀ x ∈ g.nodes,
    ∃ f ∈ g.collect p s, f.info = x.info ∧ f.entries = x.entries
  | .node i es gs, x, hx => by
    rw [Group.nodes] at hx
    rcases List.mem_cons.1 hx with rfl | hx
    · exact ⟨_, List.mem_cons_self .., rfl, rfl⟩
    · obtain ⟨f, hf, h⟩ := collectAll_of_node i.id 0 gs x hx
      exact ⟨f, List.mem_cons_of_mem _ hf, h⟩

theorem collectAll_of_node (q : Uuid) (idx : Nat) : ∀ gs : List Group,
    ∀ x ∈ Group.nodesAll gs, ∃ f ∈ Group.collectAll q idx gs, f.info = x.info ∧ f.entries = x.entries
  | [], x, hx => by cases hx
  | g :: gs, x, hx => by
    rw [Group.nodesAll] at hx
    rcases List.mem_append.1 hx with hx | hx
    · obtain ⟨f, hf, h⟩ := collect_of_node (some q) (positionU32 idx) g x hx
      exact ⟨f, List.mem_append_left _ hf, h⟩
    · obtain ⟨f, hf, h⟩ := collectAll_of_node q (idx + 1) gs x hx
      exact ⟨f, List.mem_append_right _ hf, h⟩

end

/-! ## Building the tree -/

theorem find?_filter_notMem {rows : List GroupRow} {u : Uuid} {row : GroupRow} {us : List Uuid}
    (h : rows.find? (·.uuid = u) = some row) (hu : u ∉ us) :
    (rows.filter (·.uuid ∉ us)).find? (·.uuid = u) = some row := by
  rw [List.find?_filter, ← h]
  congr 1
  funext r
  by_cases e : r.uuid = u
  · simp [e, hu]
  · simp [e]

theorem filter_filter_notMem (rows : List GroupRow) (us vs : List Uuid) :
    (rows.filter (·.uuid ∉ us)).filter (·.uuid ∉ vs) = rows.filter (·.uuid ∉ us ++ vs) := by
  rw [List.filter_filter]
  refine List.filter_congr fun r _ => ?_
  simp only [List.mem_append, not_or, Bool.decide_and]
  exact Bool.and_comm _ _

/-- `rows` has the row of every node of `gs`. -/
def Found (rows : List GroupRow) (gs : List Group) : Prop :=
  ∀ x ∈ gs, ∃ row, rows.find? (·.uuid = x.id) = some row ∧ row.toInfo = x.info.normal

theorem Found.filter {rows : List GroupRow} {gs : List Group} {us : List Uuid} (h : Found rows gs)
    (hus : ∀ x ∈ gs, x.id ∉ us) : Found (rows.filter (·.uuid ∉ us)) gs := by
  intro x hx
  obtain ⟨row, hrow, hinfo⟩ := h x hx
  exact ⟨row, find?_filter_notMem hrow (hus x hx), hinfo⟩

/-- From unplaced rows that hold all of `g`, `build_subtree` builds `g` in normal form, but for the
entries still to attach, and takes its rows away. -/
def Builds (R : List GroupRow) (g : Group) : Prop :=
  ∀ (fuel : Nat) (byUuid : List GroupRow), g.nodes.length ≤ fuel → Found byUuid g.nodes →
    ∃ t, buildSubtree R fuel g.id byUuid =
        .ok (t, byUuid.filter (·.uuid ∉ g.nodes.map (·.id))) ∧
      ∀ f : Uuid → List Entry, (∀ x ∈ g.nodes, f x.id = x.entries.map (·.normal)) →
        t.attach f = g.normal

/-- The loop of `build_subtree` over the children `ks`. -/
theorem buildSubtree_kids {R : List GroupRow} {fuel : Nat} (ks : List Group)
    (hbuilds : ∀ k ∈ ks, Builds R k) (hnd : ((Group.nodesAll ks).map (·.id)).Nodup)
    (hfuel : (Group.nodesAll ks).length ≤ fuel) (acc : List Group) (byUuid : List GroupRow)
    (hfound : Found byUuid (Group.nodesAll ks)) :
    ∃ ts, (ks.map (·.id)).foldlM (fun (acc : List Group × List GroupRow) c => do
        let (g, rest) ← buildSubtree R fuel c acc.2
        return (acc.1 ++ [g], rest)) (acc, byUuid) =
          Except.ok (acc ++ ts, byUuid.filter (·.uuid ∉ (Group.nodesAll ks).map (·.id))) ∧
      ∀ f : Uuid → List Entry, (∀ x ∈ Group.nodesAll ks, f x.id = x.entries.map (·.normal)) →
        Group.attachAll f ts = ks.map Group.normal := by
  induction ks generalizing acc byUuid with
  | nil =>
    refine ⟨[], ?_, fun _ _ => rfl⟩
    simp only [Group.nodesAll, List.map_nil, List.not_mem_nil, not_false_eq_true, decide_true,
      List.filter_true, List.append_nil]
    rfl
  | cons k ks ih =>
    rw [Group.nodesAll, List.map_append, List.nodup_append] at hnd
    rw [Group.nodesAll, List.length_append] at hfuel
    obtain ⟨-, hnds, hdisj⟩ := hnd
    have hfirst : Found byUuid k.nodes := fun x hx => hfound x (List.mem_append_left _ hx)
    obtain ⟨t, ht, hattach⟩ := hbuilds k (by simp) fuel byUuid (by omega) hfirst
    have hrest : Found (byUuid.filter (·.uuid ∉ k.nodes.map (·.id))) (Group.nodesAll ks) :=
      Found.filter (fun x hx => hfound x (List.mem_append_right _ hx)) fun x hx h =>
        hdisj _ h _ (List.mem_map_of_mem hx) rfl
    obtain ⟨ts, hts, hattachs⟩ := ih (fun j hj => hbuilds j (List.mem_cons_of_mem _ hj)) hnds
      (by omega) (acc ++ [t]) _ hrest
    refine ⟨t :: ts, ?_, fun f hf => ?_⟩
    · rw [List.map_cons, List.foldlM_cons, ht]
      rw [filter_filter_notMem, ← List.map_append, List.append_assoc] at hts
      exact hts
    · rw [Group.attachAll, List.map_cons, hattach f fun x hx => hf x (List.mem_append_left _ hx),
        hattachs f fun x hx => hf x (List.mem_append_right _ hx)]

theorem nodesAll_perm {gs gs' : List Group} (h : gs.Perm gs') :
    (Group.nodesAll gs).Perm (Group.nodesAll gs') := by
  have hflat : ∀ l : List Group, Group.nodesAll l = l.flatMap Group.nodes := by
    intro l
    induction l with
    | nil => rfl
    | cons g l ih => rw [Group.nodesAll, ih, List.flatMap_cons]
  rw [hflat, hflat]
  exact h.flatMap_right _

mutual

/-- **A tree whose rows are loaded with the children of every node in order is built as it was.** -/
theorem builds_of_kids (R : List GroupRow) : ∀ g : Group, (g.nodes.map (·.id)).Nodup →
    (∀ x ∈ g.nodes, childrenOf R x.id = (orderKids x.groups).map (·.id)) → Builds R g
  | .node i es gs, hnd, hkids => by
    intro fuel byUuid hfuel hfound
    have hkids' := hkids _ (self_mem_nodes _)
    rw [Group.nodes] at hnd hkids hfuel hfound
    rw [List.map_cons, List.nodup_cons] at hnd
    have hperm := nodesAll_perm (orderKids_perm gs)
    have hbuilds := builds_of_kids_all R gs hnd.2 fun x hx => hkids x (List.mem_cons_of_mem _ hx)
    cases fuel with
    | zero => simp at hfuel
    | succ fuel =>
      obtain ⟨row, hrow, hinfo⟩ := hfound _ (List.mem_cons_self ..)
      -- the node leaves the unplaced rows before its children are built
      have hself : byUuid.filter (fun r => decide (r.uuid ≠ i.id)) =
          byUuid.filter (·.uuid ∉ [i.id]) := by simp
      have hleft : Found (byUuid.filter (·.uuid ∉ [i.id])) (Group.nodesAll (orderKids gs)) := by
        intro x hx
        have hx := hperm.mem_iff.1 hx
        refine Found.filter (fun x hx => hfound x (List.mem_cons_of_mem _ hx)) (fun y hy h => ?_) x hx
        rw [List.mem_singleton] at h
        exact hnd.1 (List.mem_map.2 ⟨y, hy, h⟩)
      have hleast : (Group.nodesAll (orderKids gs)).length ≤ fuel := by
        rw [hperm.length_eq]
        simpa using hfuel
      obtain ⟨ts, hts, hattach⟩ := buildSubtree_kids (orderKids gs)
        (fun k hk => hbuilds k ((orderKids_perm gs).mem_iff.1 hk))
        ((hperm.map _).nodup_iff.2 hnd.2) hleast [] _ hleft
      refine ⟨.node row.toInfo [] ts, ?_, fun f hf => ?_⟩
      · unfold buildSubtree
        rw [show (Group.node i es gs).id = i.id from rfl] at hrow hkids' ⊢
        rw [hrow]
        dsimp only
        rw [hkids', hself]
        rw [show (Group.node i es gs).groups = gs from rfl, hts, filter_filter_notMem]
        have hids : ∀ r : GroupRow, (r.uuid ∉ [i.id] ++ (Group.nodesAll (orderKids gs)).map (·.id)) ↔
            r.uuid ∉ (Group.node i es gs).nodes.map (·.id) := by
          intro r
          rw [Group.nodes, List.map_cons, List.mem_append, List.mem_singleton, List.mem_cons,
            (hperm.map (·.id)).mem_iff]
          rfl
        simp only [hids]
        rfl
      · have hentries : f i.id = es.map (·.normal) := hf _ (self_mem_nodes _)
        have hid : row.toInfo.id = i.id := by rw [hinfo]; rfl
        rw [Group.attach, Group.normal, hid, hentries, hinfo,
          hattach f fun x hx => hf x (List.mem_cons_of_mem _ (hperm.mem_iff.1 hx)),
          normalAll_eq, orderKids_normal]
        rfl

theorem builds_of_kids_all (R : List GroupRow) : ∀ gs : List Group,
    ((Group.nodesAll gs).map (·.id)).Nodup →
    (∀ x ∈ Group.nodesAll gs, childrenOf R x.id = (orderKids x.groups).map (·.id)) →
    ∀ g ∈ gs, Builds R g
  | [], _, _, g, hg => by cases hg
  | k :: ks, hnd, hkids, g, hg => by
    rw [Group.nodesAll] at hnd hkids
    rw [List.map_append, List.nodup_append] at hnd
    rcases List.mem_cons.1 hg with e | hg
    · rw [e]
      exact builds_of_kids R k hnd.1 fun x hx => hkids x (List.mem_append_left _ hx)
    · exact builds_of_kids_all R ks hnd.2.1 (fun x hx => hkids x (List.mem_append_right _ hx)) g hg

end

/-! ## The rows of an ingested vault -/

theorem sortRows_pairwise (rows : List GroupRow) :
    (Mirror.sortRows rows).Pairwise fun a b => Mirror.siblingKey a ≤ Mirror.siblingKey b := by
  have htotal : Std.Total fun a b : GroupRow => Mirror.siblingKey a ≤ Mirror.siblingKey b :=
    ⟨fun a b => le_total _ _⟩
  have htrans : IsTrans GroupRow fun a b => Mirror.siblingKey a ≤ Mirror.siblingKey b :=
    ⟨fun _ _ _ => le_trans⟩
  exact List.pairwise_insertionSort _ rows

/-- The sorted list of some rows is the only one, as no two rows have one key. -/
theorem eq_sortRows {l rows : List GroupRow} (hnd : (rows.map (·.uuid)).Nodup) (hperm : l.Perm rows)
    (hs : l.Pairwise fun a b => Mirror.siblingKey a ≤ Mirror.siblingKey b) :
    l = Mirror.sortRows rows := by
  refine List.Perm.eq_of_pairwise ?_ hs (sortRows_pairwise rows) (hperm.trans (sortRows_perm rows).symm)
  intro a b ha hb hab hba
  have hkey := le_antisymm hab hba
  have huuid : a.uuid = b.uuid :=
    (Prod.mk.inj (toLex_inj.1 (Prod.mk.inj (toLex_inj.1 hkey)).2)).2
  exact List.inj_on_of_nodup_map hnd (hperm.mem_iff.1 ha) ((List.mem_insertionSort _).1 hb) huuid

/-- Sorting and then selecting is selecting and then sorting. -/
theorem sortRows_filter {rows : List GroupRow} (hnd : (rows.map (·.uuid)).Nodup) (p : GroupRow → Bool) :
    (Mirror.sortRows rows).filter p = Mirror.sortRows (rows.filter p) := by
  exact eq_sortRows (hnd.sublist (List.filter_sublist.map _)) ((sortRows_perm rows).filter p)
    ((sortRows_pairwise rows).filter p)

variable {vault : Vault}

theorem ingestedRow_toInfo (f : FlatGroup) : (ingestedRow vault f).toInfo = f.info.normal := by
  unfold ingestedRow GroupRow.toInfo FlatGroup.toRow GroupInfo.normal
  have htimes := buildTimes_normal { f.info.times with
    lastAccessTime := f.info.times.lastModificationTime }
  dsimp only at htimes ⊢
  rw [show expiryMs f.info.times = expiryMs { f.info.times with
    lastAccessTime := f.info.times.lastModificationTime } from rfl, htimes]
  rfl

theorem groups_ids (vault : Vault) : vault.groups.map (·.info.id) = vault.root.nodes.map (·.id) :=
  collect_ids none 0 vault.root

theorem ingestedRows_uuids (vault : Vault) :
    (vault.groups.map (ingestedRow vault)).map (·.uuid) = vault.root.nodes.map (·.id) := by
  rw [List.map_map, ← groups_ids]
  rfl

/-- The rows are loaded with the children of each node in order. -/
theorem childrenOf_ingested (hnd : (vault.root.nodes.map (·.id)).Nodup) {x : Group}
    (hx : x ∈ vault.root.nodes) :
    childrenOf (Mirror.sortRows (vault.groups.map (ingestedRow vault))) x.id =
      (orderKids x.groups).map (·.id) := by
  have hkids : (vault.groups.map (ingestedRow vault)).filter (·.parentUuid = some x.id) =
      x.groups.zipIdx.map fun p =>
        ingestedRow vault ⟨p.1.info, p.1.entries, some x.id, positionU32 p.2⟩ := by
    have hwalk := filter_collect_parent x none 0 vault.root hx hnd fun _ h => by cases h
    rw [List.filter_map]
    show (vault.groups.filter (·.parent = some x.id)).map (ingestedRow vault) = _
    rw [show vault.groups = vault.root.collect none 0 from rfl, hwalk, heads, List.map_map]
    rfl
  unfold childrenOf
  rw [sortRows_filter (by rw [ingestedRows_uuids]; exact hnd), hkids]
  unfold Mirror.sortRows orderKids
  rw [← List.map_insertionSort (fun a b => kidKey a ≤ kidKey b)
    (fun a b => Mirror.siblingKey a ≤ Mirror.siblingKey b)
    (fun p : Group × Nat =>
      ingestedRow vault ⟨p.1.info, p.1.entries, some x.id, positionU32 p.2⟩) _
    fun _ _ _ _ => Iff.rfl, List.map_map, List.map_map]
  rfl

theorem found_ingested (hnd : (vault.root.nodes.map (·.id)).Nodup) :
    Found (Mirror.sortRows (vault.groups.map (ingestedRow vault))) vault.root.nodes := by
  intro x hx
  obtain ⟨f, hf, hinfo, -⟩ := collect_of_node none 0 vault.root x hx
  have hrow : ingestedRow vault f ∈ Mirror.sortRows (vault.groups.map (ingestedRow vault)) :=
    (sortRows_perm _).mem_iff.2 (List.mem_map_of_mem hf)
  let T : Table GroupRow.uuid := ⟨Mirror.sortRows (vault.groups.map (ingestedRow vault)), by
    rw [((sortRows_perm _).map _).nodup_iff, ingestedRows_uuids]
    exact hnd⟩
  refine ⟨ingestedRow vault f, ?_, by rw [ingestedRow_toInfo, hinfo]⟩
  have hfind : T.find? (ingestedRow vault f).uuid = some (ingestedRow vault f) :=
    Table.find?_of_mem (T := T) hrow
  rwa [show (ingestedRow vault f).uuid = x.id from congrArg GroupInfo.id hinfo] at hfind

mutual

/-- The entries are written in the order of the walk, each with its group. -/
theorem placed_collect (bin : Option Uuid) (b : Bool) (p : Option Uuid) (s : Nat) : ∀ g : Group,
    (g.placed bin b).map (fun e => (e.1, e.2.1)) =
      (g.collect p s).flatMap fun f => f.entries.map fun e => (e, f.info.id)
  | .node i es gs => by
    rw [Group.placed, Group.collect, List.map_append, List.flatMap_cons, List.map_map,
      placedAll_collectAll bin _ i.id 0 gs]
    rfl

theorem placedAll_collectAll (bin : Option Uuid) (b : Bool) (q : Uuid) (idx : Nat) :
    ∀ gs : List Group, (Group.placedAll bin b gs).map (fun e => (e.1, e.2.1)) =
      (Group.collectAll q idx gs).flatMap fun f => f.entries.map fun e => (e, f.info.id)
  | [] => rfl
  | g :: gs => by
    rw [Group.placedAll, Group.collectAll, List.map_append, List.flatMap_append,
      placed_collect bin b (some q) (positionU32 idx) g, placedAll_collectAll bin b q (idx + 1) gs]

end

/-- Of the entries of a walk over groups of distinct uuids, those of one group. -/
theorem filter_flatMap_group {fs : List FlatGroup} (hnd : (fs.map (·.info.id)).Nodup) {f : FlatGroup}
    (hf : f ∈ fs) :
    ((fs.flatMap fun f => f.entries.map fun e => (e, f.info.id)).filter (·.2 = f.info.id)).map (·.1) =
      f.entries := by
  have hnone : ∀ fs : List FlatGroup, f.info.id ∉ fs.map (·.info.id) →
      (fs.flatMap fun f => f.entries.map fun e => (e, f.info.id)).filter (·.2 = f.info.id) = [] := by
    intro fs h
    refine List.filter_eq_nil_iff.2 fun p hp => ?_
    obtain ⟨k, hk, hp⟩ := List.mem_flatMap.1 hp
    obtain ⟨e, -, rfl⟩ := List.mem_map.1 hp
    simp only [decide_eq_true_eq]
    intro e
    exact h (e ▸ List.mem_map_of_mem hk)
  have hall : ∀ es : List Entry,
      ((es.map fun e => (e, f.info.id)).filter (·.2 = f.info.id)).map (·.1) = es := by
    intro es
    induction es with
    | nil => rfl
    | cons e es ih => simpa using ih
  induction fs with
  | nil => cases hf
  | cons k fs ih =>
    rw [List.map_cons, List.nodup_cons] at hnd
    rw [List.flatMap_cons, List.filter_append, List.map_append]
    rcases List.mem_cons.1 hf with rfl | hf
    · rw [hall, hnone fs hnd.1]
      simp
    · have hne : k.info.id ≠ f.info.id := fun e => hnd.1 (e ▸ List.mem_map_of_mem hf)
      have hempty : (k.entries.map fun e => (e, k.info.id)).filter (·.2 = f.info.id) = [] := by
        refine List.filter_eq_nil_iff.2 fun p hp => ?_
        obtain ⟨e, -, rfl⟩ := List.mem_map.1 hp
        simpa using hne
      rw [hempty, ih hnd.2 hf]
      rfl

/-- **The entries of a group come back in normal form.** -/
theorem entriesOf_ingested {m' : Mirror} (hstore : ∀ e ∈ vault.entries, e.Storable)
    (hnd : (vault.root.nodes.map (·.id)).Nodup)
    (hentries : m'.entries.rows = (vault.root.placed vault.metadata.recycleBinUuid false).map fun p =>
      p.1.toRow p.2.1 p.2.2) {x : Group} (hx : x ∈ vault.root.nodes) :
    m'.entriesOf x.id = x.entries.map (·.normal) := by
  obtain ⟨f, hf, hinfo, hes⟩ := collect_of_node none 0 vault.root x hx
  have hid : f.info.id = x.id := congrArg GroupInfo.id hinfo
  have hwalk := placed_collect vault.metadata.recycleBinUuid false none 0 vault.root
  unfold Mirror.entriesOf
  rw [hentries, List.filter_map, List.map_map]
  have hread : ∀ p ∈ (vault.root.placed vault.metadata.recycleBinUuid false).filter
      ((fun r : EntryRow => decide (r.groupUuid = x.id)) ∘ fun p => p.1.toRow p.2.1 p.2.2),
      (EntryRow.toEntry ∘ fun p : Entry × Uuid × Bool => p.1.toRow p.2.1 p.2.2) p = p.1.normal := by
    intro p hp
    refine toRow_toEntry (hstore p.1 ?_) p.2.1 p.2.2
    have hmem : (p.1, p.2.1) ∈ (vault.root.placed vault.metadata.recycleBinUuid false).map
        fun e => (e.1, e.2.1) := List.mem_map.2 ⟨p, (List.mem_filter.1 hp).1, rfl⟩
    rw [hwalk] at hmem
    obtain ⟨k, hk, hmem⟩ := List.mem_flatMap.1 hmem
    obtain ⟨e, he, e'⟩ := List.mem_map.1 hmem
    rw [← (Prod.mk.inj e').1]
    exact List.mem_flatMap.2 ⟨k, hk, he⟩
  rw [List.map_congr_left hread]
  have hsel : ((vault.root.placed vault.metadata.recycleBinUuid false).filter
      ((fun r : EntryRow => decide (r.groupUuid = x.id)) ∘ fun p => p.1.toRow p.2.1 p.2.2)).map
        (·.1) = f.entries := by
    have hids : ((vault.root.collect none 0).map (·.info.id)).Nodup := by
      rw [collect_ids]
      exact hnd
    have hgroup := filter_flatMap_group hids hf
    rw [← hwalk, List.filter_map, List.map_map, hid] at hgroup
    exact hgroup
  rw [← hes, ← hsel, List.map_map]
  rfl

/-! ## The meta -/

theorem toDateTime_floorToSecond (t : DateTime) :
    t.timestampMillis.toDateTime.floorToSecond = t.floorToSecond := by
  unfold DateTime.floorToSecond
  rw [EpochMs.timestampMillis_toDateTime]

theorem flooredStamp_read (t : Option DateTime) :
    flooredStamp ((t.map (·.timestampMillis)).map (·.toDateTime)) = flooredStamp t := by
  unfold flooredStamp
  rw [Option.map_map, Option.map_map]
  exact congrArg (fun f => t.map f) (funext toDateTime_floorToSecond)

/-- The bin found among the rows is the bin of the vault, when it is one of its groups. -/
theorem findRecycleBin_ingested (vault : Vault) :
    findRecycleBin (Mirror.sortRows (vault.groups.map (ingestedRow vault))) =
      vault.metadata.recycleBinUuid.filter (· ∈ vault.groups.map (·.info.id)) := by
  have hflag : ∀ f, (ingestedRow vault f).isRecycleBin = true ↔
      vault.metadata.recycleBinUuid = some f.info.id := fun f => decide_eq_true_iff
  cases hbin : vault.metadata.recycleBinUuid with
  | none =>
    rw [findRecycleBin_of_flagged (u := 0)]
    · rw [if_neg]
      · rfl
      · intro h
        obtain ⟨r, hr, hf⟩ := List.any_eq_true.1 h
        obtain ⟨f, -, rfl⟩ := List.mem_map.1 ((sortRows_perm _).mem_iff.1 hr)
        rw [hflag, hbin] at hf
        cases hf
    · intro r hr hf
      obtain ⟨f, -, rfl⟩ := List.mem_map.1 ((sortRows_perm _).mem_iff.1 hr)
      rw [hflag, hbin] at hf
      cases hf
  | some b =>
    have hrows : ∀ r ∈ Mirror.sortRows (vault.groups.map (ingestedRow vault)),
        r.isRecycleBin = true → r.uuid = b := by
      intro r hr hf
      obtain ⟨f, -, rfl⟩ := List.mem_map.1 ((sortRows_perm _).mem_iff.1 hr)
      rw [hflag, hbin] at hf
      exact (Option.some.inj hf).symm
    rw [findRecycleBin_of_flagged hrows, Option.filter_some]
    have hany : (Mirror.sortRows (vault.groups.map (ingestedRow vault))).any (·.isRecycleBin) = true ↔
        b ∈ vault.groups.map (·.info.id) := by
      rw [List.any_eq_true, List.mem_map]
      constructor
      · rintro ⟨r, hr, hf⟩
        obtain ⟨f, hmem, rfl⟩ := List.mem_map.1 ((sortRows_perm _).mem_iff.1 hr)
        rw [hflag, hbin] at hf
        exact ⟨f, hmem, (Option.some.inj hf).symm⟩
      · rintro ⟨f, hmem, rfl⟩
        exact ⟨ingestedRow vault f, (sortRows_perm _).mem_iff.2 (List.mem_map_of_mem hmem),
          (hflag f).2 hbin⟩
    simp only [hany, decide_eq_true_eq]

/-- The meta read back, at whole seconds, is the meta in normal form. -/
theorem readMeta_ingested {m' : Mirror} (h : MetaWritten vault m') :
    (m'.readMeta (vault.metadata.recycleBinUuid.filter (· ∈ vault.groups.map (·.info.id)))).floored =
      vault.normal.metadata := by
  have hicons : ((m'.settings.customIcons.rows.insertionSort fun a b => a.uuid ≤ b.uuid).map fun r =>
      (⟨r.uuid, r.bytes, r.name, flooredStamp (r.lastModifiedAt.map (·.toDateTime))⟩ : CustomIcon)) =
        vault.metadata.floored.customIcons.insertionSort fun a b => a.uuid ≤ b.uuid := by
    rw [h.icons, List.map_insertionSort _ (fun a b : CustomIcon => a.uuid ≤ b.uuid) _ _
      fun _ _ _ _ => Iff.rfl, List.map_map]
    simp only [Function.comp_def, CustomIcon.toRow, flooredStamp_read]
    rfl
  have hdata : ((m'.settings.customData.rows.insertionSort fun a b => a.key ≤ b.key).map fun r =>
      (⟨r.key, r.value, flooredStamp (r.lastModifiedAt.map (·.toDateTime))⟩ : CustomDataItem)) =
        vault.metadata.floored.customData.insertionSort fun a b => a.key ≤ b.key := by
    rw [h.data, List.map_insertionSort _ (fun a b : CustomDataItem => a.key ≤ b.key) _ _
      fun _ _ _ _ => Iff.rfl, List.map_map]
    simp only [Function.comp_def, CustomDataItem.toRow, flooredStamp_read]
    rfl
  unfold Mirror.readMeta Meta.floored Vault.normal
  simp only [List.map_map, Function.comp_def]
  rw [hicons, hdata, h.settings]
  simp only [Meta.toSettings, flooredStamp_read, unpack_pack, Option.getD_some]
  rfl

theorem readDeletedObjects_ingested {m' : Mirror} (h : MetaWritten vault m') :
    m'.readDeletedObjects.map (fun d => { d with deletedAt := flooredStamp d.deletedAt }) =
      vault.normal.deletedObjects := by
  unfold Mirror.readDeletedObjects
  rw [h.tombstones, List.map_map, List.map_insertionSort
    (fun a b : TombstoneRow => a.uuid ≤ b.uuid) (fun a b : DeletedObject => a.uuid ≤ b.uuid)
    _ _ fun _ _ _ _ => Iff.rfl, List.map_map]
  simp only [Function.comp_def, DeletedObject.toRow, flooredStamp_read]
  rfl

/-! ## The round trip -/

/-- The loaded rows of an ingested vault build the tree, but for the entries. -/
theorem buildGroupTree_ingested (hnd : (vault.root.nodes.map (·.id)).Nodup) :
    ∃ t, buildGroupTree (Mirror.sortRows (vault.groups.map (ingestedRow vault))) =
        .ok (t, vault.metadata.recycleBinUuid.filter (· ∈ vault.groups.map (·.info.id))) ∧
      ∀ f : Uuid → List Entry, (∀ x ∈ vault.root.nodes, f x.id = x.entries.map (·.normal)) →
        t.attach f = vault.root.normal := by
  have hperm := sortRows_perm (vault.groups.map (ingestedRow vault))
  have hlength : vault.root.nodes.length ≤
      (Mirror.sortRows (vault.groups.map (ingestedRow vault))).length := by
    have h := congrArg List.length (ingestedRows_uuids vault)
    rw [List.length_map, List.length_map (f := Group.id)] at h
    rw [hperm.length_eq, h]
  obtain ⟨t, ht, hattach⟩ := builds_of_kids _ vault.root hnd
    (fun x hx => childrenOf_ingested hnd hx) _ _ hlength (found_ingested hnd)
  have hroot : findRoot none (Mirror.sortRows (vault.groups.map (ingestedRow vault))) =
      .ok (some vault.root.id) := by
    have hmem : ingestedRow vault (rootNode vault) ∈
        Mirror.sortRows (vault.groups.map (ingestedRow vault)) := by
      rw [hperm.mem_iff, groups_eq_cons]
      exact List.mem_cons_self ..
    refine findRoot_unique ?_ hmem rfl fun g hg hnone => ?_
    · rw [hperm.nodup_iff]
      exact List.Nodup.of_map (·.uuid) (by rw [ingestedRows_uuids]; exact hnd)
    · obtain ⟨f, hf, rfl⟩ := List.mem_map.1 (hperm.mem_iff.1 hg)
      rw [groups_eq_cons] at hf
      rcases List.mem_cons.1 hf with rfl | hf
      · rfl
      · have hsome := (parentsFirst_belowRoot vault).parent_isSome hf
        rw [show f.parent = none from hnone] at hsome
        cases hsome
  refine ⟨t, ?_, hattach⟩
  unfold buildGroupTree
  rw [hroot, findRecycleBin_ingested]
  dsimp only [bind, Except.bind]
  rw [ht]
  rfl

/-- The mirror an ingest leaves projects, and the tree it projects to is the vault's in normal form. -/
theorem project_ingested {m m' : Mirror} {source : Source}
    (hstore : ∀ e ∈ vault.entries, e.Storable)
    (h : ingestVaultWithHeader vault source m = .ok m') :
    m'.project = .ok ⟨vault.root.normal, m'.readMeta (vault.metadata.recycleBinUuid.filter
      (· ∈ vault.groups.map (·.info.id))), m'.readDeletedObjects⟩ := by
  obtain ⟨hgroups, hentries⟩ := ingestVaultWithHeader_tree h
  have hnd : (vault.root.nodes.map (·.id)).Nodup := by
    rw [← ingestedRows_uuids, ← hgroups]
    exact m'.groups.nodup
  obtain ⟨t, ht, hattach⟩ := buildGroupTree_ingested hnd
  have hload : loadGroupRows m' = .ok (Mirror.sortRows (vault.groups.map (ingestedRow vault))) := by
    unfold loadGroupRows
    rw [hgroups, if_pos]
    intro g hg
    obtain ⟨f, hf, rfl⟩ := List.mem_map.1 hg
    have hpos := collect_sortOrder none 0 (by decide) vault.root f hf
    show (0 : Int) ≤ (f.sortOrder : Int) ∧ (f.sortOrder : Int) < 2 ^ 32
    omega
  have hroot : t.attach m'.entriesOf = vault.root.normal :=
    hattach _ fun x hx => entriesOf_ingested hstore hnd hentries hx
  unfold Mirror.project
  rw [hload]
  dsimp only [bind, Except.bind]
  rw [ht, ← hroot]
  rfl

/-- **The mirror an ingest leaves projects to the vault in normal form.** -/
theorem ingest_project_normal {m m' : Mirror} {source : Source}
    (hstore : ∀ e ∈ vault.entries, e.Storable)
    (h : ingestVaultWithHeader vault source m = .ok m') :
    ∃ w, m'.project = .ok w ∧ w.floored = vault.normal := by
  obtain ⟨hmeta, -⟩ := ingestVaultWithHeader_meta h
  refine ⟨_, project_ingested hstore h, ?_⟩
  unfold Vault.floored
  dsimp only
  rw [readMeta_ingested hmeta, readDeletedObjects_ingested hmeta]
  rfl

/-- The mirror after an unguarded ingest, the old one when it fails. -/
def ingested (vault : Vault) (m : Mirror) : Mirror := (ingestVault vault m).toOption.getD m

theorem ingestVault_ingested {vault : Vault} {m : Mirror} (h : (ingestVault vault m).isOk = true) :
    ingestVault vault m = .ok (ingested vault m) := by
  unfold ingested
  cases hrun : ingestVault vault m with
  | error e => rw [hrun] at h; cases h
  | ok m' => rfl

instance (e : Entry) : Decidable e.Storable :=
  decidable_of_iff ((∀ f ∈ e.customFields, f.isProtected = true → f.key ≠ "Password") ∧
    (e.attachments.map (·.name)).Nodup ∧ ∀ v ∈ e.history, (v.customFields.map (·.key)).Nodup)
    ⟨fun h => ⟨h.1, h.2.1, h.2.2⟩, fun h => ⟨h.1, h.2, h.3⟩⟩

/-- A vault with a group, an entry in it with fields, tags and an attachment, and a history record. -/
def ledgerVault : Vault where
  root :=
    let mail : Entry :=
      { id := 9, title := "Mail", tags := [" b ", "a", "b"]
        customFields := [⟨"zone", "eu", false⟩, ⟨"pin", "1234", true⟩]
        attachments := [⟨"key.txt", [1, 2, 3], true⟩]
        times := { expiryTime := some (.atSecond 100), expires := false }
        history := [{ id := 9, title := "Post" }] }
    let work : GroupInfo :=
      { id := 2, name := "Work"
        times :=
          { lastModificationTime := some (.atSecond 20), lastAccessTime := some (.atSecond 50) } }
    .node { id := 1, name := "Root" } [] [.node work [mail] []]

/-- The vault above, ingested over another. -/
theorem ingest_project_normal_ledger :
    let m' := ingested ledgerVault (nestedMirror false)
    ingestVault ledgerVault (nestedMirror false) = .ok m' ∧
      ∃ w, m'.project = .ok w ∧ w.floored = ledgerVault.normal := by
  intro m'
  have hrun : ingestVault ledgerVault (nestedMirror false) = .ok m' :=
    ingestVault_ingested (by decide +kernel)
  exact ⟨hrun, ingest_project_normal (by decide +kernel) hrun⟩

/-- The entry of the vault above has an expiry instant it does not use, and its group an access time of
its own. The projection has neither. -/
theorem ingest_project_drops_instants :
    let m' := ingested ledgerVault (nestedMirror false)
    ingestVault ledgerVault (nestedMirror false) = .ok m' ∧ m'.project = .ok (view m') ∧
      (ledgerVault.groups.map (·.info.id)).Nodup ∧ (ledgerVault.entries.map (·.id)).Nodup ∧
      (∀ e ∈ ledgerVault.entries, e.Storable ∧ (e.customFields.map (·.key)).Nodup) ∧
      ledgerVault.entries.map (·.times.expiryTime) = [some (.atSecond 100)] ∧
      (view m').entries.map (·.times.expiryTime) = [none] ∧
      ledgerVault.groups.map (·.info.times.lastAccessTime) = [none, some (.atSecond 50)] ∧
      (view m').groups.map (·.info.times.lastAccessTime) = [some (.atSecond 0), some (.atSecond 20)] := by
  intro m'
  exact ⟨ingestVault_ingested (by decide +kernel), project_view (by decide +kernel), by decide +kernel,
    by decide +kernel, by decide +kernel, by decide +kernel, by decide +kernel, by decide +kernel,
    by decide +kernel⟩

end KeysCore.Verify
