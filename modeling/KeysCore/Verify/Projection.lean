import KeysCore.Projection
import KeysCore.Verify.GroupTree

/-!
# A tree is projected whole

`project_attaches`: the vault projected from a mirror whose groups form a tree holds every group row
under its parent and every entry row in its group, each once. The one failure left is a `sort_order`
outside `u32` (`project_ok_iff`).

The argument follows `build_subtree`: below a node the rows split into the node and the disjoint
subtrees of its children (`Rooted.sibling_unique`), so each recursive call finds its rows still
unplaced (`buildSubtree_spec`).
-/

namespace KeysCore.Verify

open Lib Lib.Forest

/-! ## The rows below a node -/

theorem mem_childrenOf {T : Table GroupRow.uuid} {u c : Uuid} :
    c ∈ childrenOf T.rows u ↔ parentIn T c = some u := by
  rw [parentIn_eq_some, childrenOf, List.mem_map]
  constructor
  · rintro ⟨g, hg, rfl⟩
    obtain ⟨hg, hp⟩ := List.mem_filter.1 hg
    exact ⟨g, hg, rfl, by simpa using hp⟩
  · rintro ⟨g, hg, rfl, hp⟩
    exact ⟨g, List.mem_filter.2 ⟨hg, by simp [hp]⟩, rfl⟩

theorem nodup_childrenOf (T : Table GroupRow.uuid) (u : Uuid) : (childrenOf T.rows u).Nodup :=
  T.nodup.sublist (List.filter_sublist.map _)

/-- The tree `g`, hung under `p`, holds the rows below `u`, each once and under its parent. -/
structure Covers (T : Table GroupRow.uuid) (u : Uuid) (p : Option Uuid) (g : Group) : Prop where
  nodup : ∀ s, ((g.collect p s).map (·.info.id)).Nodup
  mem : ∀ s x, x ∈ (g.collect p s).map (fun f => (f.info, f.parent)) ↔
    ∃ r ∈ T.rows, Reach (parentIn T) r.uuid u ∧
      x = (r.toInfo, if r.uuid = u then p else r.parentUuid)

namespace Covers

variable {T : Table GroupRow.uuid}

theorem mem_id {u : Uuid} {p : Option Uuid} {g : Group} (h : Covers T u p g) {s : Nat} {v : Uuid} :
    v ∈ (g.collect p s).map (·.info.id) ↔ v ∈ T.keys ∧ Reach (parentIn T) v u := by
  constructor
  · intro hv
    obtain ⟨f, hf, rfl⟩ := List.mem_map.1 hv
    obtain ⟨r, hr, hreach, he⟩ := (h.mem s _).1 (List.mem_map_of_mem hf)
    rw [(Prod.mk.inj he).1]
    exact ⟨Table.key_mem hr, hreach⟩
  · rintro ⟨hv, hreach⟩
    obtain ⟨r, hr, rfl⟩ := Table.mem_keys.1 hv
    obtain ⟨f, hf, he⟩ := List.mem_map.1 ((h.mem s _).2 ⟨r, hr, hreach, rfl⟩)
    exact List.mem_map.2 ⟨f, hf, by rw [(Prod.mk.inj he).1]; rfl⟩

/-- The subtrees of siblings side by side. -/
theorem collectAll {r u : Uuid} (hT : Rooted (parentIn T) (· ∈ T.keys) r) (hu : u ∈ T.keys)
    {cs : List Uuid} {gs : List Group}
    (hcover : List.Forall₂ (fun c g => Covers T c (some u) g) cs gs) (hnd : cs.Nodup)
    (hpar : ∀ c ∈ cs, parentIn T c = some u) (idx : Nat) :
    ((Group.collectAll u idx gs).map (·.info.id)).Nodup ∧
      ∀ x, x ∈ (Group.collectAll u idx gs).map (fun f => (f.info, f.parent)) ↔
        ∃ r ∈ T.rows, (∃ c ∈ cs, Reach (parentIn T) r.uuid c) ∧ x = (r.toInfo, r.parentUuid) := by
  induction hcover generalizing idx with
  | nil => simp [Group.collectAll]
  | cons hcg hrest ih =>
    rename_i c g cs gs
    rw [List.nodup_cons] at hnd
    obtain ⟨ihnd, ihmem⟩ := ih hnd.2 (fun d hd => hpar d (List.mem_cons_of_mem _ hd)) (idx + 1)
    have hc := hpar c (by simp)
    unfold Group.collectAll
    refine ⟨?_, ?_⟩
    · rw [List.map_append, List.nodup_append]
      refine ⟨hcg.nodup _, ihnd, ?_⟩
      -- a row below `c` is below no other sibling
      rintro a ha b hb rfl
      obtain ⟨f, hf, hfa⟩ := List.mem_map.1 hb
      obtain ⟨row, hrow, ⟨d, hd, hreach⟩, he⟩ := (ihmem _).1 (List.mem_map_of_mem hf)
      obtain ⟨-, hac⟩ := hcg.mem_id.1 ha
      have hid : row.uuid = a := by rw [← hfa, (Prod.mk.inj he).1]; rfl
      rw [hid] at hreach
      have hcd := hT.sibling_unique hu hc (hpar d (List.mem_cons_of_mem _ hd)) hac hreach
      exact hnd.1 (hcd ▸ hd)
    · intro x
      rw [List.map_append, List.mem_append, hcg.mem, ihmem]
      constructor
      · rintro (⟨row, hrow, hreach, rfl⟩ | ⟨row, hrow, ⟨d, hd, hreach⟩, rfl⟩)
        · refine ⟨row, hrow, ⟨c, by simp, hreach⟩, ?_⟩
          split
          · rename_i e
            rw [← e, parentIn_of_mem hrow] at hc
            rw [hc]
          · rfl
        · exact ⟨row, hrow, ⟨d, List.mem_cons_of_mem _ hd, hreach⟩, rfl⟩
      · rintro ⟨row, hrow, ⟨d, hd, hreach⟩, rfl⟩
        rcases List.mem_cons.1 hd with rfl | hd
        · refine .inl ⟨row, hrow, hreach, ?_⟩
          split
          · rename_i e
            rw [← e, parentIn_of_mem hrow] at hc
            rw [hc]
          · rfl
        · exact .inr ⟨row, hrow, ⟨d, hd, hreach⟩, rfl⟩

/-- A node over the subtrees of its children. -/
theorem node {r : Uuid} (hT : Rooted (parentIn T) (· ∈ T.keys) r) {row : GroupRow}
    (hrow : row ∈ T.rows) {gs : List Group}
    (hcover : List.Forall₂ (fun c g => Covers T c (some row.uuid) g)
      (childrenOf T.rows row.uuid) gs) (p : Option Uuid) :
    Covers T row.uuid p (.node row.toInfo [] gs) := by
  have hu : row.uuid ∈ T.keys := Table.key_mem hrow
  have hpar : ∀ c ∈ childrenOf T.rows row.uuid, parentIn T c = some row.uuid :=
    fun c hc => mem_childrenOf.1 hc
  obtain ⟨hnd, hmem⟩ := collectAll hT hu hcover (nodup_childrenOf T row.uuid) hpar 0
  -- the node itself is not below one of its children
  have hnot : ∀ c, parentIn T c = some row.uuid → ¬ Reach (parentIn T) row.uuid c := fun c hc hr =>
    hT.not_reach_of_par (hT.mem_of_reach hu hr) hc hr
  refine ⟨fun s => ?_, fun s x => ?_⟩
  · unfold Group.collect
    rw [List.map_cons, List.nodup_cons]
    refine ⟨fun hmem' => ?_, hnd⟩
    obtain ⟨f, hf, hfid⟩ := List.mem_map.1 hmem'
    obtain ⟨a, ha, ⟨c, hc, hreach⟩, he⟩ := (hmem _).1 (List.mem_map_of_mem hf)
    have : a.uuid = row.uuid := by
      have hi := (Prod.mk.inj he).1
      rw [hi] at hfid
      exact hfid
    exact hnot c (hpar c hc) (this ▸ hreach)
  · unfold Group.collect
    rw [List.map_cons, List.mem_cons, show row.toInfo.id = row.uuid from rfl, hmem]
    constructor
    · rintro (rfl | ⟨a, ha, ⟨c, hc, hreach⟩, rfl⟩)
      · exact ⟨row, hrow, .refl _, by simp⟩
      · refine ⟨a, ha, hreach.trans (.of_par (hpar c hc)), ?_⟩
        rw [if_neg]
        intro e
        exact hnot c (hpar c hc) (e ▸ hreach)
    · rintro ⟨a, ha, hreach, rfl⟩
      rcases reach_iff_child.1 hreach with e | ⟨c, hc, hac⟩
      · rw [Table.eq_of_key ha hrow e]
        simp
      · refine .inr ⟨a, ha, ⟨c, mem_childrenOf.2 hc, hac⟩, ?_⟩
        rw [if_neg]
        intro e
        exact hnot c hc (e ▸ hac)

end Covers

/-! ## `build_subtree` -/

/-- What a call of `build_subtree` on `u` delivers from the unplaced rows `byUuid`. -/
def BuildsBelow (T : Table GroupRow.uuid) (fuel : Nat) (u : Uuid) (byUuid : List GroupRow) : Prop :=
  ∃ g rest, buildSubtree T.rows fuel u byUuid = .ok (g, rest) ∧ rest ⊆ byUuid ∧
    (∀ x ∈ byUuid, ¬ Reach (parentIn T) x.uuid u → x ∈ rest) ∧ ∀ p, Covers T u p g

/-- The loop of `build_subtree` over the children of `u`. -/
theorem buildSubtree_children {T : Table GroupRow.uuid} {r u : Uuid} {fuel : Nat}
    (hT : Rooted (parentIn T) (· ∈ T.keys) r) (hu : u ∈ T.keys) {cs : List Uuid} (hnd : cs.Nodup)
    (hpar : ∀ c ∈ cs, parentIn T c = some u)
    (hstep : ∀ c ∈ cs, ∀ byUuid : List GroupRow, byUuid ⊆ T.rows →
      (∀ x ∈ T.rows, Reach (parentIn T) x.uuid c → x ∈ byUuid) → BuildsBelow T fuel c byUuid)
    (acc : List Group) {byUuid : List GroupRow} (hsub : byUuid ⊆ T.rows)
    (hhave : ∀ x ∈ T.rows, ∀ c ∈ cs, Reach (parentIn T) x.uuid c → x ∈ byUuid) :
    ∃ gs rest, cs.foldlM
        (fun (acc : List Group × List GroupRow) c => do
          let (g, rest) ← buildSubtree T.rows fuel c acc.2
          return (acc.1 ++ [g], rest)) (acc, byUuid) =
        Except.ok (acc ++ gs, rest) ∧ rest ⊆ byUuid ∧
      (∀ x ∈ byUuid, (∀ c ∈ cs, ¬ Reach (parentIn T) x.uuid c) → x ∈ rest) ∧
      List.Forall₂ (fun c g => ∀ p, Covers T c p g) cs gs := by
  induction cs generalizing acc byUuid with
  | nil => exact ⟨[], byUuid, by simp [pure, Except.pure], fun _ h => h, fun x hx _ => hx, .nil⟩
  | cons c cs ih =>
    rw [List.nodup_cons] at hnd
    obtain ⟨g, rest, hg, hrest, hkeep, hcov⟩ :=
      hstep c (by simp) byUuid hsub fun x hx hr => hhave x hx c (by simp) hr
    -- the rows below the later siblings are not below `c`, so they are still there
    have hhave' : ∀ x ∈ T.rows, ∀ d ∈ cs, Reach (parentIn T) x.uuid d → x ∈ rest := by
      intro x hx d hd hr
      refine hkeep x (hhave x hx d (List.mem_cons_of_mem _ hd) hr) fun hxc => ?_
      have hcd := hT.sibling_unique hu (hpar c (by simp)) (hpar d (List.mem_cons_of_mem _ hd)) hxc hr
      exact hnd.1 (hcd ▸ hd)
    obtain ⟨gs, rest', hgs, hrest', hkeep', hcov'⟩ :=
      ih hnd.2 (fun d hd => hpar d (List.mem_cons_of_mem _ hd))
        (fun d hd => hstep d (List.mem_cons_of_mem _ hd)) (acc ++ [g]) (fun x hx => hsub (hrest hx))
        hhave'
    refine ⟨g :: gs, rest', ?_, fun x hx => hrest (hrest' hx), ?_, .cons hcov hcov'⟩
    · rw [List.foldlM_cons]
      simp only [hg, bind, Except.bind, pure, Except.pure]
      rw [List.append_assoc] at hgs
      exact hgs
    · intro x hx hn
      exact hkeep' x (hkeep x hx (hn c (by simp))) fun d hd => hn d (List.mem_cons_of_mem _ hd)

/-- **With all rows below `u` unplaced, `build_subtree` places exactly those.** -/
theorem buildSubtree_spec {T : Table GroupRow.uuid} {r : Uuid}
    (hT : Rooted (parentIn T) (· ∈ T.keys) r) (fuel : Nat) {u : Uuid} (hu : u ∈ T.keys)
    {byUuid : List GroupRow} (hsub : byUuid ⊆ T.rows)
    (hhave : ∀ x ∈ T.rows, Reach (parentIn T) x.uuid u → x ∈ byUuid)
    (hfuel : ∀ x ∈ T.rows, ∀ k, up (parentIn T) k x.uuid = some u → k < fuel) :
    BuildsBelow T fuel u byUuid := by
  induction fuel generalizing u byUuid with
  | zero =>
    obtain ⟨row, hrow, rfl⟩ := Table.mem_keys.1 hu
    exact absurd (hfuel row hrow 0 rfl) (Nat.lt_irrefl 0)
  | succ fuel ih =>
    obtain ⟨row, hrow, rfl⟩ := Table.mem_keys.1 hu
    have hfind : byUuid.find? (·.uuid = row.uuid) = some row := by
      cases hf : byUuid.find? (·.uuid = row.uuid) with
      | none =>
        have := List.find?_eq_none.1 hf row (hhave row hrow (.refl _))
        simp at this
      | some x =>
        have hx := hsub (List.mem_of_find?_eq_some hf)
        rw [Table.eq_of_key hx hrow (by simpa using List.find?_some hf)]
    have hpar : ∀ c ∈ childrenOf T.rows row.uuid, parentIn T c = some row.uuid :=
      fun c hc => mem_childrenOf.1 hc
    have hstep : ∀ c ∈ childrenOf T.rows row.uuid, ∀ byUuid : List GroupRow, byUuid ⊆ T.rows →
        (∀ x ∈ T.rows, Reach (parentIn T) x.uuid c → x ∈ byUuid) → BuildsBelow T fuel c byUuid := by
      intro c hc byUuid hsub' hhave'
      obtain ⟨a, ha, rfl, -⟩ := parentIn_eq_some.1 (hpar c hc)
      refine ih (Table.key_mem ha) hsub' hhave' fun x hx k hk => ?_
      have := hfuel x hx (k + 1) (by rw [up_succ_last hk, hpar _ hc])
      exact Nat.lt_of_succ_lt_succ this
    have hhave' : ∀ x ∈ T.rows, ∀ c ∈ childrenOf T.rows row.uuid,
        Reach (parentIn T) x.uuid c → x ∈ byUuid.filter (·.uuid ≠ row.uuid) := by
      intro x hx c hc hr
      refine List.mem_filter.2 ⟨hhave x hx (hr.trans (.of_par (hpar c hc))), ?_⟩
      simp only [ne_eq, decide_not, Bool.not_eq_eq_eq_not, Bool.not_true, decide_eq_false_iff_not]
      intro e
      rw [e] at hr
      exact hT.not_reach_of_par (hT.mem_of_reach hu hr) (hpar c hc) hr
    obtain ⟨gs, rest, hgs, hrest, hkeep, hcov⟩ :=
      buildSubtree_children hT hu (nodup_childrenOf T row.uuid) hpar hstep []
        (fun x hx => hsub (List.mem_filter.1 hx).1) hhave'
    refine ⟨.node row.toInfo [] gs, rest, ?_, fun x hx => (List.mem_filter.1 (hrest hx)).1, ?_, ?_⟩
    · unfold buildSubtree
      rw [hfind]
      simp only
      rw [hgs]
      rfl
    · intro x hx hn
      refine hkeep x (List.mem_filter.2 ⟨hx, ?_⟩) fun c hc hr => hn (hr.trans (.of_par (hpar c hc)))
      simp only [ne_eq, decide_not, Bool.not_eq_eq_eq_not, Bool.not_true, decide_eq_false_iff_not]
      exact fun e => hn (e ▸ .refl _)
    · exact Covers.node hT hrow (hcov.imp fun _ _ h => h (some row.uuid))

/-! ## `build_group_tree` -/

theorem findRoot_of_parents {rows : List GroupRow} (h : ∀ g ∈ rows, g.parentUuid ≠ none)
    (found : Option Uuid) : findRoot found rows = .ok found := by
  induction rows with
  | nil => rfl
  | cons g rows ih =>
    cases hp : g.parentUuid with
    | none => exact absurd hp (h g (by simp))
    | some p =>
      unfold findRoot
      simp only [hp]
      exact ih fun a ha => h a (List.mem_cons_of_mem _ ha)

theorem findRoot_unique {rows : List GroupRow} (hnd : rows.Nodup) {root : GroupRow}
    (hroot : root ∈ rows) (hnone : root.parentUuid = none)
    (huniq : ∀ g ∈ rows, g.parentUuid = none → g = root) :
    findRoot none rows = .ok (some root.uuid) := by
  induction rows with
  | nil => cases hroot
  | cons g rows ih =>
    rw [List.nodup_cons] at hnd
    unfold findRoot
    cases hp : g.parentUuid with
    | none =>
      obtain rfl := huniq g (by simp) hp
      refine findRoot_of_parents (fun a ha hn => hnd.1 ?_) _
      rw [← huniq a (List.mem_cons_of_mem _ ha) hn]
      exact ha
    | some p =>
      have hmem : root ∈ rows := by
        rcases List.mem_cons.1 hroot with rfl | h
        · rw [hnone] at hp
          cases hp
        · exact h
      exact ih hnd.2 hmem fun a ha => huniq a (List.mem_cons_of_mem _ ha)

theorem sortRows_perm (rows : List GroupRow) : (Mirror.sortRows rows).Perm rows :=
  List.perm_insertionSort _ rows

/-- The table in the order it is loaded. -/
def sortedTable (T : Table GroupRow.uuid) : Table GroupRow.uuid :=
  ⟨Mirror.sortRows T.rows, ((sortRows_perm T.rows).map _).nodup_iff.2 T.nodup⟩

theorem mem_sortedTable {T : Table GroupRow.uuid} {g : GroupRow} :
    g ∈ (sortedTable T).rows ↔ g ∈ T.rows := (sortRows_perm T.rows).mem_iff

theorem parentIn_sortedTable (T : Table GroupRow.uuid) : parentIn (sortedTable T) = parentIn T := by
  funext u
  apply Option.ext
  intro p
  rw [parentIn_eq_some, parentIn_eq_some]
  simp only [mem_sortedTable]

theorem keys_sortedTable {T : Table GroupRow.uuid} {u : Uuid} :
    u ∈ (sortedTable T).keys ↔ u ∈ T.keys := by
  simp only [Table.mem_keys, mem_sortedTable]

/-- The tree built from the loaded rows of a rooted table covers the table. -/
theorem buildGroupTree_spec {T : Table GroupRow.uuid} {r : Uuid}
    (hT : Rooted (parentIn T) (· ∈ T.keys) r) :
    ∃ g, buildGroupTree (Mirror.sortRows T.rows) = .ok (g, findRecycleBin (Mirror.sortRows T.rows)) ∧
      Covers (sortedTable T) r none g := by
  have hS : Rooted (parentIn (sortedTable T)) (· ∈ (sortedTable T).keys) r :=
    hT.congr (fun _ => keys_sortedTable) fun u _ => by rw [parentIn_sortedTable]
  obtain ⟨root, hroot, rfl⟩ := Table.mem_keys.1 hS.root_mem
  have hnone : root.parentUuid = none := by rw [← parentIn_of_mem hroot, hS.root_par]
  have hfind : findRoot none (Mirror.sortRows T.rows) = .ok (some root.uuid) := by
    refine findRoot_unique (List.Nodup.of_map _ (sortedTable T).nodup) hroot hnone ?_
    intro g hg hn
    refine Table.eq_of_key hg hroot (hS.eq_root (Table.key_mem hg) ?_)
    rw [parentIn_of_mem hg, hn]
  have hfuel : ∀ x ∈ (sortedTable T).rows, ∀ k,
      up (parentIn (sortedTable T)) k x.uuid = some root.uuid →
        k < (Mirror.sortRows T.rows).length := by
    intro x hx k hk
    have := hS.up_lt_length (l := (sortedTable T).keys) (fun _ h => h) (Table.key_mem hx) hk
    rwa [Table.keys, List.length_map] at this
  obtain ⟨g, rest, hg, -, -, hcov⟩ :=
    buildSubtree_spec hS _ (Table.key_mem hroot) (fun _ h => h) (fun x hx _ => hx) hfuel
  refine ⟨g, ?_, hcov none⟩
  unfold buildGroupTree
  rw [hfind]
  simp only [bind, Except.bind]
  rw [show buildSubtree (Mirror.sortRows T.rows) _ root.uuid (Mirror.sortRows T.rows) = _ from hg]
  rfl

/-! ## Entries -/

mutual

/-- Attaching entries changes nothing else. -/
theorem collect_attach (f : Uuid → List Entry) (p : Option Uuid) (s : Nat) :
    ∀ g : Group, (g.attach f).collect p s =
      (g.collect p s).map fun n => { n with entries := f n.info.id }
  | .node i es gs => by
    unfold Group.attach Group.collect
    rw [List.map_cons, collectAll_attachAll f i.id 0 gs]

theorem collectAll_attachAll (f : Uuid → List Entry) (u : Uuid) (idx : Nat) :
    ∀ gs : List Group, Group.collectAll u idx (Group.attachAll f gs) =
      (Group.collectAll u idx gs).map fun n => { n with entries := f n.info.id }
  | [] => rfl
  | g :: gs => by
    unfold Group.attachAll Group.collectAll
    rw [List.map_append, collect_attach f (some u) (positionU32 idx) g,
      collectAll_attachAll f u (idx + 1) gs]

end

/-- The vault holds every group row under its parent and every entry row in its group. -/
structure Attached (m : Mirror) (v : Vault) : Prop where
  groups : (v.groups.map fun f => (f.info, f.parent)).Perm
    (m.groups.rows.map fun g => (g.toInfo, g.parentUuid))
  entries : v.entriesWithParent.Perm (m.entries.rows.map fun e => (e.toEntry, e.groupUuid))

/-- Splitting rows by a key that takes its values in a list without repetition. -/
theorem flatMap_filter_perm {α κ : Type} [DecidableEq κ] (key : α → κ) {ks : List κ} (hnd : ks.Nodup)
    {rows : List α} (h : ∀ r ∈ rows, key r ∈ ks) :
    (ks.flatMap fun k => rows.filter fun r => key r = k).Perm rows := by
  induction rows with
  | nil => simp
  | cons r rows ih =>
    have hk := h r (by simp)
    obtain ⟨l₁, l₂, rfl⟩ := List.append_of_mem hk
    have ih := ih fun a ha => h a (List.mem_cons_of_mem _ ha)
    rw [List.nodup_append] at hnd
    obtain ⟨-, hnd₂, hdisj⟩ := hnd
    rw [List.nodup_cons] at hnd₂
    have hother : ∀ l : List κ, key r ∉ l →
        (l.flatMap fun k => (r :: rows).filter fun a => key a = k) =
          l.flatMap fun k => rows.filter fun a => key a = k := by
      intro l hl
      refine List.flatMap_congr fun k hkl => ?_
      rw [List.filter_cons_of_neg]
      simp only [decide_eq_true_eq]
      rintro rfl
      exact hl hkl
    have h₁ : key r ∉ l₁ := fun hm => hdisj _ hm _ (by simp) rfl
    rw [List.flatMap_append, List.flatMap_cons, hother l₁ h₁, hother l₂ hnd₂.1,
      List.filter_cons_of_pos (by simp), List.cons_append]
    rw [List.flatMap_append, List.flatMap_cons] at ih
    exact List.perm_middle.trans (ih.cons r)

/-- What `build_group_tree` returns is the tree below the root, with the bin found in the rows. -/
theorem buildGroupTree_ok {rows : List GroupRow} {g : Group} {bin : Option Uuid}
    (h : buildGroupTree rows = .ok (g, bin)) :
    (∃ root rest, buildSubtree rows rows.length root rows = .ok (g, rest)) ∧
      bin = findRecycleBin rows := by
  unfold buildGroupTree at h
  obtain ⟨root, -, h⟩ := except_bind_ok.1 h
  cases root with
  | none => cases h
  | some root =>
    obtain ⟨⟨g', rest⟩, hg, h⟩ := except_bind_ok.1 h
    obtain ⟨rfl, rfl⟩ := Prod.mk.inj (Except.ok.inj h)
    exact ⟨⟨root, rest, hg⟩, rfl⟩

/-- **The parts of a projection that returned.** -/
theorem project_ok {m : Mirror} {v : Vault} (h : m.project = .ok v) :
    (∀ g ∈ m.groups.rows, 0 ≤ g.sortOrder ∧ g.sortOrder < 2 ^ 32) ∧
      ∃ g, buildGroupTree (Mirror.sortRows m.groups.rows) =
          .ok (g, findRecycleBin (Mirror.sortRows m.groups.rows)) ∧
        v = ⟨g.attach m.entriesOf, m.readMeta (findRecycleBin (Mirror.sortRows m.groups.rows)),
          m.readDeletedObjects⟩ := by
  unfold Mirror.project at h
  obtain ⟨rows, hrows, h⟩ := except_bind_ok.1 h
  obtain ⟨⟨g, bin⟩, hg, h⟩ := except_bind_ok.1 h
  unfold loadGroupRows at hrows
  split at hrows
  · rename_i hrange
    obtain rfl := Except.ok.inj hrows
    obtain rfl := (buildGroupTree_ok hg).2
    exact ⟨hrange, g, hg, (Except.ok.inj h).symm⟩
  · cases hrows

/-- **The vault projected from a tree leaves no group and no entry out.** -/
theorem project_attaches {m : Mirror} (ht : GroupTree m) {v : Vault} (h : m.project = .ok v) :
    Attached m v := by
  obtain ⟨r, hr⟩ := groupTree_iff.1 ht
  obtain ⟨g, hg, hcov⟩ := buildGroupTree_spec (T := m.groups) hr
  obtain ⟨-, g', hg', rfl⟩ := project_ok h
  obtain rfl : g = g' := (Prod.mk.inj (Except.ok.inj (hg.symm.trans hg'))).1
  have hgroups : (g.attach m.entriesOf).flatten = _ := collect_attach m.entriesOf none 0 g
  have hreach : ∀ row ∈ m.groups.rows, Reach (parentIn (sortedTable m.groups)) row.uuid r := by
    intro row hrow
    rw [parentIn_sortedTable]
    exact hr.reach_root (Table.key_mem hrow)
  have hpar : ∀ row ∈ m.groups.rows, (if row.uuid = r then none else row.parentUuid) =
      row.parentUuid := by
    intro row hrow
    split
    · rename_i e
      have := hr.root_par
      rw [← e, parentOf_of_mem hrow] at this
      exact this.symm
    · rfl
  refine ⟨?_, ?_⟩
  · rw [Vault.groups, hgroups, List.map_map]
    show ((g.collect none 0).map fun f => (f.info, f.parent)).Perm _
    refine (List.perm_ext_iff_of_nodup ?_ ?_).2 fun x => ?_
    · exact (List.Nodup.of_map (fun x : GroupInfo × Option Uuid => x.1.id) (by
        rw [List.map_map]
        exact hcov.nodup 0))
    · exact (List.Nodup.of_map (fun x : GroupInfo × Option Uuid => x.1.id) (by
        rw [List.map_map]
        exact m.groups.nodup))
    · rw [hcov.mem, List.mem_map]
      constructor
      · rintro ⟨row, hrow, -, rfl⟩
        rw [mem_sortedTable] at hrow
        exact ⟨row, hrow, by rw [hpar row hrow]⟩
      · rintro ⟨row, hrow, rfl⟩
        exact ⟨row, mem_sortedTable.2 hrow, hreach row hrow, by rw [hpar row hrow]⟩
  · have hids : ∀ u ∈ m.groups.keys, u ∈ (g.collect none 0).map (·.info.id) := by
      intro u hu
      obtain ⟨row, hrow, rfl⟩ := Table.mem_keys.1 hu
      exact hcov.mem_id.2 ⟨keys_sortedTable.2 hu, hreach row hrow⟩
    have hin : ∀ e ∈ m.entries.rows, e.groupUuid ∈ (g.collect none 0).map (·.info.id) :=
      fun e he => hids _ (m.fkGroup e he)
    have hsplit := flatMap_filter_perm EntryRow.groupUuid (hcov.nodup 0) hin
    have hflat : Vault.entriesWithParent
        { root := g.attach m.entriesOf
          metadata := m.readMeta (findRecycleBin (Mirror.sortRows m.groups.rows))
          deletedObjects := m.readDeletedObjects } =
        (((g.collect none 0).map (·.info.id)).flatMap fun u =>
          m.entries.rows.filter (·.groupUuid = u)).map fun e => (e.toEntry, e.groupUuid) := by
      rw [Vault.entriesWithParent, Vault.groups, hgroups, List.flatMap_map, List.map_flatMap,
        List.flatMap_map]
      refine List.flatMap_congr fun n _ => ?_
      rw [Mirror.entriesOf, List.map_map]
      refine List.map_congr_left fun e he => ?_
      have : e.groupUuid = n.info.id := by simpa using (List.mem_filter.1 he).2
      simp [this]
    rw [hflat]
    exact hsplit.map _

/-- The projection of a tree fails only on a `sort_order` that is not a `u32`. -/
theorem project_ok_iff {m : Mirror} (ht : GroupTree m) :
    (∃ v, m.project = .ok v) ↔ ∀ g ∈ m.groups.rows, 0 ≤ g.sortOrder ∧ g.sortOrder < 2 ^ 32 := by
  obtain ⟨r, hr⟩ := groupTree_iff.1 ht
  obtain ⟨g, hg, -⟩ := buildGroupTree_spec (T := m.groups) hr
  unfold Mirror.project loadGroupRows
  split
  · rename_i hrange
    refine iff_of_true ?_ hrange
    simp only [bind, Except.bind, hg]
    exact ⟨_, rfl⟩
  · rename_i hrange
    refine iff_of_false ?_ hrange
    rintro ⟨v, hv⟩
    cases hv

end KeysCore.Verify
