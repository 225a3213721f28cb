import KeysCore.Verify.Cascade
import KeysCore.Verify.LiveTombstones
import KeysCore.Verify.PeerPull

/-!
# Settling the tombstones of groups

`materialize_group_tombstones` deletes a tombstoned group when nothing below it lives, and takes the
tombstone from the others. `groupAlive` decides what is below by recursion on the children;
`groupAlive_eq_false_iff` says which groups are dead without it.

The deletes go through because the dead groups are ordered by `group_depth`, children first
(`deadGroupsIn_childrenFirst`). That walk stops after 100 001 parents, so a dead group that deep and a
dead child of it stand in the order the hash set yields them, and the root is not exempt from dying:
`materializeGroupTombstones_exact_iff` says when neither occurs.
-/

namespace KeysCore.Verify

open Lib Lib.Forest

section Groups

variable {m : Mirror} {r : Uuid}

/-! ## Dead groups -/

/-- Something keeps the group `x`: it has no tombstone, or it holds an entry. -/
def Kept (m : Mirror) (x : Uuid) : Prop := x ∉ m.tombstones.keys ∨ m.holdsEntry x = true

/-- Every group below `g`, itself included, is tombstoned and holds no entry. -/
def Dead (m : Mirror) (g : Uuid) : Prop :=
  ∀ x, Reach m.parentOf x g → x ∈ m.tombstones.keys ∧ ∀ e ∈ m.entries.rows, e.groupUuid ≠ x

theorem holdsEntry_eq_false {x : Uuid} :
    m.holdsEntry x = false ↔ ∀ e ∈ m.entries.rows, e.groupUuid ≠ x := by
  simp [Mirror.holdsEntry]

theorem not_kept_iff {x : Uuid} :
    ¬ Kept m x ↔ x ∈ m.tombstones.keys ∧ ∀ e ∈ m.entries.rows, e.groupUuid ≠ x := by
  rw [Kept, not_or, not_not, Bool.not_eq_true, holdsEntry_eq_false]

theorem Dead.child {c g : Uuid} (h : Dead m g) (hc : m.parentOf c = some g) : Dead m c :=
  fun x hx => h x (hx.trans (.of_par hc))

theorem groupAlive_iff {n : Nat} {g : Uuid} :
    m.groupAlive n g = true ↔ ∃ k ≤ n, ∃ x, up m.parentOf k x = some g ∧ Kept m x := by
  have hhere : ∀ g, (g ∉ m.tombstones.keys || m.holdsEntry g) = true ↔ Kept m g := fun g => by
    simp [Kept]
  induction n generalizing g with
  | zero =>
    unfold Mirror.groupAlive
    rw [hhere]
    constructor
    · exact fun h => ⟨0, Nat.le_refl 0, g, rfl, h⟩
    · rintro ⟨k, hk, x, hx, h⟩
      obtain rfl := Nat.le_zero.1 hk
      rwa [← Option.some.inj hx]
  | succ n ih =>
    unfold Mirror.groupAlive
    rw [Bool.or_eq_true, hhere, List.any_eq_true]
    constructor
    · rintro (h | ⟨c, hc, halive⟩)
      · exact ⟨0, Nat.zero_le _, g, rfl, h⟩
      · obtain ⟨k, hk, x, hx, h⟩ := ih.1 halive
        refine ⟨k + 1, Nat.succ_le_succ hk, x, ?_, h⟩
        rw [up_succ_last hx]
        exact mem_childGroups.1 hc
    · rintro ⟨k, hk, x, hx, h⟩
      cases k with
      | zero => exact .inl (Option.some.inj hx ▸ h)
      | succ k =>
        rw [up_add k 1] at hx
        obtain ⟨c, hc, hpar⟩ := Option.bind_eq_some_iff.1 hx
        rw [up_one] at hpar
        exact .inr ⟨c, mem_childGroups.2 hpar, ih.2 ⟨k, Nat.le_of_succ_le_succ hk, x, hc, h⟩⟩

/-- In a tree the walk of `group_alive` reaches everything below. -/
theorem groupAlive_eq_false_iff (hr : RootedAt m r) {g : Uuid} (hg : g ∈ m.groups.keys) :
    m.groupAlive m.groups.rows.length g = false ↔ Dead m g := by
  rw [← Bool.not_eq_true, groupAlive_iff]
  constructor
  · intro h x hx
    rw [← not_kept_iff]
    intro hkept
    obtain ⟨k, hk⟩ := hx
    refine h ⟨k, ?_, x, hk, hkept⟩
    have hxm : x ∈ m.groups.keys := by
      cases k with
      | zero => exact Option.some.inj hk ▸ hg
      | succ k =>
        rw [up_succ] at hk
        obtain ⟨p, hp, -⟩ := Option.bind_eq_some_iff.1 hk
        exact (mem_keys_of_parentOf hp).1
    have hlt := hr.up_lt_length (l := m.groups.keys) (fun _ h => h) hxm hk
    rw [Table.keys, List.length_map] at hlt
    exact hlt.le
  · rintro h ⟨k, -, x, hx, hkept⟩
    exact not_kept_iff.2 (h x ⟨k, hx⟩) hkept

/-! ## Their order -/

theorem groupDepth_succ {n : Nat} {g : Uuid} (h : up m.parentOf (n + 1) g = none) :
    m.groupDepth (n + 1) g = m.groupDepth n g := by
  induction n generalizing g with
  | zero =>
    rw [up_one] at h
    simp [Mirror.groupDepth, h]
  | succ n ih =>
    cases hp : m.parentOf g with
    | none => simp [Mirror.groupDepth, hp]
    | some p =>
      rw [up_succ_of_par hp] at h
      have hrec := ih h
      rw [Mirror.groupDepth, hp]
      show m.groupDepth (n + 1) p + 1 = _
      rw [hrec, Mirror.groupDepth, hp]

/-- A child is one deeper than its parent, while the walk is not cut off. -/
theorem groupDepth_child {n : Nat} {c g : Uuid} (hc : m.parentOf c = some g)
    (hnone : up m.parentOf (n + 1) g = none) :
    m.groupDepth (n + 1) c = m.groupDepth (n + 1) g + 1 := by
  rw [groupDepth_succ hnone, Mirror.groupDepth, hc]

/-- A walk that is cut off has the depth it is cut off at. -/
theorem groupDepth_of_up {n : Nat} {g x : Uuid} (h : up m.parentOf n g = some x) :
    m.groupDepth n g = n := by
  induction n generalizing g with
  | zero => rfl
  | succ n ih =>
    cases hp : m.parentOf g with
    | none => simp [up_succ, hp] at h
    | some p =>
      rw [up_succ_of_par hp] at h
      simp only [Mirror.groupDepth, hp, ih h]

theorem up_eq_none_of_length (hr : RootedAt m r) {n : Nat} (hlen : m.groups.rows.length ≤ n)
    {g : Uuid} (hg : g ∈ m.groups.keys) : up m.parentOf n g = none := by
  cases hup : up m.parentOf n g with
  | none => rfl
  | some x =>
    have hlt := hr.up_lt_length (l := m.groups.keys) (fun _ h => h) hg hup
    rw [Table.keys, List.length_map] at hlt
    omega

theorem depth_total : Std.Total fun a b : Uuid => m.groupDepth 100001 b ≤ m.groupDepth 100001 a :=
  ⟨fun _ _ => Nat.le_total _ _⟩

theorem depth_trans : IsTrans Uuid fun a b => m.groupDepth 100001 b ≤ m.groupDepth 100001 a :=
  ⟨fun _ _ _ h h' => h'.trans h⟩

/-- No dead group whose walk up is cut off has a child. -/
def Shallow (m : Mirror) : Prop :=
  ∀ c p, m.parentOf c = some p → Dead m p → up m.parentOf 100001 p = none

theorem Shallow.of_length (hr : RootedAt m r) (hlen : m.groups.rows.length ≤ 100001) : Shallow m :=
  fun _ _ hc _ => up_eq_none_of_length hr hlen (mem_keys_of_parentOf hc).2

section Order

variable {order : List Uuid} (horder : order.Perm m.tombstonedGroups)

include horder

theorem mem_order {g : Uuid} : g ∈ order ↔ g ∈ m.groups.keys ∧ g ∈ m.tombstones.keys := by
  rw [horder.mem_iff, Mirror.tombstonedGroups, List.mem_filter, decide_eq_true_eq]

theorem mem_deadGroupsIn_iff {g : Uuid} : g ∈ m.deadGroupsIn order ↔
    (g ∈ m.groups.keys ∧ g ∈ m.tombstones.keys) ∧ m.groupAlive m.groups.rows.length g = false := by
  rw [Mirror.deadGroupsIn, List.mem_insertionSort, List.mem_filter, Bool.not_eq_true',
    mem_order horder]

theorem mem_deadGroupsIn (hr : RootedAt m r) {g : Uuid} :
    g ∈ m.deadGroupsIn order ↔ g ∈ m.groups.keys ∧ Dead m g := by
  rw [mem_deadGroupsIn_iff horder]
  constructor
  · rintro ⟨⟨hg, -⟩, hdead⟩
    exact ⟨hg, (groupAlive_eq_false_iff hr hg).1 hdead⟩
  · rintro ⟨hg, hdead⟩
    exact ⟨⟨hg, (hdead g (.refl g)).1⟩, (groupAlive_eq_false_iff hr hg).2 hdead⟩

/-- **The dead groups are deleted children first.** -/
theorem deadGroupsIn_childrenFirst (hr : RootedAt m r) (hshallow : Shallow m) :
    (m.deadGroupsIn order).Pairwise fun a b => m.parentOf b ≠ some a := by
  have := depth_total (m := m)
  have := depth_trans (m := m)
  have hsorted : (m.deadGroupsIn order).Pairwise fun a b =>
      m.groupDepth 100001 b ≤ m.groupDepth 100001 a := List.pairwise_insertionSort _ _
  refine hsorted.imp_of_mem fun {a b} ha _ hle hpar => ?_
  have hdead := ((mem_deadGroupsIn horder hr).1 ha).2
  have hdeeper : m.groupDepth 100001 b = m.groupDepth 100001 a + 1 :=
    groupDepth_child (n := 100000) hpar (hshallow b a hpar hdead)
  omega

end Order

theorem deleteGroupRow_ok {u : Uuid} (hgroups : ∀ c, m.parentOf c = some u → c = u)
    (hentries : ∀ e ∈ m.entries.rows, e.groupUuid ≠ u) : ∃ m', m.deleteGroupRow u = .ok m' := by
  unfold Mirror.deleteGroupRow
  rw [dif_pos]
  · exact ⟨_, rfl⟩
  · refine fun _ => ⟨fun g hg hp => ?_, hentries⟩
    exact hgroups g.uuid (by rw [parentOf_of_mem hg, hp])

/-- Deleting groups of `m` one after the other, each after its children, breaks no foreign key. -/
theorem deleteGroupRows_ok {dead : List Uuid}
    (hentries : ∀ g ∈ dead, ∀ e ∈ m.entries.rows, e.groupUuid ≠ g)
    (hclosed : ∀ c p, m.parentOf c = some p → p ∈ dead → c ∈ dead)
    (hfirst : dead.Pairwise fun a b => m.parentOf b ≠ some a) {m' : Mirror}
    (hg : m'.groups = m.groups) (he : m'.entries = m.entries) :
    ∃ m'', dead.foldlM (fun (m : Mirror) g => m.deleteGroupRow g) m' = .ok m'' := by
  have hloop : ∀ (rest done : List Uuid) (a : Mirror), dead = done ++ rest → a.entries = m.entries →
      (∀ v, a.groups.find? v = if v ∈ done then none else m.groups.find? v) →
      ∃ b, rest.foldlM (fun (m : Mirror) g => m.deleteGroupRow g) a = .ok b := by
    intro rest
    induction rest with
    | nil => exact fun _ a _ _ _ => ⟨a, rfl⟩
    | cons g rest ih =>
      intro done a hdead he hfind
      have hgd : g ∈ dead := hdead ▸ List.mem_append_right _ List.mem_cons_self
      obtain ⟨b, hb⟩ : ∃ b, a.deleteGroupRow g = .ok b := by
        refine deleteGroupRow_ok (fun c hc => ?_) fun e hmem => hentries g hgd e (he ▸ hmem)
        -- a child that is left is to be deleted too, and would stand behind `g`
        obtain ⟨row, hrow, rfl, hp⟩ := parentOf_eq_some.1 hc
        have hrowa := Table.find?_of_mem hrow
        rw [hfind] at hrowa
        split at hrowa
        · cases hrowa
        · rename_i hnot
          have hpar : m.parentOf row.uuid = some g := by
            rw [parentOf_of_mem (Table.find?_mem hrowa), hp]
          have hcdead := hclosed _ _ hpar hgd
          rw [hdead] at hcdead hfirst
          rcases List.mem_append.1 hcdead with h | h
          · exact absurd h hnot
          · rcases List.mem_cons.1 h with h | h
            · exact h
            · have htail := (List.pairwise_append.1 hfirst).2.1
              exact absurd hpar ((List.pairwise_cons.1 htail).1 _ h)
      obtain ⟨hsame, hfindb⟩ := deleteGroupRow_same hb
      obtain ⟨c, hc⟩ := ih (done ++ [g]) b (by rw [hdead, List.append_assoc]; rfl)
        (hsame.entries.trans he) fun v => by
          rw [hfindb v, hfind v]
          by_cases hv : v = g
          · simp [hv]
          · simp [hv]
      exact ⟨c, by rw [List.foldlM_cons, hb]; exact hc⟩
  refine hloop dead [] m' rfl he fun v => ?_
  rw [hg, if_neg List.not_mem_nil]

/-! ## The pass -/

/-- `materialize_group_tombstones` took the groups `deleted` from `m`, in this order, and left `m'`. -/
structure Materialised (m : Mirror) (root : Uuid) (m' : Mirror) (deleted : List Uuid) : Prop where
  /-- The tombstoned groups other than the root below which all is tombstoned and empty. -/
  mem_deleted : ∀ g, g ∈ deleted ↔ g ∈ m.groups.keys ∧ g ≠ root ∧ Dead m g
  children_first : deleted.Pairwise fun a b => m.parentOf b ≠ some a
  groups : ∀ g, m'.groups.find? g = if g ∈ deleted then none else m.groups.find? g
  entries : m'.entries = m.entries
  tombstones : ∀ u, m'.tombstones.find? u =
    if u ∈ m'.groups.keys then none else m.tombstones.find? u
  parent_mem : ∀ g ∈ m'.groups.rows, ∀ p ∈ g.parentUuid, p ∈ m'.groups.keys
  group_mem : ∀ e ∈ m'.entries.rows, e.groupUuid ∈ m'.groups.keys
  root_mem : root ∈ m'.groups.keys

theorem removeTombstones_find? (us : List Uuid) (u : Uuid) :
    (us.foldl Mirror.removeTombstone m).tombstones.find? u =
      if u ∈ us then none else m.tombstones.find? u := by
  split
  · rename_i hu
    rw [Table.find?_eq_none, mem_removeTombstones]
    exact fun h => h.2 hu
  · rename_i hu
    exact (removeTombstones_spec us m).2 u hu

variable {order : List Uuid} {out : IngestPeerOutcome}

/-- A pass that goes through has deleted the dead groups, the root not excepted. -/
theorem materializeGroupTombstonesIn_spec (horder : order.Perm m.tombstonedGroups)
    {st' : Mirror × IngestPeerOutcome} (h : materializeGroupTombstonesIn order (m, out) = .ok st') :
    st'.2 = { out with groupsDeleted := out.groupsDeleted ++ m.deadGroupsIn order } ∧
      st'.1.entries = m.entries ∧
      (∀ g, st'.1.groups.find? g = if g ∈ m.deadGroupsIn order then none else m.groups.find? g) ∧
      ∀ u, st'.1.tombstones.find? u =
        if u ∈ st'.1.groups.keys then none else m.tombstones.find? u := by
  unfold materializeGroupTombstonesIn at h
  obtain ⟨m', hm, h⟩ := except_bind_ok.1 h
  obtain rfl := Except.ok.inj h
  have hscrub := (removeTombstones_spec
    (order.filter fun g => m.groupAlive m.groups.rows.length g) m).1
  obtain ⟨hsame, hfind⟩ := deleteGroupRows_same hm
  have hgroups : ∀ g, m'.groups.find? g =
      if g ∈ m.deadGroupsIn order then none else m.groups.find? g := fun g => by
    rw [hfind g, hscrub.groups]
  refine ⟨rfl, hsame.entries.trans hscrub.entries, hgroups, fun u => ?_⟩
  have hkeys : u ∈ m'.groups.keys ↔ u ∈ m.groups.keys ∧ u ∉ m.deadGroupsIn order := by
    rw [← Table.find?_isSome, ← Table.find?_isSome, hgroups u]
    split <;> simp_all
  -- a tombstone goes when its group stays
  have hmem : u ∈ order.filter (fun g => m.groupAlive m.groups.rows.length g) ↔
      u ∈ m.tombstones.keys ∧ u ∈ m'.groups.keys := by
    rw [hkeys, mem_deadGroupsIn_iff horder, List.mem_filter, mem_order horder]
    cases m.groupAlive m.groups.rows.length u <;> tauto
  rw [show m'.tombstones = _ from hsame.tombstones, removeTombstones_find?]
  by_cases hg : u ∈ m'.groups.keys
  · rw [if_pos hg]
    split
    · rfl
    · rename_i hu
      exact Table.find?_eq_none.2 fun ht => hu (hmem.2 ⟨ht, hg⟩)
  · rw [if_neg hg, if_neg fun hu => hg (hmem.1 hu).2]

theorem materializeGroupTombstonesIn_ok (hr : RootedAt m r) (horder : order.Perm m.tombstonedGroups)
    (hshallow : Shallow m) (out : IngestPeerOutcome) :
    ∃ st', materializeGroupTombstonesIn order (m, out) = .ok st' := by
  have hscrub := (removeTombstones_spec
    (order.filter fun g => m.groupAlive m.groups.rows.length g) m).1
  have hmem := fun g => mem_deadGroupsIn horder hr (g := g)
  obtain ⟨m', hm'⟩ := deleteGroupRows_ok (fun g hg => (((hmem g).1 hg).2 g (.refl g)).2)
    (fun c p hc hp => (hmem c).2 ⟨(mem_keys_of_parentOf hc).1, ((hmem p).1 hp).2.child hc⟩)
    (deadGroupsIn_childrenFirst horder hr hshallow) hscrub.groups hscrub.entries
  unfold materializeGroupTombstonesIn
  simp only [hm', bind, Except.bind]
  exact ⟨_, rfl⟩

theorem materializeGroupTombstones_eq (st : Mirror × IngestPeerOutcome) :
    materializeGroupTombstones st = materializeGroupTombstonesIn st.1.tombstonedGroups st := rfl

theorem materializeGroupTombstones_ok (hr : RootedAt m r) (hlen : m.groups.rows.length ≤ 100001)
    (out : IngestPeerOutcome) : ∃ st', materializeGroupTombstones (m, out) = .ok st' := by
  rw [materializeGroupTombstones_eq]
  exact materializeGroupTombstonesIn_ok hr (.refl _) (.of_length hr hlen) out

/-! ## When the pass is exact -/

/-- Below the root of a tree is every group. -/
theorem RootedAt.kept_of_not_dead (hr : RootedAt m r) :
    ¬ Dead m r ↔ ∃ g ∈ m.groups.keys, Kept m g := by
  constructor
  · intro h
    by_contra hno
    refine h fun x ⟨k, hk⟩ => not_kept_iff.1 fun hkept => hno ⟨x, ?_, hkept⟩
    cases k with
    | zero => exact Option.some.inj hk ▸ hr.root_mem
    | succ k =>
      rw [up_succ] at hk
      obtain ⟨p, hp, -⟩ := Option.bind_eq_some_iff.1 hk
      exact (mem_keys_of_parentOf hp).1
  · rintro ⟨g, hg, hkept⟩ hdead
    exact not_kept_iff.2 (hdead g (hr.reach_root hg)) hkept

theorem materialised (hr : RootedAt m r) (hroot : ¬ Dead m r) (hshallow : Shallow m)
    (horder : order.Perm m.tombstonedGroups) (out : IngestPeerOutcome) :
    ∃ m' deleted, materializeGroupTombstonesIn order (m, out) =
        .ok (m', { out with groupsDeleted := out.groupsDeleted ++ deleted }) ∧
      Materialised m r m' deleted := by
  obtain ⟨⟨m', out'⟩, h⟩ := materializeGroupTombstonesIn_ok hr horder hshallow out
  obtain ⟨rfl, he, hgroups, htomb⟩ := materializeGroupTombstonesIn_spec horder h
  have hmem := fun g => mem_deadGroupsIn horder hr (g := g)
  refine ⟨m', m.deadGroupsIn order, h, ?_, deadGroupsIn_childrenFirst horder hr hshallow, hgroups, he,
    htomb, m'.fkParent, m'.fkGroup, ?_⟩
  · intro g
    rw [hmem]
    constructor
    · rintro ⟨hg, hdead⟩
      exact ⟨hg, fun e => hroot (e ▸ hdead), hdead⟩
    · rintro ⟨hg, -, hdead⟩
      exact ⟨hg, hdead⟩
  · rw [← Table.find?_isSome, hgroups, if_neg fun hd => hroot ((hmem r).1 hd).2]
    exact Table.find?_isSome.2 hr.root_mem

/-- A dead group past the reach of `group_depth` is no shallower than its parent, so an order that
yields the parent first deletes it first. -/
theorem shallow_of_childrenFirst (hr : RootedAt m r)
    (h : ∀ order : List Uuid, order.Perm m.tombstonedGroups →
      (m.deadGroupsIn order).Pairwise fun a b => m.parentOf b ≠ some a) : Shallow m := by
  intro c p hc hdead
  by_contra hdeep
  obtain ⟨x, hx⟩ := Option.ne_none_iff_exists'.1 hdeep
  obtain ⟨hcg, hpg⟩ := mem_keys_of_parentOf hc
  have hdead' := hdead.child hc
  have hne : c ≠ p := by
    rintro rfl
    exact hr.not_reach_of_par hcg hc (.refl c)
  have htomb : ∀ g ∈ m.groups.keys, Dead m g → g ∈ m.tombstonedGroups := fun g hg hd =>
    (mem_order (.refl _)).2 ⟨hg, (hd g (.refl g)).1⟩
  have horder : (p :: c :: (m.tombstonedGroups.erase p).erase c).Perm m.tombstonedGroups := by
    have hcm : c ∈ m.tombstonedGroups.erase p :=
      (List.mem_erase_of_ne hne).2 (htomb c hcg hdead')
    exact ((List.perm_cons_erase hcm).symm.cons p).trans
      (List.perm_cons_erase (htomb p hpg hdead)).symm
  have hdepth : m.groupDepth 100001 c ≤ m.groupDepth 100001 p := by
    have hcut : up m.parentOf (100001 + 1) c = some x := by rw [up_succ_of_par hc, hx]
    obtain ⟨y, hy, -⟩ := up_prefix hcut (Nat.le_succ _)
    rw [groupDepth_of_up hx, groupDepth_of_up hy]
  have hsub : [p, c].Sublist (m.deadGroupsIn (p :: c :: (m.tombstonedGroups.erase p).erase c)) := by
    have := depth_total (m := m)
    have := depth_trans (m := m)
    refine List.pair_sublist_insertionSort hdepth ?_
    have hfilter : ∀ g ∈ [p, c], (!m.groupAlive m.groups.rows.length g) = true := by
      rintro g hg
      rw [Bool.not_eq_true']
      rcases List.mem_pair.1 hg with rfl | rfl
      · exact (groupAlive_eq_false_iff hr hpg).2 hdead
      · exact (groupAlive_eq_false_iff hr hcg).2 hdead'
    have hpair := List.filter_eq_self.2 hfilter
    rw [← hpair]
    exact List.Sublist.filter _ (List.prefix_append [p, c] _).sublist
  exact List.pairwise_pair.1 ((h _ horder).sublist hsub) hc

/-- **When group tombstones are settled exactly.** In whatever order the hash set yields the tombstoned
groups, the pass takes the dead groups other than the root, children first, and nothing else, if and
only if some group is kept, so that the root is not dead itself, and no dead group with a child lies
as deep as `group_depth` counts. -/
theorem materializeGroupTombstones_exact_iff (hr : RootedAt m r) (out : IngestPeerOutcome) :
    (∀ order : List Uuid, order.Perm m.tombstonedGroups →
      ∃ m' deleted, materializeGroupTombstonesIn order (m, out) =
          .ok (m', { out with groupsDeleted := out.groupsDeleted ++ deleted }) ∧
        Materialised m r m' deleted) ↔
    (∃ g ∈ m.groups.keys, Kept m g) ∧ Shallow m := by
  rw [← hr.kept_of_not_dead]
  constructor
  · intro h
    refine ⟨fun hdead => ?_, shallow_of_childrenFirst hr fun order horder => ?_⟩
    · obtain ⟨m', deleted, hrun, hm'⟩ := h _ (.refl _)
      have hroot := Table.find?_isSome.2 hm'.root_mem
      rw [(materializeGroupTombstonesIn_spec (.refl _) hrun).2.2.1,
        if_pos ((mem_deadGroupsIn (.refl _) hr).2 ⟨hr.root_mem, hdead⟩)] at hroot
      cases hroot
    · obtain ⟨m', deleted, hrun, hm'⟩ := h order horder
      have hout := (materializeGroupTombstonesIn_spec horder hrun).1
      rw [IngestPeerOutcome.mk.injEq] at hout
      have hdeleted := List.append_cancel_left hout.2.2.2.2.2.2.2.2.1
      exact hdeleted ▸ hm'.children_first
  · rintro ⟨hroot, hshallow⟩ order horder
    exact materialised hr hroot hshallow horder out

end Groups

/-- Group 2 holds an entry in its subgroup 3 and is tombstoned like its subgroups 3 and 4; 5 with its
subgroup 6 is tombstoned and empty. -/
def branched : Mirror where
  groups := ⟨[{ uuid := 1, parentUuid := none }, { uuid := 2, parentUuid := some 1 },
    { uuid := 3, parentUuid := some 2 }, { uuid := 4, parentUuid := some 2 },
    { uuid := 5, parentUuid := some 1 }, { uuid := 6, parentUuid := some 5 }], by decide⟩
  entries := ⟨[{ uuid := 10, groupUuid := 3 }], by decide⟩
  tombstones := ⟨[⟨2, none⟩, ⟨3, none⟩, ⟨4, none⟩, ⟨5, none⟩, ⟨6, none⟩], by decide⟩
  fkParent := by decide
  fkGroup := by decide

theorem branched_rooted : RootedAt branched 1 := .of_walks (by decide) (by decide) (by decide +kernel)

theorem branched_exact :
    ((∃ g ∈ branched.groups.keys, Kept branched g) ∧ Shallow branched) ∧
      ∀ order : List Uuid, order.Perm branched.tombstonedGroups →
        ∃ m' deleted, materializeGroupTombstonesIn order (branched, {}) =
            .ok (m', { groupsDeleted := [] ++ deleted }) ∧
          Materialised branched 1 m' deleted := by
  have hcond : (∃ g ∈ branched.groups.keys, Kept branched g) ∧ Shallow branched :=
    ⟨⟨1, by decide, .inl (by decide)⟩, .of_length branched_rooted (by decide)⟩
  exact ⟨hcond, (materializeGroupTombstones_exact_iff branched_rooted {}).2 hcond⟩

/-- A vault emptied down to its root, with a tombstone for the root. -/
def rootTombstoned : Mirror :=
  { loneRoot with tombstones := ⟨[⟨1, none⟩], by decide⟩ }

/-- Its root is deleted, and it cannot be projected any more. -/
theorem rootTombstoned_root_deleted :
    RootedAt rootTombstoned 1 ∧
      ∃ st', materializeGroupTombstones (rootTombstoned, {}) = .ok st' ∧ 1 ∉ st'.1.groups.keys ∧
        st'.1.project = .error (.projection .noRoot) ∧
        ∀ deleted, ¬ Materialised rootTombstoned 1 st'.1 deleted := by
  refine ⟨.of_walks (by decide) (by decide) (by decide), _, rfl, by decide, by rfl, fun deleted h => ?_⟩
  exact absurd h.root_mem (by decide)

end KeysCore.Verify
