import KeysCore.Lib.Except
import KeysCore.Mutations

/-!
# The group tree under the structural mutations

`GroupTree m`: exactly one group row has no parent, the parent map is acyclic and every group
reaches that row. `groupTree_iff` identifies it with `Forest.Rooted`, and each operation is followed
through its effect on the parent map: the statements of `Mirror` first, then the cascade
(`deleteGroupRecursive_rows`: on success exactly the rows below the deleted group are gone), then the
operations themselves. `StructuralOp.run_groupTree_iff` is the step law, and it is exact: an operation
that returns leaves a tree if and only if it is `Safe`, that is, it neither recycles a group above
the bin nor deletes the root.
-/

namespace KeysCore.Verify

open Lib Lib.Forest

/-! ## Mirrors of one group -/

/-- A mirror of the root alone. -/
def loneRoot : Mirror where
  groups := ⟨[{ uuid := 1, parentUuid := none }], by decide⟩
  fkParent := by decide
  fkGroup := by decide

/-- A mirror of a root with a name. -/
def namedRoot : Mirror where
  groups := ⟨[{ uuid := 1, parentUuid := none, name := "Root" }], by decide⟩
  fkParent := by decide
  fkGroup := by decide

/-! ## The invariant -/

/-- The group table is a tree. -/
structure GroupTree (m : Mirror) : Prop where
  root : ∃! g, g ∈ m.groups.rows ∧ g.parentUuid = none
  acyclic : ∀ u k, up m.parentOf (k + 1) u ≠ some u
  reach : ∀ g ∈ m.groups.rows, ∀ r ∈ m.groups.rows, r.parentUuid = none →
    Reach m.parentOf g.uuid r.uuid

/-- The parent map of `m` is rooted at `r`. -/
abbrev RootedAt (m : Mirror) (r : Uuid) : Prop := Rooted m.parentOf (· ∈ m.groups.keys) r

theorem parentIn_eq_some {T : Table GroupRow.uuid} {u p : Uuid} :
    parentIn T u = some p ↔ ∃ g ∈ T.rows, g.uuid = u ∧ g.parentUuid = some p := by
  unfold parentIn
  cases h : T.find? u with
  | none =>
    simp only [Option.bind_none, reduceCtorEq, false_iff]
    rintro ⟨g, hg, rfl, -⟩
    exact Table.find?_eq_none.1 h (Table.key_mem hg)
  | some r =>
    obtain ⟨hr, hk⟩ := Table.find?_eq_some.1 h
    simp only [Option.bind_some]
    constructor
    · intro hp
      exact ⟨r, hr, hk, hp⟩
    · rintro ⟨g, hg, he, hp⟩
      rw [← Table.eq_of_key hg hr (he.trans hk.symm)]
      exact hp

theorem parentIn_of_mem {T : Table GroupRow.uuid} {g : GroupRow} (h : g ∈ T.rows) :
    parentIn T g.uuid = g.parentUuid := by
  rw [parentIn, Table.find?_of_mem h, Option.bind_some]

theorem parentOf_of_mem {m : Mirror} {g : GroupRow} (h : g ∈ m.groups.rows) :
    m.parentOf g.uuid = g.parentUuid := parentIn_of_mem h

theorem parentOf_eq_some {m : Mirror} {u p : Uuid} :
    m.parentOf u = some p ↔ ∃ g ∈ m.groups.rows, g.uuid = u ∧ g.parentUuid = some p :=
  parentIn_eq_some

theorem mem_keys_of_parentOf {m : Mirror} {u p : Uuid} (h : m.parentOf u = some p) :
    u ∈ m.groups.keys ∧ p ∈ m.groups.keys := by
  obtain ⟨g, hg, rfl, hp⟩ := parentOf_eq_some.1 h
  exact ⟨Table.key_mem hg, m.fkParent g hg p hp⟩

/-- A tree by its walks, each no longer than the number of groups. -/
theorem RootedAt.of_walks {m : Mirror} {r : Uuid} (hr : r ∈ m.groups.keys)
    (hnone : m.parentOf r = none)
    (h : ∀ x ∈ m.groups.keys, ∃ k ∈ List.range m.groups.rows.length, up m.parentOf k x = some r) :
    RootedAt m r :=
  ⟨hr, hnone, fun _ hp => (mem_keys_of_parentOf hp).2, fun hx =>
    let ⟨k, _, hk⟩ := h _ hx
    ⟨k, hk⟩⟩

theorem groupExists_iff {m : Mirror} {u : Uuid} : m.groupExists u = true ↔ u ∈ m.groups.keys :=
  Table.find?_isSome

/-- Only groups of the table are on a walk that moves. -/
theorem up_parentOf_mem {m : Mirror} {u v : Uuid} {k : Nat} (hu : u ∈ m.groups.keys)
    (h : up m.parentOf k u = some v) : v ∈ m.groups.keys := by
  induction k generalizing u with
  | zero => simpa [← (Option.some.inj h)] using hu
  | succ k ih =>
    cases hp : m.parentOf u with
    | none => simp [up_succ, hp] at h
    | some p => exact ih (mem_keys_of_parentOf hp).2 (by rwa [up_succ_of_par hp] at h)

/-- **The tree of the table is a rooted parent map.** -/
theorem groupTree_iff {m : Mirror} : GroupTree m ↔ ∃ r, RootedAt m r := by
  constructor
  · rintro ⟨⟨g, ⟨hg, hnone⟩, -⟩, -, hreach⟩
    refine ⟨g.uuid, Table.key_mem hg, by rw [parentOf_of_mem hg, hnone], ?_, ?_⟩
    · intro x p _ hp
      exact (mem_keys_of_parentOf hp).2
    · intro x hx
      obtain ⟨a, ha, rfl⟩ := Table.mem_keys.1 hx
      exact hreach a ha g hg hnone
  · rintro ⟨r, h⟩
    obtain ⟨g, hg, rfl⟩ := Table.mem_keys.1 h.root_mem
    have hroot : ∀ a ∈ m.groups.rows, a.parentUuid = none → a = g := by
      intro a ha hnone
      refine Table.eq_of_key ha hg (h.eq_root (Table.key_mem ha) ?_)
      rw [parentOf_of_mem ha, hnone]
    refine ⟨⟨g, ⟨hg, ?_⟩, fun a ha => hroot a ha.1 ha.2⟩, ?_, ?_⟩
    · rw [← parentOf_of_mem hg, h.root_par]
    · intro u k hk
      cases hp : m.parentOf u with
      | none => simp [up_succ, hp] at hk
      | some p => exact h.no_cycle (mem_keys_of_parentOf hp).1 k hk
    · intro a ha b hb hnone
      rw [hroot b hb hnone]
      exact h.reach_root (Table.key_mem ha)

/-! ## The statements -/

/-- Two mirrors with the same groups and parents. -/
structure SameParents (m m' : Mirror) : Prop where
  keys : ∀ u, u ∈ m'.groups.keys ↔ u ∈ m.groups.keys
  parent : ∀ u, m'.parentOf u = m.parentOf u

namespace SameParents

theorem refl (m : Mirror) : SameParents m m := ⟨fun _ => Iff.rfl, fun _ => rfl⟩

theorem trans {a b c : Mirror} (h : SameParents a b) (h' : SameParents b c) : SameParents a c :=
  ⟨fun u => (h'.keys u).trans (h.keys u), fun u => (h'.parent u).trans (h.parent u)⟩

theorem of_groups {m m' : Mirror} (h : m'.groups = m.groups) : SameParents m m' :=
  ⟨fun _ => by rw [h], fun _ => by rw [Mirror.parentOf, Mirror.parentOf, h]⟩

theorem rooted {m m' : Mirror} (h : SameParents m m') {r : Uuid} (hr : RootedAt m r) :
    RootedAt m' r := by
  unfold RootedAt
  exact hr.congr h.keys fun u _ => h.parent u

theorem groupTree {m m' : Mirror} (h : SameParents m m') (ht : GroupTree m) : GroupTree m' := by
  obtain ⟨r, hr⟩ := groupTree_iff.1 ht
  exact groupTree_iff.2 ⟨r, h.rooted hr⟩

theorem updateGroups (m : Mirror) (p : GroupRow → Prop) [DecidablePred p] (f : GroupRow → GroupRow)
    (hu : ∀ r, (f r).uuid = r.uuid) (hp : ∀ r, (f r).parentUuid = r.parentUuid) :
    SameParents m (m.updateGroups p f hu hp) := by
  refine ⟨fun u => by simp [Mirror.updateGroups], fun u => ?_⟩
  simp only [Mirror.parentOf, parentIn, Mirror.updateGroups, Table.find?_update]
  cases m.groups.find? u with
  | none => rfl
  | some g =>
    simp only [Option.map_some, Option.bind_some]
    split
    · exact hp g
    · rfl

theorem renumber (order : List Uuid) (i : Nat) (m : Mirror) :
    SameParents m (Mirror.renumber i order m) := by
  induction order generalizing i m with
  | nil => exact .refl m
  | cons s rest ih => exact (updateGroups m _ _ _ _).trans (ih (i + 1) _)

theorem writeRecycleBinGroup (m : Mirror) (u : Uuid) : SameParents m (m.writeRecycleBinGroup u) :=
  (updateGroups m _ _ _ _).trans (updateGroups _ _ _ _ _)

theorem clearRecycleBinGroup (m : Mirror) : SameParents m m.clearRecycleBinGroup :=
  updateGroups m _ _ _ _

end SameParents

theorem insertGroup_keys {m m' : Mirror} {g : GroupRow} (h : m.insertGroup g = .ok m') (u : Uuid) :
    u ∈ m'.groups.keys ↔ u = g.uuid ∨ u ∈ m.groups.keys := by
  unfold Mirror.insertGroup at h
  split at h
  · cases h
  · rename_i T hT
    split at h
    · obtain rfl := Except.ok.inj h
      rw [show Table.keys _ = _ from Table.keys_insert hT, List.mem_append, List.mem_singleton,
        or_comm]
    · cases h

/-- A row inserted under an existing group. -/
theorem insertGroup_rooted {m m' : Mirror} {g : GroupRow} {p r : Uuid} (h : m.insertGroup g = .ok m')
    (hg : g.parentUuid = some p) (hp : p ∈ m.groups.keys) (hr : RootedAt m r) : RootedAt m' r := by
  unfold Mirror.insertGroup at h
  split at h
  · cases h
  · rename_i T hT
    split at h
    · obtain rfl := Except.ok.inj h
      have hnew := (Table.insert?_eq_some.1 hT).1
      refine hr.insertLeaf hnew hp ?_ ?_ ?_
      · intro y
        rw [show Table.keys _ = _ from Table.keys_insert hT, List.mem_append, List.mem_singleton,
          or_comm]
      · show parentIn T g.uuid = some p
        rw [parentIn, Table.find?_insert hT, if_pos rfl, Option.bind_some, hg]
      · intro y hy
        show parentIn T y = parentIn m.groups y
        rw [parentIn, Table.find?_insert hT, if_neg (fun e => hnew (by rw [e]; exact hy)), parentIn]
    · cases h

/-- A re-parenting statement updates the parent map at one group. -/
theorem setParent_ok {m m' : Mirror} {u p : Uuid} {f : GroupRow → GroupRow}
    {hu : ∀ r, (f r).uuid = r.uuid} (h : m.setParent u p f hu = .ok m') (hmem : u ∈ m.groups.keys) :
    p ∈ m.groups.keys ∧ m'.groups.keys = m.groups.keys ∧
      m'.parentOf = Function.update m.parentOf u (some p) := by
  unfold Mirror.setParent at h
  split at h
  · rename_i hp
    obtain rfl := Except.ok.inj h
    refine ⟨hp, by simp only [Table.keys_modify], funext fun v => ?_⟩
    simp only [Mirror.parentOf, parentIn, Table.find?_modify]
    by_cases e : v = u
    · subst e
      obtain ⟨g, hg⟩ := Table.exists_find?.2 hmem
      simp [hg]
    · simp [e, Mirror.parentOf, parentIn]
  · rw [if_pos (groupExists_iff.2 hmem)] at h
    cases h

/-- A group is re-parented into a tree exactly when the new parent is not below it. -/
theorem setParent_groupTree_iff {m m' : Mirror} {u p : Uuid} {f : GroupRow → GroupRow}
    {hu : ∀ r, (f r).uuid = r.uuid} (h : m.setParent u p f hu = .ok m') (hmem : u ∈ m.groups.keys)
    (ht : GroupTree m) : GroupTree m' ↔ ¬ Reach m.parentOf p u := by
  obtain ⟨hp, hkeys, hpar⟩ := setParent_ok h hmem
  obtain ⟨r, hr⟩ := groupTree_iff.1 ht
  rw [groupTree_iff]
  unfold RootedAt
  rw [hkeys, hpar]
  constructor
  · rintro ⟨s, hs⟩
    exact ((hr.setParent_iff hmem hp).1 hs).2
  · intro hn
    exact ⟨r, hr.setParent hp hn⟩

theorem deleteGroupRow_rows {m m' : Mirror} {u : Uuid} (h : m.deleteGroupRow u = .ok m') :
    m'.groups.rows = m.groups.rows.filter fun g => g.uuid ≠ u := by
  unfold Mirror.deleteGroupRow at h
  split at h
  · obtain rfl := Except.ok.inj h
    rfl
  · cases h

/-! ## The cascade -/

/-- `U` holds the rows of `T` that are not below any of `cs`. -/
def RemovesBelow (T U : Table GroupRow.uuid) (cs : List Uuid) : Prop :=
  ∀ g, g ∈ U.rows ↔ g ∈ T.rows ∧ ∀ c ∈ cs, ¬ Reach (parentIn T) g.uuid c

namespace RemovesBelow

variable {T U W : Table GroupRow.uuid} {cs : List Uuid}

theorem mem_keys (h : RemovesBelow T U cs) {u : Uuid} :
    u ∈ U.keys ↔ u ∈ T.keys ∧ ∀ c ∈ cs, ¬ Reach (parentIn T) u c := by
  constructor
  · intro hu
    obtain ⟨g, hg, rfl⟩ := Table.mem_keys.1 hu
    exact ⟨Table.key_mem ((h g).1 hg).1, ((h g).1 hg).2⟩
  · rintro ⟨hu, hn⟩
    obtain ⟨g, hg, rfl⟩ := Table.mem_keys.1 hu
    exact Table.key_mem ((h g).2 ⟨hg, hn⟩)

theorem parentIn_eq (h : RemovesBelow T U cs) {u : Uuid} (hu : u ∈ U.keys) :
    parentIn U u = parentIn T u := by
  obtain ⟨g, hg, rfl⟩ := Table.mem_keys.1 hu
  rw [parentIn_of_mem hg, parentIn_of_mem ((h g).1 hg).1]

/-- What remains is upward closed. -/
theorem closed (h : RemovesBelow T U cs) (hfk : ∀ g ∈ T.rows, ∀ p ∈ g.parentUuid, p ∈ T.keys)
    {u p : Uuid} (hu : u ∈ U.keys) (hp : parentIn T u = some p) : p ∈ U.keys := by
  obtain ⟨g, hg, rfl, hgp⟩ := parentIn_eq_some.1 hp
  refine h.mem_keys.2 ⟨hfk g hg p hgp, fun c hc hr => ?_⟩
  exact (h.mem_keys.1 hu).2 c hc (.step hp hr)

theorem reach_iff (h : RemovesBelow T U cs) (hfk : ∀ g ∈ T.rows, ∀ p ∈ g.parentUuid, p ∈ T.keys)
    {u v : Uuid} (hu : u ∈ U.keys) : Reach (parentIn U) u v ↔ Reach (parentIn T) u v :=
  reach_iff_of_closed (Q := (· ∈ U.keys)) (fun _ _ hx hp => h.closed hfk hx hp)
    (fun _ hx => h.parentIn_eq hx) hu

theorem append (h : RemovesBelow T U cs) (hfk : ∀ g ∈ T.rows, ∀ p ∈ g.parentUuid, p ∈ T.keys)
    {ds : List Uuid} (h' : RemovesBelow U W ds) : RemovesBelow T W (cs ++ ds) := by
  intro g
  rw [h' g, h g]
  constructor
  · rintro ⟨⟨hg, hcs⟩, hds⟩
    refine ⟨hg, fun c hc => ?_⟩
    rcases List.mem_append.1 hc with hc | hc
    · exact hcs c hc
    · rw [← h.reach_iff hfk (Table.key_mem ((h g).2 ⟨hg, hcs⟩))]
      exact hds c hc
  · rintro ⟨hg, hn⟩
    have hcs : ∀ c ∈ cs, ¬ Reach (parentIn T) g.uuid c := fun c hc =>
      hn c (List.mem_append_left _ hc)
    refine ⟨⟨hg, hcs⟩, fun d hd => ?_⟩
    rw [h.reach_iff hfk (Table.key_mem ((h g).2 ⟨hg, hcs⟩))]
    exact hn d (List.mem_append_right _ hd)

end RemovesBelow

@[simp] theorem recordTombstones_groups (now : EpochMs) (es : List Uuid) (m : Mirror) :
    (es.foldl (fun m e => m.recordTombstone e now) m).groups = m.groups := by
  induction es generalizing m with
  | nil => rfl
  | cons e es ih => rw [List.foldl_cons, ih]; rfl

@[simp] theorem deleteDirectChildEntries_groups (now : EpochMs) (g a : Uuid)
    (st : Mirror × DeleteGroupOutcome) :
    (Mirror.deleteDirectChildEntries now g a st).1.groups = st.1.groups :=
  recordTombstones_groups now _ st.1

/-- A list of groups deleted one after the other removes what is below any of them. -/
theorem foldlM_removesBelow {f : Mirror × DeleteGroupOutcome → Uuid →
      Except EngineError (Mirror × DeleteGroupOutcome)}
    (hf : ∀ st c st', f st c = .ok st' → RemovesBelow st.1.groups st'.1.groups [c])
    {cs : List Uuid} {st st' : Mirror × DeleteGroupOutcome} (h : cs.foldlM f st = .ok st') :
    RemovesBelow st.1.groups st'.1.groups cs := by
  induction cs generalizing st with
  | nil =>
    obtain rfl : st = st' := by simpa [pure, Except.pure] using h
    intro g
    simp
  | cons c cs ih =>
    rw [List.foldlM_cons] at h
    obtain ⟨mid, hmid, hrest⟩ := except_bind_ok.1 h
    exact (hf st c mid hmid).append st.1.fkParent (ih hrest)

/-- **On success the cascade has removed exactly the rows below the group.** -/
theorem deleteGroupRecursive_rows {now : EpochMs} {fuel : Nat} {u : Uuid} {parent : Option Uuid}
    {st st' : Mirror × DeleteGroupOutcome}
    (h : Mirror.deleteGroupRecursive now fuel u parent st = .ok st') :
    RemovesBelow st.1.groups st'.1.groups [u] := by
  induction fuel generalizing u parent st st' with
  | zero => cases h
  | succ fuel ih =>
    unfold Mirror.deleteGroupRecursive at h
    obtain ⟨mid, hmid, h⟩ := except_bind_ok.1 h
    obtain ⟨m, hm, h⟩ := except_bind_ok.1 h
    obtain rfl := Except.ok.inj h
    have hkids := foldlM_removesBelow (fun st c st' hc => ih hc) hmid
    have hrows := deleteGroupRow_rows hm
    intro g
    show g ∈ m.groups.rows ↔ _
    rw [hrows, deleteDirectChildEntries_groups, List.mem_filter, hkids g]
    simp only [List.mem_singleton, forall_eq, ne_eq, decide_not, Bool.not_eq_eq_eq_not,
      Bool.not_true, decide_eq_false_iff_not]
    -- below `u` is `u` itself or below one of the children the loop went through
    rw [reach_iff_child (x := u), not_or]
    constructor
    · rintro ⟨⟨hg, hn⟩, hne⟩
      refine ⟨hg, hne, ?_⟩
      rintro ⟨c, hc, hr⟩
      obtain ⟨a, ha, rfl, hap⟩ := parentIn_eq_some.1 hc
      exact hn a.uuid (List.mem_map.2 ⟨a, List.mem_filter.2 ⟨ha, by simp [hap]⟩, rfl⟩) hr
    · rintro ⟨hg, hne, hn⟩
      refine ⟨⟨hg, fun c hc hr => hn ⟨c, ?_, hr⟩⟩, hne⟩
      obtain ⟨a, ha, rfl⟩ := List.mem_map.1 hc
      obtain ⟨ha, hap⟩ := List.mem_filter.1 ha
      exact parentIn_eq_some.2 ⟨a, ha, rfl, by simpa using hap⟩

/-- A tree from which the rows below some non-root groups are removed. -/
theorem RemovesBelow.rooted {m m' : Mirror} {cs : List Uuid} {r : Uuid}
    (h : RemovesBelow m.groups m'.groups cs) (hr : RootedAt m r) (hcs : r ∉ cs) : RootedAt m' r := by
  refine hr.restrict (fun u hu => (h.mem_keys.1 hu).1) (h.mem_keys.2 ⟨hr.root_mem, ?_⟩)
    (fun u p hu hp => h.closed m.fkParent hu hp) (fun u hu => h.parentIn_eq hu)
  intro c hc hreach
  rcases reach_iff_parent.1 hreach with e | ⟨p, hp, -⟩
  · exact hcs (e ▸ hc)
  · rw [show parentIn m.groups r = none from hr.root_par] at hp
    cases hp

theorem childGroups_parent {m : Mirror} {p c : Uuid} (h : c ∈ m.childGroups p) :
    m.parentOf c = some p := by
  obtain ⟨g, hg, rfl⟩ := List.mem_map.1 h
  obtain ⟨hg, hp⟩ := List.mem_filter.1 hg
  rw [parentOf_of_mem hg]
  simpa using hp

/-! ## The operations -/

/-- The structural operations, with their arguments. -/
inductive StructuralOp where
  | createGroup (parent : Uuid) (fields : NewGroupFields) (now : EpochMs) (newUuid : Uuid)
  | moveGroup (u newParent : Uuid) (now : EpochMs)
  | recycleGroup (u : Uuid) (now : EpochMs)
  | reorderGroup (u : Uuid) (position : Nat) (now : EpochMs)
  | deleteGroup (u : Uuid) (now : EpochMs)
  | emptyRecycleBin (now : EpochMs)
  | setRecycleBin (enabled : Bool) (group : Option Uuid) (now : EpochMs)
  | moveEntry (u newGroup : Uuid) (now : EpochMs)
  | recycleEntry (u : Uuid) (now : EpochMs) (binUuid : Uuid)
  | restoreEntry (u : Uuid) (now : EpochMs)
deriving DecidableEq

namespace StructuralOp

/-- The mirror an operation commits. -/
def run (m : Mirror) : StructuralOp → Except EngineError Mirror
  | createGroup p fields now u => (m.createGroup p fields now u).map (·.1)
  | moveGroup u p now => (m.moveGroup u p now).map (·.1)
  | recycleGroup u now => m.recycleGroup u now
  | reorderGroup u pos now => (m.reorderGroup u pos now).map (·.1)
  | deleteGroup u now => (m.deleteGroup u now).map (·.1)
  | emptyRecycleBin now => (m.emptyRecycleBin now).map (·.1)
  | setRecycleBin enabled g now => m.setRecycleBin enabled g now
  | moveEntry u g now => (m.moveEntry u g now).map (·.1)
  | recycleEntry u now bin => m.recycleEntry u now bin
  | restoreEntry u now => m.restoreEntry u now

/-- What an operation commits, branch by branch: the guards it has passed and what it writes. -/
inductive Commits (m : Mirror) : StructuralOp → Mirror → Prop where
  | createGroup {p u : Uuid} {fields : NewGroupFields} {now : EpochMs} {m' : Mirror} :
      p ∈ m.groups.keys →
      m.insertGroup
        { uuid := u, parentUuid := some p, name := fields.name
          iconIndex := (iconParts fields.icon).1, iconCustomUuid := (iconParts fields.icon).2
          notes := fields.notes, createdAt := now, modifiedAt := now
          sortOrder := m.nextSortOrder p } = .ok m' →
      Commits m (.createGroup p fields now u) m'
  | moveGroup {u p : Uuid} {now : EpochMs} {m' : Mirror} :
      u ∈ m.groups.keys → ¬ Reach m.parentOf p u →
      m.setParent u p (fun g => { g with
        sortOrder := m.nextSortOrder p, modifiedAt := now, locationChangedAt := some now })
          (fun _ => rfl) = .ok m' →
      Commits m (.moveGroup u p now) m'
  | recycleGroup {u bin : Uuid} {now : EpochMs} {m' : Mirror} :
      u ∈ m.groups.keys → m.recycleBinUuid = some bin →
      m.setParent u bin (fun g => { g with modifiedAt := now }) (fun _ => rfl) = .ok m' →
      Commits m (.recycleGroup u now) m'
  | reorderGroup {u parent : Uuid} {pos : Nat} {now : EpochMs} {siblings : List Uuid} :
      siblings = (Mirror.sortRows (m.groups.rows.filter (·.parentUuid = some parent))).map (·.uuid) →
      u ∈ siblings →
      Commits m (.reorderGroup u pos now)
        ((Mirror.renumber 0 (Mirror.spliceSiblings siblings u pos) m).updateGroups (fun g => g.uuid = u)
          (fun g => { g with modifiedAt := now }) (fun _ => rfl) (fun _ => rfl))
  | deleteGroup {u : Uuid} {now : EpochMs} {row : GroupRow} {st : Mirror × DeleteGroupOutcome} :
      m.groups.find? u = some row →
      Mirror.deleteGroupRecursive now m.groups.rows.length u row.parentUuid (m, {}) = .ok st →
      Commits m (.deleteGroup u now) st.1
  | noBin {now : EpochMs} : m.recycleBinUuid = none → Commits m (.emptyRecycleBin now) m
  | emptyBin {bin : Uuid} {now : EpochMs} {st : Mirror × DeleteGroupOutcome} :
      m.recycleBinUuid = some bin →
      (m.childGroups bin).foldlM (fun st c =>
        Mirror.deleteGroupRecursive now m.groups.rows.length c (some bin) st) (m, {}) = .ok st →
      Commits m (.emptyRecycleBin now) (Mirror.deleteDirectChildEntries now bin bin st).1
  | setBin {enabled : Bool} {u : Uuid} {now : EpochMs} :
      Commits m (.setRecycleBin enabled (some u) now)
        (((m.writeRecycleBinGroup u).writeRecycleBinEnabled enabled).writeRecycleBinChanged now)
  | clearBin {enabled : Bool} {now : EpochMs} :
      Commits m (.setRecycleBin enabled none now)
        ((m.clearRecycleBinGroup.writeRecycleBinEnabled enabled).writeRecycleBinChanged now)
  | moveEntry {u g : Uuid} {now : EpochMs} {row : EntryRow} {m' : Mirror} :
      m.entries.find? u = some row →
      m.placeEntry u g (fun e => { e with
        previousParentUuid := some e.groupUuid, isRecycled := m.groupInBinSubtree g
        modifiedAt := now, locationChangedAt := some now }) (fun _ => rfl) = .ok m' →
      Commits m (.moveEntry u g now) m'
  | inBin {u binUuid : Uuid} {now : EpochMs} {row : EntryRow} :
      m.entries.find? u = some row → m.groupInBinSubtree row.groupUuid = true →
      Commits m (.recycleEntry u now binUuid) m
  | recycled {u bin binUuid : Uuid} {now : EpochMs} {row : EntryRow} {m' : Mirror} :
      m.entries.find? u = some row → m.groupInBinSubtree row.groupUuid = false →
      m.recycleBinUuid = some bin → m.recycleInto u bin now = .ok m' →
      Commits m (.recycleEntry u now binUuid) m'
  | recycledNew {u binUuid : Uuid} {now : EpochMs} {row : EntryRow} {m₁ m' : Mirror} :
      m.entries.find? u = some row → m.groupInBinSubtree row.groupUuid = false →
      m.recycleBinUuid = none → m.readRecycleBinEnabled = true →
      m.createRecycleBinGroup now binUuid = .ok m₁ → m₁.recycleInto u binUuid now = .ok m' →
      Commits m (.recycleEntry u now binUuid) m'
  | deleted {u binUuid : Uuid} {now : EpochMs} {row : EntryRow} :
      m.entries.find? u = some row → m.groupInBinSubtree row.groupUuid = false →
      m.recycleBinUuid = none → m.readRecycleBinEnabled = false →
      Commits m (.recycleEntry u now binUuid)
        ((m.deleteEntries (fun e => e.uuid = u)).recordTombstone u now)
  | restored {u dest : Uuid} {now : EpochMs} {row : EntryRow} {m' : Mirror} :
      m.entries.find? u = some row → m.groupInBinSubtree row.groupUuid = true →
      m.restoreDestination row.previousParentUuid = some dest →
      m.placeEntry u dest (fun e => { e with
        isRecycled := false, previousParentUuid := some e.groupUuid
        modifiedAt := now, locationChangedAt := some now }) (fun _ => rfl) = .ok m' →
      Commits m (.restoreEntry u now) m'
  | unflagged {u : Uuid} {now : EpochMs} {row : EntryRow} :
      m.entries.find? u = some row → m.groupInBinSubtree row.groupUuid = false → row.isRecycled = true →
      Commits m (.restoreEntry u now)
        (m.updateEntry u (fun e => { e with isRecycled := false }) (fun _ => rfl) (fun _ => rfl))
  | outside {u : Uuid} {now : EpochMs} {row : EntryRow} :
      m.entries.find? u = some row → m.groupInBinSubtree row.groupUuid = false →
      row.isRecycled = false → Commits m (.restoreEntry u now) m

/-- The group recycled is not above the bin, and the group deleted is not the root. -/
def Safe (m : Mirror) : StructuralOp → Prop
  | recycleGroup u _ => ∀ bin, m.recycleBinUuid = some bin → ¬ Reach m.parentOf bin u
  | deleteGroup u _ => m.parentOf u ≠ none
  | _ => True

end StructuralOp

theorem recycleBinUuid_mem {m : Mirror} {bin : Uuid} (h : m.recycleBinUuid = some bin) :
    bin ∈ m.groups.keys := by
  obtain ⟨g, hg, rfl⟩ := Option.map_eq_some_iff.1 h
  exact Table.key_mem (List.mem_of_find?_eq_some hg)

theorem rootUuid?_rooted {m : Mirror} {r u : Uuid} (hr : RootedAt m r) (h : m.rootUuid? = some u) :
    u = r := by
  obtain ⟨g, hg, rfl⟩ := Option.map_eq_some_iff.1 h
  have hmem := List.mem_of_find?_eq_some hg
  refine hr.eq_root (Table.key_mem hmem) ?_
  rw [parentOf_of_mem hmem]
  simpa using List.find?_some hg

theorem GroupTree.rootUuid? {m : Mirror} {r : Uuid} (hr : RootedAt m r) : m.rootUuid? = some r := by
  obtain ⟨row, hrow, rfl⟩ := Table.mem_keys.1 hr.root_mem
  have hnone : row.parentUuid = none := by rw [← parentOf_of_mem hrow, hr.root_par]
  cases hroot : m.rootUuid? with
  | none =>
    rw [Mirror.rootUuid?, Option.map_eq_none_iff, List.find?_eq_none] at hroot
    exact absurd hnone (by simpa using hroot row hrow)
  | some u => rw [rootUuid?_rooted hr hroot]

/-- The upward walk of `move_group` decides reachability, when it returns. -/
theorem walkMeets_ok {m : Mirror} {target cur : Uuid} {fuel : Nat} {b : Bool}
    (h : m.walkMeets target fuel (some cur) = .ok b) : b = true ↔ Reach m.parentOf cur target := by
  induction fuel generalizing cur with
  | zero => cases h
  | succ fuel ih =>
    unfold Mirror.walkMeets at h
    split at h
    · rename_i e
      obtain rfl := Except.ok.inj h
      simp [e, Reach.refl]
    · rename_i hne
      rw [reach_iff_parent]
      cases hp : m.parentOf cur with
      | none =>
        rw [hp] at h
        unfold Mirror.walkMeets at h
        obtain rfl := Except.ok.inj h
        simp [hne]
      | some p =>
        rw [hp] at h
        simp [ih h, hne]

section Branches

variable {m m' : Mirror} {u p : Uuid} {now : EpochMs}

theorem createGroup_commits {fields : NewGroupFields} {a : Mirror × Uuid}
    (h : m.createGroup p fields now u = .ok a) :
    StructuralOp.Commits m (.createGroup p fields now u) a.1 := by
  unfold Mirror.createGroup at h
  split at h
  · rename_i hp
    obtain ⟨b, hb, h⟩ := except_bind_ok.1 h
    obtain rfl := Except.ok.inj h
    exact .createGroup (groupExists_iff.1 hp) hb
  · cases h

theorem moveGroup_commits {a : Mirror × MoveGroupOutcome} (h : m.moveGroup u p now = .ok a) :
    StructuralOp.Commits m (.moveGroup u p now) a.1 := by
  unfold Mirror.moveGroup at h
  split at h
  · cases h
  · split at h
    · cases h
    · rename_i row hrow
      split at h
      · obtain ⟨b, hb, h⟩ := except_bind_ok.1 h
        split at h
        · cases h
        · rename_i hnb
          obtain ⟨c, hc, h⟩ := except_bind_ok.1 h
          obtain rfl := Except.ok.inj h
          exact .moveGroup (Table.exists_find?.1 ⟨row, hrow⟩)
            (fun hreach => hnb ((walkMeets_ok hb).2 hreach)) hc
      · cases h

theorem recycleGroup_commits (h : m.recycleGroup u now = .ok m') :
    StructuralOp.Commits m (.recycleGroup u now) m' := by
  unfold Mirror.recycleGroup at h
  split at h
  · rename_i hu
    split at h
    · cases h
    · rename_i bin hbin
      split at h
      · cases h
      · exact .recycleGroup (groupExists_iff.1 hu) hbin h
  · cases h

theorem reorderGroup_commits {pos : Nat} {a : Mirror × List Uuid} (h : m.reorderGroup u pos now = .ok a) :
    StructuralOp.Commits m (.reorderGroup u pos now) a.1 := by
  unfold Mirror.reorderGroup at h
  split at h
  · cases h
  · dsimp only at h
    split at h
    · rename_i hmem
      obtain rfl := Except.ok.inj h
      exact .reorderGroup rfl hmem
    · cases h

theorem deleteGroup_commits {a : Mirror × DeleteGroupOutcome} (h : m.deleteGroup u now = .ok a) :
    StructuralOp.Commits m (.deleteGroup u now) a.1 := by
  unfold Mirror.deleteGroup at h
  split at h
  · cases h
  · exact .deleteGroup ‹_› h

theorem emptyRecycleBin_commits {a : Mirror × DeleteGroupOutcome} (h : m.emptyRecycleBin now = .ok a) :
    StructuralOp.Commits m (.emptyRecycleBin now) a.1 := by
  unfold Mirror.emptyRecycleBin at h
  split at h
  · obtain rfl := Except.ok.inj h
    exact .noBin ‹_›
  · obtain ⟨st, hst, h⟩ := except_bind_ok.1 h
    obtain rfl := Except.ok.inj h
    exact .emptyBin ‹_› hst

theorem setRecycleBin_commits {enabled : Bool} {g : Option Uuid}
    (h : m.setRecycleBin enabled g now = .ok m') :
    StructuralOp.Commits m (.setRecycleBin enabled g now) m' := by
  unfold Mirror.setRecycleBin at h
  split at h
  · split at h
    · obtain rfl := Except.ok.inj h
      exact .setBin
    · cases h
  · obtain rfl := Except.ok.inj h
    exact .clearBin

theorem moveEntry_commits {a : Mirror × MoveEntryOutcome} (h : m.moveEntry u p now = .ok a) :
    StructuralOp.Commits m (.moveEntry u p now) a.1 := by
  unfold Mirror.moveEntry at h
  split at h
  · cases h
  · split at h
    · obtain ⟨b, hb, h⟩ := except_bind_ok.1 h
      obtain rfl := Except.ok.inj h
      exact .moveEntry ‹_› hb
    · cases h

theorem recycleEntry_commits {bin : Uuid} (h : m.recycleEntry u now bin = .ok m') :
    StructuralOp.Commits m (.recycleEntry u now bin) m' := by
  unfold Mirror.recycleEntry at h
  split at h
  · cases h
  · rename_i row hrow
    split at h
    · obtain rfl := Except.ok.inj h
      exact .inBin hrow ‹_›
    · rename_i hin
      rw [Bool.not_eq_true] at hin
      split at h
      · exact .recycled hrow hin ‹_› h
      · rename_i hbin
        split at h
        · obtain ⟨a, ha, h⟩ := except_bind_ok.1 h
          exact .recycledNew hrow hin hbin ‹_› ha h
        · rename_i hen
          obtain rfl := Except.ok.inj h
          exact .deleted hrow hin hbin (Bool.not_eq_true _ ▸ hen)

theorem restoreEntry_commits (h : m.restoreEntry u now = .ok m') :
    StructuralOp.Commits m (.restoreEntry u now) m' := by
  unfold Mirror.restoreEntry at h
  split at h
  · cases h
  · rename_i row hrow
    split at h
    · split at h
      · cases h
      · exact .restored hrow ‹_› ‹_› h
    · rename_i hin
      rw [Bool.not_eq_true] at hin
      split at h
      · obtain rfl := Except.ok.inj h
        exact .unflagged hrow hin ‹_›
      · rename_i hflag
        rw [Bool.not_eq_true] at hflag
        obtain rfl := Except.ok.inj h
        exact .outside hrow hin hflag

/-- **An operation that returns commits one of its branches.** -/
theorem StructuralOp.run_commits {op : StructuralOp} (h : op.run m = .ok m') : op.Commits m m' := by
  cases op with
  | createGroup p fields now u =>
    obtain ⟨a, ha, rfl⟩ := except_map_ok.1 h
    exact createGroup_commits ha
  | moveGroup u p now =>
    obtain ⟨a, ha, rfl⟩ := except_map_ok.1 h
    exact moveGroup_commits ha
  | recycleGroup u now => exact recycleGroup_commits h
  | reorderGroup u pos now =>
    obtain ⟨a, ha, rfl⟩ := except_map_ok.1 h
    exact reorderGroup_commits ha
  | deleteGroup u now =>
    obtain ⟨a, ha, rfl⟩ := except_map_ok.1 h
    exact deleteGroup_commits ha
  | emptyRecycleBin now =>
    obtain ⟨a, ha, rfl⟩ := except_map_ok.1 h
    exact emptyRecycleBin_commits ha
  | setRecycleBin enabled g now => exact setRecycleBin_commits h
  | moveEntry u g now =>
    obtain ⟨a, ha, rfl⟩ := except_map_ok.1 h
    exact moveEntry_commits ha
  | recycleEntry u now bin => exact recycleEntry_commits h
  | restoreEntry u now => exact restoreEntry_commits h

end Branches

/-! ## The tree after each operation -/

theorem createRecycleBinGroup_rooted {m m' : Mirror} {now : EpochMs} {u r : Uuid}
    (h : m.createRecycleBinGroup now u = .ok m') (hr : RootedAt m r) : RootedAt m' r := by
  unfold Mirror.createRecycleBinGroup at h
  split at h
  · cases h
  · rename_i root hroot
    obtain ⟨a, ha, h⟩ := except_bind_ok.1 h
    obtain rfl := Except.ok.inj h
    obtain rfl := rootUuid?_rooted hr hroot
    have har := insertGroup_rooted ha rfl hr.root_mem hr
    exact ((SameParents.writeRecycleBinGroup a u).trans (.of_groups rfl)).rooted har

theorem placeEntry_groups {m m' : Mirror} {u g : Uuid} {f : EntryRow → EntryRow}
    {hu : ∀ r, (f r).uuid = r.uuid} (h : m.placeEntry u g f hu = .ok m') : m'.groups = m.groups := by
  unfold Mirror.placeEntry at h
  split at h
  · obtain rfl := Except.ok.inj h
    rfl
  · split at h
    · cases h
    · obtain rfl := Except.ok.inj h
      rfl

/-- Deleting a group leaves a tree unless the group is the root. -/
theorem removesBelow_groupTree_iff {m m' : Mirror} {u : Uuid} (hrem : RemovesBelow m.groups m'.groups [u])
    (hu : u ∈ m.groups.keys) (ht : GroupTree m) : GroupTree m' ↔ m.parentOf u ≠ none := by
  obtain ⟨r, hr⟩ := groupTree_iff.1 ht
  constructor
  · -- deleting the root leaves no row
    intro ht' hnone
    obtain rfl := hr.eq_root hu hnone
    obtain ⟨g, ⟨hg, -⟩, -⟩ := ht'.root
    obtain ⟨hg, hn⟩ := (hrem g).1 hg
    exact hn u (by simp) (hr.reach_root (Table.key_mem hg))
  · intro hne
    refine groupTree_iff.2 ⟨r, hrem.rooted hr ?_⟩
    rw [List.mem_singleton]
    rintro rfl
    exact hne hr.root_par

/-- **An operation that returns leaves a tree exactly when it is safe.** -/
theorem StructuralOp.run_groupTree_iff {m m' : Mirror} {op : StructuralOp} (h : op.run m = .ok m')
    (ht : GroupTree m) : GroupTree m' ↔ op.Safe m := by
  obtain ⟨r, hr⟩ := groupTree_iff.1 ht
  have rooted : RootedAt m' r → (GroupTree m' ↔ True) := fun h =>
    iff_of_true (groupTree_iff.2 ⟨r, h⟩) trivial
  have same : SameParents m m' → (GroupTree m' ↔ True) := fun h =>
    iff_of_true (h.groupTree ht) trivial
  cases run_commits h with
  | createGroup hp hins => exact rooted (insertGroup_rooted hins rfl hp hr)
  | moveGroup hu hreach hset =>
    exact iff_of_true ((setParent_groupTree_iff hset hu ht).2 hreach) trivial
  | recycleGroup hu hbin hset =>
    rw [setParent_groupTree_iff hset hu ht]
    simp [Safe, hbin]
  | reorderGroup =>
    exact same ((SameParents.renumber _ 0 m).trans (SameParents.updateGroups _ _ _ _ _))
  | deleteGroup hrow hdel =>
    exact removesBelow_groupTree_iff (deleteGroupRecursive_rows hdel) (Table.exists_find?.1 ⟨_, hrow⟩) ht
  | noBin => exact iff_of_true ht trivial
  | @emptyBin bin now st hbin hst =>
    have hrem := foldlM_removesBelow (fun st c st' hc => deleteGroupRecursive_rows hc) hst
    have hroot : RootedAt st.1 r := hrem.rooted hr fun hmem => by
      have := childGroups_parent hmem
      rw [show m.parentOf r = none from hr.root_par] at this
      cases this
    exact rooted ((SameParents.of_groups (deleteDirectChildEntries_groups now bin bin st)).rooted hroot)
  | @setBin enabled u now =>
    have hbin := SameParents.writeRecycleBinGroup m u
    exact same (hbin.trans (c := Mirror.writeRecycleBinChanged _ _) (.of_groups rfl))
  | clearBin =>
    have hbin := SameParents.clearRecycleBinGroup m
    exact same (hbin.trans (c := Mirror.writeRecycleBinChanged _ _) (.of_groups rfl))
  | moveEntry _ hplace => exact same (.of_groups (placeEntry_groups hplace))
  | inBin => exact iff_of_true ht trivial
  | recycled _ _ _ hplace => exact same (.of_groups (placeEntry_groups hplace))
  | recycledNew _ _ _ _ hbin hplace =>
    have hroot := createRecycleBinGroup_rooted hbin hr
    exact rooted ((SameParents.of_groups (placeEntry_groups hplace)).rooted hroot)
  | deleted => exact same (.of_groups rfl)
  | restored _ _ _ hplace => exact same (.of_groups (placeEntry_groups hplace))
  | unflagged => exact same (.of_groups rfl)
  | outside => exact iff_of_true ht trivial

end KeysCore.Verify
