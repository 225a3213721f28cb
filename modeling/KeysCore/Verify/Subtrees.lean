import Mathlib.Data.List.Dedup
import KeysCore.Verify.Search

/-!
# One notion of subtree

The walks up (`is_descendant_of`, `group_in_bin_subtree`) and the queries down (`SUBTREE_GROUPS_CTE`,
`BIN_SUBTREE_CTE`) all decide `Reach`: a level of a query holds the groups that many steps below its
base (`mem_levelBelow`), a walk looks for its target within its step limit (`ancestryWalk_iff`,
`binWalk_iff`). In a tree the levels reach as far as there are groups; the walks reach as far as they
have steps, so they agree with the queries in a tree that is not deeper.
-/

namespace KeysCore.Verify

open Lib Lib.Forest

variable {m : Mirror}

/-! ## Walks and levels -/

theorem binWalk_iff (bin : Uuid) (n : Nat) (g : Uuid) :
    m.binWalk bin n (some g) = true ↔ ∃ k < n, up m.parentOf k g = some bin := by
  induction n generalizing g with
  | zero => simp [Mirror.binWalk]
  | succ n ih =>
    rw [Mirror.binWalk, Bool.or_eq_true, decide_eq_true_iff]
    constructor
    · rintro (rfl | hwalk)
      · exact ⟨0, Nat.succ_pos n, rfl⟩
      · cases hp : m.parentOf g with
        | none =>
          rw [hp] at hwalk
          cases n <;> cases hwalk
        | some p =>
          rw [hp] at hwalk
          obtain ⟨k, hk, hup⟩ := (ih p).1 hwalk
          exact ⟨k + 1, Nat.succ_lt_succ hk, by rw [up_succ_of_par hp, hup]⟩
    · rintro ⟨k, hk, hup⟩
      cases k with
      | zero => exact .inl (Option.some.inj hup)
      | succ k =>
        cases hp : m.parentOf g with
        | none => simp [up_succ, hp] at hup
        | some p =>
          rw [up_succ_of_par hp] at hup
          exact .inr ((ih p).2 ⟨k, Nat.lt_of_succ_lt_succ hk, hup⟩)

theorem ancestryWalk_iff (a : Uuid) (n : Nat) (g : Uuid) :
    m.ancestryWalk a n g = true ↔ ∃ k < n, up m.parentOf (k + 1) g = some a := by
  induction n generalizing g with
  | zero => simp [Mirror.ancestryWalk]
  | succ n ih =>
    rw [Mirror.ancestryWalk]
    cases hp : m.parentOf g with
    | none => simp [up_succ, hp]
    | some p =>
      simp only [Bool.or_eq_true, decide_eq_true_iff, ih p, up_succ_of_par hp]
      constructor
      · rintro (rfl | ⟨k, hk, hup⟩)
        · exact ⟨0, Nat.succ_pos n, rfl⟩
        · exact ⟨k + 1, Nat.succ_lt_succ hk, hup⟩
      · rintro ⟨k, hk, hup⟩
        cases k with
        | zero => exact .inl (Option.some.inj hup)
        | succ k => exact .inr ⟨k, Nat.lt_of_succ_lt_succ hk, hup⟩

theorem mem_levelBelow (base : List Uuid) (n : Nat) (g : Uuid) :
    g ∈ m.levelBelow base n ↔ ∃ b ∈ base, up m.parentOf n g = some b := by
  induction n generalizing g with
  | zero => simp [Mirror.levelBelow]
  | succ n ih =>
    simp only [Mirror.levelBelow, List.mem_map, List.mem_filter, decide_eq_true_eq]
    constructor
    · rintro ⟨row, ⟨hrow, p, hp, hparent⟩, rfl⟩
      obtain ⟨b, hb, hup⟩ := (ih p).1 hp
      have hpar : m.parentOf row.uuid = some p := by rw [parentOf_of_mem hrow, hparent]
      exact ⟨b, hb, by rw [up_succ_of_par hpar, hup]⟩
    · rintro ⟨b, hb, hup⟩
      cases hp : m.parentOf g with
      | none => simp [up_succ, hp] at hup
      | some p =>
        rw [up_succ_of_par hp] at hup
        obtain ⟨row, hrow, rfl, hparent⟩ := parentOf_eq_some.1 hp
        exact ⟨row, ⟨hrow, p, (ih p).2 ⟨b, hb, hup⟩, hparent⟩, rfl⟩

theorem binLevel_eq (n : Nat) :
    m.binLevel n = m.levelBelow ((m.groups.rows.filter (·.isRecycleBin)).map (·.uuid)) n := by
  induction n with
  | zero => rfl
  | succ n ih => rw [Mirror.binLevel, Mirror.levelBelow, ih]

/-! ## Queries in a tree -/

/-- In a tree the levels of a query hold all groups below its base. -/
theorem mem_levels_iff {r : Uuid} (hr : RootedAt m r) {base : List Uuid} {g : Uuid}
    (hg : g ∈ m.groups.keys) :
    g ∈ (List.range m.groups.rows.length).flatMap (m.levelBelow base) ↔
      ∃ b ∈ base, Reach m.parentOf g b := by
  simp only [List.mem_flatMap, List.mem_range, mem_levelBelow]
  constructor
  · rintro ⟨n, -, b, hb, hup⟩
    exact ⟨b, hb, n, hup⟩
  · rintro ⟨b, hb, n, hup⟩
    have hlt : n < m.groups.keys.length := hr.up_lt_length (fun x hx => hx) hg hup
    rw [Table.keys, List.length_map] at hlt
    exact ⟨n, hlt, b, hb, hup⟩

theorem mem_subtreeGroups {r : Uuid} (hr : RootedAt m r) {a g : Uuid} (ha : a ∈ m.groups.keys)
    (hg : g ∈ m.groups.keys) : g ∈ m.subtreeGroups a ↔ Reach m.parentOf g a := by
  have hbase : ∀ b, b ∈ (m.groups.rows.filter (·.uuid = a)).map (·.uuid) ↔ b = a := by
    intro b
    obtain ⟨row, hrow, rfl⟩ := Table.mem_keys.1 ha
    simp only [List.mem_map, List.mem_filter, decide_eq_true_eq]
    exact ⟨fun ⟨x, ⟨_, hx⟩, hb⟩ => hb ▸ hx, fun hb => ⟨row, ⟨hrow, rfl⟩, hb.symm⟩⟩
  rw [Mirror.subtreeGroups, List.mem_dedup, mem_levels_iff hr hg]
  simp only [hbase, exists_eq_left]

theorem mem_binSubtree {r : Uuid} (hr : RootedAt m r) {g : Uuid} (hg : g ∈ m.groups.keys) :
    g ∈ m.binSubtree ↔ ∃ b ∈ m.groups.rows, b.isRecycleBin = true ∧ Reach m.parentOf g b.uuid := by
  have hlevels : m.binSubtree = (List.range m.groups.rows.length).flatMap
      (m.levelBelow ((m.groups.rows.filter (·.isRecycleBin)).map (·.uuid))) := by
    rw [Mirror.binSubtree]
    exact congrArg (List.flatMap · _) (funext binLevel_eq)
  rw [hlevels, mem_levels_iff hr hg]
  simp only [List.mem_map, List.mem_filter]
  constructor
  · rintro ⟨_, ⟨b, ⟨hb, hflag⟩, rfl⟩, hreach⟩
    exact ⟨b, hb, hflag, hreach⟩
  · rintro ⟨b, hb, hflag, hreach⟩
    exact ⟨b.uuid, ⟨b, ⟨hb, hflag⟩, rfl⟩, hreach⟩

/-! ## The walks in a tree -/

/-- Every walk is shorter than `n` steps. -/
def DepthBelow (m : Mirror) (n : Nat) : Prop :=
  ∀ u ∈ m.groups.keys, ∀ k v, up m.parentOf k u = some v → k < n

theorem DepthBelow.mono {n n' : Nat} (h : DepthBelow m n) (hle : n ≤ n') : DepthBelow m n' :=
  fun u hu k v hk => Nat.lt_of_lt_of_le (h u hu k v hk) hle

theorem binWalk_reach {n : Nat} (h : DepthBelow m n) (bin : Uuid) {g : Uuid} (hg : g ∈ m.groups.keys) :
    m.binWalk bin n (some g) = true ↔ Reach m.parentOf g bin := by
  rw [binWalk_iff]
  exact ⟨fun ⟨k, _, hk⟩ => ⟨k, hk⟩, fun ⟨k, hk⟩ => ⟨k, h g hg k bin hk, hk⟩⟩

/-- At most one group is flagged as the bin. -/
def OneBin (m : Mirror) : Prop :=
  ∀ a ∈ m.groups.rows, ∀ b ∈ m.groups.rows, a.isRecycleBin = true → b.isRecycleBin = true → a = b

theorem recycleBinUuid_some {bin : Uuid} (h : m.recycleBinUuid = some bin) :
    ∃ b ∈ m.groups.rows, b.isRecycleBin = true ∧ b.uuid = bin := by
  obtain ⟨b, hb, rfl⟩ := Option.map_eq_some_iff.1 h
  exact ⟨b, List.mem_of_find?_eq_some hb, by simpa using List.find?_some hb, rfl⟩

theorem recycleBinUuid_none (h : m.recycleBinUuid = none) :
    ∀ b ∈ m.groups.rows, b.isRecycleBin = false := by
  intro b hb
  have hnone := List.find?_eq_none.1 (Option.map_eq_none_iff.1 h) b hb
  simpa using hnone

/-- **The walk up to the bin and the query down from it agree.** -/
theorem mem_binSubtree_iff_walk {r : Uuid} (hr : RootedAt m r) (hdepth : DepthBelow m 10000)
    (hone : OneBin m) {g : Uuid} (hg : g ∈ m.groups.keys) :
    g ∈ m.binSubtree ↔ m.groupInBinSubtree g = true := by
  rw [mem_binSubtree hr hg, Mirror.groupInBinSubtree]
  cases hbin : m.recycleBinUuid with
  | none =>
    have hflags := recycleBinUuid_none hbin
    simp only [Bool.false_eq_true, iff_false]
    rintro ⟨b, hb, hflag, -⟩
    rw [hflags b hb] at hflag
    cases hflag
  | some bin =>
    obtain ⟨b, hb, hflag, rfl⟩ := recycleBinUuid_some hbin
    rw [binWalk_reach hdepth b.uuid hg]
    constructor
    · rintro ⟨c, hc, hcflag, hreach⟩
      rwa [hone c hc b hb hcflag hflag] at hreach
    · intro hreach
      exact ⟨b, hb, hflag, hreach⟩

theorem isDescendantOf_iff (hdepth : DepthBelow m 1024) {g a : Uuid} (hg : g ∈ m.groups.keys) :
    m.isDescendantOf g a = .ok true ↔ g ≠ a ∧ Reach m.parentOf g a := by
  have hwalk : m.ancestryWalk a maxAncestryWalk g = true ↔ ∃ k, up m.parentOf (k + 1) g = some a := by
    rw [ancestryWalk_iff]
    constructor
    · rintro ⟨k, -, hk⟩
      exact ⟨k, hk⟩
    · rintro ⟨k, hk⟩
      exact ⟨k, Nat.lt_of_succ_lt (hdepth g hg _ a hk), hk⟩
  rw [Mirror.isDescendantOf, if_pos (groupExists_iff.2 hg), Except.ok.injEq, Bool.and_eq_true, hwalk,
    decide_eq_true_iff]
  refine and_congr_right fun hne => ⟨fun ⟨k, hk⟩ => ⟨k + 1, hk⟩, fun ⟨k, hk⟩ => ?_⟩
  cases k with
  | zero => exact absurd (Option.some.inj hk) hne
  | succ k => exact ⟨k, hk⟩

/-! ## The reads -/

theorem groupUuidsInSubtree_ok {a : Uuid} (ha : a ∈ m.groups.keys) :
    m.groupUuidsInSubtree a = .ok ((m.subtreeGroups a).insertionSort (· ≤ ·)) := by
  rw [Mirror.groupUuidsInSubtree, Mirror.requireGroupExists, if_pos (groupExists_iff.2 ha)]
  rfl

theorem entryUuidsInSubtree_ok {a : Uuid} (ha : a ∈ m.groups.keys) :
    m.entryUuidsInSubtree a =
      .ok (((m.entries.rows.filter (·.groupUuid ∈ m.subtreeGroups a)).map (·.uuid)).insertionSort
        (· ≤ ·)) := by
  rw [Mirror.entryUuidsInSubtree, Mirror.requireGroupExists, if_pos (groupExists_iff.2 ha)]
  rfl

/-- The entries of a subtree are those in its groups. -/
theorem mem_entryUuids {gs : List Uuid} {u : Uuid} :
    u ∈ ((m.entries.rows.filter (·.groupUuid ∈ gs)).map (·.uuid)).insertionSort (· ≤ ·) ↔
      ∃ e ∈ m.entries.rows, e.uuid = u ∧ e.groupUuid ∈ gs := by
  simp only [List.mem_insertionSort, List.mem_map, List.mem_filter, decide_eq_true_eq]
  exact ⟨fun ⟨e, ⟨he, hg⟩, hu⟩ => ⟨e, he, hu, hg⟩, fun ⟨e, he, hu, hg⟩ => ⟨e, ⟨he, hg⟩, hu⟩⟩

/-- With the bin enabled the filters of a search split what it finds. -/
theorem search_splits (hen : m.readRecycleBinEnabled = true) (query : String) (scope : SearchScope) :
    ∃ included excluded recycled, m.search query scope .includeRecycled .all = .ok included ∧
      m.search query scope .excludeRecycled .all = .ok excluded ∧
      m.search query scope .recycledOnly .all = .ok recycled ∧
      (∀ e, e ∈ included ↔ e ∈ excluded ∨ e ∈ recycled) ∧ ∀ e ∈ excluded, e ∉ recycled := by
  obtain ⟨included, hincluded, hmem⟩ := mem_search m query scope .includeRecycled
  obtain ⟨excluded, hexcluded, hmem'⟩ := mem_search m query scope .excludeRecycled
  obtain ⟨recycled, hrecycled, hmem''⟩ := mem_search m query scope .recycledOnly
  refine ⟨included, excluded, recycled, hincluded, hexcluded, hrecycled, fun e => ?_, fun e he hbin => ?_⟩
  · rw [hmem, hmem', hmem'']
    simp only [BinPasses, hen, forall_const, true_and]
    by_cases hin : e.groupUuid ∈ m.binSubtree <;> simp [hin]
  · exact ((hmem' e).1 he).2.2.1 hen ((hmem'' e).1 hbin).2.2.1.2

/-- **All notions of subtree and of the bin are one.** In a tree less than 1024 groups deep with at most
one bin, the upward walks and the recursive queries agree on every group, the entries of a subtree are
those in its groups, the filters of a search split what it finds, and the count of the live entries is
of those that are not in the subtree of the bin. -/
theorem subtree_notions_agree (ht : GroupTree m) (hdepth : DepthBelow m 1024) (hone : OneBin m) :
    (∀ a ∈ m.groups.keys, ∃ groups entries, m.groupUuidsInSubtree a = .ok groups ∧
      m.entryUuidsInSubtree a = .ok entries ∧
      (∀ g ∈ m.groups.keys, g ∈ groups ↔ g = a ∨ m.isDescendantOf g a = .ok true) ∧
      ∀ u, u ∈ entries ↔ ∃ e ∈ m.entries.rows, e.uuid = u ∧ e.groupUuid ∈ groups) ∧
    (∀ g ∈ m.groups.keys, g ∈ m.binSubtree ↔ m.groupInBinSubtree g = true) ∧
    (m.readRecycleBinEnabled = true →
      (∀ query scope, ∃ included excluded recycled,
        m.search query scope .includeRecycled .all = .ok included ∧
        m.search query scope .excludeRecycled .all = .ok excluded ∧
        m.search query scope .recycledOnly .all = .ok recycled ∧
        (∀ e, e ∈ included ↔ e ∈ excluded ∨ e ∈ recycled) ∧ ∀ e ∈ excluded, e ∉ recycled) ∧
      match m.recycleBinUuid with
      | none => m.entryCountExcludingRecycleBin = m.entries.rows.length
      | some bin => ∃ entries, m.entryUuidsInSubtree bin = .ok entries ∧
          m.entryCountExcludingRecycleBin = (m.entries.rows.filter (·.uuid ∉ entries)).length) := by
  obtain ⟨r, hr⟩ := groupTree_iff.1 ht
  have hwalk : ∀ g ∈ m.groups.keys, g ∈ m.binSubtree ↔ m.groupInBinSubtree g = true := fun g hg =>
    mem_binSubtree_iff_walk hr (hdepth.mono (by decide)) hone hg
  refine ⟨fun a ha => ?_, hwalk, fun hen => ⟨search_splits hen, ?_⟩⟩
  · refine ⟨_, _, groupUuidsInSubtree_ok ha, entryUuidsInSubtree_ok ha, fun g hg => ?_, fun u => ?_⟩
    · rw [List.mem_insertionSort, mem_subtreeGroups hr ha hg, isDescendantOf_iff hdepth hg]
      by_cases hga : g = a
      · simp [hga, Reach.refl]
      · simp [hga]
    · rw [mem_entryUuids]
      simp only [List.mem_insertionSort]
  · have hcount : m.entryCountExcludingRecycleBin =
        (m.entries.rows.filter (·.groupUuid ∉ m.binSubtree)).length := by
      rw [Mirror.entryCountExcludingRecycleBin, if_pos hen]
    cases hbin : m.recycleBinUuid with
    | none =>
      have hall : m.entries.rows.filter (·.groupUuid ∉ m.binSubtree) = m.entries.rows := by
        rw [List.filter_eq_self]
        intro e he
        have hwalkFalse : m.groupInBinSubtree e.groupUuid = false := by
          rw [Mirror.groupInBinSubtree, hbin]
        simp [hwalk e.groupUuid (m.fkGroup e he), hwalkFalse]
      exact hcount.trans (congrArg List.length hall)
    | some bin =>
      obtain ⟨b, hb, hflag, rfl⟩ := recycleBinUuid_some hbin
      refine ⟨_, entryUuidsInSubtree_ok (Table.key_mem hb), ?_⟩
      rw [hcount]
      refine congrArg List.length (List.filter_congr fun e he => decide_eq_decide.2 (not_congr ?_))
      have hg := m.fkGroup e he
      have hsame : e.groupUuid ∈ m.binSubtree ↔ e.groupUuid ∈ m.subtreeGroups b.uuid := by
        rw [mem_binSubtree hr hg, mem_subtreeGroups hr (Table.key_mem hb) hg]
        constructor
        · rintro ⟨c, hc, hcflag, hreach⟩
          rwa [hone c hc b hb hcflag hflag] at hreach
        · intro hreach
          exact ⟨b, hb, hflag, hreach⟩
      rw [mem_entryUuids, hsame]
      constructor
      · intro hin
        exact ⟨e, he, rfl, hin⟩
      · rintro ⟨e', he', hu, hin⟩
        rwa [← Table.eq_of_key he' he hu]

/-- The three nested groups, the last of them the bin. -/
theorem subtree_notions_agree_nested :
    (∀ g ∈ (nestedMirror true).groups.keys,
      g ∈ (nestedMirror true).binSubtree ↔ (nestedMirror true).groupInBinSubtree g = true) ∧
      (nestedMirror true).binSubtree = [3] := by
  have hdepth : DepthBelow (nestedMirror true) 1024 := by
    obtain ⟨r, hr⟩ := groupTree_iff.1 (nestedMirror_groupTree true)
    intro u hu k v hk
    exact Nat.lt_trans (hr.up_lt_length (fun x hx => hx) hu hk) (by decide)
  have hone : OneBin (nestedMirror true) := by
    unfold OneBin
    decide
  exact ⟨(subtree_notions_agree (nestedMirror_groupTree true) hdepth hone).2.1, by decide⟩

end KeysCore.Verify
