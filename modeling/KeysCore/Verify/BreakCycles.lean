import Mathlib.Data.Finset.Card
import KeysCore.Lib.CycleBreak
import KeysCore.PeerGroups
import KeysCore.Verify.GroupTree

/-!
# Breaking group cycles

`findOneCycle_some`, `findOneCycle_none`: the search returns the members of a cycle, and returns none
only when there is none, in whatever order the hash map yields its keys. `breakGroupCycles_spec`: the
loop returns, and the parents it leaves are the canonical break of the parents it started from; no
other column changes. So the result does not depend on the order in which the cycles are found, and is
a tree when every parent exists (`breakGroupCycles_canonical`).
-/

namespace KeysCore.Verify

open Lib Lib.Forest

/-! ## `find_one_cycle` -/

section Walk

variable {par : Uuid → Option Uuid}

/-- `path` lists the walk from `s` up to, and without, `cur`. -/
structure WalkPath (par : Uuid → Option Uuid) (s : Uuid) (path : List Uuid) (cur : Uuid) : Prop where
  at_index : ∀ i < path.length, up par i s = path[i]?
  at_end : up par path.length s = some cur

theorem WalkPath.start (s : Uuid) : WalkPath par s [] s := ⟨fun i hi => by simp at hi, rfl⟩

theorem WalkPath.step {s cur p : Uuid} {path : List Uuid} (h : WalkPath par s path cur)
    (hp : par cur = some p) : WalkPath par s (path ++ [cur]) p := by
  refine ⟨fun i hi => ?_, ?_⟩
  · rw [List.length_append, List.length_singleton] at hi
    rcases Nat.lt_or_ge i path.length with hlt | hge
    · rw [List.getElem?_append_left hlt]
      exact h.at_index i hlt
    · obtain rfl : i = path.length := by omega
      rw [List.getElem?_append_right (Nat.le_refl _), h.at_end]
      simp
  · rw [List.length_append, List.length_singleton, up_succ_last h.at_end, hp]

theorem WalkPath.reach {s cur : Uuid} {path : List Uuid} (h : WalkPath par s path cur) :
    Reach par s cur := ⟨_, h.at_end⟩

theorem dropWhile_ne_of_mem {l : List Uuid} {a : Uuid} (h : a ∈ l) :
    ∃ pre rest, l = pre ++ a :: rest ∧ l.dropWhile (· ≠ a) = a :: rest := by
  induction l with
  | nil => cases h
  | cons b l ih =>
    by_cases e : b = a
    · subst e
      exact ⟨[], l, rfl, by simp⟩
    · obtain ⟨pre, rest, hl, hd⟩ := ih (by simpa [Ne.symm e] using h)
      exact ⟨b :: pre, rest, by rw [hl]; rfl, by rw [List.dropWhile_cons_of_pos (by simpa using e), hd]⟩

/-- A walk that meets its own path has found the cycle through the node it meets. -/
theorem WalkPath.cycle {s cur : Uuid} {path : List Uuid} (h : WalkPath par s path cur)
    (hmem : cur ∈ path) :
    OnCycle par cur ∧ ∀ y, y ∈ path.dropWhile (· ≠ cur) ↔ Reach par cur y := by
  obtain ⟨pre, rest, hsplit, hpre⟩ := dropWhile_ne_of_mem hmem
  have hlen : path.length = pre.length + (rest.length + 1) := by simp [hsplit]
  -- the walk is at `cur` after `pre` and again at the end
  have hfirst : up par pre.length s = some cur := by
    rw [h.at_index pre.length (by omega), hsplit]
    simp
  have hperiod : up par (rest.length + 1) cur = some cur := by
    rw [← up_add_of hfirst, ← hlen, h.at_end]
  have hindex : ∀ j < rest.length + 1, up par j cur = (cur :: rest)[j]? := by
    intro j hj
    rw [← up_add_of hfirst, h.at_index _ (by omega), hsplit,
      List.getElem?_append_right (Nat.le_add_right _ _), Nat.add_sub_cancel_left]
  refine ⟨⟨rest.length, hperiod⟩, fun y => ?_⟩
  rw [hpre]
  constructor
  · intro hy
    obtain ⟨j, hj, he⟩ := List.mem_iff_getElem.1 hy
    refine ⟨j, ?_⟩
    rw [hindex j (by simpa using hj), List.getElem?_eq_getElem hj, he]
  · rintro ⟨d, hd⟩
    have hmod : up par (d % (rest.length + 1)) cur = some y := by
      rw [← Nat.div_add_mod d (rest.length + 1), Nat.mul_comm,
        up_add_of (OnCycle.up_mul hperiod _)] at hd
      exact hd
    have hlt := Nat.mod_lt d (Nat.succ_pos rest.length)
    rw [hindex _ hlt] at hmod
    exact List.mem_of_getElem? hmod

/-- The members of a cycle. -/
def IsCycle (par : Uuid → Option Uuid) (cycle : List Uuid) : Prop :=
  ∃ x, OnCycle par x ∧ ∀ y, y ∈ cycle ↔ Reach par x y

theorem walkCycle_some {fuel : Nat} {s cur : Uuid} {path cycle : List Uuid}
    (hw : WalkPath par s path cur) (h : walkCycle par fuel path cur = some cycle) :
    IsCycle par cycle := by
  induction fuel generalizing path cur with
  | zero =>
    unfold walkCycle at h
    split at h
    · rename_i hmem
      obtain rfl := Option.some.inj h
      exact ⟨cur, hw.cycle hmem⟩
    · cases h
  | succ fuel ih =>
    unfold walkCycle at h
    split at h
    · rename_i hmem
      obtain rfl := Option.some.inj h
      exact ⟨cur, hw.cycle hmem⟩
    · cases hp : par cur with
      | none => simp [hp] at h
      | some p => exact ih (hw.step hp) (by simpa [hp] using h)

/-- From a node on a cycle the walk does not end without a result. -/
theorem walkCycle_isSome {keys : List Uuid} (hkeys : ∀ x, par x ≠ none → x ∈ keys) {fuel : Nat}
    {s cur : Uuid} {path : List Uuid} (hs : OnCycle par s) (hw : WalkPath par s path cur)
    (hnd : path.Nodup) (hsub : path ⊆ keys) (hfuel : keys.length < fuel + path.length) :
    walkCycle par fuel path cur ≠ none := by
  induction fuel generalizing path cur with
  | zero =>
    have := (hnd.subperm hsub).length_le
    omega
  | succ fuel ih =>
    unfold walkCycle
    split
    · simp
    · rename_i hmem
      have hpar := hs.par_ne_none hw.reach
      cases hp : par cur with
      | none => exact absurd hp hpar
      | some p =>
        refine ih (hw.step hp) ?_ ?_ (by simp; omega)
        · exact List.nodup_append.2 ⟨hnd, by simp, by
            rintro a ha b hb rfl
            rw [List.mem_singleton] at hb
            exact hmem (hb ▸ ha)⟩
        · intro x hx
          rcases List.mem_append.1 hx with hx | hx
          · exact hsub hx
          · rw [List.mem_singleton.1 hx]
            exact hkeys cur hpar

theorem findOneCycle_some {keys cycle : List Uuid} (h : findOneCycle par keys = some cycle) :
    IsCycle par cycle := by
  obtain ⟨s, -, hs⟩ := List.exists_of_findSome?_eq_some h
  exact walkCycle_some (.start s) hs

theorem findOneCycle_none {keys : List Uuid} (hkeys : ∀ x, par x ≠ none → x ∈ keys)
    (h : findOneCycle par keys = none) : Acyclic par := by
  intro x hx
  have hmem : x ∈ keys := hkeys x (hx.par_ne_none (.refl x))
  refine walkCycle_isSome hkeys hx (.start x) List.nodup_nil (List.nil_subset _) ?_
    (List.findSome?_eq_none_iff.1 h x hmem)
  simp

/-- The smallest member of a cycle. -/
theorem IsCycle.cycleMin {cycle : List Uuid} (h : IsCycle par cycle) {v : Uuid}
    (hv : cycle.min? = some v) : CycleMin par v := by
  obtain ⟨x, hx, hmem⟩ := h
  obtain ⟨hin, hmin⟩ := List.min?_eq_some_iff.1 hv
  have hxv := (hmem v).1 hin
  exact ⟨hx.of_reach hxv, fun y hy => hmin y ((hmem y).2 (hxv.trans hy))⟩

theorem IsCycle.min?_ne_none {cycle : List Uuid} (h : IsCycle par cycle) : cycle.min? ≠ none := by
  obtain ⟨x, -, hmem⟩ := h
  intro hn
  rw [List.min?_eq_none_iff] at hn
  have := (hmem x).2 (.refl x)
  rw [hn] at this
  cases this

end Walk

/-! ## `break_group_cycles` -/

/-- `m'` is `m` with the parents `par` and nothing else changed in the group table. -/
def Reparented (m m' : Mirror) (par : Uuid → Option Uuid) : Prop :=
  ∀ u, m'.groups.find? u = (m.groups.find? u).map fun row => { row with parentUuid := par u }

namespace Reparented

variable {m m' m'' : Mirror} {par par' : Uuid → Option Uuid}

theorem mem_keys (h : Reparented m m' par) {u : Uuid} : u ∈ m'.groups.keys ↔ u ∈ m.groups.keys := by
  rw [← Table.find?_isSome, ← Table.find?_isSome, h u, Option.isSome_map]

theorem parentOf (h : Reparented m m' par) {u : Uuid} (hu : u ∈ m.groups.keys) :
    m'.parentOf u = par u := by
  obtain ⟨row, hrow⟩ := Table.exists_find?.2 hu
  rw [Mirror.parentOf, parentIn, h u, hrow]
  rfl

theorem trans (h : Reparented m m' par) (h' : Reparented m' m'' par') : Reparented m m'' par' := by
  intro u
  rw [h' u, h u, Option.map_map]
  rfl

end Reparented

theorem parentOf_eq_none {m : Mirror} {u : Uuid} (h : u ∉ m.groups.keys) : m.parentOf u = none := by
  rw [Mirror.parentOf, parentIn, Table.find?_eq_none.2 h]
  rfl

theorem mem_childKeys {m : Mirror} {u : Uuid} (h : m.parentOf u ≠ none) : u ∈ m.childKeys := by
  cases hp : m.parentOf u with
  | none => exact absurd hp h
  | some p =>
    obtain ⟨g, hg, rfl, hgp⟩ := parentOf_eq_some.1 hp
    exact List.mem_map.2 ⟨g, List.mem_filter.2 ⟨hg, by simp [hgp]⟩, rfl⟩

theorem reparented_self (m : Mirror) : Reparented m m m.parentOf := by
  intro u
  cases h : m.groups.find? u with
  | none => rfl
  | some row =>
    have hp : m.parentOf u = row.parentUuid := by rw [Mirror.parentOf, parentIn, h]; rfl
    rw [Option.map_some, hp]

/-- Re-rooting statement of the loop. -/
theorem setParent_reparented {m : Mirror} {v root : Uuid} (hroot : root ∈ m.groups.keys) :
    ∃ m', m.setParent v root (fun r => r) (fun _ => rfl) = .ok m' ∧
      m'.groups.keys = m.groups.keys ∧ m'.entries = m.entries ∧ m'.tombstones = m.tombstones ∧
      m'.conflicts = m.conflicts ∧ m'.settings = m.settings ∧
      Reparented m m' (Function.update m.parentOf v (some root)) := by
  unfold Mirror.setParent
  rw [dif_pos hroot]
  refine ⟨_, rfl, by simp only [Table.keys_modify], rfl, rfl, rfl, rfl, fun u => ?_⟩
  simp only [Table.find?_modify]
  by_cases e : u = v
  · subst e
    simp
  · rw [if_neg e]
    have := reparented_self m u
    simpa [Function.update_of_ne e] using this

open Classical in
/-- The cycle minima among the groups. -/
noncomputable def cycleMins (m : Mirror) : Finset Uuid :=
  m.groups.keys.toFinset.filter fun u => CycleMin m.parentOf u

theorem card_cycleMins_le (m : Mirror) : (cycleMins m).card ≤ m.groups.rows.length := by
  classical
  refine (Finset.card_filter_le _ _).trans ?_
  exact (List.toFinset_card_le _).trans_eq (by rw [Table.keys, List.length_map])

/-- What the loop leaves untouched. -/
structure SameButGroups (m m' : Mirror) : Prop where
  entries : m'.entries = m.entries
  tombstones : m'.tombstones = m.tombstones
  conflicts : m'.conflicts = m.conflicts
  settings : m'.settings = m.settings

theorem SameButGroups.refl (m : Mirror) : SameButGroups m m := ⟨rfl, rfl, rfl, rfl⟩

theorem SameButGroups.trans {a b c : Mirror} (h : SameButGroups a b) (h' : SameButGroups b c) :
    SameButGroups a c :=
  ⟨h'.entries.trans h.entries, h'.tombstones.trans h.tombstones, h'.conflicts.trans h.conflicts,
    h'.settings.trans h.settings⟩

/-- **The loop ends in the canonical break of the parent map it starts from.** -/
theorem breakGroupCycles_spec {ord : HashOrder} {root : Uuid} {fuel : Nat}
    {st : Mirror × IngestPeerOutcome} (n : Nat) (hroot : root ∈ st.1.groups.keys)
    (hnone : st.1.parentOf root = none) (hfuel : (cycleMins st.1).card < fuel) :
    ∃ st', breakGroupCycles ord root fuel n st = .ok st' ∧
      Reparented st.1 st'.1 (canonical st.1.parentOf root) ∧ Acyclic st'.1.parentOf ∧
      SameButGroups st.1 st'.1 := by
  induction fuel generalizing n st with
  | zero => exact absurd hfuel (Nat.not_lt_zero _)
  | succ fuel ih =>
    have hkeys : ∀ x, st.1.parentOf x ≠ none → x ∈ ord.order n st.1.childKeys := fun x hx =>
      (ord.perm n _).mem_iff.2 (mem_childKeys hx)
    unfold breakGroupCycles
    cases hf : findOneCycle st.1.parentOf (ord.order n st.1.childKeys) with
    | none =>
      have hacyc := findOneCycle_none hkeys hf
      refine ⟨st, rfl, ?_, hacyc, .refl _⟩
      rw [canonical_of_acyclic hacyc]
      exact reparented_self st.1
    | some cycle =>
      have hcyc := findOneCycle_some hf
      cases hv : cycle.min? with
      | none => exact absurd hv hcyc.min?_ne_none
      | some v =>
        have hmin : CycleMin st.1.parentOf v := hcyc.cycleMin hv
        obtain ⟨m, hm, hmk, he, ht, hc, hs, hrep⟩ := setParent_reparented (v := v) hroot
        have hvk : v ∈ st.1.groups.keys := by
          cases hp : st.1.parentOf v with
          | none => exact absurd hp (hmin.1.par_ne_none (.refl v))
          | some p => exact (mem_keys_of_parentOf hp).1
        have hpar : m.parentOf = Function.update st.1.parentOf v (some root) := by
          funext u
          by_cases hu : u ∈ st.1.groups.keys
          · exact hrep.parentOf hu
          · have huv : u ≠ v := fun e => hu (e ▸ hvk)
            rw [Function.update_of_ne huv, parentOf_eq_none hu,
              parentOf_eq_none (fun h => hu (hrep.mem_keys.1 h))]
        have hvr : v ≠ root := by
          rintro rfl
          exact hmin.1.par_ne_none (.refl v) hnone
        -- one cycle minimum fewer
        have hcount : (cycleMins m).card < fuel := by
          refine Nat.lt_of_lt_of_le ?_ (Nat.lt_succ_iff.1 hfuel)
          refine Finset.card_lt_card ⟨fun u hu => ?_, fun hsub => ?_⟩
          · simp only [cycleMins, Finset.mem_filter, List.mem_toFinset] at hu ⊢
            rw [hmk, hpar] at hu
            exact ⟨hu.1, ((cycleMin_reroot hnone hmin).1 hu.2).1⟩
          · have hin : v ∈ cycleMins m := hsub (by
              simp only [cycleMins, Finset.mem_filter, List.mem_toFinset]
              exact ⟨hvk, hmin⟩)
            simp only [cycleMins, Finset.mem_filter, List.mem_toFinset] at hin
            rw [hpar] at hin
            exact ((cycleMin_reroot hnone hmin).1 hin.2).2 rfl
        let next : Mirror × IngestPeerOutcome :=
          (m, { st.2 with groupsMoved := st.2.groupsMoved ++ [v] })
        have hroot' : root ∈ next.1.groups.keys := by
          show root ∈ m.groups.keys
          rw [hmk]
          exact hroot
        obtain ⟨st', hst', hrep', hacyc, hsame⟩ := ih (n + 1) hroot'
          (by rw [hpar, Function.update_of_ne hvr.symm, hnone]) hcount
        refine ⟨st', ?_, ?_, hacyc, SameButGroups.trans ⟨he, ht, hc, hs⟩ hsame⟩
        · simp only [hv, hm, bind, Except.bind]
          exact hst'
        · rw [hpar, canonical_reroot hnone hmin] at hrep'
          exact hrep.trans hrep'

/-! ## The canonical break is a tree -/

theorem mem_childKeys_iff {m : Mirror} {u : Uuid} : u ∈ m.childKeys ↔ m.parentOf u ≠ none := by
  constructor
  · intro h
    obtain ⟨g, hg, rfl⟩ := List.mem_map.1 h
    obtain ⟨hg, hsome⟩ := List.mem_filter.1 hg
    obtain ⟨p, hp⟩ := Option.isSome_iff_exists.1 hsome
    rw [parentOf_eq_some.2 ⟨g, hg, rfl, hp⟩]
    exact Option.some_ne_none p
  · exact mem_childKeys

/-- The parents after the loop, of every group: those of the canonical break. -/
theorem parentOf_of_reparented {m m' : Mirror} {root : Uuid}
    (h : Reparented m m' (canonical m.parentOf root)) :
    m'.parentOf = canonical m.parentOf root := by
  funext u
  by_cases hu : u ∈ m.groups.keys
  · exact h.parentOf hu
  · have hnone := parentOf_eq_none hu
    have hmin : ¬ CycleMin m.parentOf u := fun hc => hc.1.par_ne_none (.refl u) hnone
    rw [canonical, if_neg hmin, hnone]
    exact parentOf_eq_none fun h' => hu (h.mem_keys.1 h')

/-- The parent of a cycle minimum is on its cycle, so it is not the root. -/
theorem parentOf_cycleMin_ne {m : Mirror} {root u : Uuid} (hnone : m.parentOf root = none)
    (hu : CycleMin m.parentOf u) : m.parentOf u ≠ some root := fun h =>
  hu.1.par_ne_none (.of_par h) hnone

/-- Where every parent is the root or has a parent itself, an acyclic break leads every group to the
root. -/
theorem canonical_reach {m : Mirror} {root : Uuid} (hnone : m.parentOf root = none)
    (hparents : ∀ u p, m.parentOf u = some p → p = root ∨ m.parentOf p ≠ none)
    (hacyc : Acyclic (canonical m.parentOf root)) {u : Uuid} (hu : m.parentOf u ≠ none) :
    Reach (canonical m.parentOf root) u root := by
  have hsome : ∀ x, m.parentOf x ≠ none → canonical m.parentOf root x ≠ none := by
    intro x hx
    unfold canonical
    split
    · exact Option.some_ne_none root
    · exact hx
  have hroot : canonical m.parentOf root root = none := by
    rw [canonical, if_neg fun h => h.1.par_ne_none (.refl root) hnone, hnone]
  have hrooted : Rooted (canonical m.parentOf root) (· ∈ root :: m.childKeys) root := by
    refine .of_acyclic hacyc (List.mem_cons_self ..) hroot ?_ ?_
    · intro x p _ hp
      rw [List.mem_cons, mem_childKeys_iff]
      unfold canonical at hp
      split at hp
      · exact .inl (Option.some.inj hp).symm
      · exact hparents x p hp
    · intro x hx hn
      rcases List.mem_cons.1 hx with rfl | hx
      · rfl
      · exact absurd hn (hsome x (mem_childKeys_iff.1 hx))
  exact hrooted.reach_root (List.mem_cons_of_mem _ (mem_childKeys_iff.2 hu))

/-- **Cycle breaking is canonical.** The parent map the loop reads lists the groups that have a
parent; a parent exists in it when it is the root or is listed. The loop then returns, whatever the
order the map yields its keys in, and always with the same parents: acyclic, every listed group below
the root, and the smallest member of each cycle, which had another parent, under the root, no other
parent changed. -/
theorem breakGroupCycles_canonical {m : Mirror} {root : Uuid} (hroot : root ∈ m.groups.keys)
    (hnone : m.parentOf root = none)
    (hparents : ∀ u p, m.parentOf u = some p → p = root ∨ m.parentOf p ≠ none) :
    ∃ par : Uuid → Option Uuid, Acyclic par ∧ (∀ u, m.parentOf u ≠ none → Reach par u root) ∧
      (∀ u, CycleMin m.parentOf u → m.parentOf u ≠ some root ∧ par u = some root) ∧
      (∀ u, ¬ CycleMin m.parentOf u → par u = m.parentOf u) ∧
      ∀ (ord : HashOrder) (n : Nat) (out : IngestPeerOutcome), ∃ m' out',
        breakGroupCycles ord root (m.groups.rows.length + 1) n (m, out) = .ok (m', out') ∧
        m'.parentOf = par := by
  have hrun : ∀ (ord : HashOrder) (n : Nat) (out : IngestPeerOutcome), ∃ m' out',
      breakGroupCycles ord root (m.groups.rows.length + 1) n (m, out) = .ok (m', out') ∧
      m'.parentOf = canonical m.parentOf root ∧ Acyclic m'.parentOf := by
    intro ord n out
    obtain ⟨st', h, hrep, hacyc, -⟩ := @breakGroupCycles_spec ord root _ (m, out) n hroot
      hnone (Nat.lt_succ_iff.2 (card_cycleMins_le m))
    exact ⟨st'.1, st'.2, h, parentOf_of_reparented hrep, hacyc⟩
  have hacyc : Acyclic (canonical m.parentOf root) := by
    obtain ⟨m', -, -, hpar, hacyc⟩ := hrun .insertion 0 {}
    rwa [← hpar]
  refine ⟨canonical m.parentOf root, hacyc, fun u => canonical_reach hnone hparents hacyc, ?_, ?_, ?_⟩
  · intro u hu
    exact ⟨parentOf_cycleMin_ne hnone hu, if_pos hu⟩
  · intro u hu
    exact if_neg hu
  · intro ord n out
    obtain ⟨m', out', h, hpar, -⟩ := hrun ord n out
    exact ⟨m', out', h, hpar⟩

/-- Two cycles, `2 → 3 → 2` with `5` hanging off it and `4 → 4`, beside `6` under the root. -/
def knotted : Mirror where
  groups := ⟨[{ uuid := 1, parentUuid := none }, { uuid := 2, parentUuid := some 3 },
    { uuid := 3, parentUuid := some 2 }, { uuid := 4, parentUuid := some 4 },
    { uuid := 5, parentUuid := some 3 }, { uuid := 6, parentUuid := some 1 }], by decide⟩
  fkParent := by decide
  fkGroup := by decide

theorem knotted_canonical :
    ∃ par : Uuid → Option Uuid, Acyclic par ∧ (∀ u, knotted.parentOf u ≠ none → Reach par u 1) ∧
      (∀ u, CycleMin knotted.parentOf u → knotted.parentOf u ≠ some 1 ∧ par u = some 1) ∧
      (∀ u, ¬ CycleMin knotted.parentOf u → par u = knotted.parentOf u) ∧
      ∀ (ord : HashOrder) (n : Nat) (out : IngestPeerOutcome), ∃ m' out',
        breakGroupCycles ord 1 (knotted.groups.rows.length + 1) n (knotted, out) = .ok (m', out') ∧
        m'.parentOf = par := by
  refine breakGroupCycles_canonical (by decide) (by decide) fun u p hp => ?_
  obtain ⟨g, hg, -, hgp⟩ := parentOf_eq_some.1 hp
  have hall : ∀ g ∈ knotted.groups.rows, ∀ p ∈ g.parentUuid, p = 1 ∨ knotted.parentOf p ≠ none := by
    decide
  exact hall g hg p hgp

end KeysCore.Verify
