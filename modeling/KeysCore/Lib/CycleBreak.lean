import Mathlib.Order.Basic
import KeysCore.Lib.Forest

/-!
# Breaking the cycles of a parent map

A parent map over a linear order in which several nodes may lie on cycles. Re-rooting, one after
the other, the smallest member of some cycle always ends in the same map, `canonical par r`, in
whatever order the cycles are taken: a step removes one `CycleMin` and changes no other
(`cycleMin_reroot`), so it leaves `canonical` where it was (`canonical_reroot`), and where no cycle is
left `canonical` is the map itself (`canonical_of_acyclic`).

`Rooted.of_acyclic`: an acyclic map on finitely many nodes, of which only `r` has no parent, is a
tree. `not_acyclic_of_parented`: finitely many nodes that all have a parent hold a cycle.
-/

namespace KeysCore.Lib.Forest

universe u

variable {α : Type u}

/-- A walk from `x` comes back to `x`. -/
def OnCycle (par : α → Option α) (x : α) : Prop := ∃ k, up par (k + 1) x = some x

/-- No walk comes back to its start. -/
def Acyclic (par : α → Option α) : Prop := ∀ x, ¬ OnCycle par x

section Cycles

variable {par : α → Option α}

theorem OnCycle.up_mul {x : α} {k : Nat} (h : up par (k + 1) x = some x) (n : Nat) :
    up par (n * (k + 1)) x = some x := by
  induction n with
  | zero => simp
  | succ n ih => rw [Nat.succ_mul, up_add_of ih, h]

/-- A walk from a node on a cycle never ends. -/
theorem OnCycle.par_ne_none {x y : α} (h : OnCycle par x) (hr : Reach par x y) : par y ≠ none := by
  obtain ⟨k, hk⟩ := h
  obtain ⟨i, hi⟩ := hr
  intro hn
  have hle : i + 1 ≤ (i + 1) * (k + 1) := Nat.le_mul_of_pos_right _ (Nat.succ_pos k)
  obtain ⟨z, hz, -⟩ := up_prefix (OnCycle.up_mul hk (i + 1)) hle
  rw [up_succ_last hi, hn] at hz
  cases hz

/-- What a node on a cycle reaches, reaches it back. -/
theorem OnCycle.reach_symm {x y : α} (h : OnCycle par x) (hr : Reach par x y) : Reach par y x := by
  obtain ⟨k, hk⟩ := h
  obtain ⟨i, hi⟩ := hr
  have hle : i ≤ (i + 1) * (k + 1) :=
    Nat.le_trans (Nat.le_succ i) (Nat.le_mul_of_pos_right _ (Nat.succ_pos k))
  obtain ⟨z, hz, hback⟩ := up_prefix (OnCycle.up_mul hk (i + 1)) hle
  rw [hi, Option.some.injEq] at hz
  exact ⟨_, hz ▸ hback⟩

theorem onCycle_iff {x : α} : OnCycle par x ↔ ∃ p, par x = some p ∧ Reach par p x := by
  constructor
  · rintro ⟨k, hk⟩
    cases hp : par x with
    | none => simp [up_succ, hp] at hk
    | some p => exact ⟨p, rfl, k, by rwa [up_succ_of_par hp] at hk⟩
  · rintro ⟨p, hp, k, hk⟩
    exact ⟨k, by rw [up_succ_of_par hp, hk]⟩

theorem OnCycle.of_reach {x y : α} (h : OnCycle par x) (hr : Reach par x y) : OnCycle par y := by
  have hback := h.reach_symm hr
  obtain ⟨p, hp, hpx⟩ := onCycle_iff.1 h
  rcases reach_iff_parent.1 hback with rfl | ⟨q, hq, hqx⟩
  · exact h
  · exact onCycle_iff.2 ⟨q, hq, hqx.trans hr⟩

end Cycles

/-! ## The canonical break -/

section Canonical

variable [LinearOrder α]

/-- The smallest member of its cycle. -/
def CycleMin (par : α → Option α) (x : α) : Prop := OnCycle par x ∧ ∀ y, Reach par x y → x ≤ y

open Classical in
/-- Every cycle is cut above its smallest member, which goes under `r`. -/
noncomputable def canonical (par : α → Option α) (r : α) (x : α) : Option α :=
  if CycleMin par x then some r else par x

variable {par : α → Option α} {r x : α}

theorem canonical_of_acyclic (h : Acyclic par) : canonical par r = par := by
  funext y
  rw [canonical, if_neg]
  exact fun hy => h y hy.1

/-- Two cycle minima that reach one another are equal. -/
theorem CycleMin.unique {y : α} (hx : CycleMin par x) (hy : CycleMin par y) (h : Reach par x y) :
    x = y :=
  le_antisymm (hx.2 y h) (hy.2 x (hx.1.reach_symm h))

/-- A walk that avoids `x` is a walk of both maps. -/
theorem reach_reroot_iff {y z : α} (hy : ¬ Reach par y x) :
    Reach (Function.update par x (some r)) y z ↔ Reach par y z := by
  refine reach_iff_of_closed (Q := fun w => ¬ Reach par w x) ?_ ?_ hy
  · intro w p hw hp hpx
    exact hw (.step hp hpx)
  · intro w hw
    rw [Function.update_of_ne]
    rintro rfl
    exact hw (.refl w)

section Reroot

variable (hroot : par r = none) (hx : CycleMin par x)

include hroot hx

/-- After re-rooting `x`, no cycle reaches `x`. -/
theorem not_reach_of_onCycle_reroot {y : α} (hy : OnCycle (Function.update par x (some r)) y) :
    ¬ Reach (Function.update par x (some r)) y x := by
  intro hr
  have hxr : x ≠ r := fun e => hx.1.par_ne_none (.refl x) (e ▸ hroot)
  have hyr : Reach (Function.update par x (some r)) y r :=
    hr.trans (.of_par (Function.update_self ..))
  refine hy.par_ne_none hyr ?_
  rw [Function.update_of_ne hxr.symm, hroot]

theorem onCycle_reroot_iff {y : α} :
    OnCycle (Function.update par x (some r)) y ↔ OnCycle par y ∧ ¬ Reach par y x := by
  constructor
  · intro hy
    have hnot := not_reach_of_onCycle_reroot hroot hx hy
    have hnot' : ¬ Reach par y x := fun h => hnot (Rooted.reach_setParent_self h)
    refine ⟨?_, hnot'⟩
    obtain ⟨p, hp, hpy⟩ := onCycle_iff.1 hy
    have hyx : y ≠ x := fun e => hnot' (e ▸ .refl y)
    rw [Function.update_of_ne hyx] at hp
    have hpx : ¬ Reach par p x := fun h => hnot' (.step hp h)
    exact onCycle_iff.2 ⟨p, hp, (reach_reroot_iff hpx).1 hpy⟩
  · rintro ⟨hy, hnot⟩
    obtain ⟨p, hp, hpy⟩ := onCycle_iff.1 hy
    have hyx : y ≠ x := fun e => hnot (e ▸ .refl y)
    have hpx : ¬ Reach par p x := fun h => hnot (.step hp h)
    refine onCycle_iff.2 ⟨p, ?_, (reach_reroot_iff hpx).2 hpy⟩
    rw [Function.update_of_ne hyx, hp]

/-- Re-rooting a cycle minimum removes that minimum and no other. -/
theorem cycleMin_reroot {y : α} :
    CycleMin (Function.update par x (some r)) y ↔ CycleMin par y ∧ y ≠ x := by
  constructor
  · rintro ⟨hcyc, hmin⟩
    obtain ⟨hy, hnot⟩ := (onCycle_reroot_iff hroot hx).1 hcyc
    refine ⟨⟨hy, fun z hz => hmin z ((reach_reroot_iff hnot).2 hz)⟩, ?_⟩
    rintro rfl
    exact hnot (.refl y)
  · rintro ⟨hy, hne⟩
    have hnot : ¬ Reach par y x := fun h => hne (hy.unique hx h)
    exact ⟨(onCycle_reroot_iff hroot hx).2 ⟨hy.1, hnot⟩,
      fun z hz => hy.2 z ((reach_reroot_iff hnot).1 hz)⟩

/-- **Re-rooting a cycle minimum does not change the canonical break.** -/
theorem canonical_reroot : canonical (Function.update par x (some r)) r = canonical par r := by
  funext y
  unfold canonical
  by_cases hy : y = x
  · subst hy
    rw [if_neg (fun h => ((cycleMin_reroot hroot hx).1 h).2 rfl), if_pos hx, Function.update_self]
  · by_cases hmin : CycleMin par y
    · rw [if_pos ((cycleMin_reroot hroot hx).2 ⟨hmin, hy⟩), if_pos hmin]
    · rw [if_neg (fun h => hmin ((cycleMin_reroot hroot hx).1 h).1), if_neg hmin,
        Function.update_of_ne hy]

end Reroot

end Canonical

/-! ## Acyclic maps are trees -/

/-- Without a cycle, a walk through listed nodes ends. -/
theorem Acyclic.walk_ends {par : α → Option α} {l : List α} (hacyc : Acyclic par)
    (hpar : ∀ x p, x ∈ l → par x = some p → p ∈ l) {x : α} (hx : x ∈ l) :
    ∃ k, ∃ y ∈ l, up par k x = some y ∧ par y = none := by
  have hmem : ∀ k y, up par k x = some y → y ∈ l := by
    intro k
    induction k with
    | zero => intro y hy; simpa [← (Option.some.inj hy)] using hx
    | succ k ih =>
      intro y hy
      obtain ⟨z, hz, hs⟩ := up_prefix hy (Nat.le_succ k)
      rw [Nat.add_sub_cancel_left, up_one] at hs
      exact hpar z y (ih z hz) hs
  -- a walk as long as the list would repeat a node
  by_contra hno
  have hsome : ∀ k, ∃ y, up par k x = some y := by
    intro k
    induction k with
    | zero => exact ⟨x, rfl⟩
    | succ k ih =>
      obtain ⟨y, hy⟩ := ih
      cases hp : par y with
      | none => exact absurd ⟨k, y, hmem k y hy, hy, hp⟩ hno
      | some p => exact ⟨p, by rw [up_succ_last hy, hp]⟩
  obtain ⟨y, hy⟩ := hsome l.length
  refine Nat.lt_irrefl _ (up_lt_length_of_distinct hy hmem fun i d z hz hd => hacyc z ⟨d, ?_⟩)
  rw [← up_add_of hz, ← Nat.add_assoc, hd]

/-- Finitely many nodes, no cycle, and only `r` without parent: a tree. -/
theorem Rooted.of_acyclic {par : α → Option α} {l : List α} {r : α} (hacyc : Acyclic par)
    (hr : r ∈ l) (hroot : par r = none) (hpar : ∀ x p, x ∈ l → par x = some p → p ∈ l)
    (honly : ∀ x ∈ l, par x = none → x = r) : Rooted par (· ∈ l) r := by
  refine ⟨hr, hroot, fun hx hp => hpar _ _ hx hp, fun {x} hx => ?_⟩
  obtain ⟨k, y, hy, hk, hn⟩ := hacyc.walk_ends hpar hx
  exact ⟨k, honly y hy hn ▸ hk⟩

/-- Finitely many nodes each with a parent among them are not without a cycle. -/
theorem not_acyclic_of_parented {par : α → Option α} {l : List α} {x : α} (hx : x ∈ l)
    (hpar : ∀ y ∈ l, ∃ p ∈ l, par y = some p) : ¬ Acyclic par := by
  intro hacyc
  have hclosed : ∀ z p, z ∈ l → par z = some p → p ∈ l := by
    intro z p hz hp
    obtain ⟨q, hq, hzq⟩ := hpar z hz
    rw [hp, Option.some.injEq] at hzq
    exact hzq ▸ hq
  obtain ⟨k, y, hy, -, hn⟩ := hacyc.walk_ends hclosed hx
  obtain ⟨p, -, hp⟩ := hpar y hy
  rw [hn] at hp
  cases hp

theorem Rooted.acyclic {par : α → Option α} {V : α → Prop} {r : α} (h : Rooted par V r)
    (hV : ∀ x p, par x = some p → V x) : Acyclic par := by
  rintro x ⟨k, hk⟩
  cases hp : par x with
  | none => simp [up_succ, hp] at hk
  | some p => exact h.no_cycle (hV x p hp) k hk

end KeysCore.Lib.Forest
