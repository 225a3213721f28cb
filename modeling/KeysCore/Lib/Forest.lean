import Mathlib.Data.List.Nodup
import Mathlib.Data.List.Perm.Subperm
import Mathlib.Logic.Function.Basic
import Mathlib.Order.Basic
import Mathlib.Order.Lattice

/-!
# Parent maps

A parent map `par : α → Option α` and the walk up from a node (`up`). `Rooted par V r` says that
the nodes `V` form a tree with root `r`: the root is a node without parent, a node's parent is a
node, every node reaches the root. It implies that no node is above itself (`Rooted.no_cycle`) and
that the root is the only node without parent (`Rooted.eq_root`).

The ways a tree is edited each keep it: `Rooted.congr` (no parent changes), `Rooted.setParent` (a
node moves under a node that is not below it), `Rooted.insertLeaf`, `Rooted.restrict` (an upward
closed set of nodes remains, as after deleting a subtree). `Rooted.setParent_iff` is exact: moving
a node under one of its own descendants always breaks the tree.
-/

namespace KeysCore.Lib.Forest

universe u

variable {α : Type u}

/-! ## Walking up -/

/-- The node `k` steps above `x`. -/
def up (par : α → Option α) : Nat → α → Option α
  | 0, x => some x
  | k + 1, x => (par x).bind (up par k)

section Up

variable {par : α → Option α}

@[simp] theorem up_zero (x : α) : up par 0 x = some x := rfl

theorem up_succ (k : Nat) (x : α) : up par (k + 1) x = (par x).bind (up par k) := rfl

theorem up_succ_of_par {k : Nat} {x p : α} (h : par x = some p) :
    up par (k + 1) x = up par k p := by
  rw [up_succ, h, Option.bind_some]

theorem up_add (i j : Nat) (x : α) : up par (i + j) x = (up par i x).bind (up par j) := by
  induction i generalizing x with
  | zero => simp
  | succ i ih =>
    rw [Nat.succ_add, up_succ, up_succ, Option.bind_assoc]
    cases par x with
    | none => rfl
    | some p => exact ih p

theorem up_add_of {i j : Nat} {x y : α} (h : up par i x = some y) :
    up par (i + j) x = up par j y := by
  rw [up_add, h, Option.bind_some]

theorem up_one (x : α) : up par 1 x = par x := by
  rw [up_succ]
  cases par x <;> rfl

/-- The last step of a walk. -/
theorem up_succ_last {k : Nat} {x y : α} (h : up par k x = some y) :
    up par (k + 1) x = par y := by
  rw [up_add_of h, up_one]

/-- A walk that arrives passes through every earlier step. -/
theorem up_prefix {i k : Nat} {x y : α} (h : up par k x = some y) (hi : i ≤ k) :
    ∃ z, up par i x = some z ∧ up par (k - i) z = some y := by
  obtain ⟨d, rfl⟩ := Nat.exists_eq_add_of_le hi
  rw [up_add] at h
  cases hz : up par i x with
  | none => simp [hz] at h
  | some z =>
    rw [hz, Option.bind_some] at h
    exact ⟨z, rfl, by rwa [Nat.add_sub_cancel_left]⟩

/-- A walk only reads the parents of the nodes it leaves. -/
theorem up_congr {par' : α → Option α} {k : Nat} {x y : α} (h : up par k x = some y)
    (hc : ∀ i < k, ∀ z, up par i x = some z → par' z = par z) : up par' k x = some y := by
  induction k generalizing x with
  | zero => simpa using h
  | succ k ih =>
    have hx : par' x = par x := hc 0 (Nat.succ_pos k) x rfl
    cases hp : par x with
    | none => simp [up_succ, hp] at h
    | some p =>
      rw [up_succ_of_par hp] at h
      rw [up_succ_of_par (hx.trans hp)]
      refine ih h fun i hi z hz => hc (i + 1) (Nat.succ_lt_succ hi) z ?_
      rwa [up_succ_of_par hp]

/-- Walks from an upward closed set of nodes only read the parents of that set. -/
theorem up_eq_of_closed {par' : α → Option α} {Q : α → Prop}
    (hclosed : ∀ x p, Q x → par x = some p → Q p) (hp : ∀ x, Q x → par' x = par x)
    (k : Nat) {x : α} (hx : Q x) : up par' k x = up par k x := by
  induction k generalizing x with
  | zero => rfl
  | succ k ih =>
    rw [up_succ, up_succ, hp x hx]
    cases hpx : par x with
    | none => rfl
    | some p => exact ih (hclosed x p hx hpx)

/-- A walk through listed nodes that visits none twice is shorter than the list. -/
theorem up_lt_length_of_distinct {l : List α} {x y : α} {k : Nat} (hk : up par k x = some y)
    (hl : ∀ i z, up par i x = some z → z ∈ l)
    (hdist : ∀ i d z, up par i x = some z → up par (i + d + 1) x ≠ some z) : k < l.length := by
  have hstep : ∀ i, i ≤ k → ∃ z, up par i x = some z := fun i hi =>
    let ⟨z, hz, _⟩ := up_prefix hk hi
    ⟨z, hz⟩
  let path : List α := (List.range (k + 1)).map fun i => (up par i x).getD x
  have hne : ∀ i j, i < j → j ≤ k → (up par i x).getD x ≠ (up par j x).getD x := by
    intro i j hij hj he
    obtain ⟨z, hz⟩ := hstep j hj
    obtain ⟨w, hw, -⟩ := up_prefix hz (Nat.le_of_lt hij)
    rw [hw, hz, Option.getD_some, Option.getD_some] at he
    subst he
    obtain ⟨d, rfl⟩ := Nat.exists_eq_add_of_lt hij
    exact hdist i d w hw hz
  have hnodup : path.Nodup := by
    refine (List.nodup_range).map_on fun i hi j hj hij => ?_
    simp only [List.mem_range, Nat.lt_succ_iff] at hi hj
    rcases Nat.lt_trichotomy i j with hlt | e | hlt
    · exact absurd hij (hne i j hlt hj)
    · exact e
    · exact absurd hij.symm (hne j i hlt hi)
  have hsub : path ⊆ l := by
    intro z hz
    obtain ⟨i, hi, rfl⟩ := List.mem_map.1 hz
    obtain ⟨w, hw⟩ := hstep i (Nat.lt_succ_iff.1 (List.mem_range.1 hi))
    rw [hw, Option.getD_some]
    exact hl i w hw
  have hlen := (hnodup.subperm hsub).length_le
  rw [List.length_map, List.length_range] at hlen
  exact hlen

end Up

/-- `y` is `x` or above it. -/
def Reach (par : α → Option α) (x y : α) : Prop := ∃ k, up par k x = some y

section Reach

variable {par : α → Option α}

theorem Reach.refl (x : α) : Reach par x x := ⟨0, rfl⟩

theorem Reach.trans {x y z : α} (h : Reach par x y) (h' : Reach par y z) : Reach par x z := by
  obtain ⟨i, hi⟩ := h
  obtain ⟨j, hj⟩ := h'
  exact ⟨i + j, by rw [up_add_of hi, hj]⟩

theorem Reach.of_par {x p : α} (h : par x = some p) : Reach par x p := ⟨1, by rw [up_one, h]⟩

theorem Reach.step {x p y : α} (h : par x = some p) (h' : Reach par p y) : Reach par x y :=
  (Reach.of_par h).trans h'

theorem reach_iff_of_closed {par' : α → Option α} {Q : α → Prop}
    (hclosed : ∀ x p, Q x → par x = some p → Q p) (hp : ∀ x, Q x → par' x = par x)
    {x y : α} (hx : Q x) : Reach par' x y ↔ Reach par x y := by
  simp only [Reach, up_eq_of_closed hclosed hp _ hx]

/-- The walk up is a function: what is above `x` is `x` itself or above its parent. -/
theorem reach_iff_parent {x y : α} :
    Reach par x y ↔ x = y ∨ ∃ p, par x = some p ∧ Reach par p y := by
  constructor
  · rintro ⟨k, hk⟩
    cases k with
    | zero => exact .inl (by simpa using hk)
    | succ k =>
      cases hp : par x with
      | none => simp [up_succ, hp] at hk
      | some p => exact .inr ⟨p, rfl, k, by rwa [up_succ_of_par hp] at hk⟩
  · rintro (rfl | ⟨p, hp, h⟩)
    · exact .refl x
    · exact .step hp h

/-- What is below `x` is `x` itself or below one of its children. -/
theorem reach_iff_child {y x : α} :
    Reach par y x ↔ y = x ∨ ∃ c, par c = some x ∧ Reach par y c := by
  constructor
  · rintro ⟨k, hk⟩
    cases k with
    | zero => exact .inl (by simpa using hk)
    | succ k =>
      obtain ⟨c, hc, hs⟩ := up_prefix hk (Nat.le_succ k)
      rw [Nat.add_sub_cancel_left, up_one] at hs
      exact .inr ⟨c, hs, k, hc⟩
  · rintro (rfl | ⟨c, hc, h⟩)
    · exact .refl y
    · exact h.trans (.of_par hc)

/-- Two nodes above one node are comparable. -/
theorem Reach.comparable {x y z : α} (hy : Reach par x y) (hz : Reach par x z) :
    Reach par y z ∨ Reach par z y := by
  obtain ⟨i, hi⟩ := hy
  obtain ⟨j, hj⟩ := hz
  rcases Nat.le_total i j with h | h
  · obtain ⟨w, hw, hs⟩ := up_prefix hj h
    rw [hi, Option.some.injEq] at hw
    exact .inl ⟨_, hw ▸ hs⟩
  · obtain ⟨w, hw, hs⟩ := up_prefix hi h
    rw [hj, Option.some.injEq] at hw
    exact .inr ⟨_, hw ▸ hs⟩

end Reach

/-! ## Trees -/

/-- The nodes `V` form a tree rooted at `r`. -/
structure Rooted (par : α → Option α) (V : α → Prop) (r : α) : Prop where
  root_mem : V r
  root_par : par r = none
  par_mem : ∀ {x p}, V x → par x = some p → V p
  reach_root : ∀ {x}, V x → Reach par x r

namespace Rooted

variable {par : α → Option α} {V : α → Prop} {r : α}

theorem mem_of_reach (h : Rooted par V r) {x y : α} (hx : V x) (hr : Reach par x y) : V y := by
  obtain ⟨k, hk⟩ := hr
  induction k generalizing x with
  | zero => simpa [← (Option.some.inj hk)] using hx
  | succ k ih =>
    cases hp : par x with
    | none => simp [up_succ, hp] at hk
    | some p => exact ih (h.par_mem hx hp) (by rwa [up_succ_of_par hp] at hk)

/-- The root is the only node without parent. -/
theorem eq_root (h : Rooted par V r) {x : α} (hx : V x) (hn : par x = none) : x = r := by
  rcases reach_iff_parent.1 (h.reach_root hx) with e | ⟨p, hp, -⟩
  · exact e
  · simp [hn] at hp

/-- No walk arrives back at its start. -/
theorem no_cycle (h : Rooted par V r) {x : α} (hx : V x) (k : Nat) :
    up par (k + 1) x ≠ some x := by
  intro hc
  obtain ⟨m, hm⟩ := h.reach_root hx
  -- around the cycle `m + 1` times is further than the root is away
  have around : ∀ n, up par (n * (k + 1)) x = some x := by
    intro n
    induction n with
    | zero => simp
    | succ n ih => rw [Nat.succ_mul, up_add_of ih, hc]
  have hle : m + 1 ≤ (m + 1) * (k + 1) := Nat.le_mul_of_pos_right _ (Nat.succ_pos k)
  obtain ⟨z, hz, -⟩ := up_prefix (around (m + 1)) hle
  rw [up_succ_last hm, h.root_par] at hz
  cases hz

theorem not_reach_of_par (h : Rooted par V r) {x p : α} (hx : V x) (hp : par x = some p) :
    ¬ Reach par p x := by
  rintro ⟨k, hk⟩
  exact h.no_cycle hx k (by rw [up_succ_of_par hp, hk])

/-- A node is below at most one of two siblings. -/
theorem sibling_unique (h : Rooted par V r) {x y c d : α} (hx : V x)
    (hc : par c = some x) (hd : par d = some x) (hyc : Reach par y c) (hyd : Reach par y d) :
    c = d := by
  -- one of the two is above the other, so its parent `x` is below it
  rcases hyc.comparable hyd with hcd | hdc
  · rcases reach_iff_parent.1 hcd with e | ⟨p, hp, hpd⟩
    · exact e
    · rw [hc, Option.some.injEq] at hp
      subst hp
      have hVd : V d := h.mem_of_reach hx hpd
      exact absurd hpd (h.not_reach_of_par hVd hd)
  · rcases reach_iff_parent.1 hdc with e | ⟨p, hp, hpc⟩
    · exact e.symm
    · rw [hd, Option.some.injEq] at hp
      subst hp
      have hVc : V c := h.mem_of_reach hx hpc
      exact absurd hpc (h.not_reach_of_par hVc hc)

/-- Walks from one node to another have one length. -/
theorem steps_unique (h : Rooted par V r) {x y : α} (hx : V x) {i j : Nat}
    (hi : up par i x = some y) (hj : up par j x = some y) : i = j := by
  have hle : ∀ {i j : Nat}, up par i x = some y → up par j x = some y → ¬ i < j := by
    intro i j hi hj hlt
    obtain ⟨d, rfl⟩ : ∃ d, j = i + (d + 1) := ⟨j - i - 1, by omega⟩
    rw [up_add_of hi] at hj
    exact h.no_cycle (h.mem_of_reach hx ⟨i, hi⟩) d hj
  have h₁ := hle hi hj
  have h₂ := hle hj hi
  omega

/-- Walks are shorter than the number of nodes. -/
theorem up_lt_length (h : Rooted par V r) {l : List α} (hl : ∀ x, V x → x ∈ l) {x y : α}
    (hx : V x) {k : Nat} (hk : up par k x = some y) : k < l.length := by
  refine up_lt_length_of_distinct hk (fun i z hz => hl z (h.mem_of_reach hx ⟨i, hz⟩)) ?_
  intro i d z hz hd
  have hVz : V z := h.mem_of_reach hx ⟨i, hz⟩
  exact h.no_cycle hVz d (by rw [← up_add_of hz, ← Nat.add_assoc, hd])

/-! ## Edits -/

/-- No node's parent changes. -/
theorem congr (h : Rooted par V r) {par' : α → Option α} {V' : α → Prop}
    (hV : ∀ x, V' x ↔ V x) (hp : ∀ x, V x → par' x = par x) : Rooted par' V' r where
  root_mem := (hV r).2 h.root_mem
  root_par := by rw [hp r h.root_mem, h.root_par]
  par_mem := fun hx hpx => by
    rw [hp _ ((hV _).1 hx)] at hpx
    exact (hV _).2 (h.par_mem ((hV _).1 hx) hpx)
  reach_root := fun hx => by
    have hx := (hV _).1 hx
    obtain ⟨k, hk⟩ := h.reach_root hx
    exact ⟨k, up_congr hk fun i _ z hz => hp z (h.mem_of_reach hx ⟨i, hz⟩)⟩

/-- An upward closed set of nodes with the root remains. -/
theorem restrict (h : Rooted par V r) {par' : α → Option α} {V' : α → Prop}
    (hsub : ∀ x, V' x → V x) (hroot : V' r) (hclosed : ∀ x p, V' x → par x = some p → V' p)
    (hp : ∀ x, V' x → par' x = par x) : Rooted par' V' r := by
  refine ⟨hroot, by rw [hp r hroot, h.root_par], ?_, ?_⟩
  · intro x p hx hpx
    rw [hp x hx] at hpx
    exact hclosed x p hx hpx
  · intro x hx
    obtain ⟨k, hk⟩ := h.reach_root (hsub x hx)
    exact ⟨k, by rw [up_eq_of_closed hclosed hp k hx, hk]⟩

/-- A new node is hung under a node. -/
theorem insertLeaf (h : Rooted par V r) {par' : α → Option α} {V' : α → Prop} {x p : α}
    (hx : ¬ V x) (hpV : V p) (hV : ∀ y, V' y ↔ y = x ∨ V y) (hxp : par' x = some p)
    (hp : ∀ y, V y → par' y = par y) : Rooted par' V' r := by
  have reach_old : ∀ y, V y → Reach par' y r := fun y hy => by
    obtain ⟨k, hk⟩ := h.reach_root hy
    exact ⟨k, up_congr hk fun i _ z hz => hp z (h.mem_of_reach hy ⟨i, hz⟩)⟩
  refine ⟨(hV r).2 (.inr h.root_mem), by rw [hp r h.root_mem, h.root_par], ?_, ?_⟩
  · intro y q hy hq
    rcases (hV y).1 hy with rfl | hy
    · rw [hxp, Option.some.injEq] at hq
      exact (hV q).2 (.inr (hq ▸ hpV))
    · rw [hp y hy] at hq
      exact (hV q).2 (.inr (h.par_mem hy hq))
  · intro y hy
    rcases (hV y).1 hy with rfl | hy
    · exact .step hxp (reach_old p hpV)
    · exact reach_old y hy

section SetParent

variable [DecidableEq α]

/-- A walk that avoids `x` does not notice that `x` moved. -/
theorem reach_setParent_of_not_reach {x y z : α} {p : Option α} (hr : Reach par y z)
    (hx : ¬ Reach par y x) : Reach (Function.update par x p) y z := by
  obtain ⟨k, hk⟩ := hr
  refine ⟨k, up_congr hk fun i _ w hw => ?_⟩
  have hne : w ≠ x := fun e => hx ⟨i, e ▸ hw⟩
  rw [Function.update_of_ne hne]

/-- The part of a walk before it meets `x` does not notice that `x` moved. -/
theorem reach_setParent_self {x y : α} {p : Option α} (hr : Reach par y x) :
    Reach (Function.update par x p) y x := by
  obtain ⟨k, hk⟩ := hr
  induction k generalizing y with
  | zero => exact ⟨0, hk⟩
  | succ k ih =>
    by_cases e : y = x
    · exact e ▸ .refl y
    · cases hp : par y with
      | none => simp [up_succ, hp] at hk
      | some q =>
        refine .step ?_ (ih (y := q) (by rwa [up_succ_of_par hp] at hk))
        rw [Function.update_of_ne e, hp]

/-- A node moves under a node that is not below it. -/
theorem setParent (h : Rooted par V r) {x p : α} (hpV : V p) (hnr : ¬ Reach par p x) :
    Rooted (Function.update par x (some p)) V r := by
  have hpr : Reach (Function.update par x (some p)) p r :=
    reach_setParent_of_not_reach (h.reach_root hpV) hnr
  have hxr : x ≠ r := fun e => hnr (e ▸ h.reach_root hpV)
  refine ⟨h.root_mem, by rw [Function.update_of_ne hxr.symm, h.root_par], ?_, ?_⟩
  · intro y q hy hq
    by_cases e : y = x
    · subst e
      rw [Function.update_self, Option.some.injEq] at hq
      exact hq ▸ hpV
    · rw [Function.update_of_ne e] at hq
      exact h.par_mem hy hq
  · intro y hy
    by_cases hyx : Reach par y x
    · exact (reach_setParent_self hyx).trans (.step (Function.update_self ..) hpr)
    · exact reach_setParent_of_not_reach (h.reach_root hy) hyx

/-- **A move keeps the tree exactly when the new parent is not below the moved node.** -/
theorem setParent_iff (h : Rooted par V r) {x p s : α} (hx : V x) (hpV : V p) :
    Rooted (Function.update par x (some p)) V s ↔ s = r ∧ ¬ Reach par p x := by
  constructor
  · intro h'
    have hnr : ¬ Reach par p x := by
      intro hpx
      exact h'.not_reach_of_par hx (Function.update_self ..) (reach_setParent_self hpx)
    exact ⟨((h.setParent hpV hnr).eq_root h'.root_mem h'.root_par), hnr⟩
  · rintro ⟨rfl, hnr⟩
    exact h.setParent hpV hnr

end SetParent

end Rooted

end KeysCore.Lib.Forest
