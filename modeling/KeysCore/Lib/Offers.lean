import Mathlib.Order.Lattice
import Mathlib.Order.Basic
import Mathlib.Data.List.Basic

/-!
# Offers to a last-writer-wins register

A register holds a value of a linear order and is offered the values of a list of items. A register
that takes every larger value ends with the largest (`best`) whatever the order and however often an
item is offered. One that skips a larger value carrying the label it already has (`offer`) need not:
it then keeps the smaller value, which a value in between can displace. `offers_eq_best_iff` says
exactly when it still ends with the largest under every schedule: no value from the start on carries
the winner's label, other than the winner.
-/

namespace KeysCore.Lib

universe u v w

variable {α : Type u} {β : Type v} {ι : Type w} [LinearOrder α] [DecidableEq β]

/-- The register after one offer: a larger value is taken unless its label is the one held. -/
def offer (label : α → β) (s q : α) : α := if q ≤ s ∨ label s = label q then s else q

/-- The register after an item is offered; an item may have no value. -/
def offerFrom (label : α → β) (val : ι → Option α) (s : α) (i : ι) : α :=
  match val i with
  | none => s
  | some q => offer label s q

/-- The largest of the start value and the items' values. -/
def best (val : ι → Option α) (start : α) (items : List ι) : α :=
  (items.filterMap val).foldl max start

section Best

variable {val : ι → Option α} {start : α} {items : List ι}

theorem foldl_max_spec (l : List α) (s : α) :
    (l.foldl max s = s ∨ l.foldl max s ∈ l) ∧ s ≤ l.foldl max s ∧ ∀ q ∈ l, q ≤ l.foldl max s := by
  induction l generalizing s with
  | nil => simp
  | cons a l ih =>
    obtain ⟨hmem, hle, hall⟩ := ih (max s a)
    rw [List.foldl_cons]
    refine ⟨?_, (le_max_left s a).trans hle, ?_⟩
    · rcases hmem with h | h
      · rw [h]
        rcases le_total a s with e | e
        · exact .inl (max_eq_left e)
        · exact .inr (by rw [max_eq_right e]; simp)
      · exact .inr (List.mem_cons_of_mem _ h)
    · intro q hq
      rcases List.mem_cons.1 hq with rfl | hq
      · exact (le_max_right s q).trans hle
      · exact hall q hq

theorem best_mem : best val start items = start ∨ ∃ i ∈ items, val i = some (best val start items) := by
  rcases (foldl_max_spec (items.filterMap val) start).1 with h | h
  · exact .inl h
  · exact .inr (List.mem_filterMap.1 h)

theorem start_le_best : start ≤ best val start items := (foldl_max_spec _ start).2.1

theorem le_best {i : ι} (hi : i ∈ items) {q : α} (hq : val i = some q) :
    q ≤ best val start items :=
  (foldl_max_spec _ start).2.2 q (List.mem_filterMap.2 ⟨i, hi, hq⟩)

end Best

section Schedule

variable {label : α → β} {val : ι → Option α} {start : α} {items : List ι}

/-- The values the register can hold: the start or an item's value, and never below the start. -/
def Held (val : ι → Option α) (start : α) (items : List ι) (s : α) : Prop :=
  start ≤ s ∧ (s = start ∨ ∃ i ∈ items, val i = some s)

theorem Held.offerFrom {s : α} (hs : Held val start items s) {i : ι} (hi : i ∈ items) :
    Held val start items (offerFrom label val s i) := by
  unfold Lib.offerFrom
  cases hv : val i with
  | none => exact hs
  | some q =>
    simp only [offer]
    split
    · exact hs
    · rename_i h
      exact ⟨hs.1.trans (le_of_not_ge (not_or.1 h).1), .inr ⟨i, hi, hv⟩⟩

/-- No value from the start on carries the winner's label, other than the winner. -/
def WinnerOnly (label : α → β) (val : ι → Option α) (start : α) (items : List ι) : Prop :=
  ∀ s, Held val start items s → label s = label (best val start items) → s = best val start items

theorem offers_eq_best (h : WinnerOnly label val start items) {σ : List ι}
    (hσ : ∀ i ∈ σ, i ∈ items) {s : α} (hs : Held val start items s)
    (hwin : s = best val start items ∨ ∃ i ∈ σ, val i = some (best val start items)) :
    σ.foldl (offerFrom label val) s = best val start items := by
  induction σ generalizing s with
  | nil =>
    rcases hwin with e | ⟨i, hi, -⟩
    · exact e
    · cases hi
  | cons i σ ih =>
    rw [List.foldl_cons]
    refine ih (fun j hj => hσ j (List.mem_cons_of_mem _ hj)) (hs.offerFrom (hσ i (by simp))) ?_
    by_cases hi : val i = some (best val start items)
    · -- the winner is offered: taken, unless it is held already
      left
      rw [Lib.offerFrom, hi]
      simp only [offer]
      split
      · rename_i hskip
        rcases hskip with hle | hlab
        · refine le_antisymm ?_ hle
          rcases hs.2 with rfl | ⟨j, hj, hv⟩
          · exact start_le_best
          · exact le_best hj hv
        · exact h s hs hlab
      · rfl
    · rcases hwin with rfl | ⟨j, hj, hv⟩
      · left
        unfold Lib.offerFrom
        cases hv : val i with
        | none => rfl
        | some q =>
          simp only [offer]
          rw [if_pos (.inl (le_best (hσ i (by simp)) hv))]
      · rcases List.mem_cons.1 hj with rfl | hj
        · exact absurd hv hi
        · exact .inr ⟨j, hj, hv⟩

/-- A schedule without the winner does not end with it. -/
theorem offers_ne_of_absent {x : α} {σ : List ι} (hσ : ∀ i ∈ σ, val i ≠ some x) {s : α}
    (hs : s ≠ x) : σ.foldl (offerFrom label val) s ≠ x := by
  induction σ generalizing s with
  | nil => exact hs
  | cons i σ ih =>
    rw [List.foldl_cons]
    refine ih (fun j hj => hσ j (List.mem_cons_of_mem _ hj)) ?_
    unfold Lib.offerFrom
    cases hv : val i with
    | none => exact hs
    | some q =>
      simp only [offer]
      split
      · exact hs
      · rintro rfl
        exact hσ i (by simp) hv

/-- Offers of a value whose label is held are skipped. -/
theorem offers_skip {x s : α} (hlab : label s = label x) {σ : List ι} (hσ : ∀ i ∈ σ, val i = some x) :
    σ.foldl (offerFrom label val) s = s := by
  induction σ with
  | nil => rfl
  | cons i σ ih =>
    have hstep : Lib.offerFrom label val s i = s := by
      rw [Lib.offerFrom, hσ i (by simp)]
      simp only [offer]
      rw [if_pos (.inr hlab)]
    rw [List.foldl_cons, hstep]
    exact ih fun j hj => hσ j (List.mem_cons_of_mem _ hj)

/-- **Every schedule ends with the largest value exactly when no other value from the start on
carries its label.** -/
theorem offers_eq_best_iff :
    (∀ σ : List ι, (∀ i, i ∈ σ ↔ i ∈ items) →
        σ.foldl (offerFrom label val) start = best val start items) ↔
      WinnerOnly label val start items := by
  classical
  constructor
  · intro h
    by_contra hno
    unfold WinnerOnly at hno
    push Not at hno
    obtain ⟨q, hq, hlab, hne⟩ := hno
    -- offer first what makes the register hold `q`'s label, then the winner, then all the rest
    obtain ⟨pre, s, hpre, hs, hslab, hsne⟩ : ∃ (pre : List ι) (s : α), (∀ i ∈ pre, i ∈ items) ∧
        pre.foldl (offerFrom label val) start = s ∧ label s = label (best val start items) ∧
        s ≠ best val start items := by
      by_cases hstart : label start = label (best val start items)
      · refine ⟨[], start, by simp, rfl, hstart, fun e => hne ?_⟩
        refine le_antisymm ?_ (e ▸ hq.1)
        rcases hq.2 with rfl | ⟨i, hi, hv⟩
        · exact start_le_best
        · exact le_best hi hv
      · rcases hq.2 with rfl | ⟨i, hi, hv⟩
        · exact absurd hlab hstart
        · refine ⟨[i], q, by simpa using hi, ?_, hlab, hne⟩
          rw [List.foldl_cons, List.foldl_nil, Lib.offerFrom, hv]
          simp only [offer]
          rw [if_neg]
          rintro (hle | hl)
          · exact hstart (le_antisymm hle hq.1 ▸ hlab)
          · exact hstart (hl.trans hlab)
    let winners := items.filter fun i => val i = some (best val start items)
    let others := items.filter fun i => val i ≠ some (best val start items)
    have hsched : ∀ i, i ∈ pre ++ (winners ++ others) ↔ i ∈ items := by
      intro i
      simp only [winners, others, List.mem_append, List.mem_filter, decide_eq_true_eq]
      constructor
      · rintro (hi | hi | hi)
        · exact hpre i hi
        · exact hi.1
        · exact hi.1
      · intro hi
        by_cases hv : val i = some (best val start items)
        · exact .inr (.inl ⟨hi, hv⟩)
        · exact .inr (.inr ⟨hi, hv⟩)
    have hend := h _ hsched
    rw [List.foldl_append, List.foldl_append, hs,
      offers_skip hslab fun i hi => by simpa using (List.mem_filter.1 hi).2] at hend
    exact offers_ne_of_absent (fun i hi => by simpa using (List.mem_filter.1 hi).2) hsne hend
  · intro h σ hσ
    refine offers_eq_best h (fun i hi => (hσ i).1 hi) ⟨le_refl _, .inl rfl⟩ ?_
    have hbest : best val start items = start ∨ ∃ i ∈ items, val i = some (best val start items) :=
      best_mem
    rcases hbest with e | ⟨i, hi, hv⟩
    · exact .inl e.symm
    · exact .inr ⟨i, (hσ i).2 hi, hv⟩

end Schedule

end KeysCore.Lib
