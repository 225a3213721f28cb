import Mathlib.Data.Set.Basic
import Mathlib.Order.Basic

/-!
# A copy kept up by notices

A state is read key by key. Someone keeps a copy of the readings and is told at each step which keys to
read again. What the copy can have wrong are the keys that changed without notice since they were last
told (`missed`). Where a change without notice is a growth, it has every one of them wrong
(`copy_eq_iff`).
-/

namespace KeysCore.Lib.Notices

variable {S K V : Type*}

/-- A step: the keys told, and the state left. -/
structure Step (S K : Type*) where
  told : K → Bool
  state : S

section Copy

variable (read : S → K → V)

/-- The keys told are read again. -/
def refresh (copy : K → V) (t : Step S K) : K → V :=
  fun k => if t.told k then read t.state k else copy k

/-- The copy after a run. -/
def copyAfter (copy : K → V) (run : List (Step S K)) : K → V := run.foldl (refresh read) copy

/-- The keys that changed without notice since they were last told. -/
def missed : S → Set K → List (Step S K) → Set K
  | _, D, [] => D
  | s, D, t :: run =>
    missed t.state {k | t.told k = false ∧ (k ∈ D ∨ read t.state k ≠ read s k)} run

/-- The state after a run. -/
def stateAfter (s : S) (run : List (Step S K)) : S := run.foldl (fun _ t => t.state) s

/-- Every change without notice along the run makes the reading of its key larger. -/
def Grows (size : V → Nat) : S → List (Step S K) → Prop
  | _, [] => True
  | s, t :: run =>
    (∀ k, t.told k = false → read t.state k ≠ read s k → size (read s k) < size (read t.state k)) ∧
      Grows size t.state run

end Copy

variable {read : S → K → V} {size : V → Nat}

theorem copy_eq_iff' {s : S} {D : Set K} {copy : K → V} {run : List (Step S K)}
    (hgrows : Grows read size s run) (hfresh : ∀ k, k ∉ D → copy k = read s k)
    (hstale : ∀ k ∈ D, size (copy k) < size (read s k)) (k : K) :
    copyAfter read copy run k = read (stateAfter s run) k ↔ k ∉ missed read s D run := by
  induction run generalizing s D copy with
  | nil =>
    refine ⟨fun h hk => ?_, hfresh k⟩
    have hlt := hstale k hk
    rw [show copy k = read s k from h] at hlt
    omega
  | cons t run ih =>
    obtain ⟨hstep, hrun⟩ := hgrows
    refine ih hrun (fun k hk => ?_) fun k hk => ?_
    · unfold refresh
      split
      · rfl
      · rename_i htold
        rw [Bool.not_eq_true] at htold
        have hkeep : ¬ (k ∈ D ∨ read t.state k ≠ read s k) := fun hor => hk ⟨htold, hor⟩
        rw [not_or, not_not] at hkeep
        exact (hfresh k hkeep.1).trans hkeep.2.symm
    · obtain ⟨htold, hor⟩ : t.told k = false ∧ (k ∈ D ∨ read t.state k ≠ read s k) := hk
      have hcopy : refresh read copy t k = copy k := if_neg (by simp [htold])
      show size (refresh read copy t k) < size (read t.state k)
      rw [hcopy]
      by_cases hsame : read t.state k = read s k
      · rw [hsame]
        exact hstale k (hor.resolve_right (not_not_intro hsame))
      · have hlt := hstep k htold hsame
        by_cases hD : k ∈ D
        · have hold := hstale k hD
          omega
        · rwa [hfresh k hD]

/-- **The copy is wrong exactly at the keys that were missed.** -/
theorem copy_eq_iff {s : S} {run : List (Step S K)} (hgrows : Grows read size s run) (k : K) :
    copyAfter read (read s) run k = read (stateAfter s run) k ↔ k ∉ missed read s ∅ run :=
  copy_eq_iff' hgrows (fun _ _ => rfl) (fun _ h => h.elim) k

end KeysCore.Lib.Notices
