import KeysCore.Lib.Except

/-!
# Runs of a step that may fail

A run is a sequence of steps that returned, each meeting a condition on the state before it.
`Run.invariant` is the induction over it.
-/

namespace KeysCore.Lib

variable {ε σ α : Type}

/-- `t` is reached from `s` by steps that return and meet `C`. -/
inductive Run (step : σ → α → Except ε σ) (C : σ → α → Prop) (s : σ) : σ → Prop where
  | refl : Run step C s s
  | snoc {t t' : σ} {a : α} : Run step C s t → C t a → step t a = .ok t' → Run step C s t'

namespace Run

variable {step : σ → α → Except ε σ} {C : σ → α → Prop} {s t : σ}

/-- What holds at the start and is kept by every step that meets `C` holds along the run. -/
theorem invariant {I : σ → Prop} (hrun : Run step C s t) (hinit : I s)
    (hstep : ∀ t a t', I t → C t a → step t a = .ok t' → I t') : I t := by
  induction hrun with
  | refl => exact hinit
  | snoc _ hC hok ih => exact hstep _ _ _ ih hC hok

/-- The steps of a list, one after the other. -/
theorem of_foldlM {as : List α} (h : as.foldlM step s = .ok t) : Run step (fun _ _ => True) s t := by
  have hfrom : ∀ (as : List α) (s' : σ), Run step (fun _ _ => True) s s' →
      as.foldlM step s' = .ok t → Run step (fun _ _ => True) s t := by
    intro as
    induction as with
    | nil =>
      intro s' hrun h
      obtain rfl := Except.ok.inj h
      exact hrun
    | cons a as ih =>
      intro s' hrun h
      rw [List.foldlM_cons] at h
      obtain ⟨mid, hmid, h⟩ := except_bind_ok.1 h
      exact ih mid (.snoc hrun trivial hmid) h
  exact hfrom as s .refl h

end Run

end KeysCore.Lib
