import Mathlib.Data.List.Induction

/-!
# Since

The past-time operator of a trace: at some position `P` held of the trace so far and the event there,
and every event since satisfies `Q`.
-/

namespace KeysCore.Lib

variable {α : Type*}

/-- `P` held at some event of the trace, and `Q` of every event after it. -/
def Since (P : List α → α → Prop) (Q : α → Prop) (es : List α) : Prop :=
  ∃ before e after, es = before ++ e :: after ∧ P before e ∧ ∀ x ∈ after, Q x

variable {P : List α → α → Prop} {Q : α → Prop}

@[simp] theorem not_since_nil : ¬ Since P Q [] := by
  rintro ⟨before, e, after, h, -⟩
  simp at h

/-- The last event starts the stretch, or prolongs one. -/
theorem since_snoc (es : List α) (e : α) :
    Since P Q (es ++ [e]) ↔ P es e ∨ Since P Q es ∧ Q e := by
  constructor
  · rintro ⟨before, x, after, h, hP, hQ⟩
    induction after using List.reverseRecOn with
    | nil =>
      obtain ⟨rfl, he⟩ := List.append_inj' h rfl
      obtain rfl := List.head_eq_of_cons_eq he
      exact .inl hP
    | append_singleton after y _ =>
      rw [← List.cons_append, ← List.append_assoc] at h
      obtain ⟨rfl, hy⟩ := List.append_inj' h rfl
      obtain rfl := List.head_eq_of_cons_eq hy
      exact .inr ⟨⟨before, x, after, rfl, hP, fun z hz => hQ z (List.mem_append_left _ hz)⟩,
        hQ e (List.mem_append_right _ (List.mem_singleton_self e))⟩
  · rintro (hP | ⟨⟨before, x, after, rfl, hP, hQ⟩, he⟩)
    · exact ⟨es, e, [], rfl, hP, by simp⟩
    · refine ⟨before, x, after ++ [e], by simp, hP, fun y hy => ?_⟩
      rcases List.mem_append.1 hy with hy | hy
      · exact hQ y hy
      · rwa [List.mem_singleton.1 hy]

end KeysCore.Lib
