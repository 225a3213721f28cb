import Mathlib.Data.List.Basic
import Mathlib.Data.List.Infix

/-!
# Greedy selection

A walk over a list that takes an element whenever the state `s` lets it, `take s a = some s'`, and passes
over it otherwise. What is passed over leaves the state alone, so an element behind it may be taken
again, and what is taken need not be a prefix of the list. `taken_isPrefix_iff`: it is one exactly when
the elements behind the first one passed over are all refused in the state it was refused in.
-/

namespace KeysCore.Lib.Greedy

variable {α σ : Type} (take : σ → α → Option σ)

/-- The elements of the walk, each with whether it is taken. -/
def marks : σ → List α → List (α × Bool)
  | _, [] => []
  | s, a :: l =>
    match take s a with
    | some s' => (a, true) :: marks s' l
    | none => (a, false) :: marks s l

def taken (s : σ) (l : List α) : List α := ((marks take s l).filter (·.2)).map (·.1)

variable {take}

section Cons

variable {s s' : σ} {a : α} {l : List α}

theorem marks_cons_some (h : take s a = some s') :
    marks take s (a :: l) = (a, true) :: marks take s' l := by simp [marks, h]

theorem marks_cons_none (h : take s a = none) :
    marks take s (a :: l) = (a, false) :: marks take s l := by simp [marks, h]

theorem taken_cons_some (h : take s a = some s') : taken take s (a :: l) = a :: taken take s' l := by
  simp [taken, marks_cons_some h]

theorem taken_cons_none (h : take s a = none) : taken take s (a :: l) = taken take s l := by
  simp [taken, marks_cons_none h]

end Cons

/-- Every element is marked, in order. -/
@[simp] theorem marks_fst (s : σ) (l : List α) : (marks take s l).map Prod.fst = l := by
  induction l generalizing s with
  | nil => rfl
  | cons a l ih =>
    cases h : take s a with
    | none => simp [marks_cons_none h, ih]
    | some s' => simp [marks_cons_some h, ih]

/-- The first element taken is one the initial state takes. -/
theorem take_of_taken_head {s : σ} {l : List α} {a : α} {rest : List α}
    (h : taken take s l = a :: rest) : (take s a).isSome = true := by
  induction l with
  | nil => simp [taken, marks] at h
  | cons b l ih =>
    cases hb : take s b with
    | none =>
      rw [taken_cons_none hb] at h
      exact ih h
    | some s' =>
      rw [taken_cons_some hb, List.cons.injEq] at h
      simp [← h.1, hb]

/-- Nothing is taken exactly when every element is refused at once. -/
theorem taken_eq_nil_iff {s : σ} {l : List α} :
    taken take s l = [] ↔ ∀ a ∈ l, take s a = none := by
  induction l with
  | nil => simp [taken, marks]
  | cons a l ih =>
    cases h : take s a with
    | none => simp [taken_cons_none h, ih, h]
    | some s' => simp [taken_cons_some h, h]

/-- A run of elements taken one after the other, and the rest refused. -/
theorem marks_append {s s' : σ} {l r : List α} (hl : l.foldlM take s = some s')
    (hr : ∀ a ∈ r, take s' a = none) :
    marks take s (l ++ r) = l.map (·, true) ++ r.map (·, false) := by
  induction l generalizing s with
  | nil =>
    obtain rfl := Option.some.inj hl
    induction r with
    | nil => rfl
    | cons a r ih =>
      simp only [List.nil_append, List.map_nil, List.map_cons] at ih ⊢
      rw [marks_cons_none (hr a (by simp)), ih fun b hb => hr b (List.mem_cons_of_mem _ hb)]
  | cons a l ih =>
    rw [List.foldlM_cons] at hl
    obtain ⟨mid, hmid, hl⟩ := Option.bind_eq_some_iff.1 hl
    rw [List.cons_append, marks_cons_some hmid, ih hl]
    rfl

theorem taken_append {s s' : σ} {l r : List α} (hl : l.foldlM take s = some s')
    (hr : ∀ a ∈ r, take s' a = none) : taken take s (l ++ r) = l := by
  simp [taken, marks_append hl hr, List.filter_map, Function.comp_def]

/-- **The elements taken are a prefix exactly when the walk takes until it refuses, and refuses from
there on.** -/
theorem taken_isPrefix_iff {s : σ} {l : List α} : taken take s l <+: l ↔
    ∃ p r s', l = p ++ r ∧ p.foldlM take s = some s' ∧ ∀ a ∈ r, take s' a = none := by
  constructor
  · intro h
    induction l generalizing s with
    | nil => exact ⟨[], [], s, rfl, rfl, by simp⟩
    | cons a l ih =>
      cases ha : take s a with
      | some s' =>
        rw [taken_cons_some ha, List.cons_prefix_cons] at h
        obtain ⟨p, r, t, rfl, hp, hr⟩ := ih h.2
        exact ⟨a :: p, r, t, rfl, by simp [List.foldlM_cons, ha, hp], hr⟩
      | none =>
        -- were anything taken, the first of it would be `a`
        have hnil : taken take s l = [] := by
          cases ht : taken take s l with
          | nil => rfl
          | cons b rest =>
            rw [taken_cons_none ha, ht, List.cons_prefix_cons] at h
            have hb := take_of_taken_head ht
            simp [h.1, ha] at hb
        refine ⟨[], a :: l, s, rfl, rfl, ?_⟩
        exact List.forall_mem_cons.2 ⟨ha, taken_eq_nil_iff.1 hnil⟩
  · rintro ⟨p, r, s', rfl, hp, hr⟩
    rw [taken_append hp hr]
    exact List.prefix_append p r

end KeysCore.Lib.Greedy
