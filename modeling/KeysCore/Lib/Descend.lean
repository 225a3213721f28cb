import Mathlib.Data.List.Forall2

/-!
# Nodes of a tree by their paths

A tree is given by the children of a node, in their order; `descend` is the node at a path of places. Two
trees whose children correspond place by place have corresponding nodes at each path (`descend_rel`).
-/

namespace KeysCore.Lib

variable {α β : Type}

/-- The node at a path. -/
def descend (children : α → List α) : List Nat → α → Option α
  | [], a => some a
  | i :: path, a => (children a)[i]?.bind (descend children path)

theorem forall₂_getElem? {R : α → β → Prop} {l : List α} {l' : List β} (h : List.Forall₂ R l l') {i : Nat}
    {b : β} (hb : l'[i]? = some b) : ∃ a, l[i]? = some a ∧ R a b := by
  induction h generalizing i with
  | nil => simp at hb
  | @cons a b' l l' hab _ ih =>
    cases i with
    | zero =>
      obtain rfl : b' = b := by simpa using hb
      exact ⟨a, rfl, hab⟩
    | succ i =>
      rw [List.getElem?_cons_succ] at hb
      obtain ⟨a, ha, h⟩ := ih hb
      exact ⟨a, by rw [List.getElem?_cons_succ, ha], h⟩

/-- Corresponding nodes at each path. -/
theorem descend_rel {R : α → β → Prop} {f : α → List α} {g : β → List β}
    (hR : ∀ a b, R a b → List.Forall₂ R (f a) (g b)) {path : List Nat} {a : α} {b y : β} (h : R a b)
    (hy : descend g path b = some y) : ∃ x, descend f path a = some x ∧ R x y := by
  induction path generalizing a b with
  | nil =>
    obtain rfl : b = y := by simpa [descend] using hy
    exact ⟨a, rfl, h⟩
  | cons i path ih =>
    obtain ⟨d, hd, hy⟩ := Option.bind_eq_some_iff.1 hy
    obtain ⟨c, hc, hcd⟩ := forall₂_getElem? (hR a b h) hd
    obtain ⟨x, hx, hxy⟩ := ih hcd hy
    exact ⟨x, by rw [descend, hc, Option.bind_some, hx], hxy⟩

/-- What holds at every path holds at the root and at every path from a child. -/
theorem forall_descend_iff {children : α → List α} {P : α → Prop} {a : α} :
    (∀ path x, descend children path a = some x → P x) ↔
      P a ∧ ∀ c ∈ children a, ∀ path x, descend children path c = some x → P x := by
  constructor
  · intro h
    refine ⟨h [] a rfl, fun c hc path x hx => ?_⟩
    obtain ⟨i, hi⟩ := List.getElem?_of_mem hc
    exact h (i :: path) x (by rw [descend, hi, Option.bind_some, hx])
  · intro h path x hx
    cases path with
    | nil =>
      obtain rfl : a = x := by simpa [descend] using hx
      exact h.1
    | cons i path =>
      obtain ⟨c, hc, hx⟩ := Option.bind_eq_some_iff.1 hx
      exact h.2 c (List.mem_of_getElem? hc) path x hx

end KeysCore.Lib
