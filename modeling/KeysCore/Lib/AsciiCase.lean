import Mathlib

/-!
# The case of ASCII letters

Facts about texts whose ASCII letters are folded to lowercase. A character that is no letter is only
folded from itself (`toLower_eq_iff`), so a text without letters has one spelling
(`map_toLower_eq_iff`). The facts about a single letter are the library's, which come with the whole of
it only.
-/

namespace KeysCore.Lib

theorem not_isUpper_of_not_isAlpha {c : Char} (h : ¬ c.isAlpha) : ¬ c.isUpper := by
  intro hupper
  exact h (by simp [Char.isAlpha, hupper])

/-- Only the character itself is folded to one that is no letter. -/
theorem toLower_eq_iff {c d : Char} (hd : ¬ d.isAlpha) : c.toLower = d ↔ c = d := by
  constructor
  · rintro rfl
    rw [Char.isAlpha_toLower_eq_isAlpha] at hd
    exact (Char.toLower_eq_of_not_isUpper (not_isUpper_of_not_isAlpha hd)).symm
  · rintro rfl
    exact Char.toLower_eq_of_not_isUpper (not_isUpper_of_not_isAlpha hd)

theorem map_toLower {l : List Char} (h : ∀ c ∈ l, c.toLower = c) : l.map Char.toLower = l := by
  rw [List.map_congr_left (g := id) h, List.map_id]

theorem map_toLower_map_toLower (l : List Char) :
    (l.map Char.toLower).map Char.toLower = l.map Char.toLower := by
  simp [Function.comp_def]

/-- A text without letters is the only one that is folded like it. -/
theorem map_toLower_eq_iff {l : List Char} (h : ∀ c ∈ l, ¬ c.isAlpha) (k : List Char) :
    k.map Char.toLower = l.map Char.toLower ↔ k = l := by
  have hl : l.map Char.toLower = l := map_toLower fun c hc => (toLower_eq_iff (h c hc)).2 rfl
  rw [hl]
  constructor
  · intro hk
    have hfixed : ∀ c ∈ k, c.toLower = c := by
      intro c hc
      have hmem : c.toLower ∈ l := hk ▸ List.mem_map_of_mem hc
      exact ((toLower_eq_iff (h _ hmem)).1 rfl).symm
    rw [← hk, map_toLower hfixed]
  · rintro rfl
    exact hl

end KeysCore.Lib
