import Mathlib.Data.List.Basic

/-!
# Polling loops

A loop that reads something round by round until a round decides. A round starts when the one before it
stopped, and `stop` says when that was. What such a loop does by an instant follows from what its rounds
do on either side of it.
-/

namespace KeysCore.Lib

variable {R A : Type} {stop : R → Nat} {decision : R → Option A} {t T M : Nat} {rs : List R}

/-- The rounds with the instants they start at, the first one at `t`. -/
def timed (stop : R → Nat) : Nat → List R → List (Nat × R)
  | _, [] => []
  | t, r :: rs => (t, r) :: timed stop (stop r) rs

/-- When the rounds are over. -/
def endAt (stop : R → Nat) : Nat → List R → Nat
  | t, [] => t
  | _, r :: rs => endAt stop (stop r) rs

theorem mem_of_mem_timed {x : Nat × R} (h : x ∈ timed stop t rs) : x.2 ∈ rs := by
  induction rs generalizing t with
  | nil => simp [timed] at h
  | cons r rs ih =>
    rcases List.mem_cons.1 h with rfl | h
    · exact List.mem_cons_self
    · exact List.mem_cons_of_mem _ (ih h)

theorem exists_mem_timed {r : R} (h : r ∈ rs) (t : Nat) : ∃ s, (s, r) ∈ timed stop t rs := by
  induction rs generalizing t with
  | nil => cases h
  | cons r' rs ih =>
    rcases List.mem_cons.1 h with rfl | h
    · exact ⟨t, List.mem_cons_self⟩
    · obtain ⟨s, hs⟩ := ih h (stop r')
      exact ⟨s, List.mem_cons_of_mem _ hs⟩

/-- The rounds are over when the last one is. -/
theorem endAt_le (h : ∀ x ∈ timed stop t rs, stop x.2 ≤ M) : endAt stop t rs ≤ max t M := by
  induction rs generalizing t with
  | nil => exact Nat.le_max_left t M
  | cons r rs ih =>
    have hr : stop r ≤ M := h (t, r) List.mem_cons_self
    have hrest := ih fun x hx => h x (List.mem_cons_of_mem _ hx)
    show endAt stop (stop r) rs ≤ max t M
    omega

/-- **A loop that waits has not got far past an instant from which every round decides**: as far as the
last round before it stopped. -/
theorem poll_waits (hwait : rs.findSome? decision = none)
    (hfrom : ∀ x ∈ timed stop t rs, T ≤ x.1 → decision x.2 ≠ none)
    (hbefore : ∀ x ∈ timed stop t rs, x.1 < T → decision x.2 = none → stop x.2 ≤ M) :
    endAt stop t rs ≤ max t M := by
  rw [List.findSome?_eq_none_iff] at hwait
  refine endAt_le fun x hx => ?_
  have hnone := hwait x.2 (mem_of_mem_timed hx)
  exact hbefore x hx (Nat.lt_of_not_le fun hle => hfrom x hx hle hnone) hnone

/-- A loop that reaches an instant from which every round decides has ended. -/
theorem poll_ends (hfrom : ∀ x ∈ timed stop t rs, T ≤ x.1 → decision x.2 ≠ none)
    (hreach : ∃ x ∈ timed stop t rs, T ≤ x.1) : rs.findSome? decision ≠ none := by
  obtain ⟨x, hx, hT⟩ := hreach
  intro hwait
  rw [List.findSome?_eq_none_iff] at hwait
  exact hfrom x hx hT (hwait x.2 (mem_of_mem_timed hx))

/-- What the first round from an instant on decides is the result when no round before it decides. -/
theorem poll_result {a : A} (hfrom : ∀ x ∈ timed stop t rs, T ≤ x.1 → decision x.2 = some a)
    (hbefore : ∀ x ∈ timed stop t rs, x.1 < T → decision x.2 = none)
    (hreach : ∃ x ∈ timed stop t rs, T ≤ x.1) : rs.findSome? decision = some a := by
  cases h : rs.findSome? decision with
  | none =>
    refine absurd h (poll_ends (fun x hx hT => ?_) hreach)
    rw [hfrom x hx hT]
    exact Option.some_ne_none a
  | some b =>
    obtain ⟨pre, r, post, rfl, hb, -⟩ := List.findSome?_eq_some_iff.1 h
    obtain ⟨s, hs⟩ := exists_mem_timed (List.mem_append_right pre List.mem_cons_self) t
    by_cases hT : T ≤ s
    · rw [← hb, hfrom _ hs hT]
    · rw [hbefore _ hs (Nat.lt_of_not_le hT)] at hb
      cases hb

end KeysCore.Lib
