import KeysCore.Lib.Since
import KeysCore.Redial

/-!
# The re-dial loop over its histories

Who is owed a round and who is forgotten is a matter of the events so far: a peer is owed since a round
dialled to it failed while it was not forgotten, and it is forgotten since the caller said so, each until
a round with it succeeds. `redial_run_state`: after any sequence of events the loop holds these two
sets, and has a re-dial scheduled exactly while a peer is owed.
-/

namespace KeysCore.Verify

open Lib

variable {PublicKey : Type} [DecidableEq PublicKey]

/-! ## Histories -/

/-- No round with `p` succeeded, in either direction. -/
def NotReached (p : PublicKey) (e : RedialEvent PublicKey) : Prop :=
  ∀ origin, e ≠ .syncFinished p origin true

/-- The caller has forgotten `p`, and no round has reached it since. -/
def ForgottenAfter (p : PublicKey) : List (RedialEvent PublicKey) → Prop :=
  Since (fun _ e => e = .forgotten p) (NotReached p)

/-- A round dialled to `p` failed while `p` was not forgotten, and since then no round has reached it
and the caller has not forgotten it. -/
def OwedAfter (p : PublicKey) : List (RedialEvent PublicKey) → Prop :=
  Since (fun before e => e = .syncFinished p .connect false ∧ ¬ ForgottenAfter p before)
    (fun e => NotReached p e ∧ e ≠ .forgotten p)

/-! ## One iteration -/

/-- The two sets after an event. -/
def peersAfter (s : RedialSet PublicKey) : RedialEvent PublicKey → RedialSet PublicKey
  | .syncFinished peer origin succeeded => (s.recordRound peer origin succeeded).1
  | .forgotten peer => s.forget peer
  | .otherEvent => s
  | .redialDue => s

theorem mem_forgotten_after (s : RedialSet PublicKey) (e : RedialEvent PublicKey) (p : PublicKey) :
    p ∈ (peersAfter s e).forgotten ↔ e = .forgotten p ∨ p ∈ s.forgotten ∧ NotReached p e := by
  cases e with
  | syncFinished peer origin succeeded =>
    cases succeeded with
    | true =>
      simp only [peersAfter, RedialSet.recordRound, if_true, Finset.mem_erase, NotReached]
      constructor
      · rintro ⟨hne, hp⟩
        exact .inr ⟨hp, fun o h => hne (by cases h; rfl)⟩
      · rintro (h | ⟨hp, hne⟩)
        · cases h
        · exact ⟨fun h => hne origin (by rw [h]), hp⟩
    | false =>
      have hsame : (peersAfter s (.syncFinished peer origin false)).forgotten = s.forgotten := by
        cases origin
        · by_cases hf : peer ∈ s.forgotten <;> simp [peersAfter, RedialSet.recordRound, hf]
        · rfl
      rw [hsame]
      constructor
      · exact fun hp => .inr ⟨hp, nofun⟩
      · rintro (h | ⟨hp, -⟩)
        · cases h
        · exact hp
  | forgotten peer =>
    simp only [peersAfter, RedialSet.forget, Finset.mem_insert]
    constructor
    · rintro (rfl | hp)
      · exact .inl rfl
      · exact .inr ⟨hp, nofun⟩
    · rintro (h | ⟨hp, -⟩)
      · cases h
        exact .inl rfl
      · exact .inr hp
  | otherEvent => simp [peersAfter, NotReached]
  | redialDue => simp [peersAfter, NotReached]

theorem mem_owed_after (s : RedialSet PublicKey) (e : RedialEvent PublicKey) (p : PublicKey) :
    p ∈ (peersAfter s e).owed ↔
      (e = .syncFinished p .connect false ∧ p ∉ s.forgotten) ∨
        p ∈ s.owed ∧ NotReached p e ∧ e ≠ .forgotten p := by
  cases e with
  | syncFinished peer origin succeeded =>
    cases succeeded with
    | true =>
      simp only [peersAfter, RedialSet.recordRound, if_true, Finset.mem_erase, NotReached]
      constructor
      · rintro ⟨hne, hp⟩
        exact .inr ⟨hp, fun o h => hne (by cases h; rfl), nofun⟩
      · rintro (⟨h, -⟩ | ⟨hp, hne, -⟩)
        · cases h
        · exact ⟨fun h => hne origin (by rw [h]), hp⟩
    | false =>
      have hkept : p ∈ s.owed ↔ p ∈ s.owed ∧ NotReached p (.syncFinished peer origin false) ∧
          RedialEvent.syncFinished peer origin false ≠ .forgotten p :=
        ⟨fun hp => ⟨hp, nofun, nofun⟩, And.left⟩
      rw [← hkept]
      cases origin with
      | accept => simp [peersAfter, RedialSet.recordRound]
      | connect =>
        by_cases hf : peer ∈ s.forgotten
        · simp only [peersAfter, RedialSet.recordRound, Bool.false_eq_true, if_false, if_pos hf]
          refine ⟨.inr, ?_⟩
          rintro (⟨h, hp⟩ | hp)
          · cases h
            exact absurd hf hp
          · exact hp
        · simp only [peersAfter, RedialSet.recordRound, Bool.false_eq_true, if_false, if_neg hf,
            Finset.mem_insert]
          constructor
          · rintro (rfl | hp)
            · exact .inl ⟨rfl, hf⟩
            · exact .inr hp
          · rintro (⟨h, -⟩ | hp)
            · cases h
              exact .inl rfl
            · exact .inr hp
  | forgotten peer =>
    simp only [peersAfter, RedialSet.forget, Finset.mem_erase]
    constructor
    · rintro ⟨hne, hp⟩
      exact .inr ⟨hp, nofun, fun h => hne (by cases h; rfl)⟩
    · rintro (⟨h, -⟩ | ⟨hp, -, hne⟩)
      · cases h
      · exact ⟨fun h => hne (by rw [h]), hp⟩
  | otherEvent => simp [peersAfter, NotReached]
  | redialDue => simp [peersAfter, NotReached]

section Loop

variable {s t : RedialLoop PublicKey} {now : Nat} {e : RedialEvent PublicKey}
  {dialled : Option (Finset PublicKey)}

/-- **An iteration, taken apart**: what it wrote before the end of the loop body, and the peers it
dialled. A re-dial is scheduled at the end of the branch, or the peers owed were owed before. -/
theorem redial_step_cases (h : s.step now e = some (t, dialled)) :
    ∃ b : RedialLoop PublicKey, t = b.settle ∧ b.peers = peersAfter s.peers e ∧
      (b.nextRedial.isSome ∨ b.nextRedial = s.nextRedial ∧ b.peers.owed ⊆ s.peers.owed) ∧
      (∀ peers ∈ dialled, peers = s.peers.owed ∧ s.nextRedial.isSome) := by
  unfold RedialLoop.step at h
  obtain ⟨⟨b, d⟩, hb, h⟩ := Option.map_eq_some_iff.1 h
  obtain ⟨rfl, rfl⟩ := Prod.mk.inj h
  cases e with
  | syncFinished peer origin succeeded =>
    simp only [RedialLoop.branch, Option.some.injEq, Prod.mk.injEq] at hb
    obtain ⟨rfl, rfl⟩ := hb
    refine ⟨_, rfl, rfl, ?_, nofun⟩
    cases howes : (s.peers.recordRound peer origin succeeded).2 with
    | true => exact .inl (by simp)
    | false =>
      refine .inr ⟨by simp, fun q hq => ?_⟩
      have hq' : q ∈ (peersAfter s.peers (.syncFinished peer origin succeeded)).owed := hq
      rcases (mem_owed_after _ _ q).1 hq' with ⟨he, hf⟩ | ⟨hq, -⟩
      · cases he
        simp [RedialSet.recordRound, hf] at howes
      · exact hq
  | otherEvent =>
    obtain ⟨rfl, rfl⟩ := Prod.mk.inj (Option.some.inj hb)
    exact ⟨_, rfl, rfl, .inr ⟨rfl, subset_rfl⟩, nofun⟩
  | forgotten peer =>
    obtain ⟨rfl, rfl⟩ := Prod.mk.inj (Option.some.inj hb)
    exact ⟨_, rfl, rfl, .inr ⟨rfl, Finset.erase_subset _ _⟩, nofun⟩
  | redialDue =>
    simp only [RedialLoop.branch] at hb
    split at hb
    · cases hb
    · rename_i due hdue
      split at hb
      · obtain ⟨rfl, rfl⟩ := Prod.mk.inj (Option.some.inj hb)
        refine ⟨_, rfl, rfl, .inl rfl, fun peers hpeers => ⟨?_, ?_⟩⟩
        · exact (Option.some.inj hpeers).symm
        · rw [hdue]
          rfl
      · cases hb

@[simp] theorem settle_peers (s : RedialLoop PublicKey) : s.settle.peers = s.peers := by
  unfold RedialLoop.settle
  split <;> rfl

/-! ## Runs -/

theorem redial_run_snoc (es : List (Nat × RedialEvent PublicKey)) (s : RedialLoop PublicKey) :
    s.run (es ++ [(now, e)]) = (s.run es).bind fun t => (t.step now e).map (·.1) := by
  induction es generalizing s with
  | nil =>
    simp only [List.nil_append, RedialLoop.run, Option.bind_some]
    cases s.step now e <;> rfl
  | cons x es ih =>
    obtain ⟨at_, f⟩ := x
    simp only [List.cons_append, RedialLoop.run]
    cases s.step at_ f with
    | none => rfl
    | some r => exact ih r.1

/-- What the loop holds after the events `es`. -/
structure RedialHolds (es : List (RedialEvent PublicKey)) (s : RedialLoop PublicKey) : Prop where
  owed : ∀ p, p ∈ s.peers.owed ↔ OwedAfter p es
  forgotten : ∀ p, p ∈ s.peers.forgotten ↔ ForgottenAfter p es
  disjoint : Disjoint s.peers.owed s.peers.forgotten
  scheduled : s.nextRedial.isSome ↔ s.peers.owed.Nonempty
  fresh : s.peers.owed = ∅ → s.attempt = 0

namespace RedialHolds

variable {es : List (RedialEvent PublicKey)}

theorem init : RedialHolds [] ({} : RedialLoop PublicKey) where
  owed p := by simp [OwedAfter]
  forgotten p := by simp [ForgottenAfter]
  disjoint := by simp
  scheduled := by simp
  fresh _ := rfl

theorem step (hs : RedialHolds es s) (h : s.step now e = some (t, dialled)) : RedialHolds (es ++ [e]) t := by
  obtain ⟨b, rfl, hpeers, hnext, -⟩ := redial_step_cases h
  have howed : ∀ p, p ∈ b.peers.owed ↔ OwedAfter p (es ++ [e]) := fun p => by
    rw [hpeers, mem_owed_after, OwedAfter, since_snoc, ← OwedAfter, hs.owed, hs.forgotten]
  have hforgot : ∀ p, p ∈ b.peers.forgotten ↔ ForgottenAfter p (es ++ [e]) := fun p => by
    rw [hpeers, mem_forgotten_after, ForgottenAfter, since_snoc, ← ForgottenAfter, hs.forgotten]
  refine ⟨by simpa using howed, by simpa using hforgot, ?_, ?_, ?_⟩
  · rw [settle_peers, hpeers, Finset.disjoint_left]
    intro p hp hf
    rw [mem_owed_after] at hp
    rw [mem_forgotten_after] at hf
    rcases hp with ⟨rfl, hnot⟩ | ⟨hp, -, hne⟩
    · rcases hf with hf | ⟨hf, -⟩
      · cases hf
      · exact hnot hf
    · rcases hf with hf | ⟨hf, -⟩
      · exact hne hf
      · exact Finset.disjoint_left.1 hs.disjoint hp hf
  · unfold RedialLoop.settle
    split
    · rename_i hempty
      simp [hempty]
    · rename_i hne
      have howes := Finset.nonempty_iff_ne_empty.2 hne
      refine ⟨fun _ => howes, fun _ => ?_⟩
      rcases hnext with hsome | ⟨hsame, hsub⟩
      · exact hsome
      · rw [hsame]
        exact hs.scheduled.2 (howes.mono hsub)
  · intro hempty
    rw [settle_peers] at hempty
    unfold RedialLoop.settle
    rw [if_pos hempty]

end RedialHolds

/-- **The loop over its histories.** After any events, in any order and at any instants: a peer is owed
exactly when a round dialled to it failed since its last success and its last forget, while it was not
forgotten; no forgotten peer is owed; a re-dial is scheduled exactly while a peer is owed, and the count
of attempts is back at zero without one. A round the remote dialled and that failed changes neither set,
and a re-dial never names a forgotten peer. -/
theorem redial_run_state {es : List (Nat × RedialEvent PublicKey)}
    (hrun : ({} : RedialLoop PublicKey).run es = some s) :
    (∀ p, p ∈ s.peers.owed ↔ OwedAfter p (es.map (·.2))) ∧
      (∀ p, p ∈ s.peers.forgotten ↔ ForgottenAfter p (es.map (·.2))) ∧
      Disjoint s.peers.owed s.peers.forgotten ∧
      (s.nextRedial.isSome ↔ s.peers.owed.Nonempty) ∧
      (s.peers.owed = ∅ → s.attempt = 0) ∧
      (∀ now p t dialled, s.step now (.syncFinished p .accept false) = some (t, dialled) →
        t.peers = s.peers ∧ dialled = none) ∧
      (∀ now t dialled, s.step now .redialDue = some (t, some dialled) →
        dialled.Nonempty ∧ Disjoint dialled s.peers.forgotten) := by
  have hholds : RedialHolds (es.map (·.2)) s := by
    induction es using List.reverseRecOn generalizing s with
    | nil =>
      obtain rfl := Option.some.inj hrun
      exact .init
    | append_singleton es x ih =>
      obtain ⟨now, e⟩ := x
      rw [redial_run_snoc] at hrun
      obtain ⟨t, ht, hstep⟩ := Option.bind_eq_some_iff.1 hrun
      obtain ⟨⟨s', dialled⟩, hs', rfl⟩ := Option.map_eq_some_iff.1 hstep
      rw [List.map_append]
      exact (ih ht).step hs'
  refine ⟨hholds.owed, hholds.forgotten, hholds.disjoint, hholds.scheduled, hholds.fresh, ?_, ?_⟩
  · intro now p t dialled h
    obtain ⟨rfl, rfl⟩ := Prod.mk.inj (Option.some.inj h)
    exact ⟨settle_peers _, rfl⟩
  · intro now t dialled h
    obtain ⟨-, -, -, -, hdial⟩ := redial_step_cases h
    obtain ⟨rfl, hsome⟩ := hdial dialled rfl
    exact ⟨hholds.scheduled.1 hsome, hholds.disjoint⟩

end Loop

/-- Two peers fail, the second is forgotten and fails again, and the timer fires. -/
def twoPeersGone : List (Nat × RedialEvent Nat) :=
  [(0, .syncFinished 1 .connect false), (10, .syncFinished 2 .connect false), (20, .forgotten 2),
    (30, .syncFinished 2 .connect false), (40, .syncFinished 3 .accept false), (6000, .redialDue)]

/-- After the events above the first peer is owed a round, the second is forgotten, and the next
re-dial is scheduled. -/
theorem redial_run_state_two_peers :
    ∃ s, ({} : RedialLoop Nat).run twoPeersGone = some s ∧ s.nextRedial = some 21000 ∧
      s.attempt = 1 ∧ OwedAfter 1 (twoPeersGone.map (·.2)) ∧
      ForgottenAfter 2 (twoPeersGone.map (·.2)) ∧ ¬ OwedAfter 2 (twoPeersGone.map (·.2)) ∧
      ¬ OwedAfter 3 (twoPeersGone.map (·.2)) := by
  have hrun : ({} : RedialLoop Nat).run twoPeersGone = some ⟨⟨{1}, {2}⟩, 1, some 21000⟩ := rfl
  obtain ⟨howed, hforgot, -⟩ := redial_run_state hrun
  exact ⟨_, hrun, rfl, rfl, (howed 1).1 (by decide), (hforgot 2).1 (by decide),
    fun h => absurd ((howed 2).2 h) (by decide), fun h => absurd ((howed 3).2 h) (by decide)⟩

end KeysCore.Verify
