import Mathlib.Control.Monad.Basic

/-!
# Computations that commit as they go

A transaction leaves its state behind when it returns and none when it fails. A computation made of
several is not one: when one of them fails, what those before it committed stays. Such a computation is
a function to its result and the state it leaves, either way. A relation between states that every
transaction keeps relates the ends of the computation, also of one that fails (`Keeps`).
-/

namespace KeysCore.Lib

variable {σ ε α β : Type}

/-- A computation that returns or fails, with the state it leaves. -/
abbrev Committing (σ ε : Type) := ExceptT ε (StateM σ)

namespace Committing

/-- What a computation returns from the state `s`, and the state it leaves. -/
def runFrom (x : Committing σ ε α) (s : σ) : Except ε α × σ := x s

/-- One transaction. -/
def transact (f : σ → Except ε (σ × α)) : Committing σ ε α := fun s =>
  match f s with
  | .ok (s', a) => (.ok a, s')
  | .error e => (.error e, s)

variable {x : Committing σ ε α} {k : α → Committing σ ε β} {f : σ → Except ε (σ × α)} {s s' : σ}

@[simp] theorem runFrom_pure (a : α) (s : σ) :
    (pure a : Committing σ ε α).runFrom s = (.ok a, s) := rfl

@[simp] theorem runFrom_throw (e : ε) (s : σ) :
    (throw e : Committing σ ε α).runFrom s = (.error e, s) := rfl

theorem runFrom_transact {a : α} (h : f s = .ok (s', a)) :
    (transact f).runFrom s = (.ok a, s') := by
  unfold runFrom transact
  rw [h]

theorem runFrom_transact_error {e : ε} (h : f s = .error e) :
    (transact f).runFrom s = (.error e, s) := by
  unfold runFrom transact
  rw [h]

theorem of_runFrom_transact {a : α} (h : (transact f).runFrom s = (.ok a, s')) :
    f s = .ok (s', a) := by
  unfold runFrom transact at h
  cases hf : f s with
  | error e =>
    rw [hf] at h
    cases (Prod.mk.inj h).1
  | ok r =>
    rw [hf] at h
    obtain ⟨ha, rfl⟩ := Prod.mk.inj h
    rw [← Except.ok.inj ha]

theorem runFrom_bind (x : Committing σ ε α) (k : α → Committing σ ε β) (s : σ) :
    (x >>= k).runFrom s = match x.runFrom s with
      | (.ok a, s') => (k a).runFrom s'
      | (.error e, s') => (.error e, s') := by
  change (match x.runFrom s with | (a, s') => ExceptT.bindCont k a s') = _
  cases x.runFrom s with
  | mk a s' =>
    cases a with
    | ok a => rfl
    | error e => rfl

/-- What follows a computation that returned starts from the state it left. -/
theorem runFrom_bind_ok {a : α} (h : x.runFrom s = (.ok a, s')) :
    (x >>= k).runFrom s = (k a).runFrom s' := by
  rw [runFrom_bind, h]

/-- A computation that returned, taken apart. -/
theorem of_runFrom_bind_ok {b : β} (h : (x >>= k).runFrom s = (.ok b, s')) :
    ∃ a mid, x.runFrom s = (.ok a, mid) ∧ (k a).runFrom mid = (.ok b, s') := by
  rw [runFrom_bind] at h
  cases hx : x.runFrom s with
  | mk r mid =>
    rw [hx] at h
    cases r with
    | ok a => exact ⟨a, mid, rfl, h⟩
    | error e => cases (Prod.mk.inj h).1

/-! ## What every transaction keeps -/

/-- `R` relates every state to the one the computation leaves. -/
def Keeps (R : σ → σ → Prop) (x : Committing σ ε α) : Prop := ∀ s, R s (x.runFrom s).2

namespace Keeps

variable {R : σ → σ → Prop}

theorem pure (refl : ∀ s, R s s) (a : α) : Keeps R (pure a : Committing σ ε α) := refl

theorem throw (refl : ∀ s, R s s) (e : ε) : Keeps R (throw e : Committing σ ε α) := refl

theorem transact (refl : ∀ s, R s s) (h : ∀ s s' a, f s = .ok (s', a) → R s s') :
    Keeps R (transact f) := by
  intro s
  unfold runFrom Committing.transact
  cases hf : f s with
  | error e => exact refl s
  | ok r => exact h s r.1 r.2 hf

theorem bind (trans : ∀ {a b c}, R a b → R b c → R a c) (hx : Keeps R x)
    (hk : ∀ s a s', x.runFrom s = (.ok a, s') → Keeps R (k a)) : Keeps R (x >>= k) := by
  intro s
  have hs := hx s
  rw [runFrom_bind]
  cases h : x.runFrom s with
  | mk a s' =>
    rw [h] at hs
    cases a with
    | ok a => exact trans hs (hk s a s' h s')
    | error e => exact hs

theorem forM (refl : ∀ s, R s s) (trans : ∀ {a b c}, R a b → R b c → R a c)
    {step : α → Committing σ ε PUnit} (hstep : ∀ a, Keeps R (step a)) (l : List α) :
    Keeps R (l.forM step) := by
  induction l with
  | nil => exact pure refl _
  | cons a l ih =>
    change Keeps R (step a >>= fun _ => l.forM step)
    exact bind trans (hstep a) fun _ _ _ _ => ih

end Keeps

/-- A loop of transactions returns when each does, under an invariant on the state and what is still to
come. -/
theorem forM_ok (I : List α → σ → Prop) {f : α → σ → Except ε (σ × PUnit)}
    (hstep : ∀ a l s, I (a :: l) s → ∃ s', f a s = .ok (s', ⟨⟩) ∧ I l s') {l : List α} (h : I l s) :
    ∃ s', (l.forM fun a => transact (f a)).runFrom s = (.ok ⟨⟩, s') ∧ I [] s' := by
  induction l generalizing s with
  | nil => exact ⟨s, rfl, h⟩
  | cons a l ih =>
    obtain ⟨mid, hmid, h⟩ := hstep a l s h
    obtain ⟨s', hs', h⟩ := ih h
    refine ⟨s', ?_, h⟩
    change (transact (f a) >>= fun _ => l.forM fun a => transact (f a)).runFrom s = _
    rw [runFrom_bind_ok (runFrom_transact hmid)]
    exact hs'

end Committing

end KeysCore.Lib
