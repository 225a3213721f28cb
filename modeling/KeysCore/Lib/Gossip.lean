import Mathlib.Logic.Function.Basic
import Mathlib.Logic.Relation
import Mathlib.Order.Bounds.Basic
import Mathlib.Order.Lattice

/-!
# Gossip over a semilattice

Nodes hold elements of a join-semilattice. A node sends what it holds to everyone, joins in anything
that was ever sent, in any order and any number of times, and grows on its own by `G`. What a node
holds never shrinks (`Run.le_state`) and stays below every bound the growth respects (`Run.bounded`);
once nothing grows, a node that heard of all the others holds their join (`Run.agree`).
-/

namespace KeysCore.Lib.Gossip

variable {ι α : Type*}

/-- What the nodes hold, what was sent, and what each node received. -/
structure Net (ι α : Type*) where
  state : ι → α
  sent : List α
  received : ι → List α

variable [DecidableEq ι] [SemilatticeSup α]

namespace Net

def send (n : Net ι α) (i : ι) : Net ι α := { n with sent := n.state i :: n.sent }

def receive (n : Net ι α) (i : ι) (x : α) : Net ι α :=
  { n with
    state := Function.update n.state i (n.state i ⊔ x)
    received := Function.update n.received i (x :: n.received i) }

def grow (n : Net ι α) (i : ι) (a : α) : Net ι α :=
  { n with state := Function.update n.state i a }

end Net

/-- One step. `G i a b`: the node `i` may grow from `a` to `b`. -/
inductive Step (G : ι → α → α → Prop) (n : Net ι α) : Net ι α → Prop where
  | send (i : ι) : Step G n (n.send i)
  | receive (i : ι) {x : α} : x ∈ n.sent → Step G n (n.receive i x)
  | grow (i : ι) {a : α} : n.state i ≤ a → G i (n.state i) a → Step G n (n.grow i a)

abbrev Run (G : ι → α → α → Prop) : Net ι α → Net ι α → Prop := Relation.ReflTransGen (Step G)

variable {G : ι → α → α → Prop} {n n' : Net ι α}

theorem Step.le_state (h : Step G n n') (j : ι) : n.state j ≤ n'.state j := by
  cases h with
  | send i => exact le_rfl
  | receive i hx =>
    by_cases e : j = i
    · subst e
      simp [Net.receive]
    · simp [Net.receive, Function.update_of_ne e]
  | grow i hle _ =>
    by_cases e : j = i
    · subst e
      simpa [Net.grow] using hle
    · simp [Net.grow, Function.update_of_ne e]

/-- **Nothing a node holds is lost.** -/
theorem Run.le_state (h : Run G n n') (j : ι) : n.state j ≤ n'.state j := by
  induction h with
  | refl => exact le_rfl
  | tail _ hs ih => exact ih.trans (hs.le_state j)

/-- What a node received is below what it holds. -/
def Heard (n : Net ι α) : Prop := ∀ i, ∀ x ∈ n.received i, x ≤ n.state i

theorem Heard.step (h : Heard n) (hs : Step G n n') : Heard n' := by
  intro j y hy
  have hmono := hs.le_state j
  cases hs with
  | send i => exact h j y hy
  | receive i hx =>
    by_cases e : j = i
    · subst e
      simp only [Net.receive, Function.update_self, List.mem_cons] at hy
      rcases hy with rfl | hy
      · simp [Net.receive]
      · exact (h j y hy).trans hmono
    · simp only [Net.receive, Function.update_of_ne e] at hy
      exact (h j y hy).trans hmono
  | grow i _ _ => exact (h j y hy).trans hmono

theorem Run.heard (hrun : Run G n n') (h : Heard n) : Heard n' := by
  induction hrun with
  | refl => exact h
  | tail _ hs ih => exact ih.step hs

/-- Everything held or sent is below `b`. -/
structure Below (b : α) (n : Net ι α) : Prop where
  state : ∀ i, n.state i ≤ b
  sent : ∀ x ∈ n.sent, x ≤ b

theorem Below.step {b : α} (h : Below b n) (hG : ∀ i a c, G i a c → a ≤ b → c ≤ b)
    (hs : Step G n n') : Below b n' := by
  cases hs with
  | send i =>
    refine ⟨h.state, fun x hx => ?_⟩
    rcases List.mem_cons.1 hx with rfl | hx
    · exact h.state i
    · exact h.sent x hx
  | receive i hx =>
    refine ⟨fun j => ?_, h.sent⟩
    by_cases e : j = i
    · subst e
      simp [Net.receive, h.state j, h.sent _ hx]
    · simp [Net.receive, Function.update_of_ne e, h.state j]
  | grow i _ hg =>
    refine ⟨fun j => ?_, h.sent⟩
    by_cases e : j = i
    · subst e
      simpa [Net.grow] using hG j _ _ hg (h.state j)
    · simp [Net.grow, Function.update_of_ne e, h.state j]

/-- **A bound that growth respects bounds the run.** -/
theorem Run.bounded {b : α} (hrun : Run G n n') (h : Below b n)
    (hG : ∀ i a c, G i a c → a ≤ b → c ≤ b) : Below b n' := by
  induction hrun with
  | refl => exact h
  | tail _ hs ih => exact ih.step hG hs

/-- Everything sent is still held by some node. -/
def Backed (n : Net ι α) : Prop := ∀ x ∈ n.sent, ∃ j, x ≤ n.state j

theorem Backed.step (h : Backed n) (hs : Step G n n') : Backed n' := by
  intro x hx
  have hmono := hs.le_state
  have hold : x ∈ n.sent → ∃ j, x ≤ n'.state j := fun hx =>
    (h x hx).imp fun j hj => hj.trans (hmono j)
  cases hs with
  | send i =>
    rcases List.mem_cons.1 hx with rfl | hx
    · exact ⟨i, le_rfl⟩
    · exact hold hx
  | receive i _ => exact hold hx
  | grow i _ _ => exact hold hx

theorem Run.backed (hrun : Run G n n') (h : Backed n) : Backed n' := by
  induction hrun with
  | refl => exact h
  | tail _ hs ih => exact ih.step hs

/-- **A node that heard of all the others while nothing grew** holds the least bound of what they held,
and so agrees with every other such node. -/
theorem Run.agree (hrun : Run (fun _ _ _ => False) n n') (hheard : Heard n) (hbacked : Backed n) {i : ι}
    (hall : ∀ j, j ≠ i → ∃ x ∈ n'.received i, n.state j ≤ x) :
    IsLUB (Set.range n.state) (n'.state i) := by
  have hh := hrun.heard hheard
  refine ⟨?_, fun b hb => ?_⟩
  · rintro a ⟨j, rfl⟩
    by_cases e : j = i
    · exact e ▸ hrun.le_state j
    · obtain ⟨x, hx, hle⟩ := hall j e
      exact hle.trans (hh i x hx)
  · have hstate : ∀ j, n.state j ≤ b := fun j => hb ⟨j, rfl⟩
    have hbelow : Below b n :=
      ⟨hstate, fun x hx => (hbacked x hx).elim fun j hj => hj.trans (hstate j)⟩
    exact (hrun.bounded hbelow fun _ _ _ h => h.elim).state i

end KeysCore.Lib.Gossip
