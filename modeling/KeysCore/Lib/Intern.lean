import KeysCore.Lib.Table
import Mathlib.Data.List.Induction

/-!
# Interning

A pool is a list of elements, each with a value. To intern a value is to take the first element with
this value or, when there is none, to append one. `internAll` interns values one after another: the pool
only grows at its end and every value has a position afterwards.

A pool of large values is searched through an index: a table from the hash of a value to a position.
`Indexes` says that the table answers like a search of the pool, for the values that are looked up; it
is enough that the hash does not collide among these and the values of the pool.
-/

namespace KeysCore.Lib.Intern

variable {α β κ : Type} [DecidableEq β] [DecidableEq κ]

/-! ## Pools -/

section Pool

variable (value : α → β) (fresh : β → α)

/-- The position of the first element with the value. -/
def position (pool : List α) (b : β) : Option Nat := pool.findIdx? fun x => value x = b

/-- The pool with an element for the value. -/
def intern (pool : List α) (b : β) : List α :=
  if b ∈ pool.map value then pool else pool ++ [fresh b]

def internAll (pool : List α) (bs : List β) : List α := bs.foldl (intern value fresh) pool

end Pool

section Pool

variable {value : α → β} {fresh : β → α} {pool q : List α} {a b : β} {i : Nat}

theorem position_eq_none : position value pool b = none ↔ b ∉ pool.map value := by
  simp [position, List.findIdx?_eq_none_iff]

theorem exists_position : (∃ i, position value pool b = some i) ↔ b ∈ pool.map value := by
  rw [← Option.isSome_iff_exists, Option.isSome_iff_ne_none, ne_eq, position_eq_none, not_not]

/-- A position is that of an element with the value. -/
theorem position_spec (h : position value pool b = some i) : ∃ x, pool[i]? = some x ∧ value x = b := by
  obtain ⟨hi, hx, -⟩ := List.findIdx?_eq_some_iff_getElem.1 h
  exact ⟨pool[i], List.getElem?_eq_getElem hi, of_decide_eq_true hx⟩

/-- A pool that grows at its end keeps its positions. -/
theorem position_of_grown (hq : pool <+: q) (h : position value pool b = some i) :
    position value q b = some i :=
  hq.findIdx?_eq_some h

theorem intern_of_mem (h : b ∈ pool.map value) : intern value fresh pool b = pool := if_pos h

theorem intern_of_not_mem (h : b ∉ pool.map value) :
    intern value fresh pool b = pool ++ [fresh b] := if_neg h

theorem grown_intern (pool : List α) (b : β) : pool <+: intern value fresh pool b := by
  by_cases h : b ∈ pool.map value
  · exact ⟨[], by rw [intern_of_mem h, List.append_nil]⟩
  · rw [intern_of_not_mem h]
    exact List.prefix_append ..

theorem grown_internAll (pool : List α) (bs : List β) : pool <+: internAll value fresh pool bs := by
  induction bs generalizing pool with
  | nil => exact List.prefix_refl _
  | cons b bs ih => exact (grown_intern pool b).trans (ih _)

theorem internAll_append (pool : List α) (bs cs : List β) :
    internAll value fresh pool (bs ++ cs) =
      internAll value fresh (internAll value fresh pool bs) cs :=
  List.foldl_append

theorem position_concat (pool : List α) (x : α) (a : β) :
    position value (pool ++ [x]) a =
      (position value pool a).or (if value x = a then some pool.length else none) := by
  unfold position
  rw [List.findIdx?_append]
  by_cases h : value x = a <;> simp [h]

/-- The new elements are fresh ones, each of another interned value that the pool lacked. -/
theorem internAll_eq (hf : ∀ b, value (fresh b) = b) (pool : List α) (bs : List β) :
    ∃ cs, cs ⊆ bs ∧ cs.Nodup ∧ (∀ c ∈ cs, c ∉ pool.map value) ∧
      internAll value fresh pool bs = pool ++ cs.map fresh := by
  induction bs generalizing pool with
  | nil => exact ⟨[], List.Subset.refl _, .nil, nofun, (List.append_nil _).symm⟩
  | cons b bs ih =>
    obtain ⟨cs, hcs, hnodup, hnew, heq⟩ := ih (intern value fresh pool b)
    by_cases h : b ∈ pool.map value
    · rw [intern_of_mem h] at hnew heq
      refine ⟨cs, List.subset_cons_of_subset _ hcs, hnodup, hnew, ?_⟩
      rw [← heq, internAll, List.foldl_cons, intern_of_mem h]
      rfl
    · rw [intern_of_not_mem h] at hnew heq
      have hnew' : ∀ c ∈ cs, c ≠ b ∧ c ∉ pool.map value := by
        intro c hc
        have := hnew c hc
        rw [List.map_append, List.map_singleton, hf, List.mem_append, List.mem_singleton] at this
        exact ⟨fun h => this (.inr h), fun h => this (.inl h)⟩
      refine ⟨b :: cs, List.cons_subset_cons b hcs,
        List.nodup_cons.2 ⟨fun hb => (hnew' b hb).1 rfl, hnodup⟩,
        List.forall_mem_cons.2 ⟨h, fun c hc => (hnew' c hc).2⟩, ?_⟩
      rw [internAll, List.foldl_cons, intern_of_not_mem h]
      change internAll value fresh _ bs = _
      rw [heq, List.append_assoc]
      rfl

end Pool

/-! ## Indexes -/

/-- Positions by the hash of the value. -/
abbrev Index (κ : Type) := Table (Prod.fst : κ × Nat → κ)

/-- The index answers like the pool for the values of `S`. -/
def Indexes (value : α → β) (hash : β → κ) (S : List β) (pool : List α) (T : Index κ) : Prop :=
  ∀ b ∈ S, (T.find? (hash b)).map (·.2) = position value pool b

/-- The positions of the elements whose value is `sought`, the first of each hash. -/
def seed (value : α → β) (hash : β → κ) (sought : β → Bool) (T : Index κ) : List (α × Nat) → Index κ :=
  List.foldl (fun T x => if sought (value x.1) then T.insertOrIgnore (hash (value x.1), x.2) else T) T

section Index

variable {value : α → β} {fresh : β → α} {hash : β → κ} {S : List β} {pool : List α} {T : Index κ}

/-- Appending an element for a value that the pool lacks. -/
theorem Indexes.append (h : Indexes value hash S pool T) (hf : ∀ b, value (fresh b) = b)
    (hcol : ∀ a ∈ S, ∀ b ∈ S, hash a = hash b → a = b) {b : β} (hb : b ∈ S)
    (hnew : b ∉ pool.map value) :
    Indexes value hash S (pool ++ [fresh b]) (T.put (hash b, pool.length)) := by
  intro a ha
  rw [position_concat, hf, Table.find?_put]
  by_cases hab : b = a
  · subst hab
    rw [if_pos rfl, if_pos rfl, position_eq_none.2 hnew]
    rfl
  · rw [if_neg hab, if_neg fun heq => hab (hcol b hb a ha heq), Option.or_none]
    exact h a ha

omit [DecidableEq β] in
theorem seed_concat {sought : β → Bool} (l : List (α × Nat)) (x : α × Nat) :
    seed value hash sought T (l ++ [x]) =
      if sought (value x.1) then (seed value hash sought T l).insertOrIgnore (hash (value x.1), x.2)
      else seed value hash sought T l := by
  unfold seed
  rw [List.foldl_append]
  rfl

/-- The index built from a pool answers like the pool. -/
theorem indexes_seed {sought : β → Bool} (hS : ∀ b ∈ S, sought b = true)
    (hcol : ∀ a ∈ pool.map value, ∀ b ∈ S, hash a = hash b → a = b) :
    Indexes value hash S pool (seed value hash sought .empty pool.zipIdx) := by
  induction pool using List.reverseRecOn with
  | nil =>
    intro b _
    rfl
  | append_singleton pool x ih =>
    intro b hb
    have hprev := ih (fun a ha => hcol a (List.map_subset _ (List.subset_append_left ..) ha)) b hb
    have hx : hash (value x) = hash b ↔ value x = b :=
      ⟨hcol (value x) (List.mem_map_of_mem (by simp)) b hb, congrArg hash⟩
    rw [List.zipIdx_append, List.zipIdx_singleton, Nat.zero_add, position_concat, seed_concat, ← hprev]
    generalize seed value hash sought .empty pool.zipIdx = T
    split
    · rw [Table.find?_insertOrIgnore]
      by_cases heq : value x = b
      · rw [if_pos heq, if_pos (hx.2 heq)]
        cases T.find? (hash b) <;> rfl
      · rw [if_neg heq, if_neg fun h => heq (hx.1 h), Option.or_none, Option.or_none]
    · rename_i hnot
      have hne : value x ≠ b := fun heq => hnot (by rw [heq]; exact hS b hb)
      rw [if_neg hne, Option.or_none]

end Index

end KeysCore.Lib.Intern
