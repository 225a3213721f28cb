import Mathlib.Data.List.Nodup
import Mathlib.Data.List.Perm.Basic
import Mathlib.Data.List.Sort

/-!
# Keyed tables

A table is the list of its rows in rowid (insertion) order, with no two rows of one key. The
operations are those of SQL on a table with a primary key: `insert?` refuses a key that is taken,
`put` is `INSERT OR REPLACE`, `update` and `delete` act on the rows a condition selects. Every
operation is characterised by the row found under each key (`find?_insert`, `find?_put`,
`find?_update`, `find?_delete`), so that a table is used as a finite map; the order of the rows
only matters where a caller scans them.
-/

namespace KeysCore.Lib

universe u v

variable {ρ : Type u} {κ : Type v}

/-- Rows of type `ρ`, at most one for each value of `key`. -/
structure Table (key : ρ → κ) where
  rows : List ρ
  nodup : (rows.map key).Nodup

/-- Lists with the same elements, of distinct keys, are alike in the order of the key. -/
theorem insertionSort_perm [LinearOrder κ] {key : ρ → κ} {l l' : List ρ} (h : l'.Perm l)
    (hnd : (l.map key).Nodup) : l'.insertionSort (fun a b => key a ≤ key b) =
      l.insertionSort fun a b => key a ≤ key b := by
  have htotal : Std.Total fun a b : ρ => key a ≤ key b := ⟨fun a b => le_total _ _⟩
  have htrans : IsTrans ρ fun a b : ρ => key a ≤ key b := ⟨fun _ _ _ => le_trans⟩
  have hsorted := List.pairwise_insertionSort (fun a b : ρ => key a ≤ key b)
  have hsort := ((List.perm_insertionSort (fun a b => key a ≤ key b) l').trans h).trans
    (List.perm_insertionSort (fun a b => key a ≤ key b) l).symm
  refine List.Perm.eq_of_pairwise ?_ (hsorted l') (hsorted l) hsort
  intro a b ha hb hab hba
  exact List.inj_on_of_nodup_map hnd (h.mem_iff.1 ((List.mem_insertionSort _).1 ha))
    ((List.mem_insertionSort _).1 hb) (le_antisymm hab hba)

namespace Table

variable {key : ρ → κ}

@[ext] theorem ext {T U : Table key} (h : T.rows = U.rows) : T = U := by
  cases T; cases U; cases h; rfl

instance [DecidableEq ρ] : DecidableEq (Table key) := fun T U =>
  decidable_of_iff (T.rows = U.rows) ⟨ext, fun h => h ▸ rfl⟩

/-- The table without rows. -/
def empty : Table key := ⟨[], List.nodup_nil⟩

instance : Membership ρ (Table key) := ⟨fun T r => r ∈ T.rows⟩

theorem mem_iff {T : Table key} {r : ρ} : r ∈ T ↔ r ∈ T.rows := Iff.rfl

/-- The keys present, in row order. -/
def keys (T : Table key) : List κ := T.rows.map key

theorem mem_keys {T : Table key} {k : κ} : k ∈ T.keys ↔ ∃ r ∈ T.rows, key r = k := by
  simp [keys]

theorem key_mem {T : Table key} {r : ρ} (h : r ∈ T.rows) : key r ∈ T.keys :=
  List.mem_map_of_mem h

theorem eq_of_key {T : Table key} {r s : ρ} (hr : r ∈ T.rows) (hs : s ∈ T.rows)
    (h : key r = key s) : r = s :=
  List.inj_on_of_nodup_map T.nodup hr hs h

/-- `UPDATE … SET … WHERE p`. The key is not a column an update sets. -/
def update (T : Table key) (p : ρ → Prop) [DecidablePred p] (f : ρ → ρ)
    (hf : ∀ r, key (f r) = key r) : Table key :=
  ⟨T.rows.map fun r => if p r then f r else r, by
    have : (T.rows.map fun r => if p r then f r else r).map key = T.rows.map key := by
      rw [List.map_map]
      refine List.map_congr_left fun r _ => ?_
      simp only [Function.comp]
      split
      · exact hf r
      · rfl
    rw [this]
    exact T.nodup⟩

section Update

variable {p : ρ → Prop} [DecidablePred p] {f : ρ → ρ} (hf : ∀ r, key (f r) = key r)

theorem mem_update {T : Table key} {s : ρ} :
    s ∈ (T.update p f hf).rows ↔ ∃ r ∈ T.rows, (if p r then f r else r) = s := by
  simp [update]

@[simp] theorem keys_update (T : Table key) : (T.update p f hf).keys = T.keys := by
  unfold keys update
  rw [List.map_map]
  refine List.map_congr_left fun r _ => ?_
  simp only [Function.comp]
  split
  · exact hf r
  · rfl

/-- An update that fixes every row it meets changes nothing. -/
theorem update_of_fixed {T : Table key} (h : ∀ r ∈ T.rows, p r → f r = r) : T.update p f hf = T := by
  cases T with
  | mk rows nodup =>
    unfold update
    congr 1
    conv_rhs => rw [← List.map_id rows]
    refine List.map_congr_left fun r hr => ?_
    split
    · exact h r hr ‹_›
    · rfl

/-- An update that meets no row changes nothing. -/
theorem update_of_none {T : Table key} (h : (T.rows.filter p).length = 0) : T.update p f hf = T := by
  refine update_of_fixed hf fun r hr hp => ?_
  have hmem : r ∈ T.rows.filter p := List.mem_filter.2 ⟨hr, by simpa using hp⟩
  rw [List.length_eq_zero_iff.1 h] at hmem
  cases hmem

end Update

/-- `DELETE … WHERE p`. -/
def delete (T : Table key) (p : ρ → Prop) [DecidablePred p] : Table key :=
  ⟨T.rows.filter fun r => ¬ p r, T.nodup.sublist (List.filter_sublist.map key)⟩

theorem mem_delete {T : Table key} {p : ρ → Prop} [DecidablePred p] {r : ρ} :
    r ∈ (T.delete p).rows ↔ r ∈ T.rows ∧ ¬ p r := by
  simp [delete]

/-- A deletion that meets no row changes nothing. -/
theorem delete_of_none {T : Table key} {p : ρ → Prop} [DecidablePred p]
    (h : (T.rows.filter p).length = 0) : T.delete p = T := by
  cases T with
  | mk rows nodup =>
    unfold delete
    congr 1
    refine List.filter_eq_self.2 fun r hr => ?_
    have hne : r ∉ rows.filter p := by
      rw [List.length_eq_zero_iff.1 h]
      exact List.not_mem_nil
    simpa [hr] using hne

section DecEq

variable [DecidableEq κ]

/-- The row under key `k`. -/
def find? (T : Table key) (k : κ) : Option ρ := T.rows.find? fun r => key r = k

theorem find?_eq_some {T : Table key} {k : κ} {r : ρ} :
    T.find? k = some r ↔ r ∈ T.rows ∧ key r = k := by
  constructor
  · intro h
    exact ⟨List.mem_of_find?_eq_some h, by simpa using List.find?_some h⟩
  · rintro ⟨hr, rfl⟩
    cases hf : T.find? (key r) with
    | none =>
      have := List.find?_eq_none.1 hf r hr
      simp at this
    | some s =>
      have hs : key s = key r := by simpa using List.find?_some hf
      rw [eq_of_key (List.mem_of_find?_eq_some hf) hr hs]

theorem find?_of_mem {T : Table key} {r : ρ} (h : r ∈ T.rows) : T.find? (key r) = some r :=
  find?_eq_some.2 ⟨h, rfl⟩

theorem find?_eq_none {T : Table key} {k : κ} : T.find? k = none ↔ k ∉ T.keys := by
  rw [mem_keys, find?, List.find?_eq_none]
  simp

theorem find?_isSome {T : Table key} {k : κ} : (T.find? k).isSome ↔ k ∈ T.keys := by
  cases h : T.find? k with
  | none => simpa using find?_eq_none.1 h
  | some r =>
    obtain ⟨hr, rfl⟩ := find?_eq_some.1 h
    simpa using key_mem hr

theorem exists_find? {T : Table key} {k : κ} : (∃ r, T.find? k = some r) ↔ k ∈ T.keys := by
  rw [← find?_isSome, Option.isSome_iff_exists]

theorem find?_key {T : Table key} {k : κ} {r : ρ} (h : T.find? k = some r) : key r = k :=
  (find?_eq_some.1 h).2

theorem find?_mem {T : Table key} {k : κ} {r : ρ} (h : T.find? k = some r) : r ∈ T.rows :=
  (find?_eq_some.1 h).1

/-- The row under a key is the only one there. -/
theorem filter_key {T : Table key} {k : κ} {r : ρ} (h : T.find? k = some r) :
    T.rows.filter (key · = k) = [r] := by
  obtain ⟨hr, rfl⟩ := find?_eq_some.1 h
  have hsame : ∀ s ∈ T.rows.filter (key · = key r), s = r := fun s hs => by
    obtain ⟨hs, hk⟩ := List.mem_filter.1 hs
    exact eq_of_key hs hr (by simpa using hk)
  have hrep := List.eq_replicate_of_mem hsame
  have hone : (T.rows.filter (key · = key r)).length ≤ 1 := by
    rw [← List.nodup_replicate (a := r), ← hrep]
    exact (List.Nodup.of_map _ T.nodup).filter _
  have hmem : r ∈ T.rows.filter (key · = key r) := List.mem_filter.2 ⟨hr, by simp⟩
  have hlen : (T.rows.filter (key · = key r)).length = 1 := by
    have := List.length_pos_of_mem hmem
    omega
  rw [hrep, hlen]
  rfl

/-- `INSERT`: refused when the primary key is taken. -/
def insert? (T : Table key) (r : ρ) : Option (Table key) :=
  if h : key r ∈ T.keys then none
  else some ⟨T.rows ++ [r], by
    rw [List.map_append, List.nodup_append]
    refine ⟨T.nodup, by simp, ?_⟩
    intro a ha b hb hab
    simp only [List.map_cons, List.map_nil, List.mem_singleton] at hb
    exact h (hb ▸ hab ▸ ha)⟩

theorem insert?_eq_some {T U : Table key} {r : ρ} :
    T.insert? r = some U ↔ key r ∉ T.keys ∧ U.rows = T.rows ++ [r] := by
  unfold insert?
  split
  · rename_i h
    simp [h]
  · rename_i h
    simp only [Option.some.injEq, h, not_false_eq_true, true_and]
    exact ⟨fun e => e ▸ rfl, fun e => ext e.symm⟩

theorem insert?_eq_none {T : Table key} {r : ρ} : T.insert? r = none ↔ key r ∈ T.keys := by
  unfold insert?
  split
  · rename_i h
    simp [h]
  · rename_i h
    simp [h]

theorem find?_insert {T U : Table key} {r : ρ} (h : T.insert? r = some U) (k : κ) :
    U.find? k = if key r = k then some r else T.find? k := by
  obtain ⟨hk, hrows⟩ := insert?_eq_some.1 h
  split
  · rename_i e
    exact find?_eq_some.2 ⟨by rw [hrows]; simp, e⟩
  · rename_i e
    simp [find?, hrows, e]

theorem keys_insert {T U : Table key} {r : ρ} (h : T.insert? r = some U) :
    U.keys = T.keys ++ [key r] := by
  simp [keys, (insert?_eq_some.1 h).2]

/-- `INSERT OR IGNORE`: the row of the same key, when there is one, stays. -/
def insertOrIgnore (T : Table key) (r : ρ) : Table key := (T.insert? r).getD T

theorem mem_insertOrIgnore {T : Table key} {r s : ρ} :
    s ∈ (T.insertOrIgnore r).rows ↔ s ∈ T.rows ∨ (s = r ∧ key r ∉ T.keys) := by
  unfold insertOrIgnore
  cases h : T.insert? r with
  | none =>
    have hk := insert?_eq_none.1 h
    simp [hk]
  | some U =>
    obtain ⟨hk, hrows⟩ := insert?_eq_some.1 h
    simp [hrows, hk]

theorem mem_keys_insertOrIgnore {T : Table key} {r : ρ} {k : κ} :
    k ∈ (T.insertOrIgnore r).keys ↔ k ∈ T.keys ∨ k = key r := by
  unfold insertOrIgnore
  cases h : T.insert? r with
  | none =>
    have hk := insert?_eq_none.1 h
    simp only [Option.getD_none]
    exact ⟨Or.inl, fun hor => hor.elim id fun e => e ▸ hk⟩
  | some U =>
    simp [keys_insert h]

theorem find?_insertOrIgnore (T : Table key) (r : ρ) (k : κ) :
    (T.insertOrIgnore r).find? k = (T.find? k).or (if key r = k then some r else none) := by
  unfold insertOrIgnore
  cases h : T.insert? r with
  | none =>
    rw [Option.getD_none]
    split
    · rename_i e
      have hk : (T.find? k).isSome := find?_isSome.2 (e ▸ insert?_eq_none.1 h)
      rw [Option.or_of_isSome hk]
    · rw [Option.or_none]
  | some U =>
    rw [Option.getD_some, find?_insert h]
    split
    · rename_i e
      have hk : T.find? k = none := find?_eq_none.2 (e ▸ (insert?_eq_some.1 h).1)
      rw [hk, Option.none_or]
    · rw [Option.or_none]

/-- `INSERT OR REPLACE`: the row of the same key, when there is one, is deleted first. -/
def put (T : Table key) (r : ρ) : Table key :=
  ⟨T.rows.filter (fun s => key s ≠ key r) ++ [r], by
    rw [List.map_append, List.nodup_append]
    refine ⟨T.nodup.sublist (List.filter_sublist.map key), by simp, ?_⟩
    intro a ha b hb hab
    simp only [List.map_cons, List.map_nil, List.mem_singleton] at hb
    obtain ⟨s, hs, rfl⟩ := List.mem_map.1 ha
    exact absurd (hab.trans hb) (by simpa using (List.mem_filter.1 hs).2)⟩

theorem find?_put (T : Table key) (r : ρ) (k : κ) :
    (T.put r).find? k = if key r = k then some r else T.find? k := by
  split
  · rename_i e
    exact find?_eq_some.2 ⟨by simp [put], e⟩
  · rename_i e
    unfold find? put
    simp only [ne_eq, List.find?_append, List.find?_singleton, decide_eq_true_eq, e, if_false,
      Option.or_none, List.find?_filter]
    congr 1
    funext s
    by_cases hs : key s = k
    · simp [hs, Ne.symm e]
    · simp [hs]

theorem mem_keys_put {T : Table key} {r : ρ} {k : κ} :
    k ∈ (T.put r).keys ↔ k = key r ∨ k ∈ T.keys := by
  rw [← find?_isSome, ← find?_isSome, find?_put]
  by_cases h : key r = k
  · simp [h]
  · simp [h, Ne.symm h]

section Update

variable {p : ρ → Prop} [DecidablePred p] {f : ρ → ρ} (hf : ∀ r, key (f r) = key r)

theorem find?_update (T : Table key) (k : κ) :
    (T.update p f hf).find? k = (T.find? k).map fun r => if p r then f r else r := by
  cases h : T.find? k with
  | none =>
    rw [Option.map_none, find?_eq_none, keys_update]
    exact find?_eq_none.1 h
  | some r =>
    obtain ⟨hr, hk⟩ := find?_eq_some.1 h
    refine find?_eq_some.2 ⟨(mem_update hf).2 ⟨r, hr, rfl⟩, ?_⟩
    dsimp only
    split
    · rw [hf r, hk]
    · exact hk

end Update

/-- `UPDATE … WHERE key = k`. -/
def modify (T : Table key) (k : κ) (f : ρ → ρ) (hf : ∀ r, key (f r) = key r) : Table key :=
  T.update (fun r => key r = k) f hf

section Modify

variable {f : ρ → ρ} (hf : ∀ r, key (f r) = key r)

@[simp] theorem keys_modify (T : Table key) (k : κ) : (T.modify k f hf).keys = T.keys :=
  keys_update hf T

theorem find?_modify (T : Table key) (k j : κ) :
    (T.modify k f hf).find? j = if j = k then (T.find? j).map f else T.find? j := by
  rw [modify, find?_update]
  cases h : T.find? j with
  | none => simp
  | some r =>
    have hk := find?_key h
    by_cases e : j = k
    · simp [hk, e]
    · simp [hk, e]

end Modify

theorem find?_delete (T : Table key) (p : ρ → Prop) [DecidablePred p] (k : κ) :
    (T.delete p).find? k = (T.find? k).filter fun r => ¬ p r := by
  cases h : T.find? k with
  | none =>
    rw [Option.filter_none, find?_eq_none, mem_keys]
    rintro ⟨r, hr, rfl⟩
    exact find?_eq_none.1 h (key_mem (mem_delete.1 hr).1)
  | some r =>
    obtain ⟨hr, hk⟩ := find?_eq_some.1 h
    by_cases hp : p r
    · rw [Option.filter_some, if_neg (by simpa using hp), find?_eq_none, mem_keys]
      rintro ⟨s, hs, he⟩
      obtain ⟨hs, hps⟩ := mem_delete.1 hs
      exact hps (eq_of_key hs hr (he.trans hk.symm) ▸ hp)
    · rw [Option.filter_some, if_pos (by simpa using hp)]
      exact find?_eq_some.2 ⟨mem_delete.2 ⟨hr, hp⟩, hk⟩

/-- `DELETE … WHERE key = k`. -/
def erase (T : Table key) (k : κ) : Table key := T.delete fun r => key r = k

theorem find?_erase (T : Table key) (k j : κ) :
    (T.erase k).find? j = if j = k then none else T.find? j := by
  rw [erase, find?_delete]
  cases h : T.find? j with
  | none => simp
  | some r =>
    have hk := find?_key h
    by_cases e : j = k
    · simp [hk, e]
    · simp [hk, e]

theorem mem_keys_erase {T : Table key} {k j : κ} :
    j ∈ (T.erase k).keys ↔ j ≠ k ∧ j ∈ T.keys := by
  rw [← find?_isSome, ← find?_isSome, find?_erase]
  by_cases h : j = k
  · simp [h]
  · simp [h]

end DecEq

/-! ## Rows in the order of their key -/

/-- Tables with the same rows list them alike in the order of the key. -/
theorem insertionSort_eq [LinearOrder κ] {T U : Table key} (h : ∀ k, T.find? k = U.find? k) :
    (T.rows.insertionSort fun a b => key a ≤ key b) =
      U.rows.insertionSort fun a b => key a ≤ key b := by
  have hmem : ∀ r, r ∈ T.rows ↔ r ∈ U.rows := by
    intro r
    constructor
    · intro hr
      exact find?_mem ((h (key r)).symm.trans (find?_of_mem hr))
    · intro hr
      exact find?_mem ((h (key r)).trans (find?_of_mem hr))
  have hperm : T.rows.Perm U.rows :=
    (List.perm_ext_iff_of_nodup (List.Nodup.of_map _ T.nodup) (List.Nodup.of_map _ U.nodup)).2 hmem
  exact insertionSort_perm hperm U.nodup

end Table

/-- The writes of a fold at one key, when they all write the same value. -/
theorem foldl_update_eq {α κ γ : Type} [DecidableEq κ] {key : α → κ} {val : α → γ} {l : List α} {k : κ}
    {x : γ} (hval : ∀ a ∈ l, key a = k → val a = x) (T : κ → γ) (h : T k = x ∨ ∃ a ∈ l, key a = k) :
    l.foldl (fun T a => Function.update T (key a) (val a)) T k = x := by
  induction l generalizing T with
  | nil =>
    rcases h with h | ⟨a, ha, -⟩
    · exact h
    · cases ha
  | cons a l ih =>
    rw [List.foldl_cons]
    refine ih (fun b hb => hval b (List.mem_cons_of_mem _ hb)) _ ?_
    by_cases ha : key a = k
    · left
      rw [ha, Function.update_self]
      exact hval a (by simp) ha
    · rw [Function.update_of_ne (Ne.symm ha)]
      refine h.imp_right ?_
      rintro ⟨b, hb, hk⟩
      rcases List.mem_cons.1 hb with rfl | hb
      · exact absurd hk ha
      · exact ⟨b, hb, hk⟩

end KeysCore.Lib
