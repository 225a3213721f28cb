import Mathlib.Logic.Function.Basic

/-!
# Records in named rows

A record kept in a table of named byte strings, a row a field. The rows hold the record when each of its
fields is read from its row; writing a field changes that field of the record held, and writing anything
else changes nothing.
-/

namespace KeysCore.Lib

/-- How the fields of a record are named, written and read. A field may have no row. -/
structure Columns (K : Type) (V : K → Type) (B E : Type) where
  name : K → String
  encode : ∀ k, V k → Option B
  decode : ∀ k, Option B → Except E (V k)
  name_injective : Function.Injective name

namespace Columns

variable {K : Type} {V : K → Type} {B E : Type} (C : Columns K V B E) {rows : String → Option B}
  {v w : ∀ k, V k} {k : K} {a : V k}

/-- The rows hold the record `v`. -/
def Holds (rows : String → Option B) (v : ∀ k, V k) : Prop :=
  ∀ k, C.decode k (rows (C.name k)) = .ok (v k)

/-- A value that is read back as it was written. -/
def Returns (k : K) (a : V k) : Prop := C.decode k (C.encode k a) = .ok a

/-- The row of one field written. -/
def write (k : K) (a : V k) (rows : String → Option B) : String → Option B :=
  Function.update rows (C.name k) (C.encode k a)

/-- The rows of some fields written, in turn. -/
def writeAll (v : ∀ k, V k) (ks : List K) (rows : String → Option B) : String → Option B :=
  ks.foldl (fun rows k => C.write k (v k) rows) rows

variable {C}

/-- Rows hold one record. -/
theorem Holds.unique (hv : C.Holds rows v) (hw : C.Holds rows w) : v = w := by
  funext k
  have h := (hv k).symm.trans (hw k)
  exact Except.ok.inj h

theorem write_name (rows : String → Option B) : C.write k a rows (C.name k) = C.encode k a :=
  Function.update_self ..

theorem write_of_ne {key : String} (h : key ≠ C.name k) : C.write k a rows key = rows key :=
  Function.update_of_ne h ..

theorem Holds.write [DecidableEq K] (h : C.Holds rows v) (ha : C.Returns k a) :
    C.Holds (C.write k a rows) (Function.update v k a) := by
  intro j
  by_cases hj : j = k
  · subst hj
    rw [write_name, Function.update_self]
    exact ha
  · rw [write_of_ne fun e => hj (C.name_injective e), Function.update_of_ne hj]
    exact h j

/-- A row that is no field's changes nothing. -/
theorem Holds.other (h : C.Holds rows v) {rows' : String → Option B}
    (hrows : ∀ k, rows' (C.name k) = rows (C.name k)) : C.Holds rows' v := by
  intro k
  rw [hrows k]
  exact h k

theorem writeAll_other {ks : List K} {key : String} (h : ∀ k ∈ ks, key ≠ C.name k) :
    C.writeAll v ks rows key = rows key := by
  induction ks generalizing rows with
  | nil => rfl
  | cons k ks ih =>
    have hrest : C.writeAll v ks (C.write k (v k) rows) key = C.write k (v k) rows key :=
      ih fun j hj => h j (List.mem_cons_of_mem _ hj)
    exact hrest.trans (write_of_ne (h k List.mem_cons_self))

theorem writeAll_name {ks : List K} (h : k ∈ ks) (rows : String → Option B) :
    C.writeAll v ks rows (C.name k) = C.encode k (v k) := by
  induction ks generalizing rows with
  | nil => cases h
  | cons j ks ih =>
    by_cases hk : k ∈ ks
    · exact ih hk _
    · have hj : k = j := (List.mem_cons.1 h).resolve_right hk
      subst hj
      have hrest : C.writeAll v ks (C.write k (v k) rows) (C.name k) = C.write k (v k) rows (C.name k) :=
        writeAll_other fun i hi e => hk (C.name_injective e ▸ hi)
      exact hrest.trans (write_name rows)

/-- **Rows with every field written hold the record.** -/
theorem holds_of_encode (hrows : ∀ k, rows (C.name k) = C.encode k (v k)) (hv : ∀ k, C.Returns k (v k)) :
    C.Holds rows v := by
  intro k
  rw [hrows k]
  exact hv k

end Columns

end KeysCore.Lib
