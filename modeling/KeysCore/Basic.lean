import Mathlib.Order.Defs.LinearOrder
import Mathlib.Order.WithBot
import Mathlib.Data.Prod.Lex
import Mathlib.Data.String.Basic
import Mathlib.Order.Fin.Basic
import Mathlib.Algebra.Order.Ring.Int

/-!
# Identifiers and instants

`Uuid` is the 128-bit identifier of groups and entries. The mirror stores it as the lowercase
hyphenated text; that text is of fixed length and most significant digit first, so the order SQLite
and the merge use on the text is the numeric order used here.

A `DateTime` is a UTC instant of chrono (nanosecond resolution, bounded range); an `EpochMs` is a
timestamp column, milliseconds since the epoch, as every column is written from an instant. Two
readers of such a column exist: `EpochMs.floored` drops to the whole second a KDBX file stores
(`projection::ms_to_dt`), `EpochMs.toDateTime` does not (`meta::ms_to_dt`).
-/

namespace KeysCore

/-! ## Identifiers -/

/-- A 128-bit identifier. -/
def Uuid : Type := Fin (2 ^ 128)

namespace Uuid

instance instNeZeroCount : NeZero (2 ^ 128 : Nat) := inferInstance
instance : LinearOrder Uuid := inferInstanceAs (LinearOrder (Fin (2 ^ 128)))
instance : LawfulBEq Uuid := inferInstance
instance : Inhabited Uuid := ⟨(⟨0, by decide⟩ : Fin (2 ^ 128))⟩
instance (n : Nat) : OfNat Uuid n := ⟨Fin.ofNat (2 ^ 128) n⟩

end Uuid

/-- A built-in icon number, `u32` in the source. -/
def IconIndex : Type := Fin (2 ^ 32)

namespace IconIndex

instance : LinearOrder IconIndex := inferInstanceAs (LinearOrder (Fin (2 ^ 32)))
instance (n : Nat) : OfNat IconIndex n := ⟨Fin.ofNat (2 ^ 32) n⟩

end IconIndex

/-- Bytes are compared in one way everywhere. -/
instance instLawfulBEqBytes : LawfulBEq (List UInt8) := inferInstance

/-! ## Instants -/

/-- The first second of chrono's range, `-262143-01-01T00:00:00Z`. -/
def minSecond : Int := -8334601228800

/-- The last second of chrono's range, `262142-12-31T23:59:59Z`. -/
def maxSecond : Int := 8210266876799

/-- A UTC instant: nanoseconds since the epoch, inside chrono's range. -/
structure DateTime where
  nanos : Int
  inRange : minSecond ≤ nanos / 1000000000 ∧ nanos / 1000000000 ≤ maxSecond

/-- A timestamp column: milliseconds since the epoch, inside chrono's range. -/
structure EpochMs where
  val : Int
  inRange : minSecond ≤ val / 1000 ∧ val / 1000 ≤ maxSecond

namespace DateTime

@[ext] theorem ext {a b : DateTime} (h : a.nanos = b.nanos) : a = b := by
  cases a; cases b; cases h; rfl

theorem nanos_injective : Function.Injective nanos := fun _ _ h => ext h

instance : LinearOrder DateTime := LinearOrder.lift' nanos nanos_injective

theorem le_iff {a b : DateTime} : a ≤ b ↔ a.nanos ≤ b.nanos := Iff.rfl

theorem lt_iff {a b : DateTime} : a < b ↔ a.nanos < b.nanos := Iff.rfl

end DateTime

namespace EpochMs

@[ext] theorem ext {a b : EpochMs} (h : a.val = b.val) : a = b := by
  cases a; cases b; cases h; rfl

theorem val_injective : Function.Injective val := fun _ _ h => ext h

instance : LinearOrder EpochMs := LinearOrder.lift' val val_injective

theorem le_iff {a b : EpochMs} : a ≤ b ↔ a.val ≤ b.val := Iff.rfl

theorem lt_iff {a b : EpochMs} : a < b ↔ a.val < b.val := Iff.rfl

instance : Inhabited EpochMs := ⟨⟨0, by decide⟩⟩

/-- The millisecond column read at full resolution (`meta::ms_to_dt`). -/
def toDateTime (t : EpochMs) : DateTime :=
  ⟨t.val * 1000000, by
    have := t.inRange
    omega⟩

/-- `ms - ms.rem_euclid(1000)`: the column at the whole second below it. -/
def floorSecond (t : EpochMs) : EpochMs :=
  ⟨t.val - t.val % 1000, by
    have := t.inRange
    omega⟩

/-- The column as a projected instant, floored to the whole second (`projection::ms_to_dt`). -/
def floored (t : EpochMs) : DateTime := t.floorSecond.toDateTime

end EpochMs

namespace DateTime

/-- `timestamp_millis`, rounding down. -/
def timestampMillis (t : DateTime) : EpochMs :=
  ⟨t.nanos / 1000000, by
    have := t.inRange
    omega⟩

/-- `floor_to_second`: the whole second at or below the instant. -/
def floorToSecond (t : DateTime) : DateTime := t.timestampMillis.floored

/-- `checked_add_signed` of whole seconds: absent past the end of the range. -/
def checkedAddSeconds (t : DateTime) (n : Nat) : Option DateTime :=
  if h : (t.nanos + n * 1000000000) / 1000000000 ≤ maxSecond then
    some ⟨t.nanos + n * 1000000000, by
      have := t.inRange
      omega⟩
  else none

end DateTime

/-- The instant at a whole second. -/
def DateTime.atSecond (s : Int)
    (h : decide (minSecond ≤ s ∧ s ≤ maxSecond) = true := by exact Eq.refl true) : DateTime :=
  ⟨s * 1000000000, by have := of_decide_eq_true h; omega⟩

/-- The column value at a whole second. -/
def EpochMs.atSecond (s : Int)
    (h : decide (minSecond ≤ s ∧ s ≤ maxSecond) = true := by exact Eq.refl true) : EpochMs :=
  ⟨s * 1000, by have := of_decide_eq_true h; omega⟩

/-- A column written from an optional instant, `0` when absent. -/
def dtToMs (t : Option DateTime) : EpochMs :=
  match t with
  | some d => d.timestampMillis
  | none => ⟨0, by decide⟩

/-! ## Laws of the readers -/

namespace EpochMs

@[simp] theorem floorSecond_floorSecond (t : EpochMs) :
    t.floorSecond.floorSecond = t.floorSecond := by
  apply ext
  simp only [floorSecond]
  omega

@[simp] theorem timestampMillis_toDateTime (t : EpochMs) : t.toDateTime.timestampMillis = t := by
  apply ext
  simp only [toDateTime, DateTime.timestampMillis]
  omega

@[simp] theorem timestampMillis_floored (t : EpochMs) :
    t.floored.timestampMillis = t.floorSecond := by
  simp [floored]

theorem floorSecond_le (t : EpochMs) : t.floorSecond ≤ t := by
  rw [le_iff]
  simp only [floorSecond]
  omega

theorem toDateTime_le {s t : EpochMs} : s.toDateTime ≤ t.toDateTime ↔ s ≤ t := by
  rw [DateTime.le_iff, le_iff]
  simp only [toDateTime]
  omega

theorem toDateTime_lt {s t : EpochMs} : s.toDateTime < t.toDateTime ↔ s < t := by
  rw [← not_le, ← not_le, toDateTime_le]

theorem toDateTime_injective : Function.Injective toDateTime := fun s t h => by
  rw [← timestampMillis_toDateTime s, h, timestampMillis_toDateTime]

end EpochMs

namespace DateTime

@[simp] theorem floorToSecond_floored (t : EpochMs) : t.floored.floorToSecond = t.floored := by
  simp [floorToSecond, EpochMs.floored]

@[simp] theorem floorToSecond_floorToSecond (t : DateTime) :
    t.floorToSecond.floorToSecond = t.floorToSecond :=
  floorToSecond_floored t.timestampMillis

end DateTime

end KeysCore
