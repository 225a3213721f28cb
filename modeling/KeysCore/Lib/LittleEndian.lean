import Mathlib.Data.Int.Order.Basic
import Mathlib.Tactic.Positivity
import Mathlib.Tactic.Zify

/-!
# Little-endian integers

Integers of a fixed width in bytes, the lowest byte first, and the signed ones in two's complement.
-/

namespace KeysCore.Lib

/-- The low `w` bytes of a number. -/
def littleEndian : Nat → Nat → List UInt8
  | 0, _ => []
  | w + 1, n => UInt8.ofNat n :: littleEndian w (n / 256)

/-- The number of some bytes. -/
def ofLittleEndian : List UInt8 → Nat
  | [] => 0
  | b :: bs => b.toNat + 256 * ofLittleEndian bs

@[simp] theorem length_littleEndian (w n : Nat) : (littleEndian w n).length = w := by
  induction w generalizing n with
  | zero => rfl
  | succ w ih => simp [littleEndian, ih]

theorem littleEndian_eq_map (w n : Nat) :
    littleEndian w n = (List.range w).map fun i => UInt8.ofNat (n / 256 ^ i) := by
  induction w generalizing n with
  | zero => rfl
  | succ w ih =>
    rw [littleEndian, ih, List.range_succ_eq_map, List.map_cons, List.map_map, Nat.pow_zero, Nat.div_one]
    congr 1
    apply List.map_congr_left
    intro i _
    rw [Function.comp_apply, Nat.div_div_eq_div_mul, ← Nat.pow_succ']

theorem ofLittleEndian_eq_foldr (bs : List UInt8) :
    ofLittleEndian bs = bs.foldr (fun b n => b.toNat + 256 * n) 0 := by
  induction bs with
  | nil => rfl
  | cons b bs ih => rw [ofLittleEndian, List.foldr_cons, ih]

theorem ofLittleEndian_littleEndian (w n : Nat) : ofLittleEndian (littleEndian w n) = n % 256 ^ w := by
  induction w generalizing n with
  | zero => simp [littleEndian, ofLittleEndian, Nat.mod_one]
  | succ w ih =>
    have hbyte : (UInt8.ofNat n).toNat = n % 256 := by simp
    rw [littleEndian, ofLittleEndian, hbyte, ih, Nat.pow_succ', Nat.mod_mul]

/-! ## Signed -/

/-- `n` is a signed number of `w` bytes. -/
def Fits (w : Nat) (n : Int) : Prop := -(256 ^ w : Int) ≤ 2 * n ∧ 2 * n < 256 ^ w

instance (w : Nat) (n : Int) : Decidable (Fits w n) :=
  inferInstanceAs (Decidable (_ ∧ _))

/-- The `w` bytes of an integer in two's complement. -/
def littleEndianInt (w : Nat) (n : Int) : List UInt8 := littleEndian w (n % 256 ^ w).toNat

/-- The integer of some bytes in two's complement. -/
def ofLittleEndianInt (bs : List UInt8) : Int :=
  if 2 * (ofLittleEndian bs : Int) < 256 ^ bs.length then ofLittleEndian bs
  else ofLittleEndian bs - 256 ^ bs.length

@[simp] theorem length_littleEndianInt (w : Nat) (n : Int) : (littleEndianInt w n).length = w :=
  length_littleEndian w _

theorem ofLittleEndianInt_littleEndianInt {w : Nat} {n : Int} (h : Fits w n) :
    ofLittleEndianInt (littleEndianInt w n) = n := by
  have hpos : (0 : Int) < 256 ^ w := by positivity
  have hcast : ((ofLittleEndian (littleEndianInt w n) : Nat) : Int) = n % 256 ^ w := by
    have hnonneg : 0 ≤ n % (256 ^ w : Int) := Int.emod_nonneg n (by omega)
    have hlt : (n % (256 ^ w : Int)).toNat < 256 ^ w := by
      have := Int.emod_lt_of_pos n hpos
      zify
      omega
    rw [littleEndianInt, ofLittleEndian_littleEndian, Nat.mod_eq_of_lt hlt,
      Int.toNat_of_nonneg hnonneg]
  obtain ⟨hlow, hhigh⟩ := h
  rw [ofLittleEndianInt, hcast, length_littleEndianInt]
  by_cases hn : 0 ≤ n
  · rw [Int.emod_eq_of_lt hn (by omega), if_pos hhigh]
  · have hmod : n % (256 ^ w : Int) = n + 256 ^ w := by
      rw [← Int.add_emod_right, Int.emod_eq_of_lt (by omega) (by omega)]
    rw [hmod, if_neg (by omega)]
    omega

end KeysCore.Lib
