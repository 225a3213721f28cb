import Mathlib.Data.Nat.Bitwise
import Mathlib.Data.List.Induction

/-!
# Bit strings

The low bits of a number, the highest first, and the number of a bit string. A text of `w`-bit numbers
with fewer than `w` bits after it is read in one way (`flatMap_toBits_append_inj`).
-/

namespace KeysCore.Lib

/-- The low `w` bits of a number, the highest first. -/
def toBits : Nat → Nat → List Bool
  | 0, _ => []
  | w + 1, n => n.testBit w :: toBits w n

/-- The number of a bit string, the highest bit first. -/
def ofBits (bs : List Bool) : Nat := bs.foldl (fun n b => 2 * n + b.toNat) 0

@[simp] theorem length_toBits (w n : Nat) : (toBits w n).length = w := by
  induction w with
  | zero => rfl
  | succ w ih => simp [toBits, ih]

theorem toBits_eq_iff {w m n : Nat} : toBits w m = toBits w n ↔ ∀ i < w, m.testBit i = n.testBit i := by
  induction w with
  | zero => simp [toBits]
  | succ w ih =>
    rw [toBits, toBits, List.cons.injEq, ih]
    constructor
    · rintro ⟨hw, hlow⟩ i hi
      rcases Nat.lt_succ_iff_lt_or_eq.1 hi with hi | rfl
      · exact hlow i hi
      · exact hw
    · exact fun h => ⟨h w (by omega), fun i hi => h i (by omega)⟩

theorem toBits_add (a b n : Nat) : toBits (a + b) n = toBits a (n >>> b) ++ toBits b n := by
  induction a with
  | zero => rw [Nat.zero_add]; rfl
  | succ a ih =>
    rw [Nat.succ_add, toBits, toBits, ih, Nat.testBit_shiftRight, Nat.add_comm b a]
    rfl

theorem toBits_injective {w m n : Nat} (hm : m < 2 ^ w) (hn : n < 2 ^ w) (h : toBits w m = toBits w n) :
    m = n := by
  refine Nat.eq_of_testBit_eq fun i => ?_
  by_cases hi : i < w
  · exact toBits_eq_iff.1 h i hi
  · have hle : 2 ^ w ≤ 2 ^ i := Nat.pow_le_pow_right (by omega) (by omega)
    rw [Nat.testBit_lt_two_pow (hm.trans_le hle), Nat.testBit_lt_two_pow (hn.trans_le hle)]

theorem ofBits_append (bs : List Bool) (b : Bool) : ofBits (bs ++ [b]) = 2 * ofBits bs + b.toNat := by
  simp [ofBits]

theorem ofBits_lt (bs : List Bool) : ofBits bs < 2 ^ bs.length := by
  induction bs using List.reverseRecOn with
  | nil => decide
  | append_singleton bs b ih =>
    rw [ofBits_append, List.length_append, List.length_singleton, Nat.pow_succ]
    have hb : b.toNat < 2 := b.toNat_lt
    omega

theorem toBits_ofBits (bs : List Bool) : toBits bs.length (ofBits bs) = bs := by
  induction bs using List.reverseRecOn with
  | nil => rfl
  | append_singleton bs b ih =>
    have hb : b.toNat < 2 := b.toNat_lt
    have hhigh : (2 * ofBits bs + b.toNat) >>> 1 = ofBits bs := by
      rw [Nat.shiftRight_one]
      omega
    have hlow : toBits 1 (2 * ofBits bs + b.toNat) = [b] := by
      cases b <;> simp [toBits, Nat.testBit_zero]
    rw [List.length_append, List.length_singleton, ofBits_append, toBits_add, hhigh, ih, hlow]

/-- A text of `w`-bit numbers with fewer than `w` bits after it is read in one way. -/
theorem flatMap_toBits_append_inj {w : Nat} {a b : List Nat} {r s : List Bool}
    (ha : ∀ n ∈ a, n < 2 ^ w) (hb : ∀ n ∈ b, n < 2 ^ w) (hr : r.length < w) (hs : s.length < w)
    (h : a.flatMap (toBits w) ++ r = b.flatMap (toBits w) ++ s) : a = b ∧ r = s := by
  induction a generalizing b with
  | nil =>
    cases b with
    | nil => exact ⟨rfl, h⟩
    | cons n b =>
      have hlen := congrArg List.length h
      simp only [List.flatMap_nil, List.nil_append, List.flatMap_cons, List.length_append,
        length_toBits] at hlen
      omega
  | cons m a ih =>
    cases b with
    | nil =>
      have hlen := congrArg List.length h
      simp only [List.flatMap_nil, List.nil_append, List.flatMap_cons, List.length_append,
        length_toBits] at hlen
      omega
    | cons n b =>
      rw [List.flatMap_cons, List.flatMap_cons, List.append_assoc, List.append_assoc] at h
      obtain ⟨hhead, htail⟩ := List.append_inj h (by simp)
      obtain rfl := toBits_injective (ha m (by simp)) (hb n (by simp)) hhead
      obtain ⟨rfl, rfl⟩ := ih (fun n hn => ha n (by simp [hn])) (fun n hn => hb n (by simp [hn])) htail
      exact ⟨rfl, rfl⟩

end KeysCore.Lib
