import KeysCore.Lib.Bits
import KeysCore.Totp

/-!
# Base32 decoding inverts the encoding

The encoding of RFC 4648 §6 cuts the bits of the bytes into groups of five, the last filled up with zeros,
and writes each as a character. `base32_decode` shifts the groups into a 32-bit word that is never
cleared. What carries it over a text of any length is `HoldsBits`: the bytes emitted and the low `bits` bits
of the word are the bits read so far, and there are fewer than eight of the latter.
-/

namespace KeysCore.Verify

open Lib Totp

/-! ## The encoding -/

/-- The bits of a byte string. -/
def byteBits (bytes : List UInt8) : List Bool := bytes.flatMap fun b => toBits 8 b.toNat

/-- Groups of five bits, the last filled up with zeros on the right. -/
def quintets : List Bool → List Nat
  | b₀ :: b₁ :: b₂ :: b₃ :: b₄ :: rest => ofBits [b₀, b₁, b₂, b₃, b₄] :: quintets rest
  | [] => []
  | bits => [ofBits (bits ++ List.replicate (5 - bits.length) false)]

/-- The encoding of RFC 4648 §6, without its padding. -/
def base32Encode (bytes : List UInt8) : List Char :=
  (quintets (byteBits bytes)).map fun i => alphabet.getD i '='

/-- The characters `base32_decode` passes over. -/
def Skipped (c : Char) : Prop := c = '=' ∨ c = ' '

instance (c : Char) : Decidable (Skipped c) := inferInstanceAs (Decidable (_ ∨ _))

/-- A text that differs from the encoding of `bytes` in the case of letters, and in the spaces and the
padding signs it has. -/
def Decorates (s : String) (bytes : List UInt8) : Prop :=
  (s.toList.filter (¬ Skipped ·)).map Char.toUpper = base32Encode bytes

/-- The encoding padded to groups of eight characters. -/
def base32EncodePadded (bytes : List UInt8) : String :=
  String.ofList (base32Encode bytes ++ List.replicate ((8 - (base32Encode bytes).length % 8) % 8) '=')

theorem quintets_short {bits : List Bool} (hne : bits ≠ []) (hlen : bits.length < 5) :
    quintets bits = [ofBits (bits ++ List.replicate (5 - bits.length) false)] := by
  match bits, hne, hlen with
  | [_], _, _ => rfl
  | [_, _], _, _ => rfl
  | [_, _, _], _, _ => rfl
  | [_, _, _, _], _, _ => rfl

/-- The groups are the bits, with fewer than five zeros after them. -/
theorem quintets_bits (bits : List Bool) : (∀ i ∈ quintets bits, i < 32) ∧
    ∃ k < 5, (quintets bits).flatMap (toBits 5) = bits ++ List.replicate k false := by
  induction bits using quintets.induct with
  | case1 b₀ b₁ b₂ b₃ b₄ rest ih =>
    obtain ⟨hrest, k, hk, hbits⟩ := ih
    have hhead : toBits 5 (ofBits [b₀, b₁, b₂, b₃, b₄]) = [b₀, b₁, b₂, b₃, b₄] :=
      toBits_ofBits [b₀, b₁, b₂, b₃, b₄]
    refine ⟨fun i hi => ?_, k, hk, ?_⟩
    · rcases List.mem_cons.1 hi with rfl | hi
      · exact ofBits_lt [b₀, b₁, b₂, b₃, b₄]
      · exact hrest i hi
    · rw [quintets, List.flatMap_cons, hbits, hhead]
      rfl
  | case2 => exact ⟨fun i hi => absurd hi List.not_mem_nil, 0, by omega, rfl⟩
  | case3 bits hlong hne =>
    have hlen : bits.length < 5 := by
      match bits, hlong with
      | [], _ | [_], _ | [_, _], _ | [_, _, _], _ | [_, _, _, _], _ => simp
      | b₀ :: b₁ :: b₂ :: b₃ :: b₄ :: rest, hlong => exact (hlong _ _ _ _ _ _ rfl).elim
    have hpos : 0 < bits.length := List.length_pos_iff.2 hne
    have hfull : (bits ++ List.replicate (5 - bits.length) false).length = 5 := by
      rw [List.length_append, List.length_replicate]
      omega
    rw [quintets_short hne hlen]
    refine ⟨fun i hi => ?_, 5 - bits.length, by omega, ?_⟩
    · obtain rfl := List.mem_singleton.1 hi
      have hlt := ofBits_lt (bits ++ List.replicate (5 - bits.length) false)
      rwa [hfull] at hlt
    · have hbits := toBits_ofBits (bits ++ List.replicate (5 - bits.length) false)
      rw [hfull] at hbits
      rw [List.flatMap_singleton, hbits]

/-! ## The decoder -/

/-- The digit of a character of the alphabet, of either case. -/
def base32Digit (c : Char) : Option Nat := alphabet.findIdx? (· = c.toUpper)

/-- A digit shifted into the word, with the byte that completes. -/
def feed (st : Accumulator) (idx : Nat) : Accumulator :=
  let value := (st.value <<< 5) ||| UInt32.ofNat idx
  let bits := st.bits + 5
  if bits ≥ 8 then
    { bits := bits - 8, value, out := st.out ++ [((value >>> (bits - 8)) &&& 0xFF).toUInt8] }
  else { st with bits, value }

/-- The digits of a text, when each of its characters is one or is passed over. -/
def digitsOf (cs : List Char) : Option (List Nat) := (cs.filter (¬ Skipped ·)).mapM base32Digit

/-- A step passes a character over, refuses it, or feeds its digit. -/
theorem base32Step_eq (st : Accumulator) (c : Char) :
    base32Step st c = if Skipped c then some st else (base32Digit c).map (feed st) := by
  have hfind : alphabet.findIdx? (fun a => a.val = c.toUpper.val) = base32Digit c := by
    unfold base32Digit
    simp only [Char.ext_iff]
  have hhigh : c.toUpper.val > 0x7F → base32Digit c = none := by
    intro hgt
    unfold base32Digit
    rw [List.findIdx?_eq_none_iff]
    have hall : ∀ a ∈ alphabet, a.val ≤ 0x7F := by
      have hcheck : alphabet.all (fun a => decide (a.val ≤ 0x7F)) = true := by decide
      simpa using hcheck
    intro a ha
    have hne : a ≠ c.toUpper := fun he => absurd (he ▸ hall a ha) (UInt32.not_le.2 hgt)
    simpa using hne
  unfold base32Step
  simp only [hfind]
  by_cases hskip : Skipped c
  · have hc : c = '=' ∨ c = ' ' := hskip
    rw [if_pos hc, if_pos hskip]
  have hc : ¬ (c = '=' ∨ c = ' ') := hskip
  rw [if_neg hc, if_neg hskip]
  by_cases hgt : c.toUpper.val > 0x7F
  · rw [if_pos hgt, hhigh hgt]
    rfl
  rw [if_neg hgt]
  cases base32Digit c with
  | none => rfl
  | some idx =>
    unfold feed
    simp only [Option.bind_eq_bind, Option.bind_some, Option.map_some]
    split_ifs <;> rfl

theorem foldlM_base32Step {st : Accumulator} {cs : List Char} :
    cs.foldlM base32Step st = (digitsOf cs).map fun idxs => idxs.foldl feed st := by
  induction cs generalizing st with
  | nil => rfl
  | cons c cs ih =>
    rw [List.foldlM_cons, base32Step_eq]
    unfold digitsOf at ih ⊢
    by_cases hskip : Skipped c
    · rw [if_pos hskip, List.filter_cons_of_neg (by simpa using hskip)]
      exact ih
    · rw [if_neg hskip, List.filter_cons_of_pos (by simpa using hskip), List.mapM_cons]
      cases base32Digit c with
      | none => rfl
      | some idx =>
        simp only [Option.map_some, Option.bind_eq_bind, Option.bind_some, ih]
        cases (cs.filter (¬ Skipped ·)).mapM base32Digit <;> rfl

/-- The bytes emitted and the low bits of the word are the bits of the digits read. -/
structure HoldsBits (st : Accumulator) (idxs : List Nat) : Prop where
  pending : st.bits.toNat < 8
  bits : byteBits st.out ++ toBits st.bits.toNat st.value.toNat = idxs.flatMap (toBits 5)

/-- The word after a digit is shifted in: the digit, and over it the bits the word had. -/
theorem toBits_shifted (value : UInt32) {idx w : Nat} (hidx : idx < 32) (hw : w ≤ 27) :
    toBits (w + 5) ((value <<< 5) ||| UInt32.ofNat idx).toNat = toBits w value.toNat ++ toBits 5 idx := by
  have hor : ((value <<< 5) ||| UInt32.ofNat idx).toNat = value.toNat <<< 5 % 2 ^ 32 ||| idx := by
    have hmod : (UInt32.ofNat idx).toNat = idx := by
      rw [UInt32.toNat_ofNat']
      omega
    rw [UInt32.toNat_or, UInt32.toNat_shiftLeft, hmod]
    rfl
  rw [hor, toBits_add]
  congr 1 <;> refine toBits_eq_iff.2 fun i hi => ?_
  · have hhigh : idx.testBit (5 + i) = false := by
      refine Nat.testBit_lt_two_pow (Nat.lt_of_lt_of_le (m := 2 ^ 5) hidx ?_)
      exact Nat.pow_le_pow_right (by omega) (by omega)
    rw [Nat.testBit_shiftRight, Nat.testBit_or, Nat.testBit_mod_two_pow, Nat.testBit_shiftLeft, hhigh]
    simp [show 5 + i < 32 by omega]
  · rw [Nat.testBit_or, Nat.testBit_mod_two_pow, Nat.testBit_shiftLeft]
    simp [show ¬ 5 ≤ i by omega]

/-- The byte emitted is the top of the pending bits. -/
theorem toBits_emitted (value r : UInt32) (hr : r.toNat < 32) :
    toBits 8 (((value >>> r) &&& 0xFF).toUInt8).toNat = toBits 8 (value.toNat >>> r.toNat) := by
  refine toBits_eq_iff.2 fun i hi => ?_
  have hbyte : (((value >>> r) &&& 0xFF).toUInt8).toNat = (value.toNat >>> r.toNat &&& 0xFF) % 2 ^ 8 := by
    rw [UInt32.toNat_toUInt8, UInt32.toNat_and, UInt32.toNat_shiftRight, Nat.mod_eq_of_lt hr]
    rfl
  have hmask : (0xFF : Nat).testBit i = true := by
    have hall : ∀ i < 8, (0xFF : Nat).testBit i = true := by decide
    exact hall i hi
  rw [hbyte, Nat.testBit_mod_two_pow, Nat.testBit_and, hmask]
  simp [hi]

/-- A digit fed keeps the invariant: it completes at most one byte. -/
theorem HoldsBits.feed {st : Accumulator} {idxs : List Nat} (h : HoldsBits st idxs) {idx : Nat}
    (hidx : idx < 32) : HoldsBits (feed st idx) (idxs ++ [idx]) := by
  have hpending := h.pending
  have hbits : (st.bits + 5).toNat = st.bits.toNat + 5 := by
    rw [UInt32.toNat_add]
    have h5 : (5 : UInt32).toNat = 5 := rfl
    omega
  have hread : byteBits st.out ++
      toBits (st.bits.toNat + 5) ((st.value <<< 5) ||| UInt32.ofNat idx).toNat =
        (idxs ++ [idx]).flatMap (toBits 5) := by
    rw [toBits_shifted st.value hidx (by omega), ← List.append_assoc, h.bits, List.flatMap_append,
      List.flatMap_singleton]
  unfold Verify.feed
  dsimp only
  split_ifs with hfull
  · have hge : 8 ≤ st.bits.toNat + 5 := by
      rw [ge_iff_le, UInt32.le_iff_toNat_le, hbits] at hfull
      exact hfull
    have hleft : (st.bits + 5 - 8).toNat = st.bits.toNat + 5 - 8 := by
      rw [UInt32.toNat_sub_of_le _ _ hfull, hbits]
      rfl
    refine ⟨hleft.trans_lt (by omega), ?_⟩
    -- The pending bits are the byte that is complete and those over.
    have hsplit : st.bits.toNat + 5 = 8 + (st.bits + 5 - 8).toNat := by omega
    rw [← hread, hsplit, toBits_add, ← toBits_emitted _ _ (by omega)]
    simp [byteBits]
  · have hlt : st.bits.toNat + 5 < 8 := by
      rw [ge_iff_le, UInt32.not_le, UInt32.lt_iff_toNat_lt, hbits] at hfull
      exact hfull
    refine ⟨hbits.trans_lt hlt, ?_⟩
    rw [hbits]
    exact hread

theorem HoldsBits.foldl {st : Accumulator} {done idxs : List Nat} (h : HoldsBits st done)
    (hidxs : ∀ i ∈ idxs, i < 32) : HoldsBits (idxs.foldl Verify.feed st) (done ++ idxs) := by
  induction idxs generalizing st done with
  | nil => rwa [List.append_nil]
  | cons idx idxs ih =>
    rw [← List.singleton_append, ← List.append_assoc]
    exact ih (h.feed (hidxs idx (by simp))) fun i hi => hidxs i (by simp [hi])

/-! ## Reading a text -/

theorem base32Digit_lt {c : Char} {idx : Nat} (h : base32Digit c = some idx) : idx < 32 := by
  obtain ⟨hlt, -⟩ := List.findIdx?_eq_some_iff_getElem.1 h
  exact hlt

theorem mapM_digits {cs : List Char} {idxs : List Nat} (h : cs.mapM base32Digit = some idxs) :
    ∀ i ∈ idxs, i < 32 := by
  induction cs generalizing idxs with
  | nil =>
    obtain rfl := Option.some.inj h
    exact fun i hi => absurd hi List.not_mem_nil
  | cons c cs ih =>
    rw [List.mapM_cons] at h
    obtain ⟨idx, hidx, h⟩ := Option.bind_eq_some_iff.1 h
    obtain ⟨rest, hrest, h⟩ := Option.bind_eq_some_iff.1 h
    obtain rfl := Option.some.inj h
    intro i hi
    rcases List.mem_cons.1 hi with rfl | hi
    · exact base32Digit_lt hidx
    · exact ih hrest i hi

theorem mapM_digits_eq_none {cs : List Char} :
    cs.mapM base32Digit = none ↔ ∃ c ∈ cs, c.toUpper ∉ alphabet := by
  induction cs with
  | nil => simp [pure]
  | cons c cs ih =>
    have hdigit : base32Digit c = none ↔ c.toUpper ∉ alphabet := by
      unfold base32Digit
      rw [List.findIdx?_eq_none_iff]
      simp only [decide_eq_false_iff_not]
      exact ⟨fun h hmem => h _ hmem rfl, fun h a ha he => h (he ▸ ha)⟩
    rw [List.mapM_cons, List.exists_mem_cons_iff, ← ih, ← hdigit]
    cases base32Digit c <;> cases cs.mapM base32Digit <;> simp

/-- The encoded groups are read back. -/
theorem mapM_encoded {cs : List Char} {idxs : List Nat} (hidxs : ∀ i ∈ idxs, i < 32)
    (h : cs.map Char.toUpper = idxs.map fun i => alphabet.getD i '=') :
    cs.mapM base32Digit = some idxs := by
  induction idxs generalizing cs with
  | nil =>
    rw [List.map_eq_nil_iff.1 h]
    rfl
  | cons idx idxs ih =>
    obtain ⟨c, cs, rfl, hc, hcs⟩ := List.map_eq_cons_iff.1 h
    have hall : ∀ i < 32, alphabet.findIdx? (· = alphabet.getD i '=') = some i := by decide
    have hdigit : base32Digit c = some idx := by
      unfold base32Digit
      rw [hc]
      exact hall idx (hidxs idx (by simp))
    rw [List.mapM_cons, hdigit, ih (fun i hi => hidxs i (by simp [hi])) hcs]
    rfl

theorem byteBits_append_inj {a b : List UInt8} {r s : List Bool} (hr : r.length < 8) (hs : s.length < 8)
    (h : byteBits a ++ r = byteBits b ++ s) : a = b := by
  have hbits : ∀ bytes, byteBits bytes = (bytes.map UInt8.toNat).flatMap (toBits 8) := by
    intro bytes
    unfold byteBits
    rw [List.flatMap_map]
  have hlt : ∀ bytes : List UInt8, ∀ n ∈ bytes.map UInt8.toNat, n < 2 ^ 8 := by
    intro bytes n hn
    obtain ⟨b, -, rfl⟩ := List.mem_map.1 hn
    exact b.toNat_lt
  rw [hbits, hbits] at h
  exact List.map_injective_iff.2 (fun _ _ => UInt8.toNat_inj.1)
    (flatMap_toBits_append_inj (hlt a) (hlt b) hr hs h).1

theorem digitsOf_decorates {s : String} {bytes : List UInt8} (h : Decorates s bytes) :
    digitsOf s.toList = some (quintets (byteBits bytes)) :=
  mapM_encoded (quintets_bits _).1 h

/-- Padding to groups of eight characters is a decoration. -/
theorem padded_decorates (bytes : List UInt8) : Decorates (base32EncodePadded bytes) bytes := by
  have hall : ∀ i < 32, ¬ Skipped (alphabet.getD i '=') ∧
      (alphabet.getD i '=').toUpper = alphabet.getD i '=' := by decide
  have hchar : ∀ c ∈ base32Encode bytes, ¬ Skipped c ∧ c.toUpper = c := by
    intro c hc
    obtain ⟨i, hi, rfl⟩ := List.mem_map.1 hc
    exact hall i ((quintets_bits _).1 i hi)
  unfold Decorates base32EncodePadded
  rw [String.toList_ofList, List.filter_append, List.filter_eq_self.2 fun c hc => by simpa using (hchar c hc).1,
    List.filter_eq_nil_iff.2 fun c hc => ?_, List.append_nil]
  · exact (List.map_congr_left fun c hc => (hchar c hc).2).trans (List.map_id _)
  · rw [List.eq_of_mem_replicate hc]
    decide

/-- **Base32.** Every decoration of an encoding decodes to the bytes encoded; a text is refused if and only
if a character of it is not of the alphabet, of either case, nor passed over; and after each text the bytes
emitted and the low bits of the word are all bits read. -/
theorem base32_decode_inverts :
    (∀ s bytes, Decorates s bytes → base32Decode s = some bytes) ∧
      (∀ s : String, base32Decode s = none ↔ ∃ c ∈ s.toList, ¬ Skipped c ∧ c.toUpper ∉ alphabet) ∧
      ∀ (s : String) st, s.toList.foldlM base32Step {} = some st →
        ∃ idxs, digitsOf s.toList = some idxs ∧ HoldsBits st idxs := by
  have hstart : HoldsBits {} [] := ⟨by decide, rfl⟩
  refine ⟨fun s bytes h => ?_, fun s => ?_, fun s st h => ?_⟩
  · have hdigits := digitsOf_decorates h
    obtain ⟨hlt, k, hk, hbits⟩ := quintets_bits (byteBits bytes)
    have hend := hstart.foldl hlt
    unfold base32Decode
    rw [foldlM_base32Step, hdigits, Option.map_some, Option.map_some]
    have hread := hend.bits
    rw [List.nil_append, hbits] at hread
    have hover : (List.replicate k false).length < 8 := by
      rw [List.length_replicate]
      omega
    rw [byteBits_append_inj (by rw [length_toBits]; exact hend.pending) hover hread]
  · unfold base32Decode
    rw [Option.map_eq_none_iff, foldlM_base32Step, Option.map_eq_none_iff, digitsOf, mapM_digits_eq_none]
    simp only [List.mem_filter, decide_eq_true_eq, and_assoc]
  · rw [foldlM_base32Step] at h
    obtain ⟨idxs, hidxs, rfl⟩ := Option.map_eq_some_iff.1 h
    exact ⟨idxs, hidxs, hstart.foldl (mapM_digits hidxs)⟩

end KeysCore.Verify
