import KeysCore.Lib.Except
import KeysCore.Totp

/-!
# One-time codes

A code is the truncation of RFC 4226, in `digits` decimal digits, exactly when there are one to nine of
them (`generate_code_iff`): `10u32.pow` overflows from ten on, and no digits are written as one zero. The
rest holds for every period and time: the counter steps once a period, and `seconds_remaining` counts down
to the step (`seconds_remaining_spec`).
-/

namespace KeysCore.Verify

open Lib Totp

/-! ## Truncation -/

/-- The dynamic truncation of RFC 4226: 31 bits from where the last byte points. -/
def truncation (hmac : List UInt8) : Nat :=
  let offset := (hmac.getLastD 0).toNat % 16
  ((hmac.drop offset).take 4).foldl (fun n b => 256 * n + b.toNat) 0 % 2 ^ 31

theorem index_eq {bytes : List UInt8} {i : Nat} (h : i < bytes.length) : index bytes i = .ok bytes[i] := by
  unfold index
  rw [List.getElem?_eq_getElem h]

/-- Four bytes joined by shifts, without the top bit. -/
theorem joined_bytes (b₀ b₁ b₂ b₃ : UInt8) :
    (((b₀.toUInt32 &&& 0x7F) <<< 24) ||| (b₁.toUInt32 <<< 16) ||| (b₂.toUInt32 <<< 8) |||
      b₃.toUInt32).toNat = (((b₀.toNat * 256 + b₁.toNat) * 256 + b₂.toNat) * 256 + b₃.toNat) % 2 ^ 31 := by
  have h₀ := b₀.toNat_lt
  have h₁ := b₁.toNat_lt
  have h₂ := b₂.toNat_lt
  have h₃ := b₃.toNat_lt
  have hlow : (b₀.toUInt32 &&& 0x7F).toNat = b₀.toNat % 128 := by
    rw [UInt32.toNat_and, UInt8.toNat_toUInt32]
    exact Nat.and_two_pow_sub_one_eq_mod b₀.toNat 7
  have e₀ : ((b₀.toUInt32 &&& 0x7F) <<< 24).toNat = 2 ^ 24 * (b₀.toNat % 128) := by
    have hshift : (24 : UInt32).toNat % 32 = 24 := rfl
    rw [UInt32.toNat_shiftLeft, hlow, Nat.shiftLeft_eq, hshift]
    omega
  have e₁ : (b₁.toUInt32 <<< 16).toNat = 2 ^ 16 * b₁.toNat := by
    have hshift : (16 : UInt32).toNat % 32 = 16 := rfl
    rw [UInt32.toNat_shiftLeft, UInt8.toNat_toUInt32, Nat.shiftLeft_eq, hshift]
    omega
  have e₂ : (b₂.toUInt32 <<< 8).toNat = 2 ^ 8 * b₂.toNat := by
    have hshift : (8 : UInt32).toNat % 32 = 8 := rfl
    rw [UInt32.toNat_shiftLeft, UInt8.toNat_toUInt32, Nat.shiftLeft_eq, hshift]
    omega
  -- Each byte falls below the bits of those before it.
  have j₁ : 2 ^ 24 * (b₀.toNat % 128) ||| 2 ^ 16 * b₁.toNat =
      2 ^ 16 * (256 * (b₀.toNat % 128) + b₁.toNat) := by
    rw [← Nat.two_pow_add_eq_or_of_lt (by omega)]
    omega
  have j₂ : 2 ^ 16 * (256 * (b₀.toNat % 128) + b₁.toNat) ||| 2 ^ 8 * b₂.toNat =
      2 ^ 8 * (256 * (256 * (b₀.toNat % 128) + b₁.toNat) + b₂.toNat) := by
    rw [← Nat.two_pow_add_eq_or_of_lt (by omega)]
    omega
  have j₃ : 2 ^ 8 * (256 * (256 * (b₀.toNat % 128) + b₁.toNat) + b₂.toNat) ||| b₃.toNat =
      2 ^ 8 * (256 * (256 * (b₀.toNat % 128) + b₁.toNat) + b₂.toNat) + b₃.toNat := by
    rw [← Nat.two_pow_add_eq_or_of_lt (by omega)]
  rw [UInt32.toNat_or, UInt32.toNat_or, UInt32.toNat_or, e₀, e₁, e₂, UInt8.toNat_toUInt32, j₁, j₂, j₃]
  omega

/-- No index of the truncation is out of range. -/
theorem truncated_eq (hmac : List UInt8) (h : 20 ≤ hmac.length) :
    ∃ w, truncated hmac = .ok w ∧ w.toNat = truncation hmac := by
  have hlast : index hmac (hmac.length - 1) = .ok (hmac.getLastD 0) := by
    rw [index_eq (by omega), List.getLastD_eq_getLast?, List.getLast?_eq_getElem?,
      List.getElem?_eq_getElem (by omega)]
    rfl
  have hoffset : (hmac.getLastD 0 &&& 0x0F).toNat = (hmac.getLastD 0).toNat % 16 := by
    rw [UInt8.toNat_and]
    exact Nat.and_two_pow_sub_one_eq_mod _ 4
  have hlt : (hmac.getLastD 0).toNat % 16 < 16 := by omega
  unfold truncated truncation
  rw [hlast]
  simp only [bind, Except.bind, hoffset]
  generalize (hmac.getLastD 0).toNat % 16 = offset at hlt
  have htake : (hmac.drop offset).take 4 =
      [hmac[offset], hmac[offset + 1], hmac[offset + 2], hmac[offset + 3]] := by
    rw [List.drop_eq_getElem_cons (by omega), List.drop_eq_getElem_cons (by omega),
      List.drop_eq_getElem_cons (by omega), List.drop_eq_getElem_cons (by omega)]
    rfl
  rw [index_eq (by omega), index_eq (by omega), index_eq (by omega), index_eq (by omega), htake]
  refine ⟨_, rfl, ?_⟩
  rw [joined_bytes]
  congr 1
  simp [Nat.mul_comm]

/-! ## The code -/

/-- `generate_code` panics in no build, and returns `digits` decimal digits, of the truncation of the HMAC
modulo the power of ten. -/
def Generates (H : HmacLib) (params : TotpParams) (t : UInt64) : Prop :=
  ∀ overflowChecks, ∃ code : String, generateCode H overflowChecks params t = .ok code ∧
    code.toList.length = params.digits.toNat ∧ (∀ c ∈ code.toList, c.isDigit = true) ∧
    Nat.ofDigitChars 10 code.toList 0 =
      truncation (H.mac params.algorithm params.secret (toBeBytes (counter params.period t))) %
        10 ^ params.digits.toNat

/-- A number of at most `width` digits, filled up. -/
theorem zeroPadded_spec (width n : Nat) (hwidth : 0 < width) (hn : n < 10 ^ width) :
    (zeroPadded width n).toList.length = width ∧ (∀ c ∈ (zeroPadded width n).toList, c.isDigit = true) ∧
      Nat.ofDigitChars 10 (zeroPadded width n).toList 0 = n := by
  have hlen : (Nat.toDigits 10 n).length ≤ width := (Nat.length_toDigits_le_iff (by omega) hwidth).2 hn
  unfold zeroPadded
  rw [String.toList_ofList]
  refine ⟨?_, fun c hc => ?_, ?_⟩
  · rw [List.length_append, List.length_replicate]
    omega
  · rcases List.mem_append.1 hc with hc | hc
    · rw [List.eq_of_mem_replicate hc]
      decide
    · exact Nat.isDigit_of_mem_toDigits (by omega) (by omega) hc
  · rw [Nat.ofDigitChars_append, Nat.ofDigitChars_replicate_zero, Nat.mul_zero,
      Nat.ofDigitChars_ten_toDigits]

/-- The power of ten of one to nine digits is a divisor of 32 bits. -/
theorem pow_ten {digits : UInt32} (hle : digits.toNat ≤ 9) (overflowChecks : Bool) :
    ∃ modulus, pow overflowChecks 10 digits = .ok modulus ∧ modulus.toNat = 10 ^ digits.toNat := by
  have hlt : 10 ^ digits.toNat < 2 ^ 32 :=
    (Nat.pow_le_pow_right (by omega) hle).trans_lt (by decide : 10 ^ 9 < 2 ^ 32)
  unfold pow
  have hten : (10 : UInt32).toNat = 10 := rfl
  rw [hten, if_neg fun h => absurd h.2 (by omega)]
  refine ⟨_, rfl, ?_⟩
  rw [UInt32.toNat_ofNat', Nat.mod_eq_of_lt hlt]

theorem generates_of_digits {H : HmacLib} (hH : H.Sized) {params : TotpParams}
    (hpos : 1 ≤ params.digits.toNat) (hle : params.digits.toNat ≤ 9) (t : UInt64) :
    Generates H params t := by
  intro overflowChecks
  obtain ⟨w, hw, htrunc⟩ := truncated_eq
    (H.mac params.algorithm params.secret (toBeBytes (counter params.period t)))
    (by rcases hH params.algorithm params.secret (toBeBytes (counter params.period t)) with h | h | h <;> omega)
  obtain ⟨modulus, hmodulus, hpow⟩ := pow_ten hle overflowChecks
  have hne : modulus ≠ 0 := by
    rintro rfl
    have := Nat.pow_pos (n := params.digits.toNat) (by omega : 0 < 10)
    rw [← hpow] at this
    exact absurd this (by decide)
  have hcode : generateCode H overflowChecks params t =
      .ok (zeroPadded params.digits.toNat (w % modulus).toNat) := by
    unfold generateCode generateHotp rem
    rw [hw, hmodulus]
    simp only [bind, Except.bind, if_neg hne]
    rfl
  have hvalue : (w % modulus).toNat = truncation (H.mac params.algorithm params.secret
      (toBeBytes (counter params.period t))) % 10 ^ params.digits.toNat := by
    rw [UInt32.toNat_mod, htrunc, hpow]
  obtain ⟨hlen, hdigits, hread⟩ := zeroPadded_spec params.digits.toNat
    (w % modulus).toNat hpos (by rw [hvalue]; exact Nat.mod_lt _ (Nat.pow_pos (by omega)))
  exact ⟨_, hcode, hlen, hdigits, hread.trans hvalue⟩

/-- With ten digits or more the power overflows, which a build with overflow checks does not survive. -/
theorem pow_ten_overflows {digits : UInt32} (h : 10 ≤ digits.toNat) :
    pow true 10 digits = .error .overflow := by
  have hle : 2 ^ 32 ≤ 10 ^ digits.toNat :=
    (by decide : 2 ^ 32 ≤ 10 ^ 10).trans (Nat.pow_le_pow_right (by omega) h)
  unfold pow
  have hten : (10 : UInt32).toNat = 10 := rfl
  rw [hten, if_pos ⟨rfl, hle⟩]

theorem digits_of_generates {H : HmacLib} {params : TotpParams} {t : UInt64}
    (h : Generates H params t) : 1 ≤ params.digits.toNat ∧ params.digits.toNat ≤ 9 := by
  obtain ⟨code, hcode, hlen, -, -⟩ := h true
  unfold generateCode generateHotp at hcode
  obtain ⟨w, -, hcode⟩ := except_bind_ok.1 hcode
  obtain ⟨modulus, hmodulus, hcode⟩ := except_bind_ok.1 hcode
  obtain ⟨value, -, hcode⟩ := except_bind_ok.1 hcode
  obtain rfl := Except.ok.inj hcode
  constructor
  · -- A number is written with one digit at least.
    have hpos : 0 < (Nat.toDigits 10 value.toNat).length := Nat.length_toDigits_pos
    unfold zeroPadded at hlen
    rw [String.toList_ofList, List.length_append] at hlen
    omega
  · by_contra hgt
    rw [pow_ten_overflows (by omega)] at hmodulus
    cases hmodulus

/-! ## The time step -/

/-- `seconds_remaining` is between one second and the period; before it has passed the counter and the code
stay, and when it has passed the counter is one more. -/
structure CountsDown (H : HmacLib) (params : TotpParams) (t : UInt64) : Prop where
  pos : 1 ≤ (secondsRemaining params.period t).toNat
  le : (secondsRemaining params.period t).toNat ≤ max params.period.toNat 1
  stays : ∀ t' : UInt64, t ≤ t' → t'.toNat < t.toNat + (secondsRemaining params.period t).toNat →
    counter params.period t' = counter params.period t ∧
      ∀ overflowChecks, generateCode H overflowChecks params t' = generateCode H overflowChecks params t
  steps : ∀ t' : UInt64, t'.toNat = t.toNat + (secondsRemaining params.period t).toNat →
    (counter params.period t').toNat = (counter params.period t).toNat + 1

theorem toNat_period (period : UInt32) : (max period 1).toNat = max period.toNat 1 := by
  have hmax : max period 1 = if period ≤ 1 then 1 else period := rfl
  have hone : (1 : UInt32).toNat = 1 := rfl
  rw [hmax]
  split_ifs with hle
  · rw [UInt32.le_iff_toNat_le] at hle
    omega
  · rw [UInt32.le_iff_toNat_le] at hle
    omega

theorem toNat_counter (period : UInt32) (t : UInt64) :
    (counter period t).toNat = t.toNat / max period.toNat 1 := by
  unfold counter
  rw [UInt64.toNat_div, UInt32.toNat_toUInt64, toNat_period]

theorem toNat_secondsRemaining (period : UInt32) (t : UInt64) :
    (secondsRemaining period t).toNat = max period.toNat 1 - t.toNat % max period.toNat 1 := by
  have hlt := Nat.mod_lt t.toNat (by omega : 0 < max period.toNat 1)
  have hperiod : max period.toNat 1 < 2 ^ 32 := by
    have := period.toNat_lt
    omega
  have helapsed : (t % (max period 1).toUInt64).toUInt32.toNat = t.toNat % max period.toNat 1 := by
    rw [UInt64.toNat_toUInt32, UInt64.toNat_mod, UInt32.toNat_toUInt64, toNat_period]
    exact Nat.mod_eq_of_lt (by omega)
  unfold secondsRemaining
  dsimp only
  rw [UInt32.toNat_sub_of_le, helapsed, toNat_period]
  rw [UInt32.le_iff_toNat_le, helapsed, toNat_period]
  omega

/-- **`seconds_remaining` counts down to the next code.** -/
theorem seconds_remaining_spec (H : HmacLib) (params : TotpParams) (t : UInt64) :
    CountsDown H params t := by
  have hpos : 0 < max params.period.toNat 1 := by omega
  have hmod := Nat.mod_lt t.toNat hpos
  have hdiv := Nat.div_add_mod t.toNat (max params.period.toNat 1)
  refine ⟨?_, ?_, fun t' hle hlt => ?_, fun t' ht' => ?_⟩
  · rw [toNat_secondsRemaining]
    omega
  · rw [toNat_secondsRemaining]
    omega
  · rw [toNat_secondsRemaining] at hlt
    have hcounter : counter params.period t' = counter params.period t := by
      rw [← UInt64.toNat_inj, toNat_counter, toNat_counter]
      rw [UInt64.le_iff_toNat_le] at hle
      refine Nat.div_eq_of_lt_le ?_ ?_
      · rw [Nat.mul_comm]
        omega
      · rw [Nat.add_mul, Nat.mul_comm]
        omega
    refine ⟨hcounter, fun overflowChecks => ?_⟩
    unfold generateCode
    rw [hcounter]
  · rw [toNat_secondsRemaining] at ht'
    rw [toNat_counter, toNat_counter]
    refine Nat.div_eq_of_lt_le ?_ ?_
    · rw [Nat.add_mul, Nat.mul_comm]
      omega
    · rw [Nat.add_mul, Nat.add_mul, Nat.mul_comm]
      omega

/-! ## Accepted URIs -/

/-- The last readable `digits` of a query, or the default. -/
def queryDigits (pairs : List (String × String)) (default : UInt32) : UInt32 :=
  (pairs.filterMap fun p => if p.1 = "digits" then parseU32 p.2 else none).getLastD default

theorem readPair_digits {st st' : TotpParams × Option (List UInt8)} {pair : String × String}
    (h : readPair st pair = some st') :
    st'.1.digits = ((if pair.1 = "digits" then parseU32 pair.2 else none).getD st.1.digits) := by
  obtain ⟨params, secret⟩ := st
  obtain ⟨key, value⟩ := pair
  unfold readPair at h
  dsimp only at h ⊢
  by_cases hdigits : key = "digits"
  · subst hdigits
    simp only [String.reduceEq, if_false, if_true] at h ⊢
    obtain rfl := Option.some.inj h
    rfl
  · rw [if_neg hdigits] at h ⊢
    split_ifs at h
    · obtain ⟨bytes, -, rfl⟩ := Option.map_eq_some_iff.1 h
      rfl
    all_goals
      obtain rfl := Option.some.inj h
      rfl

theorem foldlM_readPair_digits {pairs : List (String × String)}
    {st st' : TotpParams × Option (List UInt8)} (h : pairs.foldlM readPair st = some st') :
    st'.1.digits = queryDigits pairs st.1.digits := by
  induction pairs generalizing st with
  | nil =>
    obtain rfl := Option.some.inj h
    rfl
  | cons pair pairs ih =>
    rw [List.foldlM_cons] at h
    obtain ⟨mid, hmid, h⟩ := Option.bind_eq_some_iff.1 h
    rw [ih h, readPair_digits hmid]
    unfold queryDigits
    rw [List.filterMap_cons]
    cases (if pair.1 = "digits" then parseU32 pair.2 else none) with
    | none => rfl
    | some digits => exact List.getLastD_cons.symm

theorem parseUri_digits {parse : String → Option OtpauthUrl} {uri : String} {url : OtpauthUrl}
    {params : TotpParams} (hurl : parse uri = some url) (hp : parseUri parse uri = some params) :
    params.digits = queryDigits url.queryPairs 6 := by
  unfold parseUri at hp
  rw [hurl, Option.bind_eq_bind, Option.bind_some] at hp
  split_ifs at hp
  obtain ⟨⟨read, secret⟩, hread, hp⟩ := Option.bind_eq_some_iff.1 hp
  obtain ⟨bytes, -, hp⟩ := Option.bind_eq_some_iff.1 hp
  obtain rfl := Option.some.inj hp
  have hdigits := foldlM_readPair_digits hread
  dsimp only at hdigits ⊢
  rw [hdigits]
  split <;> rfl

/-- **One-time codes.** On an accepted URI the code is as RFC 4226 has it, at every time and in every build,
if and only if the URI asks for one to nine digits. -/
theorem generate_code_iff {H : HmacLib} (hH : H.Sized) (parse : String → Option OtpauthUrl) (uri : String)
    {url : OtpauthUrl} {params : TotpParams} (hurl : parse uri = some url)
    (hp : parseUri parse uri = some params) (t : UInt64) :
    Generates H params t ∧ CountsDown H params t ↔
      1 ≤ (queryDigits url.queryPairs 6).toNat ∧ (queryDigits url.queryPairs 6).toNat ≤ 9 := by
  rw [← parseUri_digits hurl hp]
  exact ⟨fun h => digits_of_generates h.1,
    fun h => ⟨generates_of_digits hH h.1 h.2 t, seconds_remaining_spec H params t⟩⟩

/-- An HMAC of 20 bytes, whatever the message. -/
def constantHmac : HmacLib := ⟨fun _ _ _ => List.replicate 20 0x5A⟩

theorem constantHmac_sized : constantHmac.Sized := fun _ _ _ => .inl rfl

/-- `otpauth://totp/alice?secret=MZXW6&digits=` with a number, as the URL parser has it. -/
def aliceUrl (digits : String) : OtpauthUrl :=
  { scheme := "otpauth", hostStr := some "totp", path := "/alice",
    queryPairs := [("secret", "MZXW6"), ("digits", digits)] }

def aliceParams (digits : UInt32) : TotpParams :=
  { secret := [102, 111, 111], digits, accountName := "alice" }

theorem generate_code_eight :
    Generates constantHmac (aliceParams 8) 59 ∧ CountsDown constantHmac (aliceParams 8) 59 :=
  (generate_code_iff constantHmac_sized (fun _ => some (aliceUrl "8"))
    "otpauth://totp/alice?secret=MZXW6&digits=8" rfl (by decide +kernel) 59).2 (by decide +kernel)

/-- Ten digits: the power overflows. -/
theorem generate_code_panics_on_ten_digits :
    ¬ ∀ (H : HmacLib) (parse : String → Option OtpauthUrl) (uri : String) (params : TotpParams) (t : UInt64),
      H.Sized → parseUri parse uri = some params → Generates H params t := by
  intro hall
  have hp : parseUri (fun _ => some (aliceUrl "10")) "otpauth://totp/alice?secret=MZXW6&digits=10" =
      some (aliceParams 10) := by decide +kernel
  obtain ⟨code, hcode, -⟩ := hall constantHmac _ _ _ 59 constantHmac_sized hp true
  have hpanic : generateCode constantHmac true (aliceParams 10) 59 = .error .overflow := by rfl
  rw [hpanic] at hcode
  cases hcode

end KeysCore.Verify
