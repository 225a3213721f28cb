import KeysCore.HexCodec

/-!
# One-time codes

`base32_decode` reads a shared secret; `parse_uri` reads the parameters off an `otpauth://totp/` URI;
`generate_code` truncates the HMAC of the time step to a decimal code.

The `url` crate and the HMAC are parameters. A step that would panic ends with a `Panic`; whether the
power panics on overflow is the parameter `overflowChecks`, on in a debug build and off in a release.
-/

namespace KeysCore

namespace Totp

/-! ## Base32 -/

/-- The variables of `base32_decode`. -/
structure Accumulator where
  bits : UInt32 := 0
  value : UInt32 := 0
  out : List UInt8 := []
deriving DecidableEq

/-- The alphabet of RFC 4648 §6. -/
def alphabet : List Char := "ABCDEFGHIJKLMNOPQRSTUVWXYZ234567".toList

/-- The body of the loop of `base32_decode`. -/
def base32Step (st : Accumulator) (ch : Char) : Option Accumulator :=
  if ch = '=' ∨ ch = ' ' then some st
  else
    let byte := ch.toUpper.val
    if byte > 0x7F then none
    else do
      let idx ← alphabet.findIdx? (fun c => c.val = byte)
      let value := (st.value <<< 5) ||| UInt32.ofNat idx
      let bits := st.bits + 5
      if bits ≥ 8 then
        let bits := bits - 8
        return { bits, value, out := st.out ++ [((value >>> bits) &&& 0xFF).toUInt8] }
      else return { st with bits, value }

/-- `base32_decode`. -/
def base32Decode (input : String) : Option (List UInt8) :=
  (input.toList.foldlM base32Step {}).map (·.out)

/-! ## Parameters -/

inductive TotpAlgorithm where
  | sha1
  | sha256
  | sha512
deriving DecidableEq

structure TotpParams where
  secret : List UInt8 := []
  algorithm : TotpAlgorithm := .sha1
  digits : UInt32 := 6
  period : UInt32 := 30
  issuer : String := ""
  accountName : String := ""
deriving DecidableEq

/-! ## Code generation -/

/-- A panic of the process. -/
inductive Panic where
  | overflow
  | divisorZero
  | indexOutOfBounds
deriving DecidableEq

/-- The HMAC of a message, for each hash function. -/
structure HmacLib where
  mac : TotpAlgorithm → List UInt8 → List UInt8 → List UInt8

/-- The outputs of the HMACs of SHA-1, SHA-256 and SHA-512. -/
def HmacLib.Sized (H : HmacLib) : Prop :=
  ∀ algorithm secret message, (H.mac algorithm secret message).length = 20 ∨
    (H.mac algorithm secret message).length = 32 ∨ (H.mac algorithm secret message).length = 64

def index (bytes : List UInt8) (i : Nat) : Except Panic UInt8 :=
  match bytes[i]? with
  | some b => .ok b
  | none => .error .indexOutOfBounds

/-- `u32::pow`. -/
def pow (overflowChecks : Bool) (base exp : UInt32) : Except Panic UInt32 :=
  if overflowChecks ∧ 2 ^ 32 ≤ base.toNat ^ exp.toNat then .error .overflow
  else .ok (UInt32.ofNat (base.toNat ^ exp.toNat))

/-- The operator `%`. -/
def rem (a b : UInt32) : Except Panic UInt32 := if b = 0 then .error .divisorZero else .ok (a % b)

/-- A number in decimal, filled up with zeros on the left. -/
def zeroPadded (width n : Nat) : String :=
  let digits := Nat.toDigits 10 n
  String.ofList (List.replicate (width - digits.length) '0' ++ digits)

/-- `u64::to_be_bytes`. -/
def toBeBytes (n : UInt64) : List UInt8 :=
  [(n >>> 56).toUInt8, (n >>> 48).toUInt8, (n >>> 40).toUInt8, (n >>> 32).toUInt8, (n >>> 24).toUInt8,
    (n >>> 16).toUInt8, (n >>> 8).toUInt8, n.toUInt8]

/-- The dynamic truncation in `generate_hotp`. -/
def truncated (hmac : List UInt8) : Except Panic UInt32 := do
  let last ← index hmac (hmac.length - 1)
  let offset := (last &&& 0x0F).toNat
  let b₀ ← index hmac offset
  let b₁ ← index hmac (offset + 1)
  let b₂ ← index hmac (offset + 2)
  let b₃ ← index hmac (offset + 3)
  return ((b₀.toUInt32 &&& 0x7F) <<< 24) ||| (b₁.toUInt32 <<< 16) ||| (b₂.toUInt32 <<< 8) ||| b₃.toUInt32

/-- `generate_hotp`. -/
def generateHotp (H : HmacLib) (overflowChecks : Bool) (secret : List UInt8) (counter : UInt64)
    (digits : UInt32) (algorithm : TotpAlgorithm) : Except Panic String := do
  let truncated ← truncated (H.mac algorithm secret (toBeBytes counter))
  let modulus ← pow overflowChecks 10 digits
  let code ← rem truncated modulus
  return zeroPadded digits.toNat code.toNat

/-- The counter of `generate_code`. -/
def counter (period : UInt32) (unixSeconds : UInt64) : UInt64 := unixSeconds / (max period 1).toUInt64

/-- `generate_code`. -/
def generateCode (H : HmacLib) (overflowChecks : Bool) (params : TotpParams) (unixSeconds : UInt64) :
    Except Panic String :=
  generateHotp H overflowChecks params.secret (counter params.period unixSeconds) params.digits
    params.algorithm

/-- `seconds_remaining`. -/
def secondsRemaining (period : UInt32) (unixSeconds : UInt64) : UInt32 :=
  let period := max period 1
  let elapsed := (unixSeconds % period.toUInt64).toUInt32
  period - elapsed

/-! ## URI parsing -/

/-- What `parse_uri` reads of a parsed `Url`. -/
structure OtpauthUrl where
  scheme : String
  hostStr : Option String
  path : String
  queryPairs : List (String × String)
deriving DecidableEq

/-- The ranges of the bytes that follow the first byte of a character in UTF-8, with the bits the first
byte has of the character. -/
def utf8Lead (b : UInt8) : Option (List (UInt8 × UInt8) × Nat) :=
  if b ≤ 0x7F then some ([], b.toNat)
  else if 0xC2 ≤ b ∧ b ≤ 0xDF then some ([(0x80, 0xBF)], b.toNat % 32)
  else if b = 0xE0 then some ([(0xA0, 0xBF), (0x80, 0xBF)], b.toNat % 16)
  else if b = 0xED then some ([(0x80, 0x9F), (0x80, 0xBF)], b.toNat % 16)
  else if 0xE1 ≤ b ∧ b ≤ 0xEF then some ([(0x80, 0xBF), (0x80, 0xBF)], b.toNat % 16)
  else if b = 0xF0 then some ([(0x90, 0xBF), (0x80, 0xBF), (0x80, 0xBF)], b.toNat % 8)
  else if 0xF1 ≤ b ∧ b ≤ 0xF3 then some ([(0x80, 0xBF), (0x80, 0xBF), (0x80, 0xBF)], b.toNat % 8)
  else if b = 0xF4 then some ([(0x80, 0x8F), (0x80, 0xBF), (0x80, 0xBF)], b.toNat % 8)
  else none

/-- The first byte of a character, or one that no character starts with. -/
def lossyLead (b : UInt8) : List Char × Option (List (UInt8 × UInt8) × Nat) :=
  match utf8Lead b with
  | some ([], code) => ([Char.ofNat code], none)
  | some pending => ([], some pending)
  | none => (['\uFFFD'], none)

/-- A byte of `String::from_utf8_lossy`: the characters it completes, and the character it leaves open. An
open character that a byte does not continue is replaced, and the byte read anew. -/
def lossyStep (open? : Option (List (UInt8 × UInt8) × Nat)) (b : UInt8) :
    List Char × Option (List (UInt8 × UInt8) × Nat) :=
  match open? with
  | some ((low, high) :: ranges, code) =>
    if low ≤ b ∧ b ≤ high then
      let code := code * 64 + b.toNat % 64
      if ranges.isEmpty then ([Char.ofNat code], none) else ([], some (ranges, code))
    else
      let (chars, open?) := lossyLead b
      ('\uFFFD' :: chars, open?)
  | _ => lossyLead b

def lossyLoop : Option (List (UInt8 × UInt8) × Nat) → List UInt8 → List Char
  | open?, [] => if open?.isSome then ['\uFFFD'] else []
  | open?, b :: bytes =>
    let (chars, open?) := lossyStep open? b
    chars ++ lossyLoop open? bytes

/-- `String::from_utf8_lossy`. -/
def fromUtf8Lossy (bytes : List UInt8) : String := String.ofList (lossyLoop none bytes)

/-- `hex_digit`. -/
def hexDigit (b : UInt8) : Option UInt8 := HexCodec.hexNibble b

/-- The loop of `percent_decode`. -/
def percentBytes : List UInt8 → List UInt8
  | b :: hi :: lo :: rest =>
    match if b = '%'.toUInt8 then (hexDigit hi).bind fun h => (hexDigit lo).map fun l => (h <<< 4) ||| l
      else none with
    | some byte => byte :: percentBytes rest
    | none => b :: percentBytes (hi :: lo :: rest)
  | bytes => bytes

/-- `percent_decode`. -/
def percentDecode (input : String) : String := fromUtf8Lossy (percentBytes (HexCodec.asBytes input))

/-- `str::parse::<u32>`. A sign is no number by itself, and a leading plus is passed over. -/
def parseU32 (s : String) : Option UInt32 :=
  let digits (bytes : List UInt8) : Option UInt32 := do
    let value ← bytes.foldlM (fun (value : Nat) (b : UInt8) =>
      if '0'.toUInt8 ≤ b ∧ b ≤ '9'.toUInt8 ∧ value * 10 + (b - '0'.toUInt8).toNat < 2 ^ 32 then
        some (value * 10 + (b - '0'.toUInt8).toNat)
      else none) 0
    return UInt32.ofNat value
  match HexCodec.asBytes s with
  | [] => none
  | [b] => digits [b]
  | b :: rest => if b = '+'.toUInt8 then digits rest else digits (b :: rest)

/-- A pair of the query: an unreadable secret ends `parse_uri`, an unreadable number is passed over. -/
def readPair (st : TotpParams × Option (List UInt8)) (pair : String × String) :
    Option (TotpParams × Option (List UInt8)) :=
  let (params, secret) := st
  let (key, value) := pair
  if key = "secret" then (base32Decode value).map fun bytes => (params, some bytes)
  else if key = "issuer" then some ({ params with issuer := value }, secret)
  else if key = "algorithm" then
    let upper := value.map Char.toUpper
    let algorithm :=
      if upper = "SHA256" then .sha256 else if upper = "SHA512" then .sha512 else .sha1
    some ({ params with algorithm }, secret)
  else if key = "digits" then some ({ params with digits := (parseU32 value).getD params.digits }, secret)
  else if key = "period" then some ({ params with period := (parseU32 value).getD params.period }, secret)
  else some (params, secret)

/-- `str::split_once(':')`. -/
def splitOnce (s : String) : Option (String × String) :=
  let cs := s.toList
  if ':' ∈ cs then
    some (String.ofList (cs.takeWhile (· ≠ ':')), String.ofList ((cs.dropWhile (· ≠ ':')).drop 1))
  else none

/-- `parse_uri`, over `Url::parse`. -/
def parseUri (parse : String → Option OtpauthUrl) (uri : String) : Option TotpParams := do
  let parsed ← parse uri
  if parsed.scheme ≠ "otpauth" then none
  else if parsed.hostStr ≠ some "totp" then none
  else
    let path := percentDecode (String.ofList (parsed.path.toList.dropWhile (· = '/')))
    let params : TotpParams :=
      match splitOnce path with
      | some (issuer, account) => { issuer, accountName := account }
      | none => { accountName := path }
    let (params, secret) ← parsed.queryPairs.foldlM readPair (params, none)
    let secret ← secret
    return { params with secret }

end Totp

end KeysCore
