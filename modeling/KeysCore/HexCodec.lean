import KeysCore.Attachments

/-!
# The two hex readers

`hex_to_bytes` reads a text through a table of nibbles, byte by byte. `hex_decode32`, the reader of the
blob collection, slices the text into pairs of bytes and hands each to `u8::from_str_radix`. Both are
written here on the UTF-8 bytes of the text, as the source has them; `Attachments` has them on its
characters.
-/

namespace KeysCore

namespace HexCodec

/-- `str::as_bytes`. -/
def asBytes (s : String) : List UInt8 := s.toList.flatMap String.utf8EncodeChar

/-- `hex_nibble`. -/
def hexNibble (b : UInt8) : Option UInt8 :=
  if '0'.toUInt8 ≤ b ∧ b ≤ '9'.toUInt8 then some (b - '0'.toUInt8)
  else if 'a'.toUInt8 ≤ b ∧ b ≤ 'f'.toUInt8 then some (b - 'a'.toUInt8 + 10)
  else if 'A'.toUInt8 ≤ b ∧ b ≤ 'F'.toUInt8 then some (b - 'A'.toUInt8 + 10)
  else none

/-- The loop of `hex_to_bytes` over `chunks_exact(2)`. -/
def hexChunks : List UInt8 → Option (List UInt8)
  | hi :: lo :: rest => do
    let hi ← hexNibble hi
    let lo ← hexNibble lo
    let out ← hexChunks rest
    return ((hi <<< 4) ||| lo) :: out
  | _ => some []

/-- `hex_to_bytes`. -/
def hexToBytes (s : String) : Option (List UInt8) :=
  if (asBytes s).length % 2 ≠ 0 then none else hexChunks (asBytes s)

/-- `str::is_char_boundary`, on the bytes of a text: no continuation byte stands there. -/
def isCharBoundary (bytes : List UInt8) (i : Nat) : Bool :=
  i = 0 ||
    match bytes[i]? with
    | some b => b < 0x80 || 0xC0 ≤ b
    | none => i = bytes.length

/-- `str::get(i..j)`. -/
def get (bytes : List UInt8) (i j : Nat) : Option (List UInt8) :=
  if i ≤ j ∧ isCharBoundary bytes i ∧ isCharBoundary bytes j then some ((bytes.drop i).take (j - i))
  else none

/-- The digits of `u8::from_str_radix(_, 16)`: `None` is also a value a byte cannot hold. -/
def fromDigits (digits : List UInt8) : Option UInt8 := do
  let value ← digits.foldlM (fun (value : Nat) (b : UInt8) => do
    let digit ← hexNibble b
    if value * 16 + digit.toNat < 256 then some (value * 16 + digit.toNat) else none) 0
  return UInt8.ofNat value

/-- `u8::from_str_radix(_, 16)`. A sign is no number by itself; a leading plus is passed over; a leading
minus is read as a digit of an unsigned number, and refused. -/
def fromStrRadix (src : List UInt8) : Option UInt8 :=
  match src with
  | [] => none
  | [b] => if b = '+'.toUInt8 ∨ b = '-'.toUInt8 then none else fromDigits [b]
  | b :: rest => if b = '+'.toUInt8 then fromDigits rest else fromDigits (b :: rest)

/-- The loop of `hex_decode32`, with `n` bytes of the array still to fill from the `i`-th on. -/
def decodeFrom (bytes : List UInt8) : Nat → Nat → Option (List UInt8)
  | 0, _ => some []
  | n + 1, i => do
    let pair ← get bytes (2 * i) (2 * i + 2)
    let b ← fromStrRadix pair
    let out ← decodeFrom bytes n (i + 1)
    return b :: out

/-- `hex_decode32`. -/
def hexDecode32 (hex : String) : Option Sha :=
  if (asBytes hex).length ≠ 64 then none else (decodeFrom (asBytes hex) 32 0).bind toSha

end HexCodec

end KeysCore
