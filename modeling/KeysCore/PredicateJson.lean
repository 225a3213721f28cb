import Mathlib.Order.WithBotTop
import KeysCore.Predicates

/-!
# The codec of smart-folder predicates

`Predicate` is written to JSON and read back through a private mirror, `KnownPredicate`, whose codec
`serde` derives: an enum tagged by the member `type`. A document the mirror refuses becomes `Unknown`
when it is an object whose `type` is a text that names no known variant.

`serde`'s derived decoding is written here as it treats a document: it takes the tag off an object, or off
the front of an array, and hands the rest to the variant, which reads its one field by name or by place and
passes over the other members. A float is a rational, as in `Predicates`. The text of a uuid is the
parameter `UuidLib`.
-/

namespace KeysCore

open Lib

/-- `Uuid`'s `Display` and `FromStr`. -/
structure UuidLib where
  display : Uuid → String
  fromStr : String → Option Uuid

/-- `KnownPredicate`; the nested predicates are of a type of their own, as the mirror is read and written
one node at a time. -/
inductive KnownPredicate (α : Type) where
  | and (predicates : List α)
  | or (predicates : List α)
  | not (predicate : α)
  | titleContains (substring : String)
  | urlContains (substring : String)
  | usernameContains (substring : String)
  | urlHostEquals (host : String)
  | tagEquals (tag : String)
  | tagHasAny (tags : List String)
  | tagHasAll (tags : List String)
  | modifiedWithin (duration : Duration)
  | modifiedBefore (timestampMs : I64)
  | expired
  | expiringWithin (duration : Duration)
  | strengthBelow (bucket : StrengthBucket)
  | entropyBelow (bits : SqlReal)
  | duplicates
  | group (uuid : Uuid)

/-- `From<KnownPredicate> for Predicate`. -/
def KnownPredicate.into : KnownPredicate Predicate → Predicate
  | .and predicates => .and predicates
  | .or predicates => .or predicates
  | .not predicate => .not predicate
  | .titleContains substring => .titleContains substring
  | .urlContains substring => .urlContains substring
  | .usernameContains substring => .usernameContains substring
  | .urlHostEquals host => .urlHostEquals host
  | .tagEquals tag => .tagEquals tag
  | .tagHasAny tags => .tagHasAny tags
  | .tagHasAll tags => .tagHasAll tags
  | .modifiedWithin duration => .modifiedWithin duration
  | .modifiedBefore timestampMs => .modifiedBefore timestampMs
  | .expired => .expired
  | .expiringWithin duration => .expiringWithin duration
  | .strengthBelow bucket => .strengthBelow bucket
  | .entropyBelow bits => .entropyBelow bits
  | .duplicates => .duplicates
  | .group uuid => .group uuid

/-- `as_known`. -/
def Predicate.asKnown : Predicate → Option (KnownPredicate Predicate)
  | .and predicates => some (.and predicates)
  | .or predicates => some (.or predicates)
  | .not predicate => some (.not predicate)
  | .titleContains substring => some (.titleContains substring)
  | .urlContains substring => some (.urlContains substring)
  | .usernameContains substring => some (.usernameContains substring)
  | .urlHostEquals host => some (.urlHostEquals host)
  | .tagEquals tag => some (.tagEquals tag)
  | .tagHasAny tags => some (.tagHasAny tags)
  | .tagHasAll tags => some (.tagHasAll tags)
  | .modifiedWithin duration => some (.modifiedWithin duration)
  | .modifiedBefore timestampMs => some (.modifiedBefore timestampMs)
  | .expired => some .expired
  | .expiringWithin duration => some (.expiringWithin duration)
  | .strengthBelow bucket => some (.strengthBelow bucket)
  | .entropyBelow bits => some (.entropyBelow bits)
  | .duplicates => some .duplicates
  | .group uuid => some (.group uuid)
  | .unknown _ => none

/-- `KNOWN_TYPE_DISCRIMINATORS`. -/
def knownTypeDiscriminators : List String :=
  ["and", "or", "not", "title_contains", "url_contains", "username_contains", "url_host_equals",
    "tag_equals", "tag_has_any", "tag_has_all", "modified_within", "modified_before", "expired",
    "expiring_within", "strength_below", "entropy_below", "duplicates", "group"]

/-! ## Encoding -/

/-- A node with one field. The members of an object stand in the order of their names. -/
def tagged (tag name : String) (value : Json) : Json :=
  if name < "type" then .object [(name, value), ("type", .string tag)]
  else .object [("type", .string tag), (name, value)]

def writeStrings (tags : List String) : Json := .array (tags.map .string)

/-- `duration_secs::serialize`. -/
def writeDuration (d : Duration) : Json := .number (.posInt (UInt64.ofNat (d.nanos / 1000000000)))

def writeI64 (i : I64) : Json :=
  .number (if 0 ≤ i.1 then .posInt (UInt64.ofNat i.1.toNat) else .negInt i.1)

/-- A number that is not finite is written as `null`. -/
def writeF64 (r : SqlReal) : Json :=
  match r with
  | some (some q) => .number (.float q)
  | _ => .null

def StrengthBucket.tag : StrengthBucket → String
  | veryWeak => "very_weak"
  | weak => "weak"
  | reasonable => "reasonable"
  | strong => "strong"
  | veryStrong => "very_strong"

/-- `Serialize for KnownPredicate`, over the documents of the nested predicates. -/
def writeKnown (U : UuidLib) : KnownPredicate Json → Json
  | .and predicates => tagged "and" "predicates" (.array predicates)
  | .or predicates => tagged "or" "predicates" (.array predicates)
  | .not predicate => tagged "not" "predicate" predicate
  | .titleContains substring => tagged "title_contains" "substring" (.string substring)
  | .urlContains substring => tagged "url_contains" "substring" (.string substring)
  | .usernameContains substring => tagged "username_contains" "substring" (.string substring)
  | .urlHostEquals host => tagged "url_host_equals" "host" (.string host)
  | .tagEquals tag => tagged "tag_equals" "tag" (.string tag)
  | .tagHasAny tags => tagged "tag_has_any" "tags" (writeStrings tags)
  | .tagHasAll tags => tagged "tag_has_all" "tags" (writeStrings tags)
  | .modifiedWithin duration => tagged "modified_within" "duration" (writeDuration duration)
  | .modifiedBefore timestampMs => tagged "modified_before" "timestamp_ms" (writeI64 timestampMs)
  | .expired => .object [("type", .string "expired")]
  | .expiringWithin duration => tagged "expiring_within" "duration" (writeDuration duration)
  | .strengthBelow bucket => tagged "strength_below" "bucket" (.string bucket.tag)
  | .entropyBelow bits => tagged "entropy_below" "bits" (writeF64 bits)
  | .duplicates => .object [("type", .string "duplicates")]
  | .group uuid => tagged "group" "uuid" (.string (U.display uuid))

mutual

/-- `Serialize for Predicate`: an unknown node as it was read. -/
def encode (U : UuidLib) : Predicate → Json
  | .unknown value => value
  | .and predicates => writeKnown U (.and (encodeAll U predicates))
  | .or predicates => writeKnown U (.or (encodeAll U predicates))
  | .not predicate => writeKnown U (.not (encode U predicate))
  | .titleContains substring => writeKnown U (.titleContains substring)
  | .urlContains substring => writeKnown U (.urlContains substring)
  | .usernameContains substring => writeKnown U (.usernameContains substring)
  | .urlHostEquals host => writeKnown U (.urlHostEquals host)
  | .tagEquals tag => writeKnown U (.tagEquals tag)
  | .tagHasAny tags => writeKnown U (.tagHasAny tags)
  | .tagHasAll tags => writeKnown U (.tagHasAll tags)
  | .modifiedWithin duration => writeKnown U (.modifiedWithin duration)
  | .modifiedBefore timestampMs => writeKnown U (.modifiedBefore timestampMs)
  | .expired => writeKnown U .expired
  | .expiringWithin duration => writeKnown U (.expiringWithin duration)
  | .strengthBelow bucket => writeKnown U (.strengthBelow bucket)
  | .entropyBelow bits => writeKnown U (.entropyBelow bits)
  | .duplicates => writeKnown U .duplicates
  | .group uuid => writeKnown U (.group uuid)

def encodeAll (U : UuidLib) : List Predicate → List Json
  | [] => []
  | p :: ps => encode U p :: encodeAll U ps

end

/-! ## Decoding -/

/-- The errors of `serde`, with the names they show. -/
inductive DecodeError where
  | missingField (name : String)
  | unknownVariant (tag : String)
  | invalidType (expected : String)
  | invalidValue
  | invalidLength (length : Nat)
  | recursion
deriving DecidableEq

/-- What an internally tagged enum leaves of a document for the variant. -/
inductive Content where
  | map (members : List (String × Json))
  | seq (items : List Json)

/-- The tag of a document, and the rest. -/
def readTag : Json → Except DecodeError (String × Content)
  | .object members =>
    match Json.member "type" members with
    | none => .error (.missingField "type")
    | some (.string tag) => .ok (tag, .map (members.filter (·.1 ≠ "type")))
    | some _ => .error (.invalidType "variant identifier")
  | .array [] => .error (.missingField "type")
  | .array (.string tag :: items) => .ok (tag, .seq items)
  | .array _ => .error (.invalidType "variant identifier")
  | _ => .error (.invalidType "internally tagged enum KnownPredicate")

/-- The one field of a variant. -/
def Content.field (name : String) : Content → Except DecodeError Json
  | .map members =>
    match Json.member name members with
    | some value => .ok value
    | none => .error (.missingField name)
  | .seq [value] => .ok value
  | .seq items => .error (.invalidLength items.length)

/-- A variant without fields. -/
def Content.unit : Content → Except DecodeError Unit
  | .map _ => .ok ()
  | .seq [] => .ok ()
  | .seq items => .error (.invalidLength items.length)

def readString : Json → Except DecodeError String
  | .string s => .ok s
  | _ => .error (.invalidType "a string")

def readSeq : Json → Except DecodeError (List Json)
  | .array items => .ok items
  | _ => .error (.invalidType "a sequence")

def readStrings (value : Json) : Except DecodeError (List String) := do
  let items ← readSeq value
  items.mapM readString

/-- `duration_secs::deserialize`. -/
def readDuration : Json → Except DecodeError Duration
  | .number (.posInt secs) => .ok ⟨secs.toNat * 1000000000⟩
  | .number (.negInt _) => .error .invalidValue
  | _ => .error (.invalidType "u64")

def readI64 : Json → Except DecodeError I64
  | .number (.posInt n) =>
    if h : minI64 ≤ (n.toNat : Int) ∧ (n.toNat : Int) ≤ maxI64 then .ok ⟨n.toNat, h⟩
    else .error .invalidValue
  | .number (.negInt i) => if h : minI64 ≤ i ∧ i ≤ maxI64 then .ok ⟨i, h⟩ else .error .invalidValue
  | _ => .error (.invalidType "i64")

/-- An integer as a float of 53 bits, rounded to the nearest, to even on a tie. -/
def f64OfInt (i : Int) : ℚ :=
  let scale := 2 ^ (Nat.log2 i.natAbs - 52)
  let low := i.natAbs / scale
  let rest := i.natAbs % scale
  let nearest := if scale < 2 * rest ∨ (2 * rest = scale ∧ low % 2 = 1) then low + 1 else low
  if 0 ≤ i then (nearest * scale : Nat) else -(nearest * scale : Nat)

def readF64 : Json → Except DecodeError SqlReal
  | .number (.posInt n) => .ok (f64OfInt n.toNat : ℚ)
  | .number (.negInt i) => .ok (f64OfInt i : ℚ)
  | .number (.float r) => .ok (r : ℚ)
  | _ => .error (.invalidType "f64")

/-- A variant of `StrengthBucket`: its name, or an object with the name and nothing. -/
def readBucket (value : Json) : Except DecodeError StrengthBucket := do
  let tag ← match value with
    | .string tag => .ok tag
    | .object [(tag, .null)] => .ok tag
    | .object [(tag, .object [])] => .ok tag
    | _ => .error (.invalidType "string or map")
  match tag with
  | "very_weak" => .ok .veryWeak
  | "weak" => .ok .weak
  | "reasonable" => .ok .reasonable
  | "strong" => .ok .strong
  | "very_strong" => .ok .veryStrong
  | tag => .error (.unknownVariant tag)

def readUuid (U : UuidLib) (value : Json) : Except DecodeError Uuid := do
  let text ← readString value
  match U.fromStr text with
  | some uuid => .ok uuid
  | none => .error .invalidValue

/-- `Deserialize for KnownPredicate`, which leaves the nested predicates as documents. -/
def readKnown (U : UuidLib) (value : Json) : Except DecodeError (KnownPredicate Json) := do
  let (tag, content) ← readTag value
  match tag with
  | "and" => return .and (← readSeq (← content.field "predicates"))
  | "or" => return .or (← readSeq (← content.field "predicates"))
  | "not" => return .not (← content.field "predicate")
  | "title_contains" => return .titleContains (← readString (← content.field "substring"))
  | "url_contains" => return .urlContains (← readString (← content.field "substring"))
  | "username_contains" => return .usernameContains (← readString (← content.field "substring"))
  | "url_host_equals" => return .urlHostEquals (← readString (← content.field "host"))
  | "tag_equals" => return .tagEquals (← readString (← content.field "tag"))
  | "tag_has_any" => return .tagHasAny (← readStrings (← content.field "tags"))
  | "tag_has_all" => return .tagHasAll (← readStrings (← content.field "tags"))
  | "modified_within" => return .modifiedWithin (← readDuration (← content.field "duration"))
  | "modified_before" => return .modifiedBefore (← readI64 (← content.field "timestamp_ms"))
  | "expired" => do
    content.unit
    return .expired
  | "expiring_within" => return .expiringWithin (← readDuration (← content.field "duration"))
  | "strength_below" => return .strengthBelow (← readBucket (← content.field "bucket"))
  | "entropy_below" => return .entropyBelow (← readF64 (← content.field "bits"))
  | "duplicates" => do
    content.unit
    return .duplicates
  | "group" => return .group (← readUuid U (← content.field "uuid"))
  | tag => .error (.unknownVariant tag)

/-- The nested documents decoded, in their order. -/
def KnownPredicate.traverse {α β : Type} (f : α → Except DecodeError β) :
    KnownPredicate α → Except DecodeError (KnownPredicate β)
  | .and predicates => return .and (← predicates.mapM f)
  | .or predicates => return .or (← predicates.mapM f)
  | .not predicate => return .not (← f predicate)
  | .titleContains substring => .ok (.titleContains substring)
  | .urlContains substring => .ok (.urlContains substring)
  | .usernameContains substring => .ok (.usernameContains substring)
  | .urlHostEquals host => .ok (.urlHostEquals host)
  | .tagEquals tag => .ok (.tagEquals tag)
  | .tagHasAny tags => .ok (.tagHasAny tags)
  | .tagHasAll tags => .ok (.tagHasAll tags)
  | .modifiedWithin duration => .ok (.modifiedWithin duration)
  | .modifiedBefore timestampMs => .ok (.modifiedBefore timestampMs)
  | .expired => .ok .expired
  | .expiringWithin duration => .ok (.expiringWithin duration)
  | .strengthBelow bucket => .ok (.strengthBelow bucket)
  | .entropyBelow bits => .ok (.entropyBelow bits)
  | .duplicates => .ok .duplicates
  | .group uuid => .ok (.group uuid)

/-- `is_unknown_type_error`. -/
def isUnknownTypeError : Json → Bool
  | .object members =>
    match Json.member "type" members with
    | some (.string type) => type ∉ knownTypeDiscriminators
    | _ => false
  | _ => false

/-- `Deserialize for Predicate`, over the decoding of the nested predicates. -/
def decodeWith (U : UuidLib) (nested : Json → Except DecodeError Predicate) (value : Json) :
    Except DecodeError Predicate :=
  match readKnown U value >>= KnownPredicate.traverse nested with
  | .ok known => .ok known.into
  | .error knownErr => if isUnknownTypeError value then .ok (.unknown value) else .error knownErr

def decodeFuel (U : UuidLib) : Nat → Json → Except DecodeError Predicate
  | 0 => fun _ => .error .recursion
  | fuel + 1 => decodeWith U (decodeFuel U fuel)

/-- `Deserialize for Predicate`. The nested documents are less deep, which bounds the recursion. -/
def decode (U : UuidLib) (value : Json) : Except DecodeError Predicate :=
  decodeFuel U (value.depth + 1) value

end KeysCore
