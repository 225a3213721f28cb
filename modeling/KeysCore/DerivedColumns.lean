import KeysCore.EntryMutations
import KeysCore.UrlMatcher

/-!
# Derived columns

Four columns of an entry's row repeat what its content says: the host of its URL, whether it carries a
one-time-password secret, the fingerprint of its password and the bucket of the password's strength.
AutoFill, the badges and the search for duplicate passwords read the columns, so every write of an
entry has to write the columns its content moves. The functions here say what each write does to them,
in the order of the source.

The `url` crate, the tables of Unicode and the keyed hash are the parameter `ColumnLib`.
-/

namespace KeysCore

/-- The functions behind the columns that are not the engine's own. -/
structure ColumnLib extends UrlLib where
  isLowercase : Char → Bool
  isUppercase : Char → Bool
  isNumeric : Char → Bool
  /-- HMAC-SHA-256 under the key of the vault. -/
  fingerprint : List UInt8 → List UInt8

/-! ## One-time passwords -/

def totpFieldNames : List String := ["otp", "TOTP", "OTPAuth", "TOTP Seed"]

def isTotpField (name : String) : Bool := name ∈ totpFieldNames

def urlIsOtpauth (url : String) : Bool := "otpauth://".toList.isPrefixOf url.toList

/-! ## Strength -/

inductive StrengthBucket where
  | veryWeak
  | weak
  | reasonable
  | strong
  | veryStrong
deriving DecidableEq

inductive CharClass where
  | lower
  | upper
  | digit
  | symbol
  | unicode
deriving DecidableEq

def charClass (L : ColumnLib) (c : Char) : CharClass :=
  if L.isLowercase c then .lower
  else if L.isUppercase c then .upper
  else if L.isNumeric c then .digit
  else if c.toNat < 128 then .symbol
  else .unicode

def CharClass.poolSize : CharClass → Nat
  | lower => 26
  | upper => 26
  | digit => 10
  | symbol => 33
  | unicode => 100

/-- The number of characters the classes of a password hold. -/
def pool (L : ColumnLib) (password : String) : Nat :=
  ((password.toList.map (charClass L)).dedup.map CharClass.poolSize).sum

/-- `strength`. The source compares `len * log2(pool)` with the bounds; no pool and length come within
rounding of one, so the comparison is that of the powers. -/
def strength (L : ColumnLib) (password : String) : StrengthBucket :=
  let guesses := pool L password ^ password.length
  if password.length = 0 then .veryWeak
  else if guesses < 2 ^ 50 then .weak
  else if guesses < 2 ^ 70 then .reasonable
  else if guesses < 2 ^ 100 then .strong
  else .veryStrong

/-! ## The columns -/

structure DerivedColumns where
  urlHost : String := ""
  hasTotp : Bool := false
  passwordFingerprint : Option (List UInt8) := none
  passwordStrengthBucket : StrengthBucket := .veryWeak
deriving DecidableEq

/-- The columns of the entries, by uuid; those of a uuid without a row have no meaning. -/
abbrev ColumnTable := Uuid → DerivedColumns

/-- The names `recompute_has_totp` reads: the password's slot is a row of `entry_protected`. -/
def EntryRow.fieldNames (e : EntryRow) : List String :=
  "Password" :: e.protectedFields.map (·.1) ++ e.customFields.map (·.1)

namespace DerivedColumns

variable (L : ColumnLib)

def setUrl (url : String) (c : DerivedColumns) : DerivedColumns :=
  { c with urlHost := parseHost L.toUrlLib url }

/-- `password_columns`: an empty password has no fingerprint. -/
def setPassword (password : String) (c : DerivedColumns) : DerivedColumns :=
  { c with
    passwordStrengthBucket := strength L password
    passwordFingerprint :=
      if password = "" then none else some (L.fingerprint password.toUTF8.toList) }

/-- `recompute_has_totp`, on the row as it is by then. -/
def recomputeHasTotp (row : EntryRow) (c : DerivedColumns) : DerivedColumns :=
  { c with hasTotp := urlIsOtpauth row.url || row.fieldNames.any isTotpField }

/-- A new row, `insert_entry` and `create_entry`. -/
def inserted (url password : String) (fields : List CustomField) : DerivedColumns :=
  { setPassword L password (setUrl L url {}) with
    hasTotp := urlIsOtpauth url || fields.any fun f => isTotpField f.key }

/-- `insert_entry`. -/
def insertEntry (e : EntryVersion) : DerivedColumns := inserted L e.url e.password e.customFields

def createEntry (fields : NewEntryFields) : DerivedColumns :=
  inserted L fields.url fields.password fields.customFields

/-- `update_entry`: a field the patch leaves alone keeps its columns. -/
def updateEntry (upd : EntryUpdate) (after : EntryRow) (c : DerivedColumns) : DerivedColumns :=
  let c := match upd.url with
    | some url => c.setUrl L url
    | none => c
  let c := match upd.password with
    | some password => c.setPassword L password
    | none => c
  if upd.url.isSome then c.recomputeHasTotp after else c

def saveEntry (save : EntrySave) (after : EntryRow) (c : DerivedColumns) : DerivedColumns :=
  ((c.setUrl L save.url).setPassword L save.password).recomputeHasTotp after

def setProtectedField (name value : String) (after : EntryRow) (c : DerivedColumns) : DerivedColumns :=
  if name = "Password" then c.setPassword L value
  else if isTotpField name then c.recomputeHasTotp after
  else c

/-- `set_non_protected_custom_field` and `remove_custom_field`. -/
def setCustomField (name : String) (after : EntryRow) (c : DerivedColumns) : DerivedColumns :=
  if isTotpField name then c.recomputeHasTotp after else c

def restoreFrom (snap : HistorySnapshot) (after : EntryRow) (c : DerivedColumns) : DerivedColumns :=
  ((c.setUrl L snap.url).setPassword L snap.password).recomputeHasTotp after

end DerivedColumns

/-! ## Ingests -/

/-- A full ingest: every entry is inserted into a cleared table. -/
def ingestColumns (L : ColumnLib) (vault : Vault) : ColumnTable :=
  (vault.root.placed vault.metadata.recycleBinUuid false).foldl
    (fun C p => Function.update C p.1.id (.insertEntry L p.1.toEntryVersion)) fun _ => {}

/-- `insert_entry` and `advance_local_entry` in the walk of a pull. -/
def PeerPull.ingestEntryColumns (L : ColumnLib) (M : MergeLib) (P : PeerPull) (C : ColumnTable)
    (pe : Entry × Uuid) : ColumnTable :=
  match P.writtenEntry M pe.1 with
  | none => C
  | some e => Function.update C e.id (.insertEntry L e.toEntryVersion)

end KeysCore
