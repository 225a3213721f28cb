import KeysCore.EntryMutations
import KeysCore.Projection

/-!
# Reading an entry

The read surface of one entry (`reads.rs`, `reveal.rs`): `entry` returns everything but the protected
values, which are revealed one by one. The two icon columns are collapsed into one reference, a custom
icon first. The password's slot is a row of `entry_protected` beside the protected fields, so it is
left out of the custom fields, and revealing the field of its name reveals the password.
-/

namespace KeysCore

open Lib

/-! ## What is read -/

/-- `icon_ref_from`: a custom icon wins; both columns NULL are the icon `0`. -/
def iconRefFrom (iconIndex : Option IconIndex) (iconCustomUuid : Option Uuid) : IconRef :=
  match iconCustomUuid with
  | some uuid => .custom uuid
  | none => .builtin (builtinIconIndex iconIndex)

structure CustomFieldRef where
  name : String
  isProtected : Bool
deriving DecidableEq

/-- `AttachmentRef`. -/
structure EntryFull.AttachmentRef where
  name : String
  size : Nat
deriving DecidableEq

/-- `EntryFull`, without the derived columns. -/
structure EntryFull where
  uuid : Uuid
  groupUuid : Uuid
  title : String
  username : String
  url : String
  notes : String
  createdAt : EpochMs
  modifiedAt : EpochMs
  accessedAt : EpochMs
  lastUsedAt : Option EpochMs
  expiresAt : Option EpochMs
  isRecycled : Bool
  icon : IconRef
  customFields : List CustomFieldRef
  tags : List String
  attachments : List EntryFull.AttachmentRef
  historyCount : Nat
  customData : List CustomDataRow
deriving DecidableEq

namespace EntryRow

variable (e : EntryRow)

/-- `load_custom_fields_for`: both tables in the order of the names. -/
def customFieldRefs : List CustomFieldRef :=
  (sortByName ((e.protectedFields.filter (·.1 ≠ "Password")).map (fun f => (f.1, true)) ++
    e.customFields.map fun f => (f.1, false))).map fun f => ⟨f.1, f.2⟩

/-- The row as `entry` returns it. -/
def full : EntryFull where
  uuid := e.uuid
  groupUuid := e.groupUuid
  title := e.title
  username := e.username
  url := e.url
  notes := e.notes
  createdAt := e.createdAt
  modifiedAt := e.modifiedAt
  accessedAt := e.accessedAt
  lastUsedAt := e.lastUsedAt
  expiresAt := e.expiresAt
  isRecycled := e.isRecycled
  icon := iconRefFrom e.iconIndex e.iconCustomUuid
  customFields := e.customFieldRefs
  tags := sortStrings e.tags
  attachments := (sortByName e.attachments).map fun a => ⟨a.1, a.2.length⟩
  historyCount := e.history.length
  customData := e.customData.insertionSort fun a b => a.key ≤ b.key

end EntryRow

namespace Mirror

variable (m : Mirror)

/-- `reads::entry`. -/
def entry (u : Uuid) : Option EntryFull := (m.entries.find? u).map (·.full)

/-! ## Values -/

/-- `reveal_protected_field`, of the rows of `entry_protected`. -/
def revealProtectedField (u : Uuid) (name notFound : String) : Except EngineError String :=
  match (m.entries.find? u).bind fun e =>
      (("Password", e.password) :: e.protectedFields).find? (·.1 = name) with
  | some f => .ok f.2
  | none => .error (.notFound notFound)

def revealPassword (u : Uuid) : Except EngineError String :=
  m.revealProtectedField u "Password" "password"

def revealCustomField (u : Uuid) (name : String) : Except EngineError String :=
  m.revealProtectedField u name "custom_field"

def nonProtectedCustomField (u : Uuid) (name : String) : Option String :=
  ((m.entries.find? u).bind fun e => e.customFields.find? (·.1 = name)).map (·.2)

/-- `attachment_bytes`. -/
def attachmentBytes (u : Uuid) (name : String) : Except EngineError (List UInt8) :=
  match (m.entries.find? u).bind fun e => e.attachments.find? (·.1 = name) with
  | some a => .ok a.2
  | none => .error (.notFound "attachment")

/-- The value of a field that was read. -/
def fieldValue (u : Uuid) (f : CustomFieldRef) : Except EngineError String :=
  if f.isProtected then m.revealCustomField u f.name
  else
    match m.nonProtectedCustomField u f.name with
    | some value => .ok value
    | none => .error (.sqlite .noRows)

/-- Every field that was read, with its value. -/
def fieldValues (u : Uuid) (fields : List CustomFieldRef) : Except EngineError (List CustomField) :=
  fields.mapM fun f => do
    let value ← m.fieldValue u f
    return ⟨f.name, value, f.isProtected⟩

/-! ## Saving -/

/-- `save_entry` with what it returns: whether the save changed the entry. -/
def saveEntryReporting (H : HistoryLib) (u : Uuid) (save : EntrySave) (now : EpochMs) :
    Except EngineError (Mirror × Bool) :=
  match m.entries.find? u with
  | none => .error (.notFound "entry")
  | some row => do
    match ← EntryRow.finishEdit H m.settings now row (row.applySave save) with
    | none => return (m, false)
    | some row => return (m.putEntryRow u row, true)

end Mirror

end KeysCore
