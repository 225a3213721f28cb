import KeysCore.EntryReads
import KeysCore.Lib.Committed

/-!
# Entries between vaults

`portable.rs`: an entry is exported with its values revealed and its attachments and custom icon by
their bytes, and imported as a new entry. An import goes through the mutations one by one, each in its
own transaction: the icon is put into the pool, the entry is created, its expiry is patched in and its
attachments are attached. An import that fails keeps what it committed.
-/

namespace KeysCore

open Lib

/-! ## Exports -/

/-- `PortableAttachment`, without the MIME type, which no export sets and no import reads. -/
structure PortableAttachment where
  name : String
  bytes : List UInt8
deriving DecidableEq

structure PortableEntry where
  title : String
  username : String
  url : String
  notes : String
  icon : IconRef
  tags : List String
  createdAt : Option EpochMs
  modifiedAt : Option EpochMs
  accessedAt : Option EpochMs
  lastUsedAt : Option EpochMs
  expiresAt : Option EpochMs
  password : String
  protectedFields : List (String × String)
  customFields : List (String × String)
  attachments : List PortableAttachment
  customIconPng : Option (List UInt8)
deriving DecidableEq

namespace Mirror

/-- `read_custom_icon_bytes`. -/
def readCustomIconBytes (m : Mirror) (u : Uuid) : Option (List UInt8) :=
  (m.settings.customIcons.find? u).map (·.bytes)

/-- The icon of an export with the bytes of a custom one. A custom icon that is not in the pool is the
standard icon `0`. -/
def exportIcon (m : Mirror) : IconRef → IconRef × Option (List UInt8)
  | .custom u =>
    match m.readCustomIconBytes u with
    | some bytes => (.custom u, some bytes)
    | none => (.builtin 0, none)
  | .builtin i => (.builtin i, none)

/-- `portable::export_entry`. -/
def exportEntry (m : Mirror) (u : Uuid) : Except EngineError PortableEntry :=
  match m.entry u with
  | none => .error (.notFound "entry")
  | some e => do
    let password ← m.revealPassword u
    let fields ← m.fieldValues u e.customFields
    let attachments ← e.attachments.mapM fun a => do
      let bytes ← m.attachmentBytes u a.name
      return PortableAttachment.mk a.name bytes
    return {
      title := e.title
      username := e.username
      url := e.url
      notes := e.notes
      icon := (m.exportIcon e.icon).1
      tags := e.tags
      createdAt := some e.createdAt
      modifiedAt := some e.modifiedAt
      accessedAt := some e.accessedAt
      lastUsedAt := e.lastUsedAt
      expiresAt := e.expiresAt
      password
      protectedFields := (fields.filter (·.isProtected)).map fun f => (f.key, f.value)
      customFields := (fields.filter fun f => !f.isProtected).map fun f => (f.key, f.value)
      attachments
      customIconPng := (m.exportIcon e.icon).2 }

/-! ## Imports -/

/-- The icon of an import in the target's pool. -/
def importIcon (iconUuid : List UInt8 → Uuid) (clock : EpochMs) (p : PortableEntry) :
    Committing Mirror EngineError IconRef :=
  match p.icon, p.customIconPng with
  | .custom _, some bytes => do
    let u ← Committing.transact fun m => m.addCustomIcon iconUuid bytes clock
    return .custom u
  | .custom _, none => throw (.notFound "custom_icon")
  | .builtin i, _ => return .builtin i

/-- The entry an import creates, before its expiry and its attachments. -/
def importFields (p : PortableEntry) (icon : IconRef) : NewEntryFields where
  title := p.title
  username := p.username
  password := p.password
  url := p.url
  notes := p.notes
  icon
  customFields :=
    p.protectedFields.map (fun f => ⟨f.1, f.2, true⟩) ++ p.customFields.map fun f => ⟨f.1, f.2, false⟩
  tags := p.tags

/-- `portable::import_entry`, without the flag for the change event. The icon is stamped by a clock of
its own. -/
def importEntry (H : HistoryLib) (iconUuid : List UInt8 → Uuid) (group : Uuid) (p : PortableEntry)
    (now clock : EpochMs) (entryUuid : Uuid) : Committing Mirror EngineError Uuid := do
  let icon ← importIcon iconUuid clock p
  let newUuid ← Committing.transact fun m => m.createEntry group (importFields p icon) now entryUuid
  match p.expiresAt with
  | some expiry =>
    Committing.transact fun m =>
      (m.updateEntryFields H newUuid { expiresAt := some (some expiry) } now).map (·, ⟨⟩)
  | none => pure ⟨⟩
  p.attachments.forM fun a => Committing.transact fun m =>
    (m.setAttachment H newUuid a.name a.bytes now).map (·, ⟨⟩)
  return newUuid

end Mirror

end KeysCore
