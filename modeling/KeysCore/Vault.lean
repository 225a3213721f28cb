import KeysCore.Basic

/-!
# The vault model

The in-memory vault of keepass-core: what a KDBX file decodes to, what the mirror is ingested from
and what it is projected into. Fields the mirror neither reads nor writes are left out. An
attachment carries the bytes its binary-pool reference resolves to, so a pool and dangling
references do not occur; history records carry no history of their own, as in the file format.
-/

namespace KeysCore

/-! ## Entries -/

structure CustomField where
  key : String
  value : String
  isProtected : Bool
deriving DecidableEq

structure Attachment where
  name : String
  data : List UInt8
  isProtected : Bool
deriving DecidableEq

structure CustomDataItem where
  key : String
  value : String
  lastModified : Option DateTime
deriving DecidableEq

structure Timestamps where
  creationTime : Option DateTime := none
  lastModificationTime : Option DateTime := none
  lastAccessTime : Option DateTime := none
  expiryTime : Option DateTime := none
  expires : Bool := false
  locationChanged : Option DateTime := none
deriving DecidableEq

/-- An entry without its history: a live version or one history record. -/
structure EntryVersion where
  id : Uuid
  title : String := ""
  username : String := ""
  password : String := ""
  url : String := ""
  notes : String := ""
  customFields : List CustomField := []
  tags : List String := []
  attachments : List Attachment := []
  iconId : IconIndex := 0
  customIconUuid : Option Uuid := none
  customData : List CustomDataItem := []
  previousParentGroup : Option Uuid := none
  times : Timestamps := {}
deriving DecidableEq

/-- An entry with its history, oldest record first. -/
structure Entry extends EntryVersion where
  history : List EntryVersion := []
deriving DecidableEq

/-! ## Groups -/

/-- The fields of a group other than its children. -/
structure GroupInfo where
  id : Uuid
  name : String := ""
  notes : String := ""
  iconId : IconIndex := 0
  customIconUuid : Option Uuid := none
  times : Timestamps := {}
deriving DecidableEq

/-- A group with the entries directly in it and its child groups, in order. -/
inductive Group where
  | node (info : GroupInfo) (entries : List Entry) (groups : List Group)

namespace Group

def info : Group → GroupInfo
  | node i _ _ => i

def id (g : Group) : Uuid := g.info.id

def entries : Group → List Entry
  | node _ es _ => es

def groups : Group → List Group
  | node _ _ gs => gs

end Group

/-- A group as the tree walks meet it: with its parent and its position among its siblings. -/
structure FlatGroup where
  info : GroupInfo
  entries : List Entry
  parent : Option Uuid
  sortOrder : Nat
deriving DecidableEq

/-- A position in a group's child list as a `u32`, saturating. -/
def positionU32 (idx : Nat) : Nat := min idx (2 ^ 32 - 1)

mutual

/-- `collect`: the groups of a tree, each before its children. -/
def Group.collect (parent : Option Uuid) (sortOrder : Nat) : Group → List FlatGroup
  | .node i es gs => ⟨i, es, parent, sortOrder⟩ :: Group.collectAll i.id 0 gs

/-- The walk over the children of `parent` from position `idx` on. -/
def Group.collectAll (parent : Uuid) (idx : Nat) : List Group → List FlatGroup
  | [] => []
  | g :: gs => g.collect (some parent) (positionU32 idx) ++ Group.collectAll parent (idx + 1) gs

end

/-- The groups of a tree in walk order, the root without parent at position `0`. -/
def Group.flatten (g : Group) : List FlatGroup := g.collect none 0

/-! ## Vaults -/

/-- A `<DeletedObjects>` record. -/
structure DeletedObject where
  uuid : Uuid
  deletedAt : Option DateTime
deriving DecidableEq

/-- An icon of the vault-level pool. -/
structure CustomIcon where
  uuid : Uuid
  data : List UInt8
  name : String
  lastModified : Option DateTime
deriving DecidableEq

/-- Which standard fields a client keeps encrypted in memory. -/
structure MemoryProtection where
  protectTitle : Bool := false
  protectUsername : Bool := false
  protectPassword : Bool := false
  protectUrl : Bool := false
  protectNotes : Bool := false
deriving DecidableEq

/-- An element of `<Meta>` the decoder does not know, as it stood in the file. -/
structure UnknownElement where
  tag : String
  rawXml : List UInt8
deriving DecidableEq

/-- `<Meta>`, with the icon pool and the custom data. -/
structure Meta where
  generator : String := ""
  headerHash : String := ""
  masterKeyChanged : Option DateTime := none
  masterKeyChangeRec : Int := -1
  masterKeyChangeForce : Int := -1
  memoryProtection : MemoryProtection := {}
  unknownXml : List UnknownElement := []
  databaseName : String := ""
  databaseNameChanged : Option DateTime := none
  databaseDescription : String := ""
  databaseDescriptionChanged : Option DateTime := none
  defaultUsername : String := ""
  defaultUsernameChanged : Option DateTime := none
  recycleBinEnabled : Bool := false
  recycleBinUuid : Option Uuid := none
  recycleBinChanged : Option DateTime := none
  settingsChanged : Option DateTime := none
  color : String := ""
  historyMaxItems : Int := 10
  historyMaxSize : Int := 6291456
  maintenanceHistoryDays : Nat := 365
  customIcons : List CustomIcon := []
  customData : List CustomDataItem := []
deriving DecidableEq

structure Vault where
  root : Group
  metadata : Meta := {}
  deletedObjects : List DeletedObject := []

namespace Vault

/-- The groups of the vault in walk order. -/
def groups (v : Vault) : List FlatGroup := v.root.flatten

/-- `collect_entries_with_parent`: every entry with the group that holds it, in walk order. -/
def entriesWithParent (v : Vault) : List (Entry × Uuid) :=
  v.groups.flatMap fun g => g.entries.map fun e => (e, g.info.id)

/-- Every entry, in walk order. -/
def entries (v : Vault) : List Entry := v.groups.flatMap (·.entries)

end Vault

end KeysCore
