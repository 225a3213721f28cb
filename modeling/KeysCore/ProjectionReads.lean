import KeysCore.Projection

/-!
# The reads of a projection

`projection::project` runs its queries one after another on a connection without a transaction, so
a transaction that another connection commits in between is seen by the later queries and not by the
earlier ones. This module has the projection query by query: `ReadPoint` names each query,
`Interleaving` says which committed state each of them sees, and `projectAt` joins their results in
memory as the source does. A side row without an entry row and an entry whose group was not read are
skipped; an entry without side rows keeps the empty defaults.

Attachments of history records are stored by content address. Their bytes come from
`attachment_blob` by a query of its own at the first use of an address, so `Committed` has the pool
beside the mirror. An address is modelled by the bytes it stands for.
-/

namespace KeysCore

open Lib

/-! ## Read points -/

/-- The `setting` rows `read_meta_into` reads, in its order. -/
inductive MetaKey where
  | generator
  | databaseName
  | databaseDescription
  | defaultUsername
  | color
  | headerHash
  | databaseNameChanged
  | databaseDescriptionChanged
  | defaultUsernameChanged
  | recycleBinChanged
  | settingsChanged
  | masterKeyChanged
  | masterKeyChangeRec
  | masterKeyChangeForce
  | historyMaxItems
  | historyMaxSize
  | maintenanceHistoryDays
  | memoryProtection
  | unknownXml
deriving DecidableEq

/-- The queries of `project`. -/
inductive ReadPoint where
  | groups
  | entries
  | protectedFields
  | nonProtectedFields
  | attachments
  | tags
  | history
  | entryCustomData
  /-- The `n`-th lookup in `attachment_blob` while the entries are assembled. -/
  | blob (n : Nat)
  | setting (k : MetaKey)
  | customIcons
  | customData
  | recycleBinEnabled
  | deletedObjects
deriving DecidableEq

/-- The place of a query in the order `project` runs them. -/
def ReadPoint.rank : ReadPoint → Nat ×ₗ Nat
  | groups => toLex (0, 0)
  | entries => toLex (1, 0)
  | protectedFields => toLex (2, 0)
  | nonProtectedFields => toLex (3, 0)
  | attachments => toLex (4, 0)
  | tags => toLex (5, 0)
  | history => toLex (6, 0)
  | entryCustomData => toLex (7, 0)
  | blob n => toLex (8, n)
  | setting k => toLex (9, k.ctorIdx)
  | customIcons => toLex (10, 0)
  | customData => toLex (11, 0)
  | recycleBinEnabled => toLex (12, 0)
  | deletedObjects => toLex (13, 0)

/-! ## What a read sees -/

/-- A committed state: the mirror and the blobs in `attachment_blob`, which hold the bytes of every
attachment the entries and their history refer to. -/
structure Committed where
  mirror : Mirror
  blobs : List (List UInt8)
  live : ∀ e ∈ mirror.entries.rows, ∀ a ∈ e.attachments, a.2 ∈ blobs
  past : ∀ e ∈ mirror.entries.rows, ∀ s ∈ e.history, ∀ a ∈ s.attachments, a.2 ∈ blobs

/-- A mirror with exactly the blobs it refers to. -/
def Mirror.committed (m : Mirror) : Committed where
  mirror := m
  blobs := m.entries.rows.flatMap fun e =>
    e.attachments.map (·.2) ++ e.history.flatMap fun s => s.attachments.map (·.2)
  live := fun e he _ ha => List.mem_flatMap.2
    ⟨e, he, List.mem_append_left _ (List.mem_map_of_mem ha)⟩
  past := fun e he s hs _ ha => List.mem_flatMap.2
    ⟨e, he, List.mem_append_right _ (List.mem_flatMap.2 ⟨s, hs, List.mem_map_of_mem ha⟩)⟩

/-- How the queries of one projection fall between the commits of the other connections: `sees p`
commits precede query `p`, and no query sees an older state than one that ran before it. -/
structure Interleaving where
  sees : ReadPoint → Nat
  inOrder : ∀ p q : ReadPoint, p.rank ≤ q.rank → sees p ≤ sees q

section Join

variable (seen : ReadPoint → Committed)

/-- The rows a side table held for entry `u` when it was read; none for an entry it did not know. -/
def sideRows {β : Type} (p : ReadPoint) (column : EntryRow → List β) (u : Uuid) : List β :=
  (((seen p).mirror.entries.find? u).map column).getD []

/-- An entry row with what the side tables held for it when each of them was read. -/
def joinSideTables (e : EntryRow) : EntryRow :=
  { e with
    password := (((seen .protectedFields).mirror.entries.find? e.uuid).map (·.password)).getD ""
    protectedFields := sideRows seen .protectedFields (·.protectedFields) e.uuid
    customFields := sideRows seen .nonProtectedFields (·.customFields) e.uuid
    attachments := sideRows seen .attachments (·.attachments) e.uuid
    tags := sideRows seen .tags (·.tags) e.uuid
    history := sideRows seen .history (·.history) e.uuid
    customData := sideRows seen .entryCustomData (·.customData) e.uuid }

/-! ## Blob lookups -/

/-- `sha_to_ref` with the number of lookups made so far. -/
structure BlobReads where
  known : List (List UInt8) := []
  lookups : Nat := 0

/-- The attachments of a history record that resolve: one already in the pool needs no lookup, one
that is not in `attachment_blob` is skipped. -/
def resolveAttachments :
    BlobReads → List (String × List UInt8) → List (String × List UInt8) × BlobReads
  | st, [] => ([], st)
  | st, a :: rest =>
    if a.2 ∈ st.known then
      let (kept, st') := resolveAttachments st rest
      (a :: kept, st')
    else if a.2 ∈ (seen (.blob st.lookups)).blobs then
      let (kept, st') := resolveAttachments ⟨a.2 :: st.known, st.lookups + 1⟩ rest
      (a :: kept, st')
    else resolveAttachments { st with lookups := st.lookups + 1 } rest

/-- The history of an entry with its attachments resolved. -/
def resolveHistory : BlobReads → List HistorySnapshot → List HistorySnapshot × BlobReads
  | st, [] => ([], st)
  | st, s :: rest =>
    let (attachments, st) := resolveAttachments seen st s.attachments
    let (later, st) := resolveHistory st rest
    ({ s with attachments } :: later, st)

/-- The loop over the entry rows. The pool takes an entry's live attachments, which came with their
bytes, before its history. -/
def assembleEntries : BlobReads → List EntryRow → List EntryRow
  | _, [] => []
  | st, e :: rest =>
    let row := joinSideTables seen e
    let st := { st with known := row.attachments.map (·.2) ++ st.known }
    let (history, st) := resolveHistory seen st row.history
    { row with history } :: assembleEntries st rest

/-! ## The vault -/

/-- The settings as `read_meta_into` and `load_recycle_bin_enabled` find them. -/
def settingsAt : Settings where
  generator := (seen (.setting .generator)).mirror.settings.generator
  headerHash := (seen (.setting .headerHash)).mirror.settings.headerHash
  masterKeyChanged := (seen (.setting .masterKeyChanged)).mirror.settings.masterKeyChanged
  masterKeyChangeRec := (seen (.setting .masterKeyChangeRec)).mirror.settings.masterKeyChangeRec
  masterKeyChangeForce := (seen (.setting .masterKeyChangeForce)).mirror.settings.masterKeyChangeForce
  memoryProtection := (seen (.setting .memoryProtection)).mirror.settings.memoryProtection
  unknownXml := (seen (.setting .unknownXml)).mirror.settings.unknownXml
  databaseName := (seen (.setting .databaseName)).mirror.settings.databaseName
  databaseNameChanged := (seen (.setting .databaseNameChanged)).mirror.settings.databaseNameChanged
  databaseDescription := (seen (.setting .databaseDescription)).mirror.settings.databaseDescription
  databaseDescriptionChanged :=
    (seen (.setting .databaseDescriptionChanged)).mirror.settings.databaseDescriptionChanged
  defaultUsername := (seen (.setting .defaultUsername)).mirror.settings.defaultUsername
  defaultUsernameChanged :=
    (seen (.setting .defaultUsernameChanged)).mirror.settings.defaultUsernameChanged
  recycleBinEnabled := (seen .recycleBinEnabled).mirror.settings.recycleBinEnabled
  recycleBinChanged := (seen (.setting .recycleBinChanged)).mirror.settings.recycleBinChanged
  settingsChanged := (seen (.setting .settingsChanged)).mirror.settings.settingsChanged
  color := (seen (.setting .color)).mirror.settings.color
  historyMaxItems := (seen (.setting .historyMaxItems)).mirror.settings.historyMaxItems
  historyMaxSize := (seen (.setting .historyMaxSize)).mirror.settings.historyMaxSize
  maintenanceHistoryDays :=
    (seen (.setting .maintenanceHistoryDays)).mirror.settings.maintenanceHistoryDays
  customIcons := (seen .customIcons).mirror.settings.customIcons
  customData := (seen .customData).mirror.settings.customData

/-- `projection::project`, each query on the state `seen` gives it. -/
def projectAt : Except EngineError Vault := do
  let rows ← loadGroupRows (seen .groups).mirror
  let (root, bin) ← buildGroupTree rows
  let entries := assembleEntries seen {} (seen .entries).mirror.entries.rows
  return {
    root := root.attach fun g => (entries.filter (·.groupUuid = g)).map (·.toEntry)
    metadata := { (seen .groups).mirror with settings := settingsAt seen }.readMeta bin
    deletedObjects := (seen .deletedObjects).mirror.readDeletedObjects }

end Join

end KeysCore
