import KeysCore.Pools

/-!
# Parked entries

A peer's version of an entry is parked in full: a record of the live version and one of each history
version, the secret values sealed under the session key, the attachments by digest and their bytes in the
blob table (`write_peer_entry`). The resolver rebuilds the entry from the row and binds its attachments
into the binary pool of the vault it splices the entry into (`reconstruct_peer_entry`).

The tables are those of `AttachmentStore`, which keeps beside the attachments of a record its `body` as a
text; here the text is the JSON of `SnapshotBody`. AES-GCM with Base64, serde_json and SHA-256 are not
part of the repository, and the order in which a hash map yields its entries is not specified: they are
the parameter `RecordLib`.
-/

namespace KeysCore

open Lib

/-! ## Records -/

/-- A custom field in a record; a protected value is sealed. -/
structure HistoryCustomFieldIo where
  value : String
  isProtected : Bool
deriving DecidableEq

/-- A hash map from field names. -/
abbrev FieldMap := Table (Prod.fst : String × HistoryCustomFieldIo → String)

/-- `HistorySnapshotIo` beside its attachments, without the columns no reader restores. -/
structure SnapshotBody where
  title : String
  username : String
  url : String
  notes : String
  password : String
  tags : List String
  createdAt : EpochMs
  modifiedAt : EpochMs
  accessedAt : EpochMs
  expiresAt : Option EpochMs
  iconIndex : Option IconIndex
  iconCustomUuid : Option Uuid
  customFields : FieldMap
  customData : List CustomDataRow
deriving DecidableEq

structure RecordLib where
  sha256 : List UInt8 → Sha
  /-- `seal_with_key`, in Base64. -/
  sealWithKey : String → Except String String
  /-- `open_with_key` of a Base64 text, read as UTF-8. -/
  openWithKey : String → Except String String
  toJson : SnapshotBody → Except String String
  ofJson : String → Except String SnapshotBody
  fieldOrder : List (String × HistoryCustomFieldIo) → List (String × HistoryCustomFieldIo)

/-- `EngineError`, as the records raise it. -/
inductive RecordError where
  | engine (e : EngineError)
  | ingestWrap (message : String)
  | ingestJson (message : String)
  | projectionJson (message : String)
  | projectionUnwrap (entry : Uuid) (field message : String)
  /-- "binary pool exceeded u32::MAX". -/
  | poolExceeded
deriving DecidableEq

/-- The lengths of the attachments of a parked entry. -/
def ParkedEntry.sizes (row : ParkedEntry) : List Nat :=
  row.records.flatMap fun snap => snap.attachments.map (·.size)

namespace RecordLib

variable (R : RecordLib)

/-! ## Writing -/

def sealed (plaintext : String) : Except RecordError String :=
  (R.sealWithKey plaintext).mapError .ingestWrap

def sealField (fields : FieldMap) (f : CustomField) : Except RecordError FieldMap := do
  let value ← if f.isProtected then R.sealed f.value else pure f.value
  return fields.put (f.key, ⟨value, f.isProtected⟩)

/-- `HistorySnapshotIo::from_entry`, beside the attachments. -/
def bodyOf (v : EntryVersion) : Except RecordError SnapshotBody := do
  let customFields ← v.customFields.foldlM R.sealField .empty
  let password ← R.sealed v.password
  return {
    title := v.title
    username := v.username
    url := v.url
    notes := v.notes
    password
    tags := v.tags
    createdAt := dtToMs v.times.creationTime
    modifiedAt := dtToMs v.times.lastModificationTime
    accessedAt := dtToMs v.times.lastAccessTime
    expiresAt := expiryMs v.times
    iconIndex := some v.iconId
    iconCustomUuid := v.customIconUuid
    customFields
    customData := v.customData.map (·.toRow) }

def jsonText (body : SnapshotBody) : Except RecordError String :=
  (R.toJson body).mapError .ingestJson

/-- `write_peer_entry`. The records are serialised once all are built. -/
def writePeerEntry (s : AttachmentStore) (owner : String) (e : RefEntry) (binaries : List Binary) :
    Except RecordError AttachmentStore := do
  let entry ← R.bodyOf e.facets
  let history ← e.history.mapM fun h => R.bodyOf h.facets
  let body ← R.jsonText entry
  let bodies ← history.mapM R.jsonText
  let record : PoolEntry :=
    { id := e.facets.id, attachments := e.attachments, body
      history := e.history.zipWith (fun h body => ⟨h.attachments, body⟩) bodies }
  (s.writePeerEntry R.sha256 owner record (binaries.map (·.data))).mapError .engine

/-! ## Reading -/

/-- The digests already bound, with the reference each is bound to. -/
abbrev ShaToRef := Table (Prod.fst : Sha × Nat → Sha)

/-- A pool and the digests bound in it. -/
structure Binding where
  pool : List Binary
  shaToRef : ShaToRef

/-- One element of the target's pool: hashed if an attachment of the record has its length. -/
def seedOne (sizes : List Nat) (shaToRef : ShaToRef) (x : Binary × Nat) : Except RecordError ShaToRef :=
  if x.1.data.length ∈ sizes then
    if x.2 < 2 ^ 32 then .ok (shaToRef.insertOrIgnore (R.sha256 x.1.data, x.2))
    else .error .poolExceeded
  else .ok shaToRef

/-- `unwrap_b64_field`. -/
def unwrapField (u : Uuid) (field sealedValue : String) : Except RecordError String :=
  (R.openWithKey sealedValue).mapError (.projectionUnwrap u field)

def openField (u : Uuid) (f : String × HistoryCustomFieldIo) : Except RecordError CustomField := do
  let value ← if f.2.isProtected then R.unwrapField u f.1 f.2.value else pure f.2.value
  return ⟨f.1, value, f.2.isProtected⟩

/-- An attachment of a record bound into the pool: the reference its digest is bound to, or a new
element with the bytes of the blob. One without a readable digest, or whose blob is gone, is skipped. -/
def bindAttachment (blobs : Table AttachmentBlob.sha) (st : List AttachmentRef × Binding)
    (a : HistoryAttachmentIo) : Except RecordError (List AttachmentRef × Binding) :=
  if a.sha256Hex = "" then .ok st
  else match (hexToBytes a.sha256Hex).bind toSha with
    | none => .ok st
    | some sha =>
      match st.2.shaToRef.find? sha with
      | some r => .ok (st.1 ++ [⟨a.name, r.2⟩], st.2)
      | none =>
        match blobs.find? sha with
        | none => .ok st
        | some blob =>
          let id := st.2.pool.length
          if id < 2 ^ 32 then
            .ok (st.1 ++ [⟨a.name, id⟩],
              ⟨st.2.pool ++ [⟨blob.bytes, false⟩], st.2.shaToRef.put (sha, id)⟩)
          else .error .poolExceeded

/-- The facets of a record. -/
def facetsOf (u : Uuid) (body : SnapshotBody) (password : String) (customFields : List CustomField) :
    EntryVersion where
  id := u
  title := body.title
  username := body.username
  url := body.url
  notes := body.notes
  password := password
  tags := body.tags
  iconId := builtinIconIndex body.iconIndex
  customIconUuid := body.iconCustomUuid
  times := buildTimes body.createdAt body.modifiedAt body.accessedAt body.expiresAt none
  customFields := customFields
  customData := body.customData.map (·.toItem)

/-- `snapshot_to_entry`. -/
def snapshotToEntry (u : Uuid) (blobs : Table AttachmentBlob.sha) (body : SnapshotBody)
    (attachments : List HistoryAttachmentIo) (b : Binding) : Except RecordError (RefVersion × Binding) := do
  let password ← R.unwrapField u "Password" body.password
  let customFields ← (R.fieldOrder body.customFields.rows).mapM (R.openField u)
  let (attachments, b) ← attachments.foldlM (bindAttachment blobs) ([], b)
  return ({ facets := facetsOf u body password customFields, attachments }, b)

/-- The history versions of a record, one after another. -/
def rebuildHistory (u : Uuid) (blobs : Table AttachmentBlob.sha) :
    List (SnapshotBody × List HistoryAttachmentIo) → Binding →
      Except RecordError (List RefVersion × Binding)
  | [], b => .ok ([], b)
  | (body, attachments) :: rest, b => do
    let (v, b) ← R.snapshotToEntry u blobs body attachments b
    let (vs, b) ← rebuildHistory u blobs rest b
    return (v :: vs, b)

def parseRecord (snap : HistorySnapshotIo) :
    Except RecordError (SnapshotBody × List HistoryAttachmentIo) := do
  let body ← (R.ofJson snap.body).mapError .projectionJson
  return (body, snap.attachments)

/-- `reconstruct_peer_entry`, with the pool it leaves. -/
def reconstructPeerEntry (s : AttachmentStore) (owner : String) (u : Uuid) (pool : List Binary) :
    Except RecordError (Option (RefEntry × List Binary)) :=
  match s.conflicts.find? (owner, u) with
  | none => .ok none
  | some row => do
    let entry ← R.parseRecord row.entry
    let history ← row.history.mapM R.parseRecord
    let shaToRef ← pool.zipIdx.foldlM (R.seedOne row.sizes) .empty
    let (live, b) ← R.snapshotToEntry u s.blobs entry.1 entry.2 ⟨pool, shaToRef⟩
    let (history, b) ← R.rebuildHistory u s.blobs history b
    return some ({ live with history }, b.pool)

end RecordLib

end KeysCore
