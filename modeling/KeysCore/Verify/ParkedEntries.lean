import KeysCore.Lib.Intern
import KeysCore.ParkedEntries
import KeysCore.Verify.BlobReach
import KeysCore.Verify.EntryRows

/-!
# Parking a peer's entry and rebuilding it

`reconstruct_peer_entry` undoes `write_peer_entry`: every version of the entry comes back as the mirror
holds it (`EntryVersion.parked`), its custom fields in some order, and its attachments bound to the same
bytes in the target's pool. What the binding does to a pool is interning (`Lib.Intern`): the table from
digests to references is an index of the pool for the bytes of the record (`bindAttachments_ok`), as long
as SHA-256 does not collide among the bytes at hand.

The blob of every attachment is there because the store backs its records (`Backed`), after any run, so
the row may be read at any later time.
-/

namespace KeysCore

open Lib

/-- A version as a record keeps it: under the entry's uuid and without a place, the instants at whole
seconds, a missing one as the epoch, and an expiry only if the version expires. -/
def EntryVersion.parked (u : Uuid) (v : EntryVersion) : EntryVersion :=
  { v with
    id := u
    previousParentGroup := none
    customData := v.customData.map (·.normal)
    times := { v.times.normal with locationChanged := none } }

/-- The versions of an entry, the live one first. -/
def RefEntry.versions (e : RefEntry) : List RefVersion := e.toRefVersion :: e.history

/-- The bytes of a version's attachments. -/
def RefVersion.payloads (pool : List Binary) (v : RefVersion) : List (List UInt8) :=
  (v.inlined pool).attachments.map (·.data)

/-- The bytes of an entry's attachments, the live version's first. -/
def RefEntry.payloads (pool : List Binary) (e : RefEntry) : List (List UInt8) :=
  e.versions.flatMap (·.payloads pool)

/-- What the records rest on outside the repository: what was sealed opens, what was serialised parses,
and a hash map yields each of its entries once. -/
structure RecordLib.Lawful (R : RecordLib) : Prop where
  opens : ∀ {plaintext sealedValue : String}, R.sealWithKey plaintext = .ok sealedValue →
    R.openWithKey sealedValue = .ok plaintext
  parses : ∀ {body : SnapshotBody} {text : String}, R.toJson body = .ok text → R.ofJson text = .ok body
  fieldOrder : ∀ l, (R.fieldOrder l).Perm l

end KeysCore

namespace KeysCore.Verify

open Lib Intern

/-! ## Fields -/

section Fields

variable {R : RecordLib}

/-- The row of a field in a record. -/
def SealedAs (R : RecordLib) (f : CustomField) (row : String × HistoryCustomFieldIo) : Prop :=
  row.1 = f.key ∧ row.2.isProtected = f.isProtected ∧
    if f.isProtected then R.sealWithKey f.value = .ok row.2.value else row.2.value = f.value

theorem sealed_ok {plaintext sealedValue : String} :
    R.sealed plaintext = .ok sealedValue ↔ R.sealWithKey plaintext = .ok sealedValue := by
  unfold RecordLib.sealed
  cases R.sealWithKey plaintext with
  | error e => simp [Except.mapError]
  | ok w => simp [Except.mapError]

theorem unwrapField_ok (hR : R.Lawful) {plaintext sealedValue : String} (u : Uuid) (field : String)
    (h : R.sealWithKey plaintext = .ok sealedValue) :
    R.unwrapField u field sealedValue = .ok plaintext := by
  unfold RecordLib.unwrapField
  rw [hR.opens h]
  rfl

theorem sealField_ok {fields fields' : FieldMap} {f : CustomField}
    (h : R.sealField fields f = .ok fields') :
    ∃ row, SealedAs R f row ∧ fields' = fields.put row := by
  obtain ⟨key, value, isProtected⟩ := f
  cases isProtected with
  | false =>
    obtain rfl := Except.ok.inj h
    exact ⟨(key, ⟨value, false⟩), ⟨rfl, rfl, rfl⟩, rfl⟩
  | true =>
    obtain ⟨w, hw, h⟩ := except_bind_ok.1 h
    obtain rfl := Except.ok.inj h
    exact ⟨(key, ⟨w, true⟩), ⟨rfl, rfl, sealed_ok.1 hw⟩, rfl⟩

/-- Fields of distinct names become as many rows, in order. -/
theorem sealFields_ok {fs : List CustomField} {fields fields' : FieldMap}
    (h : fs.foldlM R.sealField fields = .ok fields')
    (hkeys : (fields.keys ++ fs.map (·.key)).Nodup) :
    ∃ rows, List.Forall₂ (SealedAs R) fs rows ∧ fields'.rows = fields.rows ++ rows := by
  induction fs generalizing fields with
  | nil =>
    obtain rfl := Except.ok.inj h
    exact ⟨[], .nil, (List.append_nil _).symm⟩
  | cons f fs ih =>
    rw [List.foldlM_cons] at h
    obtain ⟨mid, hmid, h⟩ := except_bind_ok.1 h
    obtain ⟨row, hrow, rfl⟩ := sealField_ok hmid
    have hput : (fields.put row).rows = fields.rows ++ [row] := by
      change fields.rows.filter _ ++ [row] = _
      rw [List.filter_eq_self.2 fun r hr => ?_]
      have hne : f.key ∉ fields.keys := fun hmem =>
        (List.nodup_append.1 hkeys).2.2 _ hmem f.key (by simp) rfl
      refine decide_eq_true fun heq => hne ?_
      rw [← hrow.1, ← heq]
      exact Table.key_mem hr
    have hkeys' : ((fields.put row).keys ++ fs.map (·.key)).Nodup := by
      rw [Table.keys, hput, List.map_append, List.map_singleton, hrow.1, List.append_assoc]
      exact hkeys
    obtain ⟨rows, hrows, heq⟩ := ih h hkeys'
    exact ⟨row :: rows, .cons hrow hrows, by rw [heq, hput, List.append_assoc]; rfl⟩

theorem openField_ok (hR : R.Lawful) (u : Uuid) {f : CustomField} {row : String × HistoryCustomFieldIo}
    (h : SealedAs R f row) : R.openField u row = .ok f := by
  obtain ⟨key, value, isProtected⟩ := f
  obtain ⟨name, value', isProtected'⟩ := row
  obtain ⟨rfl, rfl, h⟩ := h
  cases isProtected' with
  | false =>
    obtain rfl : value' = value := h
    rfl
  | true =>
    unfold RecordLib.openField
    rw [if_pos rfl, unwrapField_ok hR u name h]
    rfl

/-- The fields of a record open to the fields it was written from, in some order. -/
theorem openFields_ok (hR : R.Lawful) (u : Uuid) {fs : List CustomField}
    {rows : List (String × HistoryCustomFieldIo)} (h : List.Forall₂ (SealedAs R) fs rows) :
    ∃ fs', (R.fieldOrder rows).mapM (R.openField u) = .ok fs' ∧ fs'.Perm fs := by
  have hopens : List.Forall₂ (fun row f => R.openField u row = .ok f) rows fs :=
    h.flip.imp fun _ _ hrow => openField_ok hR u hrow
  obtain ⟨fs', hfs', hperm⟩ := List.perm_comp_forall₂ (hR.fieldOrder rows) hopens
  exact ⟨fs', mapM_ok_iff.2 hfs', hperm⟩

end Fields

/-! ## Records -/

section Records

variable {R : RecordLib}

/-- What a record says beside the attachments, opened, is the version as the mirror holds it. -/
theorem bodyOf_ok {v : EntryVersion} {body : SnapshotBody}
    (hkeys : (v.customFields.map (·.key)).Nodup) (hatt : v.attachments = [])
    (h : R.bodyOf v = .ok body) :
    R.sealWithKey v.password = .ok body.password ∧
      List.Forall₂ (SealedAs R) v.customFields body.customFields.rows ∧
      ∀ u fs, RecordLib.facetsOf u body v.password fs = { v.parked u with customFields := fs } := by
  obtain ⟨fields, hfields, h⟩ := except_bind_ok.1 h
  obtain ⟨password, hpassword, h⟩ := except_bind_ok.1 h
  obtain rfl := Except.ok.inj h
  obtain ⟨rows, hrows, heq⟩ := sealFields_ok hfields hkeys
  refine ⟨sealed_ok.1 hpassword, ?_, fun u fs => ?_⟩
  · rw [heq]
    exact hrows
  · have htimes : buildTimes (dtToMs v.times.creationTime) (dtToMs v.times.lastModificationTime)
        (dtToMs v.times.lastAccessTime) (expiryMs v.times) none =
          { v.times.normal with locationChanged := none } := by
      rw [← buildTimes_normal]
      rfl
    unfold RecordLib.facetsOf EntryVersion.parked
    rw [htimes, List.map_map, hatt]
    simp only [Function.comp_def, toRow_toItem]
    rfl

/-- The record of an attachment. -/
def recordAttachment (R : RecordLib) (a : Attachment) : HistoryAttachmentIo :=
  ⟨a.name, a.data.length, bytesToHex (R.sha256 a.data).1⟩

theorem fromEntry_attachments (v : RefVersion) (pool : List Binary) (body : String) :
    (AttachmentStore.fromEntry R.sha256 ⟨v.attachments, body⟩ (pool.map (·.data))).attachments =
      (v.inlined pool).attachments.map (recordAttachment R) := by
  unfold AttachmentStore.fromEntry RefVersion.inlined
  dsimp only
  rw [List.map_filterMap]
  refine List.filterMap_congr fun a _ => ?_
  unfold AttachmentRef.bound
  rw [List.getElem?_map]
  cases pool[a.refId]? <;> rfl

/-- The record is that of the version, whose attachments refer to `pool`. -/
def WrittenAs (R : RecordLib) (pool : List Binary) (v : RefVersion) (snap : HistorySnapshotIo) : Prop :=
  ∃ body, R.bodyOf v.facets = .ok body ∧ R.ofJson snap.body = .ok body ∧
    snap.attachments = (v.inlined pool).attachments.map (recordAttachment R)

theorem jsonText_ok (hR : R.Lawful) {body : SnapshotBody} {text : String}
    (h : R.jsonText body = .ok text) : R.ofJson text = .ok body := by
  unfold RecordLib.jsonText at h
  cases hj : R.toJson body with
  | error e =>
    rw [hj] at h
    cases h
  | ok w =>
    rw [hj] at h
    obtain rfl := Except.ok.inj h
    exact hR.parses hj

theorem writtenAs_fromEntry (hR : R.Lawful) {v : RefVersion} {pool : List Binary} {body : SnapshotBody}
    {text : String} (hbody : R.bodyOf v.facets = .ok body) (htext : R.jsonText body = .ok text) :
    WrittenAs R pool v
      (AttachmentStore.fromEntry R.sha256 ⟨v.attachments, text⟩ (pool.map (·.data))) :=
  ⟨body, hbody, jsonText_ok hR htext, fromEntry_attachments v pool text⟩

theorem writtenAs_history (hR : R.Lawful) {vs : List RefVersion} {pool : List Binary}
    {bodies : List SnapshotBody} {texts : List String}
    (hbodies : List.Forall₂ (fun v body => R.bodyOf v.facets = .ok body) vs bodies)
    (htexts : List.Forall₂ (fun body text => R.jsonText body = .ok text) bodies texts) :
    List.Forall₂ (WrittenAs R pool) vs
      ((vs.zipWith (fun v text => (⟨v.attachments, text⟩ : PoolVersion)) texts).map fun h =>
        AttachmentStore.fromEntry R.sha256 h (pool.map (·.data))) := by
  induction hbodies generalizing texts with
  | nil => exact .nil
  | cons hbody _ ih =>
    cases htexts with
    | cons htext htexts => exact .cons (writtenAs_fromEntry hR hbody htext) (ih htexts)

/-- A parked row holds the record of every version. -/
structure ParkedAs (R : RecordLib) (pool : List Binary) (e : RefEntry) (row : ParkedEntry) : Prop where
  entry : WrittenAs R pool e.toRefVersion row.entry
  history : List.Forall₂ (WrittenAs R pool) e.history row.history

theorem writePeerEntry_parks (hR : R.Lawful) {s t : AttachmentStore} {owner : String} {e : RefEntry}
    {pool : List Binary} (hs : Backed R.sha256 s) (h : R.writePeerEntry s owner e pool = .ok t) :
    Backed R.sha256 t ∧ ∃ row, t.conflicts.find? (owner, e.facets.id) = some row ∧
      ParkedAs R pool e row := by
  obtain ⟨live, hlive, h⟩ := except_bind_ok.1 h
  obtain ⟨history, hhistory, h⟩ := except_bind_ok.1 h
  obtain ⟨body, hbody, h⟩ := except_bind_ok.1 h
  obtain ⟨bodies, hbodies, h⟩ := except_bind_ok.1 h
  dsimp only at h
  generalize hrecord : (PoolEntry.mk ⟨e.attachments, body⟩ e.facets.id
    (e.history.zipWith (fun h body => ⟨h.attachments, body⟩) bodies)) = record at h
  have hwrite : s.writePeerEntry R.sha256 owner record (pool.map (·.data)) = .ok t := by
    cases hw : s.writePeerEntry R.sha256 owner record (pool.map (·.data)) with
    | error e =>
      rw [hw] at h
      cases h
    | ok t' =>
      rw [hw] at h
      obtain rfl := Except.ok.inj h
      rfl
  refine ⟨hs.writePeerEntry hwrite, ?_⟩
  unfold AttachmentStore.writePeerEntry at hwrite
  dsimp only at hwrite
  split at hwrite
  · cases hwrite
  · rename_i conflicts hins
    unfold AttachmentStore.storeAttachmentBlobs at hwrite
    rw [foldl_upsertBlob] at hwrite
    obtain rfl := Except.ok.inj hwrite
    subst hrecord
    refine ⟨_, (Table.find?_insert hins _).trans (if_pos rfl), writtenAs_fromEntry hR hlive hbody, ?_⟩
    exact writtenAs_history hR (mapM_ok_iff.1 hhistory) (mapM_ok_iff.1 hbodies)

end Records

/-! ## Binding -/

/-- A new element of a pool. -/
def unprotected (bytes : List UInt8) : Binary := ⟨bytes, false⟩

/-- The pool with an element for each of the bytes. -/
def boundPool (pool : List Binary) (payloads : List (List UInt8)) : List Binary :=
  internAll Binary.data unprotected pool payloads

theorem grown_boundPool (pool : List Binary) (payloads : List (List UInt8)) :
    pool <+: boundPool pool payloads :=
  grown_internAll pool payloads

theorem boundPool_append (pool : List Binary) (xs ys : List (List UInt8)) :
    boundPool pool (xs ++ ys) = boundPool (boundPool pool xs) ys :=
  internAll_append pool xs ys

theorem boundPool_eq (pool : List Binary) (payloads : List (List UInt8)) :
    ∃ new, new ⊆ payloads ∧ new.Nodup ∧ (∀ bytes ∈ new, bytes ∉ pool.map (·.data)) ∧
      boundPool pool payloads = pool ++ new.map unprotected :=
  internAll_eq (fun _ => rfl) pool payloads

/-- No two of these byte strings share their digest. -/
def Collisionless (sha256 : List UInt8 → Sha) (payloads : List (List UInt8)) : Prop :=
  ∀ a ∈ payloads, ∀ b ∈ payloads, sha256 a = sha256 b → a = b

/-- The blob table has the bytes under their digest. -/
def Holds (sha256 : List UInt8 → Sha) (blobs : Table AttachmentBlob.sha)
    (payloads : List (List UInt8)) : Prop :=
  ∀ bytes ∈ payloads, ∃ blob, blobs.find? (sha256 bytes) = some blob ∧ blob.bytes = bytes

/-- The reference is to the first element of the pool with the bytes of the attachment. -/
def BoundAs (pool : List Binary) (a : Attachment) (r : AttachmentRef) : Prop :=
  r.name = a.name ∧ position Binary.data pool a.data = some r.refId

theorem BoundAs.grown {pool q : List Binary} {a : Attachment} {r : AttachmentRef} (hq : pool <+: q)
    (h : BoundAs pool a r) : BoundAs q a r :=
  ⟨h.1, position_of_grown hq h.2⟩

section Binding

variable {R : RecordLib} {S : List (List UInt8)} {blobs : Table AttachmentBlob.sha}
  (hcol : Collisionless R.sha256 S) (hblobs : Holds R.sha256 blobs S)
include hcol hblobs

/-- One attachment: its bytes are interned, and the digests stay an index of the pool. -/
theorem bindAttachment_ok {b : RecordLib.Binding} (refs : List AttachmentRef) {a : Attachment}
    (hidx : Indexes Binary.data R.sha256 S b.pool b.shaToRef) (ha : a.data ∈ S)
    (hfits : (intern Binary.data unprotected b.pool a.data).length ≤ 2 ^ 32) :
    ∃ r b', RecordLib.bindAttachment blobs (refs, b) (recordAttachment R a) = .ok (refs ++ [r], b') ∧
      b'.pool = intern Binary.data unprotected b.pool a.data ∧
      Indexes Binary.data R.sha256 S b'.pool b'.shaToRef ∧ BoundAs b'.pool a r := by
  unfold RecordLib.bindAttachment recordAttachment
  rw [if_neg (Backed.bytesToHex_ne_empty _), hexToBytes_bytesToHex, Option.bind_some, toSha_val]
  dsimp only
  have hlook := hidx a.data ha
  cases hfind : b.shaToRef.find? (R.sha256 a.data) with
  | some row =>
    rw [hfind, Option.map_some] at hlook
    have hmem : a.data ∈ b.pool.map Binary.data := exists_position.1 ⟨_, hlook.symm⟩
    exact ⟨_, b, rfl, (intern_of_mem hmem).symm, hidx, rfl, hlook.symm⟩
  | none =>
    rw [hfind, Option.map_none] at hlook
    have hnew := position_eq_none.1 hlook.symm
    obtain ⟨blob, hblob, hbytes⟩ := hblobs a.data ha
    rw [intern_of_not_mem hnew, List.length_append, List.length_singleton] at hfits
    rw [hblob]
    dsimp only
    have hidx' : Indexes Binary.data R.sha256 S (b.pool ++ [unprotected a.data])
        (b.shaToRef.put (R.sha256 a.data, b.pool.length)) :=
      hidx.append (fun _ => rfl) hcol ha hnew
    rw [if_pos (by omega), hbytes, intern_of_not_mem hnew]
    refine ⟨_, _, rfl, rfl, hidx', rfl, ?_⟩
    dsimp only
    rw [position_concat, position_eq_none.2 hnew, if_pos rfl]
    rfl

/-- The attachments of a record, one after another. -/
theorem bindAttachments_ok {as : List Attachment} {b : RecordLib.Binding} (refs : List AttachmentRef)
    (hidx : Indexes Binary.data R.sha256 S b.pool b.shaToRef) (hsub : as.map (·.data) ⊆ S)
    (hfits : (boundPool b.pool (as.map (·.data))).length ≤ 2 ^ 32) :
    ∃ rs b', (as.map (recordAttachment R)).foldlM (RecordLib.bindAttachment blobs) (refs, b) =
        .ok (refs ++ rs, b') ∧ b'.pool = boundPool b.pool (as.map (·.data)) ∧
      Indexes Binary.data R.sha256 S b'.pool b'.shaToRef ∧ List.Forall₂ (BoundAs b'.pool) as rs := by
  induction as generalizing b refs with
  | nil => exact ⟨[], b, by simp; rfl, rfl, hidx, .nil⟩
  | cons a as ih =>
    obtain ⟨ha, hsub⟩ := List.cons_subset.1 hsub
    have hgrown : intern Binary.data unprotected b.pool a.data <+:
        boundPool b.pool ((a :: as).map (·.data)) := grown_internAll _ _
    obtain ⟨r, b₁, hstep, hpool₁, hidx₁, hr⟩ := bindAttachment_ok hcol hblobs refs hidx ha
      (hgrown.length_le.trans hfits)
    obtain ⟨rs, b₂, hrest, hpool₂, hidx₂, hrs⟩ := ih (refs ++ [r]) hidx₁ hsub (by
      rw [hpool₁]
      exact hfits)
    have hend : b₂.pool = boundPool b.pool ((a :: as).map (·.data)) := by
      rw [hpool₂, hpool₁]
      rfl
    rw [← hpool₁, ← hend] at hgrown
    refine ⟨r :: rs, b₂, ?_, hend, hidx₂, .cons (hr.grown hgrown) hrs⟩
    rw [List.map_cons, List.foldlM_cons, hstep]
    change (as.map (recordAttachment R)).foldlM _ _ = _
    rw [hrest, List.append_assoc]
    rfl

end Binding

/-! ## Rebuilding -/

/-- The reference of a rebuilt version is to the first element of the pool with the bytes that the
reference of the peer is bound to. -/
def Rebound (peerPool pool : List Binary) (a a' : AttachmentRef) : Prop :=
  a'.name = a.name ∧ ∃ b, peerPool[a.refId]? = some b ∧
    position Binary.data pool b.data = some a'.refId

/-- `v'` is the version `v` of the peer as the mirror holds it, its attachments in the target's
pool. -/
structure RebuiltAs (u : Uuid) (peerPool pool : List Binary) (v v' : RefVersion) : Prop where
  facets : v'.facets = { v.facets.parked u with customFields := v'.facets.customFields }
  customFields : v'.facets.customFields.Perm v.facets.customFields
  attachments : List.Forall₂ (Rebound peerPool pool) v.attachments v'.attachments

theorem RebuiltAs.grown {u : Uuid} {peerPool pool q : List Binary} {v v' : RefVersion}
    (hq : pool <+: q) (h : RebuiltAs u peerPool pool v v') : RebuiltAs u peerPool q v v' where
  facets := h.facets
  customFields := h.customFields
  attachments := h.attachments.imp fun _ _ ⟨hname, b, hb, hpos⟩ =>
    ⟨hname, b, hb, position_of_grown hq hpos⟩

/-- Where no reference dangles, what is bound in place of the inlined attachments is bound in place of
the references. -/
theorem rebound_of_bound {peerPool pool : List Binary} {as : List AttachmentRef}
    {rs : List AttachmentRef} (hres : ∀ a ∈ as, a.refId < peerPool.length)
    (h : List.Forall₂ (BoundAs pool) (as.filterMap (AttachmentRef.bound peerPool)) rs) :
    List.Forall₂ (Rebound peerPool pool) as rs := by
  induction as generalizing rs with
  | nil =>
    cases h
    exact .nil
  | cons a as ih =>
    obtain ⟨hlt, hres⟩ := List.forall_mem_cons.1 hres
    have hget := List.getElem?_eq_getElem hlt
    have hbound : a.bound peerPool = some ⟨a.name, peerPool[a.refId].data,
        peerPool[a.refId].isProtected⟩ := by
      unfold AttachmentRef.bound
      rw [hget]
      rfl
    rw [List.filterMap_cons_some hbound] at h
    cases h with
    | cons hr h => exact .cons ⟨hr.1, _, hget, hr.2⟩ (ih hres h)

/-- The bytes stay with the names. -/
theorem rebound_normal {peerPool pool : List Binary} {as as' : List AttachmentRef}
    (h : List.Forall₂ (Rebound peerPool pool) as as') :
    (as'.filterMap (AttachmentRef.bound pool)).map (·.normal) =
      (as.filterMap (AttachmentRef.bound peerPool)).map (·.normal) := by
  induction h with
  | nil => rfl
  | @cons a a' as as' hr _ ih =>
    obtain ⟨hname, b, hb, hpos⟩ := hr
    obtain ⟨b', hb', hdata⟩ := position_spec hpos
    have hbound : a.bound peerPool = some ⟨a.name, b.data, b.isProtected⟩ := by
      unfold AttachmentRef.bound
      rw [hb]
      rfl
    have hbound' : a'.bound pool = some ⟨a.name, b.data, b'.isProtected⟩ := by
      unfold AttachmentRef.bound
      rw [hb', ← hname, ← hdata]
      rfl
    rw [List.filterMap_cons_some hbound, List.filterMap_cons_some hbound', List.map_cons,
      List.map_cons, ih]
    rfl

/-- **A rebuilt version, inlined, is the one the other modules read off the row**, but for the order of
its custom fields and the protection flags of the pool. -/
theorem RebuiltAs.inlined {u : Uuid} {peerPool pool : List Binary} {v v' : RefVersion}
    (h : RebuiltAs u peerPool pool v v') (hkeys : (v.facets.customFields.map (·.key)).Nodup) :
    { v'.inlined pool with
      customFields := sortFields v'.facets.customFields
      attachments := (v'.inlined pool).attachments.map (·.normal) } =
      (HistorySnapshot.fromEntry (v.inlined peerPool)).toVersion u := by
  have hfields : sortFields v'.facets.customFields = sortFields v.facets.customFields :=
    insertionSort_perm h.customFields hkeys
  have hatt : (v'.inlined pool).attachments.map (·.normal) =
      (v.inlined peerPool).attachments.map (·.normal) := rebound_normal h.attachments
  rw [fromEntry_toVersion u (v.inlined peerPool) hkeys, hfields, hatt]
  unfold RefVersion.inlined
  rw [h.facets]
  rfl

section Rebuilding

variable {R : RecordLib} (hR : R.Lawful) {S : List (List UInt8)} {blobs : Table AttachmentBlob.sha}
  (hcol : Collisionless R.sha256 S) (hblobs : Holds R.sha256 blobs S)
include hR hcol hblobs

/-- **A record comes back as the version it was written from.** -/
theorem snapshotToEntry_ok (u : Uuid) {peerPool : List Binary} {v : RefVersion}
    {snap : HistorySnapshotIo} (hw : WrittenAs R peerPool v snap)
    (hkeys : (v.facets.customFields.map (·.key)).Nodup) (hres : v.Resolves peerPool)
    {b : RecordLib.Binding} (hidx : Indexes Binary.data R.sha256 S b.pool b.shaToRef)
    (hsub : v.payloads peerPool ⊆ S)
    (hfits : (boundPool b.pool (v.payloads peerPool)).length ≤ 2 ^ 32) :
    ∃ body v' b', R.parseRecord snap = .ok (body, snap.attachments) ∧
      R.snapshotToEntry u blobs body snap.attachments b = .ok (v', b') ∧
      b'.pool = boundPool b.pool (v.payloads peerPool) ∧
      Indexes Binary.data R.sha256 S b'.pool b'.shaToRef ∧ RebuiltAs u peerPool b'.pool v v' := by
  obtain ⟨body, hbody, hparse, hatt⟩ := hw
  obtain ⟨hpassword, hfields, hfacets⟩ := bodyOf_ok hkeys v.facets_attachments hbody
  obtain ⟨fs, hopen, hperm⟩ := openFields_ok hR u hfields
  obtain ⟨rs, b', hbind, hpool, hidx', hbound⟩ :=
    bindAttachments_ok hcol hblobs [] hidx
      (show (v.inlined peerPool).attachments.map (·.data) ⊆ S from hsub) hfits
  refine ⟨body, ⟨RecordLib.facetsOf u body v.facets.password fs, rs, rfl⟩, b', ?_, ?_, hpool, hidx',
    ⟨hfacets u fs, hperm, rebound_of_bound hres hbound⟩⟩
  · unfold RecordLib.parseRecord
    rw [hparse]
    rfl
  · unfold RecordLib.snapshotToEntry
    rw [unwrapField_ok hR u _ hpassword, hatt]
    change ((R.fieldOrder body.customFields.rows).mapM (R.openField u) >>= _) = _
    rw [hopen]
    change ((List.map _ _).foldlM (RecordLib.bindAttachment blobs) ([], b) >>= _) = _
    rw [hbind]
    rfl

theorem rebuildHistory_ok (u : Uuid) {peerPool : List Binary} {vs : List RefVersion}
    {snaps : List HistorySnapshotIo} (hw : List.Forall₂ (WrittenAs R peerPool) vs snaps)
    (hkeys : ∀ v ∈ vs, (v.facets.customFields.map (·.key)).Nodup)
    (hres : ∀ v ∈ vs, v.Resolves peerPool) {b : RecordLib.Binding}
    (hidx : Indexes Binary.data R.sha256 S b.pool b.shaToRef)
    (hsub : vs.flatMap (·.payloads peerPool) ⊆ S)
    (hfits : (boundPool b.pool (vs.flatMap (·.payloads peerPool))).length ≤ 2 ^ 32) :
    ∃ records vs' b', snaps.mapM R.parseRecord = .ok records ∧
      R.rebuildHistory u blobs records b = .ok (vs', b') ∧
      b'.pool = boundPool b.pool (vs.flatMap (·.payloads peerPool)) ∧
      List.Forall₂ (RebuiltAs u peerPool b'.pool) vs vs' := by
  induction hw generalizing b with
  | nil => exact ⟨[], [], b, rfl, rfl, rfl, .nil⟩
  | @cons v snap vs snaps hv _ ih =>
    obtain ⟨hkey, hkeys⟩ := List.forall_mem_cons.1 hkeys
    obtain ⟨hre, hres⟩ := List.forall_mem_cons.1 hres
    rw [List.flatMap_cons] at hsub hfits
    obtain ⟨hsub₁, hsub₂⟩ := List.append_subset.1 hsub
    rw [boundPool_append] at hfits
    have hgrown := grown_boundPool (boundPool b.pool (v.payloads peerPool))
      (vs.flatMap (·.payloads peerPool))
    obtain ⟨body, v', b₁, hparse, hstep, hpool₁, hidx₁, hv'⟩ :=
      snapshotToEntry_ok hR hcol hblobs u hv hkey hre hidx hsub₁ (hgrown.length_le.trans hfits)
    obtain ⟨records, vs', b₂, hparses, hrest, hpool₂, hvs'⟩ := ih hkeys hres hidx₁ hsub₂ (by
      rw [hpool₁]
      exact hfits)
    rw [← hpool₁] at hgrown
    refine ⟨(body, snap.attachments) :: records, v' :: vs', b₂, ?_, ?_, ?_,
      .cons (hv'.grown (hpool₂ ▸ hgrown)) hvs'⟩
    · rw [List.mapM_cons, hparse]
      change (snaps.mapM R.parseRecord >>= _) = _
      rw [hparses]
      rfl
    · unfold RecordLib.rebuildHistory
      rw [hstep]
      change (R.rebuildHistory u blobs records b₁ >>= _) = _
      rw [hrest]
      rfl
    · rw [hpool₂, hpool₁, List.flatMap_cons, boundPool_append]

end Rebuilding

/-! ## The round trip -/

/-- The pool of the target, with the positions of the elements whose length the record has. -/
theorem seedPool_ok {R : RecordLib} {sizes : List Nat} {l : List (Binary × Nat)}
    {T : RecordLib.ShaToRef} (h : ∀ x ∈ l, x.2 < 2 ^ 32) :
    l.foldlM (R.seedOne sizes) T =
      .ok (seed Binary.data R.sha256 (fun bytes => decide (bytes.length ∈ sizes)) T l) := by
  induction l generalizing T with
  | nil => rfl
  | cons x l ih =>
    obtain ⟨hx, h⟩ := List.forall_mem_cons.1 h
    rw [List.foldlM_cons]
    unfold RecordLib.seedOne seed
    by_cases hsize : x.1.data.length ∈ sizes
    · rw [if_pos hsize, if_pos hx, List.foldl_cons, if_pos (decide_eq_true hsize)]
      exact ih h
    · rw [if_neg hsize, List.foldl_cons, if_neg (by simpa using hsize)]
      exact ih h

theorem seedPool_skips {R : RecordLib} {sizes : List Nat} {l : List (Binary × Nat)}
    {T : RecordLib.ShaToRef} (h : ∀ x ∈ l, x.1.data.length ∉ sizes) :
    l.foldlM (R.seedOne sizes) T = .ok T := by
  induction l with
  | nil => rfl
  | cons x l ih =>
    obtain ⟨hx, h⟩ := List.forall_mem_cons.1 h
    rw [List.foldlM_cons, RecordLib.seedOne, if_neg hx]
    exact ih h

theorem parseRecords_ok {R : RecordLib} {peerPool : List Binary} {vs : List RefVersion}
    {snaps : List HistorySnapshotIo} (h : List.Forall₂ (WrittenAs R peerPool) vs snaps) :
    ∃ records, snaps.mapM R.parseRecord = .ok records := by
  induction h with
  | nil => exact ⟨[], rfl⟩
  | @cons v snap _ snaps hw _ ih =>
    obtain ⟨body, -, hparse, -⟩ := hw
    obtain ⟨records, hrecords⟩ := ih
    refine ⟨(body, snap.attachments) :: records, ?_⟩
    rw [List.mapM_cons, RecordLib.parseRecord, hparse]
    change (snaps.mapM R.parseRecord >>= _) = _
    rw [hrecords]
    rfl

section RoundTrip

variable {R : RecordLib} {peerPool : List Binary} {e : RefEntry} {row : ParkedEntry}

/-- Each attachment of the entry stands in a record, with its length and its digest. -/
theorem ParkedAs.mem_records (h : ParkedAs R peerPool e row) {bytes : List UInt8}
    (hb : bytes ∈ e.payloads peerPool) : ∃ snap ∈ row.records, ∃ a ∈ snap.attachments,
      a.size = bytes.length ∧ a.sha256Hex = bytesToHex (R.sha256 bytes).1 := by
  obtain ⟨v, hv, hb⟩ := List.mem_flatMap.1 hb
  obtain ⟨a, ha, rfl⟩ := List.mem_map.1 hb
  have hrecords : List.Forall₂ (WrittenAs R peerPool) e.versions row.records := .cons h.entry h.history
  obtain ⟨snap, hsnap, _, -, -, hatt⟩ := forall₂_mem hrecords hv
  exact ⟨snap, hsnap, recordAttachment R a, by rw [hatt]; exact List.mem_map_of_mem ha, rfl, rfl⟩

/-- The digests taken of the target's pool are an index of it for the bytes of the entry. -/
theorem ParkedAs.seeds (h : ParkedAs R peerPool e row) {pool : List Binary}
    (hlength : pool.length ≤ 2 ^ 32)
    (hcol : ∀ a ∈ pool.map (·.data), ∀ b ∈ e.payloads peerPool, R.sha256 a = R.sha256 b → a = b) :
    ∃ T, pool.zipIdx.foldlM (R.seedOne row.sizes) .empty = .ok T ∧
      Indexes Binary.data R.sha256 (e.payloads peerPool) pool T := by
  refine ⟨_, seedPool_ok fun x hx => ?_, indexes_seed (fun bytes hb => ?_) hcol⟩
  · have := List.snd_lt_of_mem_zipIdx hx
    omega
  · obtain ⟨snap, hsnap, a, ha, hsize, -⟩ := h.mem_records hb
    rw [← hsize]
    exact decide_eq_true (List.mem_flatMap.2 ⟨snap, hsnap, List.mem_map_of_mem ha⟩)

/-- The store holds the bytes of every attachment of a parked entry. -/
theorem ParkedAs.holds (h : ParkedAs R peerPool e row) {t : AttachmentStore}
    (hback : Backed R.sha256 t) (hrow : row ∈ t.conflicts.rows)
    (hcol : ∀ bytes ∈ e.payloads peerPool, ∀ blob ∈ t.blobs.rows,
      R.sha256 blob.bytes = R.sha256 bytes → blob.bytes = bytes) :
    Holds R.sha256 t.blobs (e.payloads peerPool) := by
  intro bytes hb
  obtain ⟨snap, hsnap, a, ha, -, hhex⟩ := h.mem_records hb
  obtain ⟨sha, href, hhex'⟩ := hback.parked row hrow snap hsnap a ha
  obtain rfl : R.sha256 bytes = sha := bytesToHex_injective (hhex.symm.trans hhex')
  obtain ⟨blob, hfind⟩ := Table.exists_find?.2 (hback.refs _ href).1
  refine ⟨blob, hfind, hcol bytes hb blob (Table.find?_mem hfind) ?_⟩
  rw [← hback.addressed blob (Table.find?_mem hfind)]
  exact Table.find?_key hfind

/-- **A parked entry comes back from any store that holds its row.** -/
theorem reconstruct_of_parked (hR : R.Lawful) {t : AttachmentStore} (hback : Backed R.sha256 t)
    {owner : String} {pool : List Binary} (hrow : t.conflicts.find? (owner, e.facets.id) = some row)
    (hparked : ParkedAs R peerPool e row)
    (hkeys : ∀ v ∈ e.versions, (v.facets.customFields.map (·.key)).Nodup)
    (hres : ∀ v ∈ e.versions, v.Resolves peerPool)
    (hcol : Collisionless R.sha256
      (e.payloads peerPool ++ pool.map (·.data) ++ t.blobs.rows.map (·.bytes)))
    (hfits : (boundPool pool (e.payloads peerPool)).length ≤ 2 ^ 32) :
    ∃ e', R.reconstructPeerEntry t owner e.facets.id pool =
        .ok (some (e', boundPool pool (e.payloads peerPool))) ∧
      List.Forall₂ (RebuiltAs e.facets.id peerPool (boundPool pool (e.payloads peerPool))) e.versions
        e'.versions := by
  have hmem := Table.find?_mem hrow
  have hpayloads : Collisionless R.sha256 (e.payloads peerPool) := fun a ha b hb =>
    hcol a (by simp [ha]) b (by simp [hb])
  have hblobs := hparked.holds hback hmem fun bytes hb blob hblob =>
    hcol _ (List.mem_append_right _ (List.mem_map_of_mem hblob)) _ (by simp [hb])
  have hlength : pool.length ≤ 2 ^ 32 := (grown_boundPool pool _).length_le.trans hfits
  obtain ⟨T, hseed, hidx⟩ := hparked.seeds hlength fun a ha b hb =>
    hcol a (by simp [ha]) b (by simp [hb])
  -- The versions are rebuilt one after another, the live one first.
  have hrecords : List.Forall₂ (WrittenAs R peerPool) e.versions (row.entry :: row.history) :=
    .cons hparked.entry hparked.history
  obtain ⟨records, vs', b', hparse, hrebuild, hpool, hvs⟩ :=
    rebuildHistory_ok hR hpayloads hblobs e.facets.id hrecords hkeys hres (b := ⟨pool, T⟩) hidx
      (List.Subset.refl _) hfits
  have hpool : b'.pool = boundPool pool (e.payloads peerPool) := hpool
  rw [List.mapM_cons] at hparse
  obtain ⟨live, hlive, hparse⟩ := except_bind_ok.1 hparse
  obtain ⟨history, hhistory, hparse⟩ := except_bind_ok.1 hparse
  obtain rfl := Except.ok.inj hparse
  obtain ⟨⟨v', b₁⟩, hv', hrebuild⟩ := except_bind_ok.1 hrebuild
  obtain ⟨⟨ws, b₂⟩, hws, hrebuild⟩ := except_bind_ok.1 hrebuild
  obtain ⟨rfl, rfl⟩ := Prod.mk.inj (Except.ok.inj hrebuild)
  refine ⟨{ v' with history := ws }, ?_, hpool ▸ hvs⟩
  unfold RecordLib.reconstructPeerEntry
  rw [hrow]
  dsimp only
  rw [hlive]
  change (row.history.mapM R.parseRecord >>= _) = _
  rw [hhistory]
  change (pool.zipIdx.foldlM (R.seedOne _) .empty >>= _) = _
  rw [hseed]
  change (R.snapshotToEntry _ _ _ _ _ >>= _) = _
  rw [hv']
  change (R.rebuildHistory _ _ _ _ >>= _) = _
  rw [hws, ← hpool]
  rfl

/-- A pool with `2 ^ 32` elements takes no new one: an entry is refused whose first attachment has bytes
that no element of the pool can have, by its length. -/
theorem reconstruct_of_full (hR : R.Lawful) {t : AttachmentStore} (hback : Backed R.sha256 t)
    {owner : String} {pool : List Binary} (hrow : t.conflicts.find? (owner, e.facets.id) = some row)
    (hparked : ParkedAs R peerPool e row)
    (hkeys : (e.facets.customFields.map (·.key)).Nodup) {a : Attachment} {as : List Attachment}
    (hatt : (e.toRefVersion.inlined peerPool).attachments = a :: as)
    (hcol : ∀ bytes ∈ e.payloads peerPool, ∀ blob ∈ t.blobs.rows,
      R.sha256 blob.bytes = R.sha256 bytes → blob.bytes = bytes)
    (hother : ∀ b ∈ pool, b.data.length ∉ row.sizes) (hfull : 2 ^ 32 ≤ pool.length) :
    R.reconstructPeerEntry t owner e.facets.id pool = .error .poolExceeded := by
  obtain ⟨body, hbody, hparse, hrecord⟩ := hparked.entry
  obtain ⟨hpassword, hfields, -⟩ := bodyOf_ok hkeys e.facets_attachments hbody
  obtain ⟨fs, hopen, -⟩ := openFields_ok hR e.facets.id hfields
  have ha : a.data ∈ e.payloads peerPool := by
    refine List.mem_flatMap.2 ⟨e.toRefVersion, List.mem_cons_self, ?_⟩
    unfold RefVersion.payloads
    rw [hatt]
    exact List.mem_cons_self
  obtain ⟨blob, hblob, -⟩ := hparked.holds hback (Table.find?_mem hrow) hcol a.data ha
  obtain ⟨records, hrecords⟩ := parseRecords_ok hparked.history
  have hbind : RecordLib.bindAttachment t.blobs ([], ⟨pool, .empty⟩) (recordAttachment R a) =
      .error .poolExceeded := by
    unfold RecordLib.bindAttachment recordAttachment
    rw [if_neg (Backed.bytesToHex_ne_empty _), hexToBytes_bytesToHex, Option.bind_some, toSha_val]
    simp only [hblob]
    exact if_neg (by omega)
  unfold RecordLib.reconstructPeerEntry RecordLib.parseRecord
  rw [hrow]
  dsimp only
  rw [hparse]
  change (row.history.mapM R.parseRecord >>= _) = _
  rw [hrecords]
  change (pool.zipIdx.foldlM (R.seedOne _) .empty >>= _) = _
  rw [seedPool_skips fun x hx => hother x.1 (List.fst_mem_of_mem_zipIdx hx)]
  unfold RecordLib.snapshotToEntry
  rw [unwrapField_ok hR _ _ hpassword]
  change (((R.fieldOrder body.customFields.rows).mapM (R.openField _) >>= _) >>= _) = _
  rw [hopen]
  change ((row.entry.attachments.foldlM (RecordLib.bindAttachment t.blobs) ([], _) >>= _) >>= _) = _
  rw [hrecord, hatt, List.map_cons, List.foldlM_cons, hbind]
  rfl

end RoundTrip

/-! ## One entry parked -/

/-- Records whose texts are listed, sealing by reversal, digests by padding. -/
def listedRecords (texts : Table (Prod.snd : SnapshotBody × String → String)) : RecordLib where
  sha256 bytes := ⟨(bytes ++ List.replicate 32 0).take 32, by simp⟩
  sealWithKey plaintext := .ok (String.ofList plaintext.toList.reverse)
  openWithKey sealedValue := .ok (String.ofList sealedValue.toList.reverse)
  toJson body :=
    match texts.rows.find? (·.1 = body) with
    | some row => .ok row.2
    | none => .error "not listed"
  ofJson text :=
    match texts.find? text with
    | some row => .ok row.1
    | none => .error "not a record"
  fieldOrder := List.reverse

theorem listedRecords_lawful (texts : Table (Prod.snd : SnapshotBody × String → String)) :
    (listedRecords texts).Lawful where
  opens {plaintext sealedValue} h := by
    obtain rfl := Except.ok.inj h
    simp [listedRecords]
  parses {body text} h := by
    unfold listedRecords at h ⊢
    dsimp only at h ⊢
    cases hfind : texts.rows.find? (·.1 = body) with
    | none =>
      rw [hfind] at h
      cases h
    | some row =>
      rw [hfind] at h
      obtain rfl := Except.ok.inj h
      obtain rfl : row.1 = body := by simpa using List.find?_some hfind
      rw [Table.find?_of_mem (List.mem_of_find?_eq_some hfind)]
  fieldOrder := List.reverse_perm

/-- A version of entry 9 without a creation time, with an expiry that is not in force. -/
def mailVersion (title : String) (at' : EpochMs) : RefVersion where
  facets :=
    { id := 9, title, password := "hunter2", customFields := [⟨"pin", "1234", true⟩, ⟨"note", "n", false⟩]
      times := { lastModificationTime := some at'.toDateTime, expiryTime := some at'.toDateTime } }
  attachments := [⟨"scan.png", 1⟩, ⟨"key", 0⟩]

def parkedMail : RefEntry :=
  { mailVersion "Mail" (.atSecond 60) with history := [mailVersion "Post" (.atSecond 40)] }

def mailPool : List Binary := [⟨[3], false⟩, ⟨[1, 2], true⟩]

def mailBody (title : String) (at' : EpochMs) : SnapshotBody where
  title
  username := ""
  url := ""
  notes := ""
  password := "2retnuh"
  tags := []
  createdAt := default
  modifiedAt := at'
  accessedAt := default
  expiresAt := none
  iconIndex := some 0
  iconCustomUuid := none
  customFields := ⟨[("pin", ⟨"4321", true⟩), ("note", ⟨"n", false⟩)], by decide⟩
  customData := []

def mailRecords : RecordLib :=
  listedRecords ⟨[(mailBody "Mail" (.atSecond 60), "live"), (mailBody "Post" (.atSecond 40), "past")],
    by decide⟩

/-- The store with the row of `parkedMail`. -/
def mailStore : AttachmentStore :=
  match mailRecords.writePeerEntry .empty "peer" parkedMail mailPool with
  | .ok t => t
  | .error _ => .empty

theorem mailStore_eq :
    mailRecords.writePeerEntry .empty "peer" parkedMail mailPool = .ok mailStore := by
  decide +kernel

end KeysCore.Verify
