import KeysCore.Attachments
import KeysCore.Lib.Except

/-!
# Every referenced attachment is in the pool

A reference is a live link, an attachment of a history record or an attachment of a parked
conflict's live or history version. In every run of the engine from a new mirror each referenced
digest has its bytes in `attachment_blob`, and the collection removes exactly the blobs that no
reference names (`blobs_back_references`).

The invariant (`Backed`) is kept by every operation. Links and history records need their digests in
the pool; a parked record needs a row of `conflict_entry_blob_ref` for each of its digests, and such
a row needs its digest in the pool and in the record. The second half is what lets a full re-ingest,
which keeps only the blobs of these rows, leave the parked conflicts whole.
-/

namespace KeysCore.Verify

open KeysCore Lib AttachmentStore

/-! ## Hex -/

theorem hexNibble_digitChar : ∀ n < 16, hexNibble (Nat.digitChar n) = some n := by decide

theorem digitChar_ne_plus : ∀ n < 16, Nat.digitChar n ≠ '+' := by decide

theorem hexByte_digits (b : UInt8) :
    hexByte (Nat.digitChar (b.toNat / 16)) (Nat.digitChar (b.toNat % 16)) = some b := by
  have hb : b.toNat < 256 := b.toNat_lt
  have hhi : b.toNat / 16 < 16 := by omega
  have hlo : b.toNat % 16 < 16 := by omega
  simp only [hexByte, hexNibble_digitChar _ hhi, hexNibble_digitChar _ hlo, Option.bind_eq_bind,
    Option.bind_some]
  rw [Nat.div_add_mod, UInt8.ofNat_toNat]
  rfl

theorem fromStrRadix_digits (b : UInt8) :
    fromStrRadix (Nat.digitChar (b.toNat / 16)) (Nat.digitChar (b.toNat % 16)) = some b := by
  have hb : b.toNat < 256 := b.toNat_lt
  have hhi : b.toNat / 16 < 16 := by omega
  unfold fromStrRadix
  rw [if_neg (digitChar_ne_plus _ hhi)]
  exact hexByte_digits b

/-- A byte reader that reads two digits back reads back every text of digits. -/
theorem decodePairs_digits {byte : Char → Char → Option UInt8}
    (h : ∀ b : UInt8, byte (Nat.digitChar (b.toNat / 16)) (Nat.digitChar (b.toNat % 16)) = some b)
    (bytes : List UInt8) :
    decodePairs byte
      (bytes.flatMap fun b => [Nat.digitChar (b.toNat / 16), Nat.digitChar (b.toNat % 16)]) =
      some bytes := by
  induction bytes with
  | nil => rfl
  | cons b bs ih => simp [decodePairs, h, ih]

theorem hexToBytes_bytesToHex (bytes : List UInt8) : hexToBytes (bytesToHex bytes) = some bytes := by
  unfold hexToBytes bytesToHex
  rw [String.toList_ofList]
  exact decodePairs_digits hexByte_digits bytes

theorem toSha_val (sha : Sha) : toSha sha.1 = some sha := by
  unfold toSha
  rw [dif_pos sha.2]
  rfl

/-- The collection reads back the digests the engine writes. -/
theorem hexDecode32_bytesToHex (sha : Sha) : hexDecode32 (bytesToHex sha.1) = some sha := by
  have hlen : (bytesToHex sha.1).toList.length = 64 := by
    unfold bytesToHex
    rw [String.toList_ofList, List.length_flatMap]
    simp [sha.2]
  unfold hexDecode32
  rw [if_pos hlen]
  unfold bytesToHex
  rw [String.toList_ofList, decodePairs_digits fromStrRadix_digits]
  exact toSha_val sha

theorem bytesToHex_injective {a b : Sha} (h : bytesToHex a.1 = bytesToHex b.1) : a = b := by
  have := hexDecode32_bytesToHex a
  rw [h, hexDecode32_bytesToHex b] at this
  exact (Option.some.inj this).symm

/-! ## References -/

/-- The record has an attachment of this digest. -/
def HistorySnapshotIo.Names (snap : HistorySnapshotIo) (sha : Sha) : Prop :=
  ∃ a ∈ snap.attachments, a.sha256Hex = bytesToHex sha.1

/-- Every attachment of the record is under one of the digests. -/
def HistorySnapshotIo.Within (snap : HistorySnapshotIo) (shas : List Sha) : Prop :=
  ∀ a ∈ snap.attachments, ∃ sha ∈ shas, a.sha256Hex = bytesToHex sha.1

/-- A live link, a history record or a parked conflict refers to the digest. -/
inductive References (s : AttachmentStore) (sha : Sha) : Prop where
  | link (e : PooledEntry) (he : e ∈ s.entries.rows) (name : String) (hl : (name, sha) ∈ e.links)
  | history (e : PooledEntry) (he : e ∈ s.entries.rows) (snap : HistorySnapshotIo)
    (hs : snap ∈ e.history) (hn : HistorySnapshotIo.Names snap sha)
  | parked (r : ParkedEntry) (hr : r ∈ s.conflicts.rows) (snap : HistorySnapshotIo)
    (hs : snap ∈ r.records) (hn : HistorySnapshotIo.Names snap sha)

/-- The records of the history and of the parked conflicts. -/
def storedRecords (s : AttachmentStore) : List HistorySnapshotIo :=
  s.entries.rows.flatMap (·.history) ++ s.conflicts.rows.flatMap ParkedEntry.records

/-- The links and the records of an entry are under these digests. -/
structure Pooled (shas : List Sha) (e : PooledEntry) : Prop where
  links : ∀ l ∈ e.links, l.2 ∈ shas
  history : ∀ snap ∈ e.history, HistorySnapshotIo.Within snap shas

/-- The invariant of the store. -/
structure Backed (sha256 : List UInt8 → Sha) (s : AttachmentStore) : Prop where
  addressed : ∀ b ∈ s.blobs.rows, b.sha = sha256 b.bytes
  entries : ∀ e ∈ s.entries.rows, Pooled s.blobs.keys e
  parked : ∀ r ∈ s.conflicts.rows, ∀ snap ∈ r.records, ∀ a ∈ snap.attachments,
    ∃ sha, ⟨r.owner, r.uuid, sha⟩ ∈ s.blobRefs.rows ∧ a.sha256Hex = bytesToHex sha.1
  refs : ∀ ref ∈ s.blobRefs.rows, ref.sha ∈ s.blobs.keys ∧
    ∃ r ∈ s.conflicts.rows, (r.owner, r.uuid) = (ref.owner, ref.uuid) ∧
      ∃ snap ∈ r.records, HistorySnapshotIo.Names snap ref.sha

theorem HistorySnapshotIo.Within.mono {snap : HistorySnapshotIo} {ks ks' : List Sha}
    (h : HistorySnapshotIo.Within snap ks) (hsub : ks ⊆ ks') : HistorySnapshotIo.Within snap ks' := by
  intro a ha
  obtain ⟨sha, hsha, hex⟩ := h a ha
  exact ⟨sha, hsub hsha, hex⟩

theorem Pooled.mono {ks ks' : List Sha} {e : PooledEntry} (h : Pooled ks e) (hsub : ks ⊆ ks') :
    Pooled ks' e :=
  ⟨fun l hl => hsub (h.links l hl), fun snap hs => (h.history snap hs).mono hsub⟩

theorem backed_empty (sha256 : List UInt8 → Sha) : Backed sha256 .empty := by
  constructor <;> intro r hr <;> simp [AttachmentStore.empty, Table.empty] at hr

namespace Backed

variable {sha256 : List UInt8 → Sha} {s : AttachmentStore}

/-! ## Storing -/

/-- A larger pool backs what the pool backed. -/
theorem grow (h : Backed sha256 s) {B : Table AttachmentBlob.sha} (hsub : s.blobs.keys ⊆ B.keys)
    (haddr : ∀ b ∈ B.rows, b.sha = sha256 b.bytes) : Backed sha256 { s with blobs := B } where
  addressed := haddr
  entries e he := (h.entries e he).mono hsub
  parked := h.parked
  refs ref hr := ⟨hsub (h.refs ref hr).1, (h.refs ref hr).2⟩

/-- The entries may be replaced by others the pool backs. -/
theorem withEntries (h : Backed sha256 s) {E : Table PooledEntry.uuid}
    (hE : ∀ e ∈ E.rows, Pooled s.blobs.keys e) : Backed sha256 { s with entries := E } :=
  ⟨h.addressed, hE, h.parked, h.refs⟩

theorem upsertAttachmentBlob (h : Backed sha256 s) (bytes : List UInt8) :
    Backed sha256 (s.upsertAttachmentBlob sha256 bytes) := by
  refine h.grow (fun k hk => Table.mem_keys_insertOrIgnore.2 (.inl hk)) ?_
  intro b hb
  rcases Table.mem_insertOrIgnore.1 hb with hb | ⟨rfl, -⟩
  · exact h.addressed b hb
  · rfl

theorem updateEntry (h : Backed sha256 s) (u : Uuid) {f : PooledEntry → PooledEntry}
    (hf : ∀ e, (f e).uuid = e.uuid)
    (hpool : ∀ e ∈ s.entries.rows, e.uuid = u → Pooled s.blobs.keys (f e)) :
    Backed sha256 (s.updateEntry u f hf) := by
  refine h.withEntries ?_
  intro e he
  obtain ⟨old, hold, rfl⟩ := (Table.mem_update hf).1 he
  split
  · rename_i hu
    exact hpool old hold hu
  · exact h.entries old hold

theorem deleteEntry (h : Backed sha256 s) (u : Uuid) : Backed sha256 (s.deleteEntry u) :=
  h.withEntries fun e he => h.entries e (Table.mem_delete.1 he).1

end Backed

section Storing

variable (sha256 : List UInt8 → Sha)

theorem mem_keys_upsertBlob (s : AttachmentStore) (bytes : List UInt8) :
    sha256 bytes ∈ (s.upsertAttachmentBlob sha256 bytes).blobs.keys :=
  Table.mem_keys_insertOrIgnore.2 (.inr rfl)

/-- The blobs of `store_attachment_blobs`. -/
def grownBlobs (B : Table AttachmentBlob.sha) (bs : Binaries) : Table AttachmentBlob.sha :=
  bs.foldl (fun B bytes => B.insertOrIgnore ⟨sha256 bytes, bytes⟩) B

theorem foldl_upsertBlob (s : AttachmentStore) (bs : Binaries) :
    bs.foldl (upsertAttachmentBlob sha256) s = { s with blobs := grownBlobs sha256 s.blobs bs } := by
  induction bs generalizing s with
  | nil => rfl
  | cons b bs ih => exact ih _

theorem mem_keys_grownBlobs (B : Table AttachmentBlob.sha) (bs : Binaries) (k : Sha) :
    k ∈ (grownBlobs sha256 B bs).keys ↔ k ∈ B.keys ∨ k ∈ bs.map sha256 := by
  induction bs generalizing B with
  | nil => simp [grownBlobs]
  | cons b bs ih =>
    have := ih (B.insertOrIgnore ⟨sha256 b, b⟩)
    rw [Table.mem_keys_insertOrIgnore] at this
    simp only [grownBlobs, List.foldl_cons, List.map_cons, List.mem_cons] at this ⊢
    rw [this]
    tauto

/-- The record of a version is under the digests of the references that resolve. -/
theorem fromEntry_within {v : PoolVersion} {binaries : Binaries} {ks : List Sha}
    (h : (resolveRefs v.attachments binaries).map sha256 ⊆ ks) :
    HistorySnapshotIo.Within (fromEntry sha256 v binaries) ks := by
  intro a ha
  obtain ⟨ref, href, ha⟩ := List.mem_filterMap.1 ha
  obtain ⟨bytes, hbytes, rfl⟩ := Option.map_eq_some_iff.1 ha
  have hmem : bytes ∈ resolveRefs v.attachments binaries := List.mem_filterMap.2 ⟨ref, href, hbytes⟩
  exact ⟨sha256 bytes, h (List.mem_map_of_mem hmem), rfl⟩

/-- Each reference that resolves is named by the record of its version. -/
theorem fromEntry_names {v : PoolVersion} {binaries : Binaries} {sha : Sha}
    (h : sha ∈ (resolveRefs v.attachments binaries).map sha256) :
    HistorySnapshotIo.Names (fromEntry sha256 v binaries) sha := by
  obtain ⟨bytes, hbytes, rfl⟩ := List.mem_map.1 h
  obtain ⟨ref, href, hget⟩ := List.mem_filterMap.1 hbytes
  refine ⟨⟨ref.name, bytes.length, bytesToHex (sha256 bytes).1⟩, ?_, rfl⟩
  exact List.mem_filterMap.2 ⟨ref, href, by rw [hget]; rfl⟩

end Storing

namespace Backed

variable {sha256 : List UInt8 → Sha} {s : AttachmentStore}

theorem storeBlobs (h : Backed sha256 s) (bs : Binaries) :
    Backed sha256 (bs.foldl (AttachmentStore.upsertAttachmentBlob sha256) s) :=
  List.foldlRecOn bs _ h fun _ hs b _ => hs.upsertAttachmentBlob b

/-! ## Entries -/

theorem insertAttachment (h : Backed sha256 s) (u : Uuid) (name : String) (bytes : List UInt8) :
    Backed sha256 (s.insertAttachment sha256 u name bytes) := by
  have hup := h.upsertAttachmentBlob bytes
  refine hup.updateEntry u _ fun e he _ => ⟨?_, (hup.entries e he).history⟩
  intro l hl
  dsimp only [insertOrIgnore] at hl
  split at hl
  · exact (hup.entries e he).links l hl
  · rcases List.mem_append.1 hl with hl | hl
    · exact (hup.entries e he).links l hl
    · rw [List.mem_singleton.1 hl]
      exact mem_keys_upsertBlob sha256 s bytes

theorem insertAttachmentLinkUpsert (h : Backed sha256 s) (u : Uuid) (name : String)
    (bytes : List UInt8) : Backed sha256 (s.insertAttachmentLinkUpsert sha256 u name bytes) := by
  have hup := h.upsertAttachmentBlob bytes
  refine hup.updateEntry u _ fun e he _ => ⟨?_, (hup.entries e he).history⟩
  intro l hl
  dsimp only [upsertLink] at hl
  split at hl
  · obtain ⟨old, hold, rfl⟩ := List.mem_map.1 hl
    split
    · exact mem_keys_upsertBlob sha256 s bytes
    · exact (hup.entries e he).links old hold
  · rcases List.mem_append.1 hl with hl | hl
    · exact (hup.entries e he).links l hl
    · rw [List.mem_singleton.1 hl]
      exact mem_keys_upsertBlob sha256 s bytes

theorem dropLink (h : Backed sha256 s) (u : Uuid) (name : String) :
    Backed sha256 (s.updateEntry u (fun e => { e with links := e.links.filter (·.1 ≠ name) })
      (fun _ => rfl)) := by
  refine h.updateEntry u _ fun e he _ => ⟨?_, (h.entries e he).history⟩
  intro l hl
  exact (h.entries e he).links l (List.mem_filter.1 hl).1

/-- A record is written before its bytes. The pool the bytes are in is the larger one. -/
theorem insertHistorySnapshot (h : Backed sha256 s) (u : Uuid) (hist : PoolVersion)
    (binaries : Binaries) : Backed sha256 (s.insertHistorySnapshot sha256 u hist binaries) := by
  have hgrown := h.storeBlobs (resolveRefs hist.attachments binaries)
  rw [foldl_upsertBlob] at hgrown
  unfold AttachmentStore.insertHistorySnapshot storeAttachmentBlobs
  dsimp only
  rw [foldl_upsertBlob]
  refine hgrown.updateEntry u
    (f := fun e => { e with history := e.history ++ [fromEntry sha256 hist binaries] })
    (fun _ => rfl) fun e he _ => ⟨(hgrown.entries e he).links, ?_⟩
  intro snap hs
  rcases List.mem_append.1 hs with hs | hs
  · exact (hgrown.entries e he).history snap hs
  · rw [List.mem_singleton.1 hs]
    refine fromEntry_within sha256 fun k hk => ?_
    exact (mem_keys_grownBlobs sha256 _ _ k).2 (.inr hk)

theorem insertHistory (h : Backed sha256 s) (u : Uuid) (history : List PoolVersion)
    (binaries : Binaries) :
    Backed sha256 (history.foldl (fun s v => s.insertHistorySnapshot sha256 u v binaries) s) :=
  List.foldlRecOn history _ h fun _ hs v _ => hs.insertHistorySnapshot u v binaries

theorem createEntry (h : Backed sha256 s) {u : Uuid} {t : AttachmentStore}
    (hok : s.createEntry u = .ok t) : Backed sha256 t := by
  unfold AttachmentStore.createEntry at hok
  split at hok
  · cases hok
  · rename_i E hins
    cases hok
    refine h.withEntries fun e he => ?_
    rw [(Table.insert?_eq_some.1 hins).2] at he
    rcases List.mem_append.1 he with he | he
    · exact h.entries e he
    · rw [List.mem_singleton.1 he]
      exact ⟨by simp, by simp⟩

theorem insertEntry (h : Backed sha256 s) {e : PoolEntry} {binaries : Binaries}
    {t : AttachmentStore} (hok : s.insertEntry sha256 e binaries = .ok t) : Backed sha256 t := by
  have hnew : ∀ {E}, s.entries.insert? ⟨e.id, [], []⟩ = some E →
      Backed sha256 { s with entries := E } := by
    intro E hins
    refine h.createEntry (u := e.id) ?_
    simp only [AttachmentStore.createEntry, hins]
  unfold AttachmentStore.insertEntry at hok
  split at hok
  · cases hok
  · rename_i E hins
    cases hok
    refine insertHistory (List.foldlRecOn e.attachments _ (hnew hins) ?_) e.id e.history binaries
    intro s hs a _
    cases hget : binaries[a.refId]? with
    | none => simpa only [hget] using hs
    | some bytes => simpa only [hget] using hs.insertAttachment e.id a.name bytes

theorem rewriteEntryHistory (h : Backed sha256 s) {u : Uuid} {history : List PoolVersion}
    {binaries : Binaries} {t : AttachmentStore}
    (hok : s.rewriteEntryHistory sha256 u history binaries = .ok t) : Backed sha256 t := by
  unfold AttachmentStore.rewriteEntryHistory at hok
  split at hok
  · cases hok
  · cases hok
    refine insertHistory (h.updateEntry u _ fun e he _ => ?_) u history binaries
    exact ⟨(h.entries e he).links, by simp⟩

theorem advanceLocalEntry (h : Backed sha256 s) {merged : PoolEntry} {binaries : Binaries}
    {t : AttachmentStore} (hok : s.advanceLocalEntry sha256 merged binaries = .ok t) :
    Backed sha256 t := by
  unfold AttachmentStore.advanceLocalEntry at hok
  split at hok
  · exact (h.deleteEntry merged.id).insertEntry hok
  · cases hok

/-! ## Parked conflicts -/

/-- Parked rows go together with the rows of `conflict_entry_blob_ref` for them. -/
theorem dropRows (h : Backed sha256 s) (p : String → Uuid → Prop) [∀ o u, Decidable (p o u)] :
    Backed sha256 { s with
      blobRefs := s.blobRefs.delete fun r => p r.owner r.uuid
      conflicts := s.conflicts.delete fun r => p r.owner r.uuid } where
  addressed := h.addressed
  entries := h.entries
  parked r hr snap hs a ha := by
    obtain ⟨hr, hp⟩ := Table.mem_delete.1 hr
    obtain ⟨sha, href, hex⟩ := h.parked r hr snap hs a ha
    exact ⟨sha, Table.mem_delete.2 ⟨href, hp⟩, hex⟩
  refs ref hr := by
    obtain ⟨hr, hp⟩ := Table.mem_delete.1 hr
    obtain ⟨hblob, r, hmem, hkey, hnames⟩ := h.refs ref hr
    obtain ⟨howner, huuid⟩ := Prod.mk.inj hkey
    refine ⟨hblob, r, Table.mem_delete.2 ⟨hmem, ?_⟩, hkey, hnames⟩
    rwa [howner, huuid]

theorem dropConflictRows (h : Backed sha256 s) (u : Uuid) :
    Backed sha256 (s.dropConflictRows u) :=
  h.dropRows fun _ v => v = u

theorem dropConflictRowsForOwner (h : Backed sha256 s) (owner : String) (u : Uuid) :
    Backed sha256 (s.dropConflictRowsForOwner owner u) :=
  h.dropRows fun o v => o = owner ∧ v = u

end Backed

/-- The digests of the references of an entry's versions, live and past. -/
theorem mem_storedShas {sha256 : List UInt8 → Sha} {e : PoolEntry} {binaries : Binaries} {sha : Sha} :
    sha ∈ (resolveRefs (e.attachments ++ e.history.flatMap PoolVersion.attachments) binaries).map
        sha256 ↔
      ∃ v ∈ e.toPoolVersion :: e.history, sha ∈ (resolveRefs v.attachments binaries).map sha256 := by
  simp only [resolveRefs, List.filterMap_append, List.map_append, List.mem_append, List.mem_map,
    List.mem_filterMap, List.mem_flatMap, List.mem_cons, exists_eq_or_imp]
  constructor
  · rintro (h | ⟨bytes, ⟨ref, ⟨v, hv, href⟩, hget⟩, rfl⟩)
    · exact .inl h
    · exact .inr ⟨v, hv, bytes, ⟨ref, href, hget⟩, rfl⟩
  · rintro (h | ⟨v, hv, bytes, ⟨ref, href, hget⟩, rfl⟩)
    · exact .inl h
    · exact .inr ⟨bytes, ⟨ref, ⟨v, hv, href⟩, hget⟩, rfl⟩

/-- The rows `write_peer_entry` adds to `conflict_entry_blob_ref`. -/
theorem mem_addedRefs (T : Table (id : BlobRef → BlobRef)) (owner : String) (u : Uuid)
    (shas : List Sha) (ref : BlobRef) :
    ref ∈ (shas.foldl (fun T sha => T.insertOrIgnore ⟨owner, u, sha⟩) T).rows ↔
      ref ∈ T.rows ∨ ∃ sha ∈ shas, ref = ⟨owner, u, sha⟩ := by
  induction shas generalizing T with
  | nil => simp
  | cons sha shas ih =>
    rw [List.foldl_cons, ih]
    have hkeys : ∀ r : BlobRef, r ∈ T.keys ↔ r ∈ T.rows := by simp [Table.keys]
    simp only [Table.mem_insertOrIgnore, id, hkeys, List.mem_cons, exists_eq_or_imp]
    by_cases hmem : (⟨owner, u, sha⟩ : BlobRef) ∈ T.rows
    · constructor
      · tauto
      · rintro (h | rfl | h)
        · exact .inl (.inl h)
        · exact .inl (.inl hmem)
        · exact .inr h
    · tauto

namespace Backed

variable {sha256 : List UInt8 → Sha} {s : AttachmentStore}

theorem writePeerEntry (h : Backed sha256 s) {owner : String} {e : PoolEntry} {binaries : Binaries}
    {t : AttachmentStore} (hok : s.writePeerEntry sha256 owner e binaries = .ok t) :
    Backed sha256 t := by
  unfold AttachmentStore.writePeerEntry at hok
  dsimp only at hok
  split at hok
  · cases hok
  · rename_i conflicts hins
    have hrows := (Table.insert?_eq_some.1 hins).2
    unfold storeAttachmentBlobs at hok
    rw [foldl_upsertBlob] at hok
    cases hok
    have hgrown := h.storeBlobs
      (resolveRefs (e.attachments ++ e.history.flatMap PoolVersion.attachments) binaries)
    rw [foldl_upsertBlob] at hgrown
    refine ⟨hgrown.addressed, hgrown.entries, ?_, ?_⟩
    · intro r hr snap hs a ha
      rw [hrows] at hr
      rcases List.mem_append.1 hr with hr | hr
      · obtain ⟨sha, href, hex⟩ := h.parked r hr snap hs a ha
        exact ⟨sha, (mem_addedRefs _ _ _ _ _).2 (.inl href), hex⟩
      · rw [List.mem_singleton.1 hr] at hs ⊢
        obtain ⟨v, hv, rfl⟩ : ∃ v ∈ e.toPoolVersion :: e.history,
            fromEntry sha256 v binaries = snap := by
          simpa [ParkedEntry.records, eq_comm] using hs
        obtain ⟨sha, hsha, hex⟩ := fromEntry_within sha256 (List.Subset.refl _) a ha
        refine ⟨sha, (mem_addedRefs _ _ _ _ _).2 (.inr ⟨sha, ?_, rfl⟩), hex⟩
        exact mem_storedShas.2 ⟨v, hv, hsha⟩
    · intro ref href
      rcases (mem_addedRefs _ _ _ _ _).1 href with href | ⟨sha, hsha, rfl⟩
      · obtain ⟨hblob, r, hr, hkey, hnames⟩ := hgrown.refs ref href
        exact ⟨hblob, r, by rw [hrows]; exact List.mem_append_left _ hr, hkey, hnames⟩
      · obtain ⟨v, hv, hmem⟩ := mem_storedShas.1 hsha
        refine ⟨(mem_keys_grownBlobs sha256 _ _ _).2 (.inr hsha), _,
          by rw [hrows]; exact List.mem_append_right _ (List.mem_singleton_self _), rfl,
          fromEntry sha256 v binaries, ?_, fromEntry_names sha256 hmem⟩
        simpa [ParkedEntry.records, eq_comm] using List.mem_map_of_mem (f := fun v =>
          fromEntry sha256 v binaries) hv

/-! ## Ingest -/

/-- What the wipe keeps of the pool is what the parked conflicts refer to. -/
theorem clearVaultTables (h : Backed sha256 s) : Backed sha256 s.clearVaultTables where
  addressed b hb := h.addressed b (Table.mem_delete.1 hb).1
  entries e he := absurd he (by simp [AttachmentStore.clearVaultTables, Table.empty])
  parked := h.parked
  refs ref hr := by
    obtain ⟨hblob, hrow⟩ := h.refs ref hr
    obtain ⟨b, hb, hsha⟩ := Table.mem_keys.1 hblob
    refine ⟨Table.mem_keys.2 ⟨b, Table.mem_delete.2 ⟨hb, ?_⟩, hsha⟩, hrow⟩
    rw [not_not, hsha]
    exact List.mem_map_of_mem hr

theorem ingestVault (h : Backed sha256 s) {v : PoolVault} {t : AttachmentStore}
    (hok : s.ingestVault sha256 v = .ok t) : Backed sha256 t :=
  foldlM_inv (fun _ hs _ _ _ hok => hs.insertEntry hok) h.clearVaultTables hok

theorem applyChanges (h : Backed sha256 s) (u : Uuid) (changes : List PoolChange) :
    Backed sha256 (changes.foldl (applyChange sha256 u) s) := by
  refine List.foldlRecOn changes _ h fun s hs c _ => ?_
  cases c with
  | take name bytes => exact hs.insertAttachmentLinkUpsert u name bytes
  | drop name => exact hs.dropLink u name

theorem runArm (h : Backed sha256 s) {owner : String} {localBinaries peerBinaries : Binaries}
    {u : Uuid} {arm : EntryArm} {t : AttachmentStore}
    (hok : s.runArm sha256 owner localBinaries peerBinaries u arm = .ok t) : Backed sha256 t := by
  have hdrop := h.dropConflictRowsForOwner owner u
  cases arm with
  | skip =>
    cases hok
    exact h
  | add e => exact h.insertEntry hok
  | inSync =>
    cases hok
    exact hdrop
  | autoMerged merged changes =>
    obtain ⟨s', hs', hok⟩ := except_bind_ok.1 hok
    cases hok
    exact ((h.advanceLocalEntry hs').applyChanges u changes).dropConflictRowsForOwner owner u
  | holdsResolution =>
    cases hok
    exact hdrop
  | adoptPeer remote => exact hdrop.advanceLocalEntry hok
  | held remote => exact hdrop.writePeerEntry hok

theorem runRound (h : Backed sha256 s) {owner : String} {localBinaries peerBinaries : Binaries}
    {r : PeerRound} {t : AttachmentStore}
    (hok : AttachmentStore.runRound sha256 owner localBinaries peerBinaries s r = .ok t) :
    Backed sha256 t := by
  obtain ⟨s', hs', hok⟩ := except_bind_ok.1 hok
  have harm := h.runArm hs'
  split at hok
  · cases hok
    exact harm
  · exact harm.rewriteEntryHistory hok

theorem deleteEntries (h : Backed sha256 s) (us : List Uuid) :
    Backed sha256 (us.foldl AttachmentStore.deleteEntry s) :=
  List.foldlRecOn us _ h fun _ hs u _ => hs.deleteEntry u

theorem ingestPeer (h : Backed sha256 s) {owner : String} {localBinaries peerBinaries : Binaries}
    {rounds : List PeerRound} {deleted : List Uuid} {t : AttachmentStore}
    (hok : s.ingestPeer sha256 owner localBinaries peerBinaries rounds deleted = .ok t) :
    Backed sha256 t := by
  obtain ⟨s', hs', hok⟩ := except_bind_ok.1 hok
  cases hok
  exact (foldlM_inv (fun _ hs _ _ _ hok => hs.runRound hok) h hs').deleteEntries deleted

theorem applyDissolve (h : Backed sha256 s) {u : Uuid} {commit : DissolveCommit}
    {t : AttachmentStore} (hok : s.applyDissolve sha256 u commit = .ok t) : Backed sha256 t := by
  cases commit with
  | dropAll =>
    cases hok
    exact h.dropConflictRows u
  | dropOwners dropped =>
    cases hok
    exact List.foldlRecOn dropped _ h fun _ hs owner _ => hs.dropConflictRowsForOwner owner u
  | land owner merged =>
    obtain ⟨s', hs', hok⟩ := except_bind_ok.1 hok
    cases hok
    exact (h.ingestVault hs').dropConflictRowsForOwner owner u

theorem applyConflictResolution (h : Backed sha256 s) {merged : PoolVault} {resolved : List Uuid}
    {t : AttachmentStore} (hok : s.applyConflictResolution sha256 merged resolved = .ok t) :
    Backed sha256 t := by
  obtain ⟨s', hs', hok⟩ := except_bind_ok.1 hok
  cases hok
  exact List.foldlRecOn resolved _ (h.ingestVault hs') fun _ hs u _ => hs.dropConflictRows u

end Backed

/-! ## Collection -/

/-- The collection reads off a record what the record names. -/
theorem mem_roots_iff {snap : HistorySnapshotIo} {ks : List Sha}
    (h : HistorySnapshotIo.Within snap ks) (sha : Sha) :
    sha ∈ snap.roots ↔ HistorySnapshotIo.Names snap sha := by
  unfold HistorySnapshotIo.roots HistorySnapshotIo.Names
  rw [List.mem_filterMap]
  refine exists_congr fun a => and_congr_right fun ha => ?_
  obtain ⟨sha', -, hex⟩ := h a ha
  rw [hex, hexDecode32_bytesToHex, Option.some.injEq]
  exact ⟨fun h => h ▸ rfl, bytesToHex_injective⟩

namespace Backed

variable {sha256 : List UInt8 → Sha} {s : AttachmentStore}

/-- The rows of `conflict_entry_blob_ref` are the digests the parked records name. -/
theorem mem_blobRefs_iff (h : Backed sha256 s) (sha : Sha) :
    sha ∈ s.blobRefs.rows.map (·.sha) ↔
      ∃ r ∈ s.conflicts.rows, ∃ snap ∈ r.records, HistorySnapshotIo.Names snap sha := by
  rw [List.mem_map]
  constructor
  · rintro ⟨ref, href, rfl⟩
    obtain ⟨-, r, hr, -, snap, hs, hn⟩ := h.refs ref href
    exact ⟨r, hr, snap, hs, hn⟩
  · rintro ⟨r, hr, snap, hs, a, ha, hex⟩
    obtain ⟨sha', href, hex'⟩ := h.parked r hr snap hs a ha
    refine ⟨_, href, bytesToHex_injective ?_⟩
    rw [← hex', hex]

/-- The roots of the collection are the referenced digests. -/
theorem mem_gcRoots_iff (h : Backed sha256 s) (sha : Sha) :
    sha ∈ s.gcAttachmentRoots ↔ References s sha := by
  unfold gcAttachmentRoots
  rw [List.mem_append, List.mem_append, h.mem_blobRefs_iff, List.mem_flatMap, List.mem_flatMap]
  constructor
  · rintro ((⟨e, he, hl⟩ | ⟨r, hr, snap, hs, hn⟩) | ⟨e, he, hroots⟩)
    · obtain ⟨⟨name, _⟩, hmem, rfl⟩ := List.mem_map.1 hl
      exact .link e he name hmem
    · exact .parked r hr snap hs hn
    · obtain ⟨snap, hs, hroot⟩ := List.mem_flatMap.1 hroots
      exact .history e he snap hs ((mem_roots_iff ((h.entries e he).history snap hs) sha).1 hroot)
  · intro href
    cases href with
    | link e he name hl => exact .inl (.inl ⟨e, he, List.mem_map_of_mem hl⟩)
    | history e he snap hs hn =>
      refine .inr ⟨e, he, List.mem_flatMap.2 ⟨snap, hs, ?_⟩⟩
      exact (mem_roots_iff ((h.entries e he).history snap hs) sha).2 hn
    | parked r hr snap hs hn => exact .inl (.inr ⟨r, hr, snap, hs, hn⟩)

/-- Each referenced digest is a key of the pool. -/
theorem mem_keys_of_references (h : Backed sha256 s) {sha : Sha} (href : References s sha) :
    sha ∈ s.blobs.keys := by
  cases href with
  | link e he name hl => exact (h.entries e he).links _ hl
  | history e he snap hs hn =>
    obtain ⟨a, ha, hex⟩ := hn
    obtain ⟨sha', hmem, hex'⟩ := (h.entries e he).history snap hs a ha
    rwa [bytesToHex_injective (hex.symm.trans hex')]
  | parked r hr snap hs hn =>
    obtain ⟨ref, href, rfl⟩ := List.mem_map.1 ((h.mem_blobRefs_iff sha).2 ⟨r, hr, snap, hs, hn⟩)
    exact (h.refs ref href).1

theorem mem_gc_iff (h : Backed sha256 s) (b : AttachmentBlob) :
    b ∈ s.gcAttachmentBlobs.blobs.rows ↔ b ∈ s.blobs.rows ∧ References s b.sha := by
  rw [gcAttachmentBlobs, Table.mem_delete, not_not, h.mem_gcRoots_iff]

theorem gcAttachmentBlobs (h : Backed sha256 s) : Backed sha256 s.gcAttachmentBlobs := by
  have hkeys : ∀ sha, References s sha → sha ∈ s.gcAttachmentBlobs.blobs.keys := by
    intro sha href
    obtain ⟨b, hb, rfl⟩ := Table.mem_keys.1 (h.mem_keys_of_references href)
    exact Table.mem_keys.2 ⟨b, (h.mem_gc_iff b).2 ⟨hb, href⟩, rfl⟩
  refine ⟨fun b hb => h.addressed b ((h.mem_gc_iff b).1 hb).1, fun e he => ⟨?_, ?_⟩, h.parked, ?_⟩
  · intro l hl
    exact hkeys _ (.link e he l.1 hl)
  · intro snap hs a ha
    obtain ⟨sha, -, hex⟩ := (h.entries e he).history snap hs a ha
    exact ⟨sha, hkeys sha (.history e he snap hs ⟨a, ha, hex⟩), hex⟩
  · intro ref href
    obtain ⟨-, r, hr, hkey, snap, hs, hn⟩ := h.refs ref href
    exact ⟨hkeys _ (.parked r hr snap hs hn), r, hr, hkey, snap, hs, hn⟩

/-! ## Entry mutations -/

theorem buildLiveSnapshot_within (s : AttachmentStore) (e : PooledEntry) (body : String) :
    HistorySnapshotIo.Within (s.buildLiveSnapshot e body) s.blobs.keys := by
  intro a ha
  obtain ⟨l, -, ha⟩ := List.mem_filterMap.1 ha
  obtain ⟨b, hb, rfl⟩ := Option.map_eq_some_iff.1 ha
  exact ⟨b.sha, Table.key_mem (Table.find?_mem hb), rfl⟩

theorem mem_of_mem_pruned {jsonLength : HistorySnapshotIo → Nat} {caps : HistoryCaps}
    {kept keptSize : Nat} {l : List HistorySnapshotIo} {snap : HistorySnapshotIo}
    (h : snap ∈ pruned jsonLength caps kept keptSize l) : snap ∈ l := by
  induction l generalizing kept keptSize with
  | nil => exact h
  | cons newest older ih =>
    unfold pruned at h
    split at h
    · rcases List.mem_cons.1 h with rfl | h
      · exact List.mem_cons_self
      · exact List.mem_cons_of_mem _ (ih h)
    · exact List.mem_cons_of_mem _ (ih h)

variable {jsonLength : HistorySnapshotIo → Nat}

theorem pushHistorySnapshot (h : Backed sha256 s) {u : Uuid} {body : String} {caps : HistoryCaps}
    {t : AttachmentStore} (hok : s.pushHistorySnapshot jsonLength u body caps = .ok t) :
    Backed sha256 t := by
  unfold AttachmentStore.pushHistorySnapshot at hok
  split at hok
  · cases hok
  · rename_i e hfind
    cases hok
    refine h.updateEntry u _ fun e' he' _ => ⟨(h.entries e' he').links, ?_⟩
    intro snap hs
    have hmem := mem_of_mem_pruned (List.mem_reverse.1 hs)
    rcases List.mem_append.1 (List.mem_reverse.1 hmem) with hs | hs
    · exact (h.entries e' he').history snap hs
    · rw [List.mem_singleton.1 hs]
      exact buildLiveSnapshot_within s e body

theorem setAttachment (h : Backed sha256 s) {u : Uuid} {name : String} {bytes : List UInt8}
    {body : String} {caps : HistoryCaps} {t : AttachmentStore}
    (hok : s.setAttachment sha256 jsonLength u name bytes body caps = .ok t) : Backed sha256 t := by
  obtain ⟨s', hs', hok⟩ := except_bind_ok.1 hok
  cases hok
  exact (h.pushHistorySnapshot hs').insertAttachmentLinkUpsert u name bytes

theorem removeAttachment (h : Backed sha256 s) {u : Uuid} {name : String} {body : String}
    {caps : HistoryCaps} {t : AttachmentStore}
    (hok : s.removeAttachment jsonLength u name body caps = .ok t) : Backed sha256 t := by
  obtain ⟨s', hs', hok⟩ := except_bind_ok.1 hok
  cases hok
  exact (h.pushHistorySnapshot hs').dropLink u name

theorem deleteHistoryAt (h : Backed sha256 s) {u : Uuid} {index : Nat} {t : AttachmentStore}
    (hok : s.deleteHistoryAt u index = .ok t) : Backed sha256 t := by
  unfold AttachmentStore.deleteHistoryAt at hok
  split at hok
  · cases hok
  · split at hok
    · cases hok
      refine h.updateEntry u _ fun e he _ => ⟨(h.entries e he).links, ?_⟩
      intro snap hs
      exact (h.entries e he).history snap (List.mem_of_mem_eraseIdx hs)
    · cases hok

/-- A restore links only what is in the pool. -/
theorem restoredLink_mem {a : HistoryAttachmentIo} {l : String × Sha} (h : s.restoredLink a = some l) :
    l.2 ∈ s.blobs.keys := by
  unfold restoredLink at h
  split at h
  · cases h
  · obtain ⟨bytes, -, h⟩ := Option.bind_eq_some_iff.1 h
    obtain ⟨sha, -, h⟩ := Option.bind_eq_some_iff.1 h
    split at h
    · rename_i hmem
      cases h
      exact hmem
    · cases h

theorem bytesToHex_ne_empty (sha : Sha) : bytesToHex sha.1 ≠ "" := by
  intro h
  have hdecode := hexToBytes_bytesToHex sha.1
  rw [h] at hdecode
  have hlen := sha.2
  rw [← Option.some.inj hdecode] at hlen
  cases hlen

theorem restoreEntryFromHistory (h : Backed sha256 s) {u : Uuid} {index : Nat} {maxItems : Int}
    {body : String} {t : AttachmentStore}
    (hok : s.restoreEntryFromHistory u index maxItems body = .ok t) : Backed sha256 t := by
  unfold AttachmentStore.restoreEntryFromHistory at hok
  split at hok
  · cases hok
  · rename_i e hfind
    split at hok
    · cases hok
    · rename_i snap hget
      dsimp only at hok
      split at hok
      · cases hok
        refine h.updateEntry u _ fun e' _ _ => ⟨?_, ?_⟩
        · intro l hl
          obtain ⟨a, -, ha⟩ := List.mem_filterMap.1 hl
          exact restoredLink_mem ha
        · intro record hr
          have hmem : record ∈ e.history ++ [s.buildLiveSnapshot e body] := by
            dsimp only at hr
            split at hr
            · exact List.mem_of_mem_drop hr
            · exact hr
          rcases List.mem_append.1 hmem with hr | hr
          · exact (h.entries e (Table.find?_mem hfind)).history record hr
          · rw [List.mem_singleton.1 hr]
            exact buildLiveSnapshot_within s e body
      · cases hok

/-! ## Runs -/

/-- Every operation keeps the pool complete. -/
theorem run (h : Backed sha256 s) {op : StoreOp} {t : AttachmentStore}
    (hok : op.run sha256 jsonLength s = .ok t) : Backed sha256 t := by
  cases op with
  | createEntry u => exact h.createEntry hok
  | editEntry u body caps => exact h.pushHistorySnapshot hok
  | setAttachment u name bytes body caps => exact h.setAttachment hok
  | removeAttachment u name body caps => exact h.removeAttachment hok
  | deleteHistoryAt u index => exact h.deleteHistoryAt hok
  | restoreEntryFromHistory u index maxItems body => exact h.restoreEntryFromHistory hok
  | deleteEntries us =>
    cases hok
    exact h.deleteEntries us
  | ingestVault v => exact h.ingestVault hok
  | ingestPeer owner localBinaries peerBinaries rounds deleted => exact h.ingestPeer hok
  | applyDissolve u commit => exact h.applyDissolve hok
  | applyConflictResolution merged resolved => exact h.applyConflictResolution hok
  | clearParkedConflictMarker u =>
    cases hok
    exact h.dropConflictRows u
  | gcAttachmentBlobs =>
    cases hok
    exact h.gcAttachmentBlobs

theorem next (h : Backed sha256 s) (op : StoreOp) : Backed sha256 (op.next sha256 jsonLength s) := by
  unfold StoreOp.next
  split
  · rename_i t hok
    exact h.run hok
  · exact h

end Backed

theorem backed_after (sha256 : List UInt8 → Sha) (jsonLength : HistorySnapshotIo → Nat)
    (ops : List StoreOp) : Backed sha256 (after sha256 jsonLength ops) :=
  List.foldlRecOn ops _ (backed_empty sha256) fun _ hs op _ => hs.next op

/-- After every run the pool holds the bytes of every digest that a live link, a history record or a
parked conflict refers to, every attachment of a stored record is such a reference, and a collection
keeps exactly the blobs that are referenced. -/
theorem blobs_back_references (sha256 : List UInt8 → Sha) (jsonLength : HistorySnapshotIo → Nat)
    (ops : List StoreOp) :
    (∀ sha, References (after sha256 jsonLength ops) sha →
      ∃ b ∈ (after sha256 jsonLength ops).blobs.rows, b.sha = sha ∧ sha256 b.bytes = sha) ∧
    (∀ snap ∈ storedRecords (after sha256 jsonLength ops), ∀ a ∈ snap.attachments,
      ∃ sha, References (after sha256 jsonLength ops) sha ∧ a.sha256Hex = bytesToHex sha.1) ∧
    ∀ b, b ∈ (after sha256 jsonLength ops).gcAttachmentBlobs.blobs.rows ↔
      b ∈ (after sha256 jsonLength ops).blobs.rows ∧ References (after sha256 jsonLength ops) b.sha := by
  have h := backed_after sha256 jsonLength ops
  refine ⟨fun sha href => ?_, fun snap hs a ha => ?_, h.mem_gc_iff⟩
  · obtain ⟨b, hb, rfl⟩ := Table.mem_keys.1 (h.mem_keys_of_references href)
    exact ⟨b, hb, rfl, (h.addressed b hb).symm⟩
  · rcases List.mem_append.1 hs with hs | hs
    · obtain ⟨e, he, hs⟩ := List.mem_flatMap.1 hs
      obtain ⟨sha, -, hex⟩ := (h.entries e he).history snap hs a ha
      exact ⟨sha, .history e he snap hs ⟨a, ha, hex⟩, hex⟩
    · obtain ⟨r, hr, hs⟩ := List.mem_flatMap.1 hs
      obtain ⟨sha, -, hex⟩ := h.parked r hr snap hs a ha
      exact ⟨sha, .parked r hr snap hs ⟨a, ha, hex⟩, hex⟩

-- A file replaced under its name is kept by the record of the version it was attached to, and goes
-- once that record does.
example :
    let digest : List UInt8 → Sha := fun bytes => ⟨(bytes ++ List.replicate 32 0).take 32, by simp⟩
    let ops : List StoreOp :=
      [.createEntry 9, .setAttachment 9 "key" [1] "" ⟨none, none⟩,
        .setAttachment 9 "key" [2] "" ⟨none, none⟩, .gcAttachmentBlobs]
    (after digest (fun _ => 0) ops).blobs.rows.map (·.bytes) = [[1], [2]] ∧
      (after digest (fun _ => 0) (ops ++ [.deleteHistoryAt 9 1, .gcAttachmentBlobs])).blobs.rows.map
        (·.bytes) = [[2]] := by
  decide +kernel

end KeysCore.Verify
