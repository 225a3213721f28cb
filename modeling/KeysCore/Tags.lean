import KeysCore.EntryMutations
import KeysCore.Lib.Like

/-!
# The tag table

The rows of `entry_tag` cascade with their entry and are the `tags` of its row. The names they link to
are rows of a table of their own, `tag`, which no entry owns: a write of an entry upserts the names it
links, and a statement that drops links is to be followed by a sweep of the names no entry links any
more (`gc_orphan_tags`). The functions here say what the operations do to that table, beside what they
do to the mirror.

A link holds the id of its name; ids and names are unique, so a link is its name here.
-/

namespace KeysCore

open Lib

/-- The rows of `tag`, each a name. -/
abbrev TagTable := Table (id : String → String)

namespace TagTable

/-- `upsert_tag`. -/
def upsertTag (T : TagTable) (name : String) : TagTable := T.insertOrIgnore name

/-- `insert_tags`, and the loop of `insert_entry`: trimmed, not empty. -/
def insertTags (T : TagTable) (tags : List String) : TagTable :=
  tags.foldl (fun T raw => if trim raw = "" then T else T.upsertTag (trim raw)) T

end TagTable

/-- The names some row of `entry_tag` links. -/
def Mirror.linkedTags (m : Mirror) : List String := m.entries.rows.flatMap (·.tags)

/-- `gc_orphan_tags`. -/
def Mirror.gcOrphanTags (m : Mirror) (T : TagTable) : TagTable := T.delete fun name => name ∉ m.linkedTags

/-! ## Reads -/

/-- `list_tags`. -/
def listTags (T : TagTable) : List String := sortStrings T.rows

/-- A text under `COLLATE NOCASE`, which folds the letters of ASCII. -/
def noCase (s : String) : String := s.map Char.toLower

/-- The order of `COLLATE NOCASE`: the texts up to their first NUL, then their lengths. -/
def noCaseOrder (s : String) : Lex (String × Nat) :=
  toLex (noCase (String.ofList (Like.cString s.toList)), s.utf8ByteSize)

/-- `tag_usage_counts`: the inner join leaves the names with a link. -/
def tagUsageCounts (m : Mirror) (T : TagTable) : List (String × Nat) :=
  ((T.rows.filter (· ∈ m.linkedTags)).map fun name =>
    (name, (m.entries.rows.filter (name ∈ ·.tags)).length)).insertionSort
      fun a b => noCaseOrder a.1 ≤ noCaseOrder b.1

/-! ## Ingest -/

/-- The names of a vault that replaces the mirror: the table is cleared and every entry links its
tags. -/
def ingestTags (vault : Vault) : TagTable :=
  (vault.root.placed vault.metadata.recycleBinUuid false).foldl (fun T p => T.insertTags p.1.tags) .empty

namespace PeerPull

variable (M : MergeLib) (P : PeerPull)

/-- The tags the walk writes for an entry of the peer, when it writes the row of the entry. -/
def writtenTags (peerEntry : Entry) : Option (List String) := (P.writtenEntry M peerEntry).map (·.tags)

/-- `insert_entry` and `advance_local_entry` upsert; neither sweeps. -/
def ingestEntryTags (T : TagTable) (pe : Entry × Uuid) : TagTable :=
  match P.writtenTags M pe.1 with
  | none => T
  | some tags => T.insertTags tags

/-- The delete pass removes the entry `u`. -/
def deletes (u : Uuid) : Bool :=
  match P.localEntry u, tombstoneTime P.peer.deletedObjects u with
  | some localEntry, some deletedAt =>
    !(u ∈ P.peer.entries.map (·.id) || liveEditWins localEntry.times.lastModificationTime deletedAt)
  | _, _ => false

/-- `reconcile_peer_deletes` for one entry: `delete_local_entry` sweeps the table. -/
def reconcileDeleteTags (st : (Mirror × IngestPeerOutcome) × TagTable) (u : Uuid) :
    (Mirror × IngestPeerOutcome) × TagTable :=
  let after := P.reconcileDelete st.1 u
  (after, if P.deletes u then after.1.gcOrphanTags st.2 else st.2)

end PeerPull

/-- `ingest_peer` with the tag table beside the mirror. -/
def ingestPeerTags (M : MergeLib) (ord : HashOrder) (P : PeerPull) (m : Mirror) (T : TagTable) :
    Except EngineError ((Mirror × IngestPeerOutcome) × TagTable) := do
  let st ← reconcilePeerGroups ord P.peer (m, {})
  let st ← P.peer.entriesWithParent.foldlM (P.ingestEntry M) st
  let T := P.peer.entriesWithParent.foldl (P.ingestEntryTags M) T
  let (st, T) := (P.localVault.entries.map (·.id)).dedup.foldl P.reconcileDeleteTags (st, T)
  let m := unionPeerCustomIcons P.peer.metadata.customIcons
    (unionPeerTombstones P.peer.deletedObjects st.1)
  let st ← materializeGroupTombstones (m, st.2)
  return ((reconcilePeerMeta P.localVault.metadata (P.mergedMeta M) st.1, st.2), T)

end KeysCore
