import KeysCore.Tags

/-!
# `set_tags`, row by row

`Mirror.setTags` counts an edit of the tags as one write. Here its statements are followed one by one,
and the triggers of migration 0012 fire once for each link and each name inserted or deleted: the links
are dropped and made again whether or not they change, and the names without a link are swept.
-/

namespace KeysCore

open Lib

namespace Mirror

/-- The links of `u` rewritten, in `n` rows. -/
def writeLinks (m : Mirror) (u : Uuid) (f : List String → List String) (n : Nat) : Mirror :=
  { m with
    entries := m.entries.modify u (fun r => { r with tags := f r.tags }) (fun _ => rfl)
    mutationSeq := m.mutationSeq + n
    fkGroup := by
      intro e he
      obtain ⟨s, hs, rfl⟩ := (Table.mem_update _).1 he
      split <;> exact m.fkGroup s hs }

/-- `DELETE FROM entry_tag WHERE entry_uuid = u`. -/
def deleteLinks (m : Mirror) (u : Uuid) : Mirror :=
  m.writeLinks u (fun _ => []) (((m.entries.find? u).map (·.tags.length)).getD 0)

/-- `INSERT OR IGNORE INTO entry_tag`. -/
def insertLink (m : Mirror) (u : Uuid) (name : String) : Mirror :=
  if (m.entries.find? u).any fun r => name ∈ r.tags then m else m.writeLinks u (· ++ [name]) 1

end Mirror

/-- `upsert_tag`. -/
def upsertTagRow (name : String) (st : Mirror × TagTable) : Mirror × TagTable :=
  if name ∈ st.2.rows then st else (st.1.bump 1, st.2.upsertTag name)

/-- `insert_tags`: trimmed, not empty, each name once (`seen`). -/
def insertTagRows (u : Uuid) : List String → List String → Mirror × TagTable → Mirror × TagTable
  | [], _, st => st
  | raw :: rest, seen, st =>
    if trim raw = "" ∨ trim raw ∈ seen then insertTagRows u rest seen st
    else
      let st := upsertTagRow (trim raw) st
      insertTagRows u rest (trim raw :: seen) (st.1.insertLink u (trim raw), st.2)

/-- `gc_orphan_tags`. -/
def gcOrphanTagRows (st : Mirror × TagTable) : Mirror × TagTable :=
  (st.1.bump (st.2.rows.filter (· ∉ st.1.linkedTags)).length, st.1.gcOrphanTags st.2)

/-- `set_tags`. -/
def setTagRows (H : HistoryLib) (u : Uuid) (tags : List String) (now : EpochMs)
    (st : Mirror × TagTable) : Except EngineError (Mirror × TagTable) :=
  match st.1.entries.find? u with
  | none => .error (.notFound "entry")
  | some row => do
    let current := (sortStrings row.tags).dedup
    let normalisedNew := (sortStrings ((tags.map trim).filter (· ≠ ""))).dedup
    let changed := current ≠ normalisedNew
    let m ← if changed then
        st.1.editEntry u fun e => e.archive H st.1.settings now e.liveSnapshot
      else .ok st.1
    let st := insertTagRows u tags [] (m.deleteLinks u, st.2)
    let m := if changed then
        st.1.updateEntry u (fun e => { e with modifiedAt := now }) (fun _ => rfl) (fun _ => rfl)
      else st.1
    return gcOrphanTagRows (m, st.2)

end KeysCore
