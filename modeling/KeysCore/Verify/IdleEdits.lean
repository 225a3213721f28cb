import KeysCore.TagRows
import KeysCore.Verify.Tags

/-!
# Edits that change nothing

`update_entry` compares the content before and after and rolls its transaction back when they are the
same, triggers included. `set_tags` compares the tags too, but only to decide about the archive: the
links are deleted and inserted all the same, and the sweep may remove names some other transaction left
behind. `idle_edit_iff`: when that leaves the mirror and its watermark as they were.

The statements of `set_tags` end in the row `Mirror.setTags` writes (`setTagRows_row`); the loop over the
new tags is followed by `insertTagRows_spec`, which counts the rows it writes.
-/

namespace KeysCore.Verify

open Lib

/-! ## Links and names -/

section Links

variable {m : Mirror} {T : TagTable} {u : Uuid} {row : EntryRow}

theorem writeLinks_row (m : Mirror) (u : Uuid) (f : List String → List String) (n : Nat) :
    RowOnly u m (m.writeLinks u f n) ∧ (m.writeLinks u f n).entries.find? u =
      (m.entries.find? u).map fun r => { r with tags := f r.tags } := by
  have hfind := Table.find?_modify (f := fun r : EntryRow => { r with tags := f r.tags })
    (fun _ => rfl) m.entries u
  refine ⟨⟨rfl, rfl, rfl, rfl, fun v hv => ?_⟩, ?_⟩
  · exact (hfind v).trans (if_neg hv)
  · exact (hfind u).trans (if_pos rfl)

theorem upsertTag_of_mem {name : String} (h : name ∈ T.rows) : T.upsertTag name = T := by
  have hkey : Table.insert? T name = none :=
    Table.insert?_eq_none.2 (List.mem_map.2 ⟨name, h, rfl⟩)
  rw [TagTable.upsertTag, Table.insertOrIgnore, hkey]
  rfl

theorem upsertTag_of_notMem {name : String} (h : name ∉ T.rows) :
    (T.upsertTag name).rows = T.rows ++ [name] := by
  have hkey : name ∉ T.keys := by simpa [Table.keys] using h
  cases hins : Table.insert? T name with
  | none => exact absurd (Table.insert?_eq_none.1 hins) hkey
  | some U =>
    rw [TagTable.upsertTag, Table.insertOrIgnore, hins]
    exact (Table.insert?_eq_some.1 hins).2

/-- What the loop of `insert_tags` leaves, and the rows it writes. -/
structure LinksWritten (u : Uuid) (tags : List String) (row : EntryRow) (st st' : Mirror × TagTable) :
    Prop where
  only : RowOnly u st.1 st'.1
  found : st'.1.entries.find? u = some { row with tags := tags.foldl linkTag row.tags }
  names : st'.2 = st.2.insertTags tags
  count : st'.1.mutationSeq + row.tags.length + st.2.rows.length =
    st.1.mutationSeq + (tags.foldl linkTag row.tags).length + st'.2.rows.length

/-- `upsert_tag` and the link of a name that is not linked yet. -/
theorem insertLink_spec {st : Mirror × TagTable} {name : String}
    (hrow : st.1.entries.find? u = some row) (hnew : name ∉ row.tags) :
    RowOnly u st.1 ((upsertTagRow name st).1.insertLink u name) ∧
      ((upsertTagRow name st).1.insertLink u name).entries.find? u =
        some { row with tags := row.tags ++ [name] } ∧
      (upsertTagRow name st).2 = st.2.upsertTag name ∧
      ((upsertTagRow name st).1.insertLink u name).mutationSeq + st.2.rows.length =
        st.1.mutationSeq + 1 + (st.2.upsertTag name).rows.length := by
  have hlink : ∀ m : Mirror, m.entries = st.1.entries →
      m.insertLink u name = m.writeLinks u (· ++ [name]) 1 := by
    intro m hm
    unfold Mirror.insertLink
    rw [hm, hrow, if_neg (by simpa using hnew)]
  have hwritten : ∀ m : Mirror, m.entries.find? u = some row →
      (m.writeLinks u (· ++ [name]) 1).entries.find? u =
        some { row with tags := row.tags ++ [name] } := by
    intro m hm
    rw [(writeLinks_row m u _ 1).2, hm]
    rfl
  unfold upsertTagRow
  split
  · rename_i hmem
    rw [hlink _ rfl, upsertTag_of_mem hmem]
    refine ⟨(writeLinks_row _ u _ 1).1, hwritten _ hrow, rfl, ?_⟩
    simp [Mirror.writeLinks]
  · rename_i hmem
    dsimp only
    rw [hlink (st.1.bump 1) rfl, upsertTag_of_notMem hmem]
    have hbump : RowOnly u st.1 (st.1.bump 1) := ⟨rfl, rfl, rfl, rfl, fun _ _ => rfl⟩
    refine ⟨hbump.trans (writeLinks_row _ u _ 1).1, hwritten _ hrow, rfl, ?_⟩
    simp only [Mirror.writeLinks, Mirror.bump, List.length_append, List.length_singleton]
    omega

theorem insertTagRows_spec (tags seen : List String) (row : EntryRow) (st : Mirror × TagTable)
    (hrow : st.1.entries.find? u = some row) (hseen : ∀ t, t ∈ seen ↔ t ∈ row.tags)
    (hknown : ∀ t ∈ seen, t ∈ st.2.rows) :
    LinksWritten u tags row st (insertTagRows u tags seen st) := by
  induction tags generalizing seen st row with
  | nil => exact ⟨.refl u _, hrow, rfl, rfl⟩
  | cons raw rest ih =>
    unfold insertTagRows
    by_cases hskip : trim raw = "" ∨ trim raw ∈ seen
    · rw [if_pos hskip]
      have hlink : linkTag row.tags raw = row.tags :=
        if_pos (hskip.imp_right (hseen (trim raw)).1)
      have hname : st.2.insertTags (raw :: rest) = st.2.insertTags rest := by
        unfold TagTable.insertTags
        rw [List.foldl_cons]
        congr 1
        split
        · rfl
        · exact upsertTag_of_mem (hknown _ (hskip.resolve_left ‹_›))
      obtain ⟨honly, hfound, hnames, hcount⟩ := ih seen row st hrow hseen hknown
      refine ⟨honly, ?_, hnames.trans hname.symm, ?_⟩
      · rw [List.foldl_cons, hlink]
        exact hfound
      · rw [List.foldl_cons, hlink]
        exact hcount
    · rw [if_neg hskip]
      rw [not_or] at hskip
      have hnew : trim raw ∉ row.tags := fun h => hskip.2 ((hseen _).2 h)
      have hlink : linkTag row.tags raw = row.tags ++ [trim raw] :=
        if_neg (not_or.2 ⟨hskip.1, hnew⟩)
      have hname : st.2.insertTags (raw :: rest) = (st.2.upsertTag (trim raw)).insertTags rest := by
        unfold TagTable.insertTags
        rw [List.foldl_cons, if_neg hskip.1]
      have hins : ∀ t, t ∈ (st.2.upsertTag (trim raw)).rows ↔ t ∈ st.2.rows ∨ t = trim raw := by
        intro t
        have hkeys := Table.mem_keys_insertOrIgnore (T := st.2) (r := trim raw) (k := t)
        simpa [Table.keys, TagTable.upsertTag] using hkeys
      obtain ⟨honly₁, hrow₁, hnames₁, hcount₁⟩ := insertLink_spec hrow hnew
      dsimp only
      rw [hnames₁]
      obtain ⟨honly, hfound, hnames, hcount⟩ := ih (trim raw :: seen)
        { row with tags := row.tags ++ [trim raw] }
        ((upsertTagRow (trim raw) st).1.insertLink u (trim raw), st.2.upsertTag (trim raw)) hrow₁
        (fun t => by simp [hseen t, or_comm]) fun t ht => by
          rcases List.mem_cons.1 ht with rfl | ht
          · exact (hins _).2 (.inr rfl)
          · exact (hins _).2 (.inl (hknown t ht))
      refine ⟨honly₁.trans honly, ?_, hnames.trans hname.symm, ?_⟩
      · rw [List.foldl_cons, hlink]
        exact hfound
      · rw [List.foldl_cons, hlink]
        dsimp only at hcount
        rw [List.length_append, List.length_singleton] at hcount
        omega

end Links

/-! ## The comparison -/

theorem dedup_sortStrings (l : List String) : (sortStrings l).dedup = sortStrings l.dedup := by
  have hsorted := (List.pairwise_insertionSort (fun a b : String => a ≤ b) l).sublist
    (List.dedup_sublist _)
  refine List.Perm.eq_of_pairwise' hsorted (List.pairwise_insertionSort _ _) ?_
  refine (List.perm_ext_iff_of_nodup (List.nodup_dedup _) ?_).2 fun t => ?_
  · exact (List.perm_insertionSort _ _).nodup_iff.2 (List.nodup_dedup _)
  · simp [sortStrings]

/-- `set_tags` compares what the edit would link with what is linked. -/
theorem tags_changed_iff {row : EntryRow} (hnd : row.tags.Nodup) (tags : List String) :
    (sortStrings row.tags).dedup ≠ (sortStrings ((tags.map trim).filter (· ≠ ""))).dedup ↔
      sortStrings (tags.foldl linkTag []) ≠ sortStrings row.tags := by
  rw [dedup_sortStrings, dedup_sortStrings, hnd.dedup, linkTags_normal, normalTags]
  exact ne_comm

/-! ## The edit -/

section SetTags

variable {m : Mirror} {T : TagTable} {u : Uuid} {row : EntryRow} {H : HistoryLib} {tags : List String}
  {now : EpochMs}

/-- The links deleted and made again. -/
theorem relink_spec (tags : List String) (hrow : m.entries.find? u = some row) :
    let st := insertTagRows u tags [] (m.deleteLinks u, T)
    RowOnly u m st.1 ∧
      st.1.entries.find? u = some { row with tags := tags.foldl linkTag [] } ∧
      st.2 = T.insertTags tags ∧
      st.1.mutationSeq + T.rows.length =
        m.mutationSeq + row.tags.length + (tags.foldl linkTag []).length + st.2.rows.length := by
  obtain ⟨honly₁, hrow₁⟩ := writeLinks_row m u (fun _ => []) row.tags.length
  have hdel : m.deleteLinks u = m.writeLinks u (fun _ => []) row.tags.length := by
    unfold Mirror.deleteLinks
    rw [hrow]
    rfl
  rw [hdel]
  rw [hrow] at hrow₁
  obtain ⟨honly, hfound, hnames, hcount⟩ := insertTagRows_spec tags [] { row with tags := [] }
    (m.writeLinks u (fun _ => []) row.tags.length, T) hrow₁ (fun t => by simp) (by simp)
  refine ⟨honly₁.trans honly, hfound, hnames, ?_⟩
  dsimp only [Mirror.writeLinks, List.length_nil] at hcount ⊢
  omega

/-- **The statements of `set_tags` write the row `Mirror.setTags` writes**, and the tag table of the
edit. -/
theorem setTagRows_row (hnd : ∀ row, m.entries.find? u = some row → row.tags.Nodup)
    {st : Mirror × TagTable} (h : setTagRows H u tags now (m, T) = .ok st) :
    ∃ m', m.setTags H u tags now = .ok m' ∧
      (∀ v, st.1.entries.find? v = m'.entries.find? v) ∧
      st.2 = st.1.gcOrphanTags (T.insertTags tags) := by
  unfold setTagRows at h
  cases hrow : m.entries.find? u with
  | none =>
    dsimp only at h
    rw [hrow] at h
    cases h
  | some row =>
    dsimp only at h
    rw [hrow] at h
    dsimp only at h
    simp only [tags_changed_iff (hnd row hrow)] at h
    unfold Mirror.setTags Mirror.editEntry
    rw [hrow]
    dsimp only
    by_cases hsame : sortStrings (tags.foldl linkTag []) = sortStrings row.tags
    · simp only [hsame, ne_eq, not_true_eq_false, if_false] at h
      obtain rfl := Except.ok.inj h
      obtain ⟨honly, hfound, hnames, -⟩ := relink_spec (T := T) tags hrow
      refine ⟨_, by rw [if_pos hsame]; rfl, fun v => ?_, ?_⟩
      · by_cases hv : v = u
        · subst hv
          rw [(putEntryRow_row m v _).2, hrow]
          exact hfound
        · rw [(putEntryRow_row m u _).1.entries v hv]
          exact honly.entries v hv
      · rw [← hnames]
        rfl
    · simp only [hsame, ne_eq, not_false_eq_true, if_true] at h
      obtain ⟨m₁, h₁, h⟩ := except_bind_ok.1 h
      obtain rfl := Except.ok.inj h
      obtain ⟨row', archived, hrow', harchive, rfl⟩ := editEntry_ok.1 h₁
      obtain rfl := Option.some.inj (hrow.symm.trans hrow')
      rw [if_neg hsame]
      have hrow₁ : (m.putEntryRow u archived).entries.find? u =
          some { archived with uuid := row.uuid, groupUuid := row.groupUuid } := by
        rw [(putEntryRow_row m u archived).2, hrow]
        rfl
      obtain ⟨honly, hfound, hnames, -⟩ := relink_spec (T := T) tags hrow₁
      generalize insertTagRows u tags [] ((m.putEntryRow u archived).deleteLinks u, T) = st
        at honly hfound hnames
      obtain ⟨hstamp, hstamped⟩ := updateEntry_row st.1 u (fun e => { e with modifiedAt := now })
        (fun _ => rfl) fun _ => rfl
      refine ⟨_, except_bind_ok.2 ⟨_, except_bind_ok.2 ⟨archived, harchive, rfl⟩, rfl⟩, fun v => ?_, ?_⟩
      · by_cases hv : v = u
        · subst hv
          rw [(putEntryRow_row m v _).2, hrow]
          refine hstamped.trans ?_
          rw [hfound]
          rfl
        · rw [(putEntryRow_row m u _).1.entries v hv, ← (putEntryRow_row m u archived).1.entries v hv,
            ← honly.entries v hv]
          exact hstamp.entries v hv
      · rw [← hnames]
        rfl

/-! ## Nothing to change -/

/-- Every name is linked by some entry. -/
def NoOrphans (m : Mirror) (T : TagTable) : Prop := ∀ name ∈ T.rows, name ∈ m.linkedTags

theorem insertTagRows_idle {seen : List String} (st : Mirror × TagTable)
    (h : ∀ raw ∈ tags, trim raw = "") : insertTagRows u tags seen st = st := by
  induction tags with
  | nil => rfl
  | cons raw rest ih =>
    unfold insertTagRows
    rw [if_pos (.inl (h raw (List.mem_cons_self ..)))]
    exact ih fun raw hraw => h raw (List.mem_cons_of_mem _ hraw)

theorem deleteLinks_idle (hrow : m.entries.find? u = some row) (h : row.tags = []) :
    m.deleteLinks u = m := by
  have hfix : m.entries.modify u (fun r => { r with tags := [] }) (fun _ => rfl) = m.entries := by
    refine Table.update_of_fixed _ fun r hr hu => ?_
    obtain rfl : r = row := Table.eq_of_key hr (Table.find?_mem hrow)
      (hu.trans (Table.find?_key hrow).symm)
    rw [← h]
  unfold Mirror.deleteLinks Mirror.writeLinks
  simp only [hfix, hrow, Option.map_some, Option.getD_some, h, List.length_nil, Nat.add_zero]

theorem gcOrphanTagRows_idle (h : NoOrphans m T) : gcOrphanTagRows (m, T) = (m, T) := by
  have hnone : (T.rows.filter (· ∉ m.linkedTags)).length = 0 := by
    rw [List.length_eq_zero_iff, List.filter_eq_nil_iff]
    intro name hname
    simpa using h name hname
  unfold gcOrphanTagRows Mirror.gcOrphanTags
  rw [Table.delete_of_none hnone, hnone]
  rfl

/-- The same tags are the same links in some order. -/
theorem perm_of_same (hsame : sortStrings (tags.foldl linkTag []) = sortStrings row.tags) :
    (tags.foldl linkTag []).Perm row.tags := by
  have hnew := List.perm_insertionSort (fun a b : String => a ≤ b) (tags.foldl linkTag [])
  have hold := List.perm_insertionSort (fun a b : String => a ≤ b) row.tags
  unfold sortStrings at hsame
  exact (hnew.symm.trans (hsame ▸ .refl _)).trans hold

theorem insertTags_length (T : TagTable) (tags : List String) :
    T.rows.length ≤ (T.insertTags tags).rows.length := by
  have hnd : T.rows.Nodup := by simpa using T.nodup
  exact (List.subperm_of_subset hnd fun name hname => mem_insertTags.2 (.inl hname)).length_le

/-- **What `set_tags` writes for the same tags**: every link twice, a name that is missing, and the names
to sweep; no snapshot, and not `modified_at`. -/
theorem setTagRows_same (now : EpochMs) (hrow : m.entries.find? u = some row)
    (hsame : sortStrings (tags.foldl linkTag []) = sortStrings row.tags) :
    ∃ st, setTagRows H u tags now (m, T) = .ok st ∧
      st.1.entries.find? u = some { row with tags := tags.foldl linkTag [] } ∧
      st.1.mutationSeq + T.rows.length = m.mutationSeq + 2 * row.tags.length +
        (T.insertTags tags).rows.length +
        ((T.insertTags tags).rows.filter (· ∉ m.linkedTags)).length := by
  have hperm := perm_of_same hsame
  have hnd : row.tags.Nodup := hperm.nodup_iff.1 (linkTags_spec tags [] List.nodup_nil).1
  obtain ⟨honly, hfound, hnames, hcount⟩ := relink_spec (T := T) tags hrow
  have hlinked : ∀ name, name ∈ (insertTagRows u tags [] (m.deleteLinks u, T)).1.linkedTags ↔
      name ∈ m.linkedTags := by
    intro name
    rw [mem_linkedTags, mem_linkedTags]
    refine exists_congr fun v => ?_
    by_cases hv : v = u
    · subst hv
      rw [tagsOf, tagsOf, hfound, hrow]
      exact hperm.mem_iff
    · rw [tagsOf, tagsOf, honly.entries v hv]
  refine ⟨gcOrphanTagRows (insertTagRows u tags [] (m.deleteLinks u, T)), ?_, hfound, ?_⟩
  · unfold setTagRows
    dsimp only
    rw [hrow]
    dsimp only
    simp only [tags_changed_iff hnd, hsame, ne_eq, not_true_eq_false, if_false]
    rfl
  · unfold gcOrphanTagRows
    dsimp only [Mirror.bump]
    simp only [hlinked, hnames] at hcount ⊢
    rw [hperm.length_eq] at hcount
    omega

/-- **When `set_tags` with the tags an entry has changes nothing**: the entry has none, and no name is
left to sweep. -/
theorem setTagRows_idle_iff (now : EpochMs) (hrow : m.entries.find? u = some row)
    (hsame : sortStrings (tags.foldl linkTag []) = sortStrings row.tags) :
    ∃ st, setTagRows H u tags now (m, T) = .ok st ∧
      st.1.entries.find? u = some { row with tags := tags.foldl linkTag [] } ∧
      (st = (m, T) ↔ row.tags = [] ∧ NoOrphans m T) ∧
      (st.1.mutationSeq = m.mutationSeq ↔ row.tags = [] ∧ NoOrphans m T) := by
  obtain ⟨st, hrun, hfound, hcount⟩ := setTagRows_same (H := H) (T := T) now hrow hsame
  refine ⟨st, hrun, hfound, ?_⟩
  have hidle : row.tags = [] ∧ NoOrphans m T → st = (m, T) := by
    rintro ⟨hnone, horphans⟩
    have hnew : tags.foldl linkTag [] = [] := by
      have hperm := perm_of_same hsame
      rw [hnone] at hperm
      exact hperm.eq_nil
    have hempty : ∀ raw ∈ tags, trim raw = "" := by
      intro raw hraw
      by_contra hne
      have hmem := ((linkTags_spec tags [] List.nodup_nil).2 (trim raw)).2
        (.inr (List.mem_filter.2 ⟨List.mem_map_of_mem hraw, by simpa using hne⟩))
      rw [hnew] at hmem
      cases hmem
    unfold setTagRows at hrun
    dsimp only at hrun
    rw [hrow] at hrun
    dsimp only at hrun
    have hnd : row.tags.Nodup := hnone ▸ List.nodup_nil
    simp only [tags_changed_iff hnd, hsame, ne_eq, not_true_eq_false, if_false] at hrun
    obtain rfl := Except.ok.inj hrun
    rw [deleteLinks_idle hrow hnone, insertTagRows_idle _ hempty]
    exact gcOrphanTagRows_idle horphans
  have hcounted : st.1.mutationSeq = m.mutationSeq → row.tags = [] ∧ NoOrphans m T := by
    intro hseq
    have hle := insertTags_length T tags
    have hlinks : row.tags.length = 0 := by omega
    have hsweep : ((T.insertTags tags).rows.filter (· ∉ m.linkedTags)).length = 0 := by omega
    refine ⟨List.length_eq_zero_iff.1 hlinks, fun name hname => ?_⟩
    rw [List.length_eq_zero_iff, List.filter_eq_nil_iff] at hsweep
    simpa using hsweep name (mem_insertTags.2 (.inl hname))
  refine ⟨⟨fun h => hcounted (by rw [h]), hidle⟩, hcounted, fun h => ?_⟩
  rw [hidle h]

/-- **An edit that changes nothing**: `update_entry` leaves everything as it was. `set_tags` archives
nothing and keeps `modified_at`, and leaves the rows and the watermark as they were exactly when the
entry has no tags and no name is left to sweep. -/
theorem idle_edit_iff (H : HistoryLib) (T : TagTable) (hrow : m.entries.find? u = some row)
    (now : EpochMs) :
    (∀ upd, (row.applyUpdate upd).content = row.content →
      m.updateEntryFields H u upd now = .ok m) ∧
    ∀ tags, EntryRow.content { row with tags := tags.foldl linkTag [] } = row.content →
      ∃ st row', setTagRows H u tags now (m, T) = .ok st ∧ st.1.entries.find? u = some row' ∧
        row'.history = row.history ∧ row'.modifiedAt = row.modifiedAt ∧
        (st = (m, T) ↔ row.tags = [] ∧ NoOrphans m T) ∧
        (st.1.mutationSeq = m.mutationSeq ↔ row.tags = [] ∧ NoOrphans m T) := by
  refine ⟨fun upd hsame => ?_, fun tags hsame => ?_⟩
  · unfold Mirror.updateEntryFields Mirror.contentEdit EntryRow.finishEdit
    rw [hrow]
    dsimp only
    rw [if_pos hsame]
    rfl
  · obtain ⟨st, hrun, hfound, hrows, hseq⟩ := setTagRows_idle_iff (H := H) (T := T) now hrow
      (congrArg EntryRow.Content.tags hsame)
    exact ⟨st, _, hrun, hfound, rfl, rfl, hrows, hseq⟩

end SetTags

/-! ## Runs -/

/-- A clean mirror whose entry `9` has these tags. -/
def tagRowsMirror (tags : List String) : Mirror := (nestedMirror false).writeLinks 9 (fun _ => tags) 0

/-- The names of `tag`, each once. -/
def tagNames (names : List String) : TagTable := TagTable.insertTags .empty names

/-- Without a tag nothing is written; with one, its link is written twice, and the mirror owes a save. -/
theorem idle_edit_tags :
    (∃ st, setTagRows plainEnv.history 9 [" "] default (tagRowsMirror [], tagNames []) = .ok st ∧
      st = (tagRowsMirror [], tagNames [])) ∧
    ∃ st, setTagRows plainEnv.history 9 [" work", "work", ""] default
        (tagRowsMirror ["work"], tagNames ["work"]) = .ok st ∧
      st.1.mutationSeq ≠ (tagRowsMirror ["work"]).mutationSeq := by
  constructor
  · obtain ⟨st, row, hrun, -, -, -, hrows, -⟩ := (idle_edit_iff plainEnv.history (tagNames [])
      (m := tagRowsMirror []) (u := 9) rfl default).2 [" "] (by decide +kernel)
    exact ⟨st, hrun, hrows.2 ⟨rfl, fun _ hname => by cases hname⟩⟩
  · obtain ⟨st, row, hrun, -, -, -, -, hseq⟩ := (idle_edit_iff plainEnv.history (tagNames ["work"])
      (m := tagRowsMirror ["work"]) (u := 9) rfl default).2 [" work", "work", ""] (by decide +kernel)
    refine ⟨st, hrun, fun h => ?_⟩
    exact absurd (hseq.1 h).1 (by decide +kernel)

/-- Given the tags it has, a clean mirror is dirty. -/
theorem same_tags_make_dirty : ∃ st, (tagRowsMirror ["work"]).isDirty = false ∧
    setTagRows plainEnv.history 9 [" work", "work", ""] default
      (tagRowsMirror ["work"], tagNames ["work"]) = .ok st ∧
    st.1.entries = (tagRowsMirror ["work"]).entries ∧ st.2 = tagNames ["work"] ∧
    st.1.mutationSeq = 2 ∧ st.1.isDirty = true :=
  ⟨_, rfl, rfl, by decide +kernel, by decide +kernel, by decide +kernel, by decide +kernel⟩

end KeysCore.Verify
