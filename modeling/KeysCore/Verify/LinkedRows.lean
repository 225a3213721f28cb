import Mathlib.Data.List.DropRight
import KeysCore.Verify.EntryRows
import KeysCore.Verify.RowKeys
import KeysCore.Verify.RowRules

/-!
# Tags, slots and attachment names of every row

The tags of a row are in the form a link leaves them, so linking them again changes nothing
(`linkTags_of_linked`). No protected field stands in the password's slot and no attachment's name
stands twice. Every write keeps this (`keyedLinked_rule`), with the keys of the side tables.
-/

namespace KeysCore.Verify

open Lib

/-! ## Lists by name -/

theorem sortByName_perm {β : Type} {rows rows' : List (String × β)} (h : rows'.Perm rows)
    (hnd : (rows.map (·.1)).Nodup) : sortByName rows' = sortByName rows :=
  insertionSort_perm h hnd

theorem upsertRows_of_nodup {β : Type} (rows acc : List (String × β))
    (h : ((acc ++ rows).map (·.1)).Nodup) : rows.foldl upsertRow acc = acc ++ rows := by
  induction rows generalizing acc with
  | nil => simp
  | cons r rows ih =>
    have hfree : r.1 ∉ acc.map (·.1) := by
      intro hr
      rw [List.map_append, List.nodup_append] at h
      exact h.2.2 _ hr _ (by simp) rfl
    rw [List.foldl_cons, show upsertRow acc r = acc ++ [r] from if_neg hfree,
      ih (acc ++ [r]) (by simpa using h)]
    simp

/-! ## Tags in their stored form -/

theorem dropWhile_of_prefix {α : Type} {p : α → Bool} {l t : List α} (hl : l.dropWhile p = l)
    (ht : t <+: l) : t.dropWhile p = t := by
  obtain ⟨t', rfl⟩ := ht
  cases t with
  | nil => rfl
  | cons a t =>
    by_cases ha : p a = true
    · have hshort := (List.dropWhile_suffix p (l := t ++ t')).length_le
      have hlen := congrArg List.length hl
      simp only [List.cons_append, List.dropWhile_cons_of_pos ha, List.length_cons] at hlen
      omega
    · exact List.dropWhile_cons_of_neg ha

theorem trim_trim (s : String) : trim (trim s) = trim s := by
  have htrim : ∀ s : String, trim s =
      String.ofList ((s.toList.dropWhile isWhitespace).rdropWhile isWhitespace) := fun _ => rfl
  rw [htrim (trim s), htrim s, String.toList_ofList,
    dropWhile_of_prefix (List.dropWhile_idempotent _ _) (List.rdropWhile_prefix _ _),
    List.rdropWhile_idempotent]

/-- Each tag stands once, trimmed and not empty, no protected field stands in the password's slot, and
each attachment's name stands once. -/
structure EntryRow.Linked (r : EntryRow) : Prop where
  tags : r.tags.Nodup ∧ ∀ t ∈ r.tags, t ≠ "" ∧ trim t = t
  slot : "Password" ∉ r.protectedFields.map (·.1)
  files : (r.attachments.map (·.1)).Nodup

theorem linkTags_linked (raws : List String) :
    (raws.foldl linkTag []).Nodup ∧ ∀ t ∈ raws.foldl linkTag [], t ≠ "" ∧ trim t = t := by
  obtain ⟨hnd, hmem⟩ := linkTags_spec raws [] List.nodup_nil
  refine ⟨hnd, fun t ht => ?_⟩
  rcases (hmem t).1 ht with ht | ht
  · cases ht
  · obtain ⟨ht, hne⟩ := List.mem_filter.1 ht
    obtain ⟨raw, -, rfl⟩ := List.mem_map.1 ht
    exact ⟨by simpa using hne, trim_trim raw⟩

/-- **Tags in their stored form are linked as they are.** -/
theorem linkTags_of_linked {tags : List String}
    (h : tags.Nodup ∧ ∀ t ∈ tags, t ≠ "" ∧ trim t = t) :
    sortStrings ((sortStrings tags).foldl linkTag []) = sortStrings tags := by
  obtain ⟨hnd, hmem⟩ := linkTags_spec (sortStrings tags) [] List.nodup_nil
  refine sortStrings_eq hnd h.1 fun t => ?_
  have hsort : ∀ t, t ∈ sortStrings tags ↔ t ∈ tags := fun t => List.mem_insertionSort _
  rw [hmem t, List.mem_filter, List.mem_map]
  constructor
  · rintro (ht | ⟨⟨raw, hraw, rfl⟩, -⟩)
    · cases ht
    · rw [(h.2 raw ((hsort raw).1 hraw)).2]
      exact (hsort raw).1 hraw
  · intro ht
    exact .inr ⟨⟨t, (hsort t).2 ht, (h.2 t ht).2⟩, by simpa using (h.2 t ht).1⟩

theorem slot_notMem_protectedOf (fields : List CustomField) :
    "Password" ∉ (protectedOf fields).map (·.1) := by
  intro h
  obtain ⟨f, hf, hname⟩ := List.mem_map.1 h
  obtain ⟨c, hc, rfl⟩ := List.mem_map.1 hf
  have hkeep := (List.mem_filter.1 hc).2
  simp only [Bool.and_eq_true, decide_eq_true_eq] at hkeep
  exact hkeep.2 hname

theorem upsertRow_names {β : Type} {rows : List (String × β)} {r : String × β} {name : String}
    (h : name ∈ (upsertRow rows r).map (·.1)) : name ∈ rows.map (·.1) ∨ name = r.1 := by
  unfold upsertRow at h
  split at h
  · obtain ⟨x, hx, rfl⟩ := List.mem_map.1 h
    obtain ⟨a, ha, rfl⟩ := List.mem_map.1 hx
    split
    · exact .inr rfl
    · exact .inl (List.mem_map_of_mem ha)
  · rw [List.map_append, List.mem_append] at h
    exact h.imp_right fun h => by simpa using h

theorem upsertRows_names {β : Type} {rows : List (String × β)} {name : String}
    (h : name ∈ (rows.foldl upsertRow []).map (·.1)) : name ∈ rows.map (·.1) := by
  have hacc : ∀ (rows acc : List (String × β)), name ∈ (rows.foldl upsertRow acc).map (·.1) →
      name ∈ acc.map (·.1) ∨ name ∈ rows.map (·.1) := by
    intro rows
    induction rows with
    | nil => exact fun acc h => .inl h
    | cons r rows ih =>
      intro acc h
      rcases ih _ h with h | h
      · rcases upsertRow_names h with h | rfl
        · exact .inl h
        · exact .inr (by simp)
      · exact .inr (List.mem_cons_of_mem _ h)
  rcases hacc rows [] h with h | h
  · cases h
  · exact h

theorem insertOrIgnore_nodup {β : Type} (rows : List (String × β)) :
    ((rows.foldl insertOrIgnore []).map (·.1)).Nodup := by
  refine List.foldlRecOn (motive := fun acc : List (String × β) => (acc.map (·.1)).Nodup) rows _ ?_
    fun acc hacc r _ => ?_
  · exact List.nodup_nil
  unfold insertOrIgnore
  split
  · exact hacc
  · rename_i hfree
    rw [List.map_append, List.nodup_append]
    refine ⟨hacc, by simp, fun a ha b hb hab => hfree ?_⟩
    have hb : b = r.1 := by simpa using hb
    rw [← hb, ← hab]
    exact ha

theorem AttachmentChange.apply_nodup {rows : List (String × List UInt8)}
    (h : (rows.map (·.1)).Nodup) (c : AttachmentChange) : ((c.apply rows).map (·.1)).Nodup := by
  cases c with
  | take name bytes => exact upsertRow_nodup h (name, bytes)
  | drop name => exact h.sublist (List.filter_sublist.map _)

/-- **An edit keeps a row linked.** -/
theorem EntryRow.Linked.edit {H : HistoryLib} {s : Settings} {r r' : EntryRow} {e : EntryEdit}
    (h : Linked r) (hstep : e.Step H s r r') : Linked r' := by
  suffices hw : Linked (e.write r) by
    obtain ⟨_, _, _, rfl⟩ := hstep.written
    exact ⟨hw.tags, hw.slot, hw.files⟩
  cases e with
  | saveEntry save now =>
    exact ⟨linkTags_linked _, fun hp => slot_notMem_protectedOf _ (upsertRows_names hp), h.files⟩
  | setProtectedField name value now =>
    simp only [EntryEdit.write, EntryRow.setProtected]
    split
    · exact ⟨h.tags, h.slot, h.files⟩
    · rename_i hne
      refine ⟨h.tags, fun hp => ?_, h.files⟩
      rcases upsertRow_names hp with hp | hp
      · exact h.slot hp
      · exact hne hp.symm
  | removeCustomField name now =>
    exact ⟨h.tags, fun hp => h.slot ((List.filter_sublist.map _).subset hp), h.files⟩
  | setTags tags now => exact ⟨linkTags_linked _, h.slot, h.files⟩
  | setAttachment name bytes now => exact ⟨h.tags, h.slot, upsertRow_nodup h.files (name, bytes)⟩
  | removeAttachment name now =>
    exact ⟨h.tags, h.slot, h.files.sublist (List.filter_sublist.map _)⟩
  | restoreEntryFromHistory index now =>
    obtain ⟨snap, hsnap, hfiles, -⟩ := hstep
    simp only [EntryEdit.write, hsnap]
    exact ⟨linkTags_linked _, slot_notMem_protectedOf _, hfiles⟩
  | updateEntry | setNonProtectedCustomField | clearEntryCustomIcon | linkEntryCustomIcon | touchEntry
  | deleteHistoryAt => exact ⟨h.tags, h.slot, h.files⟩

/-- **Every row has its side tables keyed and is linked.** -/
theorem keyedLinked_rule (H : HistoryLib) :
    RowRule H fun r => EntryRow.Keyed r ∧ EntryRow.Linked r where
  insert e g b hkeys :=
    ⟨toRow_keyed hkeys g b, linkTags_linked e.tags, slot_notMem_protectedOf e.customFields,
      insertOrIgnore_nodup _⟩
  create g fields now u hprot hplain :=
    ⟨⟨hprot, hplain, List.nodup_nil, fun _ hs => by cases hs⟩, linkTags_linked _,
      slot_notMem_protectedOf _, List.nodup_nil⟩
  edit h hstep := ⟨h.1.edit hstep, h.2.edit hstep⟩
  place r u g b p t now h :=
    ⟨⟨h.1.protectedFields, h.1.customFields, h.1.customData, h.1.history⟩, h.2.tags, h.2.slot,
      h.2.files⟩
  history r merged h := ⟨h.1.withHistoryOf merged, h.2.tags, h.2.slot, h.2.files⟩
  attachments r c h :=
    ⟨⟨h.1.protectedFields, h.1.customFields, h.1.customData, h.1.history⟩, h.2.tags, h.2.slot,
      AttachmentChange.apply_nodup h.2.files c⟩

end KeysCore.Verify
