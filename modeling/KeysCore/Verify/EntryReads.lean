import KeysCore.EntryReads
import KeysCore.Verify.LinkedRows

/-!
# What a read returns

The custom fields of an entry as they are read and revealed (`fieldValues_ok`): both tables in the order
of the names. Taken apart by protection again they are the rows of the tables, in another order.
-/

namespace KeysCore

/-- Every custom field with its value and whether it is protected. -/
def EntryRow.valuedFields (r : EntryRow) : List (String × String × Bool) :=
  r.protectedFields.map (fun f => (f.1, f.2, true)) ++ r.customFields.map fun f => (f.1, f.2, false)

/-- The custom fields of a row with their values, in the order they are read. -/
def EntryRow.readFields (r : EntryRow) : List CustomField :=
  (sortByName r.valuedFields).map fun f => ⟨f.1, f.2.1, f.2.2⟩

/-- The content of a row but for its custom data, which stays with the entry. -/
def EntryRow.shown (r : EntryRow) : EntryRow.Content := { r.content with customData := [] }

end KeysCore

namespace KeysCore.Verify

open Lib

theorem find?_of_nodup_names {β : Type} {rows : List (String × β)} (hnd : (rows.map (·.1)).Nodup)
    {f : String × β} (hf : f ∈ rows) : rows.find? (·.1 = f.1) = some f := by
  cases hfind : rows.find? (·.1 = f.1) with
  | none => simpa using List.find?_eq_none.1 hfind f hf
  | some g =>
    have hname : g.1 = f.1 := by simpa using List.find?_some hfind
    rw [List.inj_on_of_nodup_map hnd (List.mem_of_find?_eq_some hfind) hf hname]

/-- **Every custom field of an entry is revealed.** -/
theorem fieldValues_ok {m : Mirror} {u : Uuid} {r : EntryRow} (hrow : m.entries.find? u = some r)
    (hkeyed : EntryRow.Keyed r) (hlinked : EntryRow.Linked r) :
    m.fieldValues u r.customFieldRefs = .ok r.readFields := by
  have hslot : r.protectedFields.filter (·.1 ≠ "Password") = r.protectedFields := by
    refine List.filter_eq_self.2 fun f hf => ?_
    have hne : f.1 ≠ "Password" := fun e => hlinked.slot (e ▸ List.mem_map_of_mem hf)
    simpa using hne
  have hrefs : r.customFieldRefs = (sortByName r.valuedFields).map fun f => ⟨f.1, f.2.2⟩ := by
    have hsort : sortByName (r.valuedFields.map fun f => (f.1, f.2.2)) =
        (sortByName r.valuedFields).map fun f => (f.1, f.2.2) :=
      (List.map_insertionSort (fun a b : String × String × Bool => a.1 ≤ b.1)
        (fun a b : String × Bool => a.1 ≤ b.1) (fun f => (f.1, f.2.2)) r.valuedFields
        fun _ _ _ _ => Iff.rfl).symm
    have hcols : r.protectedFields.map (fun f => (f.1, true)) ++
        r.customFields.map (fun f => (f.1, false)) = r.valuedFields.map fun f => (f.1, f.2.2) := by
      simp [EntryRow.valuedFields, Function.comp_def]
    unfold EntryRow.customFieldRefs
    rw [hslot, hcols, hsort, List.map_map]
    rfl
  have hvalue : ∀ f ∈ sortByName r.valuedFields,
      (do
        let value ← m.fieldValue u (⟨f.1, f.2.2⟩ : CustomFieldRef)
        return CustomField.mk f.1 value f.2.2) = Except.ok (⟨f.1, f.2.1, f.2.2⟩ : CustomField) := by
    intro f hf
    rcases List.mem_append.1 ((List.mem_insertionSort _).1 hf) with hf | hf
    · obtain ⟨g, hg, rfl⟩ := List.mem_map.1 hf
      have hne : g.1 ≠ "Password" := fun e => hlinked.slot (e ▸ List.mem_map_of_mem hg)
      simp [Mirror.fieldValue, Mirror.revealCustomField, Mirror.revealProtectedField, hrow,
        Ne.symm hne, find?_of_nodup_names hkeyed.protectedFields hg]
    · obtain ⟨g, hg, rfl⟩ := List.mem_map.1 hf
      simp [Mirror.fieldValue, Mirror.nonProtectedCustomField, hrow,
        find?_of_nodup_names hkeyed.customFields hg]
  rw [hrefs]
  exact mapM_map_ok hvalue

theorem revealPassword_ok {m : Mirror} {u : Uuid} {r : EntryRow}
    (hrow : m.entries.find? u = some r) : m.revealPassword u = .ok r.password := by
  simp [Mirror.revealPassword, Mirror.revealProtectedField, hrow]

theorem readFields_perm (r : EntryRow) :
    r.readFields.Perm (r.protectedFields.map (fun f => ⟨f.1, f.2, true⟩) ++
      r.customFields.map fun f => ⟨f.1, f.2, false⟩) := by
  have h := (List.perm_insertionSort (fun a b : String × String × Bool => a.1 ≤ b.1)
    r.valuedFields).map fun f => (⟨f.1, f.2.1, f.2.2⟩ : CustomField)
  simpa [EntryRow.readFields, sortByName, EntryRow.valuedFields, Function.comp_def] using h

theorem readFields_protected (r : EntryRow) (hlinked : EntryRow.Linked r) :
    (protectedOf r.readFields).Perm r.protectedFields := by
  have hslot : ∀ f ∈ r.protectedFields, f.1 ≠ "Password" := fun f hf e =>
    hlinked.slot (e ▸ List.mem_map_of_mem hf)
  have h := ((readFields_perm r).filter fun f => f.isProtected && f.key ≠ "Password").map
    fun f => (f.key, f.value)
  refine h.trans (.of_eq ?_)
  have hall : (r.protectedFields.filter fun f => !decide (f.1 = "Password")) = r.protectedFields :=
    List.filter_eq_self.2 fun f hf => by simpa using hslot f hf
  simp [List.filter_map, Function.comp_def, hall]

theorem readFields_plain (r : EntryRow) : (plainOf r.readFields).Perm r.customFields := by
  have h := ((readFields_perm r).filter fun f => !f.isProtected).map fun f => (f.key, f.value)
  refine h.trans (.of_eq ?_)
  simp [List.filter_map, Function.comp_def]

end KeysCore.Verify
