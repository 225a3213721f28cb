import KeysCore.ConflictRows
import KeysCore.Verify.PeerIngest

/-!
# A field-wise merge library

An executable instance of `MergeLib`, for runs on concrete vaults: an entry is merged field by field
against the latest version both sides know, a field both changed differently is a conflict, and
histories are united. It has what the ingest relies on (`fieldMerge_lawful`).
-/

namespace KeysCore.Verify

open Lib

/-- A field merged against the value both sides started from. -/
def threeWay (base mine theirs : String) : Option String :=
  if mine = theirs then some mine
  else if base = mine then some theirs
  else if base = theirs then some mine
  else none

/-- The latest version of local's that the peer knows too. -/
def commonAncestor (l p : Entry) : Option EntryVersion :=
  (l.toEntryVersion :: l.history.reverse).find? fun x =>
    (p.toEntryVersion :: p.history).any (sameContent x)

/-- The five standard fields of `l` and `p`, merged. -/
def mergedFields (base : EntryVersion) (l p : Entry) : Option Entry := do
  let title ← threeWay base.title l.title p.title
  let username ← threeWay base.username l.username p.username
  let password ← threeWay base.password l.password p.password
  let url ← threeWay base.url l.url p.url
  let notes ← threeWay base.notes l.notes p.notes
  return { l with title, username, password, url, notes }

def classifyFields (l p : Entry) : Classification :=
  if sameContent l.toEntryVersion p.toEntryVersion then .inSync
  else
    match (commonAncestor l p).bind fun base => mergedFields base l p with
    | some merged => .autoMerged merged []
    | none => .conflict p

/-- The records of `other` without a twin in `base` are appended. -/
def uniteHistories (base other : Entry) : Entry :=
  { base with history := base.history ++ other.history.filter fun x =>
      !base.history.any fun y => sameContent x y &&
        x.times.lastModificationTime = y.times.lastModificationTime }

/-- A decimal numeral. -/
def readDecimal (s : String) : Nat := s.toList.foldl (fun n c => 10 * n + (c.toNat - 48)) 0

/-- A resolution record is an item whose value is the entry's number, resolved when it was last
modified. -/
def readResolutions (data : List CustomDataItem) : List (Uuid × DateTime) :=
  (data.filter (·.key = "keys.conflict_resolutions.v1")).filterMap fun c =>
    c.lastModified.map fun t => (Fin.ofNat _ (readDecimal c.value), t)

/-- The library, with local winning every scalar of the meta. -/
def fieldMerge : MergeLib where
  classify := classifyFields
  mergeMetaScalars := fun l _ => l
  parseConflictResolutions := fun data => some (readResolutions data)
  foldEntryHistory := fun b o => .ok (uniteHistories b o, (uniteHistories b o).history ≠ b.history)
  pruneHistoryWithTombstones := fun b _ _ _ => .ok (b, 0)
  reconcileHistoryTombstones := fun b _ => .ok (b, false)
  computeHistoryDropCount := fun _ _ _ => 0

theorem mergedFields_keeps {base : EntryVersion} {l p merged : Entry}
    (h : mergedFields base l p = some merged) :
    merged.id = l.id ∧ merged.times = l.times ∧
      merged.previousParentGroup = l.previousParentGroup ∧ merged.history = l.history := by
  unfold mergedFields at h
  simp only [Option.bind_eq_bind, Option.bind_eq_some_iff, Option.pure_def, Option.some.injEq] at h
  obtain ⟨_, -, _, -, _, -, _, -, _, -, rfl⟩ := h
  exact ⟨rfl, rfl, rfl, rfl⟩

theorem classifyFields_autoMerged {l p merged : Entry} {changes : List AttachmentChange}
    (h : classifyFields l p = .autoMerged merged changes) :
    ∃ base, mergedFields base l p = some merged := by
  unfold classifyFields at h
  split at h
  · cases h
  · split at h
    · rename_i e he
      obtain ⟨base, -, hm⟩ := Option.bind_eq_some_iff.1 he
      obtain ⟨rfl, -⟩ := Classification.autoMerged.inj h
      exact ⟨base, hm⟩
    · cases h

theorem fieldMerge_lawful : Lawful fieldMerge where
  merged_id h := by
    obtain ⟨base, hm⟩ := classifyFields_autoMerged h
    exact (mergedFields_keeps hm).1
  merged_times h := by
    obtain ⟨base, hm⟩ := classifyFields_autoMerged h
    exact (mergedFields_keeps hm).2.1
  merged_previousParent h := by
    obtain ⟨base, hm⟩ := classifyFields_autoMerged h
    exact (mergedFields_keeps hm).2.2.1
  merged_history h := by
    obtain ⟨base, hm⟩ := classifyFields_autoMerged h
    exact (mergedFields_keeps hm).2.2.2
  remote h := by
    have h : classifyFields _ _ = _ := h
    unfold classifyFields at h
    split at h
    · cases h
    · split at h
      · cases h
      · exact (Classification.conflict.inj h).symm
  fold_id h := by
    obtain ⟨rfl, -⟩ := Prod.mk.inj (Except.ok.inj h)
    rfl
  prune_id h := by
    obtain ⟨rfl, -⟩ := Prod.mk.inj (Except.ok.inj h)
    rfl
  tombstones_id h := by
    obtain ⟨rfl, -⟩ := Prod.mk.inj (Except.ok.inj h)
    rfl

/-! ## Attachments -/

/-- The attachments the peer added or removed since `base`, and local did not touch. -/
def adoptedChanges (base : EntryVersion) (l p : Entry) : List AttachmentChange :=
  ((p.attachments.filter fun x =>
      x.name ∉ l.attachments.map (·.name) ∧ x.name ∉ base.attachments.map (·.name)).map
        fun x => .take x.name x.data) ++
    (l.attachments.filter fun x =>
      x ∈ base.attachments ∧ x.name ∉ p.attachments.map (·.name)).map fun x => .drop x.name

def classifyFiles (l p : Entry) : Classification :=
  match classifyFields l p, commonAncestor l p with
  | .autoMerged merged _, some base => .autoMerged merged (adoptedChanges base l p)
  | c, _ => c

/-- The library above, which also merges attachments. -/
def fileMerge : MergeLib := { fieldMerge with classify := classifyFiles }

theorem classifyFiles_autoMerged {l p merged : Entry} {changes : List AttachmentChange}
    (h : classifyFiles l p = .autoMerged merged changes) :
    ∃ changes', classifyFields l p = .autoMerged merged changes' := by
  unfold classifyFiles at h
  split at h
  · rename_i e c base he hb
    obtain ⟨rfl, -⟩ := Classification.autoMerged.inj h
    exact ⟨c, he⟩
  · exact ⟨changes, h⟩

theorem fileMerge_lawful : Lawful fileMerge where
  merged_id h := by
    obtain ⟨c, hc⟩ := classifyFiles_autoMerged h
    exact fieldMerge_lawful.merged_id hc
  merged_times h := by
    obtain ⟨c, hc⟩ := classifyFiles_autoMerged h
    exact fieldMerge_lawful.merged_times hc
  merged_previousParent h := by
    obtain ⟨c, hc⟩ := classifyFiles_autoMerged h
    exact fieldMerge_lawful.merged_previousParent hc
  merged_history h := by
    obtain ⟨c, hc⟩ := classifyFiles_autoMerged h
    exact fieldMerge_lawful.merged_history hc
  remote h := by
    have h : classifyFiles _ _ = _ := h
    unfold classifyFiles at h
    split at h
    · cases h
    · exact fieldMerge_lawful.remote h
  fold_id h := fieldMerge_lawful.fold_id h
  prune_id {b merged i s t n} h := @fieldMerge_lawful.prune_id b merged i s t n h
  tombstones_id {b o merged c} h := @fieldMerge_lawful.tombstones_id b o merged c h

/-! ## On whole vaults -/

mutual

/-- A tree with every entry rewritten. -/
def mapEntries (f : Entry → Entry) : Group → Group
  | .node i es gs => .node i (es.map f) (mapEntriesAll f gs)

def mapEntriesAll (f : Entry → Entry) : List Group → List Group
  | [] => []
  | g :: gs => mapEntries f g :: mapEntriesAll f gs

end

/-- The side chosen for a field of an entry, local when there is no choice. -/
def chosenSide (r : Resolution) (u : Uuid) (field : String) : ConflictSide :=
  (((r.entryFieldChoices.find? (·.1 = u)).bind fun c => c.2.find? (·.1 = field)).map (·.2)).getD
    .localSide

/-- The standard fields of `l` with those chosen from `p`. -/
def chosenFields (r : Resolution) (l p : Entry) : Entry :=
  let pick := fun field (mine theirs : String) =>
    if chosenSide r l.id field = .remoteSide then theirs else mine
  { l with
    title := pick "Title" l.title p.title
    username := pick "UserName" l.username p.username
    password := pick "Password" l.password p.password
    url := pick "URL" l.url p.url
    notes := pick "Notes" l.notes p.notes }

/-- `l` after the merge of `p`: a version that is not `p`'s keeps `p`'s as its latest record. -/
def settledEntry (r : Resolution) (l p : Entry) : Entry :=
  match classifyFields l p with
  | .inSync => l
  | .autoMerged merged _ => { merged with history := merged.history ++ [p.toEntryVersion] }
  | .conflict _ =>
    { chosenFields r l p with history := l.history ++ [l.toEntryVersion, p.toEntryVersion] }

/-- The library on vaults: entries are compared one by one, and a clash needs a choice. -/
def fieldVaults : VaultMergeLib where
  MergeOutcome := List Uuid
  merge := fun l r => .ok ((l.entries.filter fun e => (r.root.findEntry e.id).any fun p =>
    classifyFields e p = .conflict p).map (·.id))
  entryConflicts := id
  deleteEditConflicts := fun _ => []
  applyMerge := fun l r outcome choices =>
    if outcome.all (· ∈ choices.entries) then
      .ok { l with root := mapEntries (fun e => ((r.root.findEntry e.id).map
        (settledEntry choices e)).getD e) l.root }
    else .error "a conflict has no choice"
  reconcileTimestamps := fun l _ => l
  addConflictResolution := fun data r =>
    .ok (data ++ [⟨"keys.conflict_resolutions.v1", toString r.entry.val, some r.resolvedAt⟩])

end KeysCore.Verify
