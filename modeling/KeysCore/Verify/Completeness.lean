import KeysCore.Verify.IngestSucceeds
import KeysCore.Verify.RoundTrip

/-!
# What the mirror keeps of every group and entry

The mirror is meant as a complete representation of a vault. `VaultKept` says, field by field, what a
group, an entry and a history record are after they were stored: which fields are as they were, which
come back at whole seconds and which in another order. `ingested_vault_kept`: whatever vault is
ingested, the projection keeps it in this sense.

It is not the identity. An expiry instant comes back only together with its flag and the flag only
together with an instant, a group has no access time of its own, a history record has no place, and a
protected custom field in the password's slot is not stored (`stored_vault_differs`).
-/

namespace KeysCore

/-! ## Fields as they come back -/

/-- An instant at its whole second, a missing one as the epoch. -/
def secondOf : Option DateTime → DateTime
  | none => .atSecond 0
  | some t => t.floorToSecond

/-- The times common to all records. -/
structure TimesKept (t s : Timestamps) : Prop where
  creation : s.creationTime = some (secondOf t.creationTime)
  modification : s.lastModificationTime = some (secondOf t.lastModificationTime)
  expires : s.expires = true ↔ t.expires = true ∧ t.expiryTime.isSome
  expiry : s.expiryTime = if t.expires then t.expiryTime.map (·.floorToSecond) else none

/-- The fields a live version and a history record have in common. Only the order of what has a name
may change, and the protected flag of an attachment. -/
structure VersionKept (v w : EntryVersion) : Prop where
  title : w.title = v.title
  username : w.username = v.username
  password : w.password = v.password
  url : w.url = v.url
  notes : w.notes = v.notes
  iconId : w.iconId = v.iconId
  customIconUuid : w.customIconUuid = v.customIconUuid
  customFields : w.customFields.Perm v.customFields
  attachments : (w.attachments.map fun a => (a.name, a.data)).Perm
    (v.attachments.map fun a => (a.name, a.data))
  customData : w.customData.Perm (v.customData.map (·.normal))
  times : TimesKept v.times w.times
  access : w.times.lastAccessTime = some (secondOf v.times.lastAccessTime)

/-- An entry with its place, its tags as a set and its history, oldest record first. -/
structure EntryKept (e f : Entry) : Prop where
  id : f.id = e.id
  version : VersionKept e.toEntryVersion f.toEntryVersion
  tagsNodup : f.tags.Nodup
  tags : ∀ t, t ∈ f.tags ↔ t ≠ "" ∧ ∃ raw ∈ e.tags, trim raw = t
  previousParent : f.previousParentGroup = e.previousParentGroup
  location : f.times.locationChanged = e.times.locationChanged.map (·.floorToSecond)
  history : List.Forall₂ (fun v w => VersionKept v w ∧ w.tags = v.tags) e.history f.history

/-- A group with its entries and its children. -/
structure GroupKept (g h : Group) : Prop where
  id : h.id = g.id
  name : h.info.name = g.info.name
  notes : h.info.notes = g.info.notes
  iconId : h.info.iconId = g.info.iconId
  customIconUuid : h.info.customIconUuid = g.info.customIconUuid
  times : TimesKept g.info.times h.info.times
  location : h.info.times.locationChanged = g.info.times.locationChanged.map (·.floorToSecond)
  entries : List.Forall₂ EntryKept g.entries h.entries
  children : (h.groups.map (·.id)).Perm (g.groups.map (·.id))
  order : g.groups.length ≤ 2 ^ 32 → h.groups.map (·.id) = g.groups.map (·.id)

/-- Every group with its entries, under the same root. -/
structure VaultKept (v w : Vault) : Prop where
  root : w.root.id = v.root.id
  groups : (w.root.nodes.map (·.id)).Perm (v.root.nodes.map (·.id))
  kept : ∀ g ∈ v.root.nodes, ∃ h ∈ w.root.nodes, GroupKept g h

end KeysCore

namespace KeysCore.Verify

open Lib

/-! ## Normal forms keep what they should -/

theorem normalInstant_eq (t : Option DateTime) : normalInstant t = secondOf t := by
  cases t with
  | none => rfl
  | some t => rfl

/-- Whatever becomes of the access time and the location stamp. -/
theorem normal_timesKept (t : Timestamps) (access location : Option DateTime) :
    TimesKept t { t.normal with lastAccessTime := access, locationChanged := location } where
  creation := congrArg some (normalInstant_eq _)
  modification := congrArg some (normalInstant_eq _)
  expires := by simp [Timestamps.normal]
  expiry := rfl

theorem sortFields_perm (fields : List CustomField) : (sortFields fields).Perm fields :=
  List.perm_insertionSort _ _

theorem normal_versionKept (v : EntryVersion) : VersionKept v v.normal where
  title := rfl
  username := rfl
  password := rfl
  url := rfl
  notes := rfl
  iconId := rfl
  customIconUuid := rfl
  customFields := ((sortFields_perm _).append (sortFields_perm _)).trans
    (List.filter_append_perm (·.isProtected) v.customFields)
  attachments := by
    have hsort := List.perm_insertionSort (fun a b : Attachment => a.name ≤ b.name)
      (v.attachments.map (·.normal))
    have hnames := hsort.map fun a => (a.name, a.data)
    rw [List.map_map] at hnames
    exact hnames
  customData := List.perm_insertionSort _ _
  times := normal_timesKept v.times _ _
  access := congrArg some (normalInstant_eq _)

theorem normalRecord_versionKept (u : Uuid) (v : EntryVersion) : VersionKept v (v.normalRecord u) where
  title := rfl
  username := rfl
  password := rfl
  url := rfl
  notes := rfl
  iconId := rfl
  customIconUuid := rfl
  customFields := sortFields_perm v.customFields
  attachments := by
    unfold EntryVersion.normalRecord
    rw [List.map_map]
    exact List.Perm.refl _
  customData := List.Perm.refl _
  times := normal_timesKept v.times _ _
  access := congrArg some (normalInstant_eq _)

theorem normalTags_nodup (tags : List String) : (normalTags tags).Nodup :=
  (List.perm_insertionSort _ _).nodup_iff.2 (List.nodup_dedup _)

theorem mem_normalTags {tags : List String} {t : String} :
    t ∈ normalTags tags ↔ t ≠ "" ∧ ∃ raw ∈ tags, trim raw = t := by
  unfold normalTags sortStrings
  rw [List.mem_insertionSort, List.mem_dedup, List.mem_filter, List.mem_map, decide_eq_true_eq]
  exact And.comm

theorem normal_entryKept (e : Entry) : EntryKept e e.normal where
  id := rfl
  version := normal_versionKept e.toEntryVersion
  tagsNodup := normalTags_nodup e.tags
  tags := fun _ => mem_normalTags
  previousParent := rfl
  location := rfl
  history := by
    unfold Entry.normal
    rw [List.forall₂_map_right_iff, List.forall₂_same]
    intro v _
    exact ⟨normalRecord_versionKept e.id v, rfl⟩

theorem normal_groups (g : Group) : g.normal.groups = (orderKids g.groups).map Group.normal := by
  cases g with
  | node i es gs =>
    rw [Group.normal, normalAll_eq, orderKids_normal]
    rfl

theorem normal_groupKept (g : Group) : GroupKept g g.normal := by
  have hids : g.normal.groups.map (·.id) = (orderKids g.groups).map (·.id) := by
    rw [normal_groups, List.map_map]
    exact List.map_congr_left fun k _ => normal_id k
  have hperm : (g.normal.groups.map (·.id)).Perm (g.groups.map (·.id)) := by
    rw [hids]
    exact (orderKids_perm g.groups).map _
  have horder : g.groups.length ≤ 2 ^ 32 → g.normal.groups.map (·.id) = g.groups.map (·.id) := by
    intro h
    rw [hids, orderKids_of_le h]
  cases g with
  | node i es gs =>
    have hentries : List.Forall₂ EntryKept es (es.map (·.normal)) := by
      rw [List.forall₂_map_right_iff, List.forall₂_same]
      intro e _
      exact normal_entryKept e
    exact {
      id := rfl, name := rfl, notes := rfl, iconId := rfl, customIconUuid := rfl
      times := normal_timesKept i.times _ _
      location := rfl
      entries := hentries
      children := hperm
      order := horder }

/-! ## The nodes of a normal form -/

mutual

/-- The nodes of a tree in normal form are the normal forms of its nodes. -/
theorem normal_nodes_perm : ∀ g : Group, g.normal.nodes.Perm (g.nodes.map Group.normal)
  | .node i es gs => by
    have hkids : (Group.nodesAll (orderKids (Group.normalAll gs))).Perm
        ((Group.nodesAll gs).map Group.normal) :=
      (nodesAll_perm (orderKids_perm _)).trans (normal_nodesAll_perm gs)
    rw [Group.nodes, List.map_cons, Group.normal, Group.nodes]
    exact hkids.cons _

theorem normal_nodesAll_perm : ∀ gs : List Group,
    (Group.nodesAll (Group.normalAll gs)).Perm ((Group.nodesAll gs).map Group.normal)
  | [] => List.Perm.refl _
  | g :: gs => by
    rw [Group.normalAll, Group.nodesAll, Group.nodesAll, List.map_append]
    exact (normal_nodes_perm g).append (normal_nodesAll_perm gs)

end

theorem normal_vaultKept {v w : Vault} (h : w.root = v.root.normal) : VaultKept v w where
  root := by rw [h, normal_id]
  groups := by
    have hperm := (normal_nodes_perm v.root).map (·.id)
    rw [List.map_map] at hperm
    rw [h]
    exact hperm.trans (List.Perm.of_eq (List.map_congr_left fun g _ => normal_id g))
  kept := by
    intro g hg
    refine ⟨g.normal, ?_, normal_groupKept g⟩
    rw [h, (normal_nodes_perm v.root).mem_iff]
    exact List.mem_map_of_mem hg

/-! ## The mirror of a vault -/

/-- **What is ingested is projected with every group and every entry kept.** -/
theorem ingested_vault_kept {vault : Vault} {m m' : Mirror} {source : Source}
    (hstore : ∀ e ∈ vault.entries, e.Storable)
    (h : ingestVaultWithHeader vault source m = .ok m') :
    ∃ w, m'.project = .ok w ∧ VaultKept vault w :=
  ⟨_, project_ingested hstore h, normal_vaultKept rfl⟩

/-- A vault another client wrote: a group read since its last change, an entry that stopped expiring, one
that expires at no instant, one with a secret under the name of the password's slot, and a history
record that knows where the entry was. -/
def foreignVault : Vault where
  root :=
    let bank : Entry :=
      { id := 10, title := "Bank", times := { expires := false, expiryTime := some (.atSecond 100) }
        history := [{
          id := 10, previousParentGroup := some 1
          times := { locationChanged := some (.atSecond 30) } }] }
    let card : Entry := { id := 11, title := "Card", times := { expires := true } }
    let safe : Entry := { id := 12, title := "Safe", customFields := [⟨"Password", "0000", true⟩] }
    let home : GroupInfo :=
      { id := 2, name := "Home"
        times :=
          { lastModificationTime := some (.atSecond 20), lastAccessTime := some (.atSecond 50) } }
    .node { id := 1, name := "Root" } [] [.node home [bank, card, safe] []]

/-- The vault of the round trip has no such secret. -/
theorem ingested_vault_kept_ledger :
    let m' := ingested ledgerVault freshMirror
    ingestVaultWithHeader ledgerVault (.inMemory none) freshMirror = .ok m' ∧
      ∃ w, m'.project = .ok w ∧ VaultKept ledgerVault w := by
  intro m'
  have hrun : ingestVaultWithHeader ledgerVault (.inMemory none) freshMirror = .ok m' :=
    ingestVault_ingested (by decide +kernel)
  exact ⟨hrun, ingested_vault_kept (by decide +kernel) hrun⟩

/-- The expiry instant, the expiry flag, the secret, the place of the record and the access time above
do not come back. -/
theorem stored_vault_differs :
    let m' := ingested foreignVault freshMirror
    let w := view m'
    ingestVault foreignVault freshMirror = .ok m' ∧ m'.project = .ok w ∧
      (foreignVault.groups.map (·.info.id)).Nodup ∧ (foreignVault.entries.map (·.id)).Nodup ∧
      (∀ e ∈ foreignVault.entries, (e.customFields.map (·.key)).Nodup ∧
        (e.attachments.map (·.name)).Nodup ∧ ∀ v ∈ e.history, (v.customFields.map (·.key)).Nodup) ∧
      foreignVault.entries.map (·.times.expiryTime) = [some (.atSecond 100), none, none] ∧
      w.entries.map (·.times.expiryTime) = [none, none, none] ∧
      foreignVault.entries.map (·.times.expires) = [false, true, false] ∧
      w.entries.map (·.times.expires) = [false, false, false] ∧
      foreignVault.entries.map (·.customFields.map (·.value)) = [[], [], ["0000"]] ∧
      w.entries.map (·.customFields) = [[], [], []] ∧
      (foreignVault.entries.flatMap (·.history)).map (fun v =>
        (v.previousParentGroup, v.times.locationChanged)) = [(some 1, some (.atSecond 30))] ∧
      (w.entries.flatMap (·.history)).map (fun v =>
        (v.previousParentGroup, v.times.locationChanged)) = [(none, none)] ∧
      foreignVault.groups.map (·.info.times.lastAccessTime) = [none, some (.atSecond 50)] ∧
      w.groups.map (·.info.times.lastAccessTime) = [some (.atSecond 0), some (.atSecond 20)] := by
  intro m' w
  exact ⟨ingestVault_ingested (by decide +kernel), project_view (by decide +kernel), by decide +kernel,
    by decide +kernel, by decide +kernel, by decide +kernel, by decide +kernel, by decide +kernel,
    by decide +kernel, by decide +kernel, by decide +kernel, by decide +kernel, by decide +kernel,
    by decide +kernel, by decide +kernel⟩

end KeysCore.Verify
