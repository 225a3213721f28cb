import KeysCore.Verify.PullSucceeds

/-!
# When a full ingest goes through

`ingest_vault_with_header` inserts every row with a plain `INSERT`, so it returns exactly when no two
rows of a table share their key. Groups, entries and side rows of a vault have distinct keys; its lists
of deleted objects, custom icons and vault-level custom data need not. `ingest_tombstones_iff`: an
ingest succeeds, with the tombstones `tombstone_map` reads off the vault, exactly when these three lists
repeat no key.
-/

namespace KeysCore.Verify

open Lib

/-! ## Inserting the rows -/

/-- Rows go into an empty table exactly when no two share their key. -/
theorem insertAll_isOk {κ ρ : Type} [DecidableEq κ] {key : ρ → κ} {rows : List ρ} :
    (∃ T : Table key, insertAll rows = .ok T) ↔ (rows.map key).Nodup := by
  constructor
  · rintro ⟨T, hT⟩
    rw [← insertAll_rows hT]
    exact T.nodup
  · intro h
    have hstep : ∀ (r : ρ) (rest : List ρ) (T : Table key), (T.keys ++ (r :: rest).map key).Nodup →
        ∃ T' : Table key, insertStep T r = .ok T' ∧ (T'.keys ++ rest.map key).Nodup := by
      intro r rest T hnd
      cases hins : T.insert? r with
      | none =>
        have hmem := Table.insert?_eq_none.1 hins
        exact absurd rfl ((List.nodup_append.1 hnd).2.2 _ hmem _ (List.mem_cons_self ..))
      | some U =>
        refine ⟨U, insertStep_ok.2 hins, ?_⟩
        rw [Table.keys_insert hins, List.append_assoc]
        exact hnd
    obtain ⟨T, hT, -⟩ := foldlM_ok (fun rest (T : Table key) => (T.keys ++ rest.map key).Nodup) hstep
      (l := rows) (s := .empty) h
    exact ⟨T, hT⟩

theorem insertGroup_isOk {m : Mirror} {g : GroupRow} (hnew : g.uuid ∉ m.groups.keys)
    (hp : ∀ p ∈ g.parentUuid, p ∈ m.groups.keys) : ∃ m', m.insertGroup g = .ok m' := by
  unfold Mirror.insertGroup
  split
  · rename_i hT
    exact absurd (Table.insert?_eq_none.1 hT) hnew
  · rename_i T hT
    rw [dif_pos]
    · exact ⟨_, rfl⟩
    · intro p hpg
      rw [Table.keys_insert hT]
      exact List.mem_append_left _ (hp p hpg)

section Ingest

variable {vault : Vault}

/-- The walk of the groups goes through: no uuid stands twice and parents come first. -/
theorem insertGroups_ok {m : Mirror} {fs : List FlatGroup}
    (hnd : (m.groups.keys ++ fs.map (·.info.id)).Nodup) (hp : ParentsFirst (· ∈ m.groups.keys) fs) :
    ∃ m', fs.foldlM (fun (m : Mirror) f => m.insertGroup (ingestedRow vault f)) m = .ok m' := by
  have hstep : ∀ (f : FlatGroup) (fs : List FlatGroup) (m : Mirror),
      (m.groups.keys ++ (f :: fs).map (·.info.id)).Nodup ∧ ParentsFirst (· ∈ m.groups.keys) (f :: fs) →
        ∃ m', m.insertGroup (ingestedRow vault f) = .ok m' ∧
          (m'.groups.keys ++ fs.map (·.info.id)).Nodup ∧ ParentsFirst (· ∈ m'.groups.keys) fs := by
    rintro f fs m ⟨hnd, ⟨p, hparent, hpk⟩, hrest⟩
    have hnew : f.info.id ∉ m.groups.keys := fun hmem =>
      (List.nodup_append.1 hnd).2.2 _ hmem _ (List.mem_cons_self ..) rfl
    obtain ⟨m', hm'⟩ := insertGroup_isOk (g := ingestedRow vault f) hnew (by
      intro q hq
      rw [show (ingestedRow vault f).parentUuid = f.parent from rfl, hparent] at hq
      exact Option.some.inj hq ▸ hpk)
    have hkeys : m'.groups.keys = m.groups.keys ++ [f.info.id] := by
      rw [Table.keys, (insertGroup_rows hm').1, List.map_append]
      rfl
    refine ⟨m', hm', ?_, ?_⟩
    · rw [hkeys, List.append_assoc]
      exact hnd
    · refine hrest.mono fun x hx => ?_
      rw [hkeys, List.mem_append, List.mem_singleton]
      exact hx
  obtain ⟨m', hm', -⟩ := foldlM_ok (fun fs (m : Mirror) =>
    (m.groups.keys ++ fs.map (·.info.id)).Nodup ∧ ParentsFirst (· ∈ m.groups.keys) fs) hstep ⟨hnd, hp⟩
  exact ⟨m', hm'⟩

/-- The walk of the entries goes through. -/
theorem insertEntries_ok {m : Mirror} {ps : List (Entry × Uuid × Bool)}
    (hnd : (m.entries.keys ++ ps.map (·.1.id)).Nodup)
    (hps : ∀ p ∈ ps, p.2.1 ∈ m.groups.keys ∧ p.1.SideKeys) :
    ∃ m', ps.foldlM (fun (m : Mirror) p => m.insertEntry p.1 p.2.1 p.2.2) m = .ok m' := by
  have hstep : ∀ (p : Entry × Uuid × Bool) (ps : List (Entry × Uuid × Bool)) (m : Mirror),
      (m.entries.keys ++ (p :: ps).map (·.1.id)).Nodup ∧
        (∀ q ∈ p :: ps, q.2.1 ∈ m.groups.keys ∧ q.1.SideKeys) →
        ∃ m', m.insertEntry p.1 p.2.1 p.2.2 = .ok m' ∧ (m'.entries.keys ++ ps.map (·.1.id)).Nodup ∧
          ∀ q ∈ ps, q.2.1 ∈ m'.groups.keys ∧ q.1.SideKeys := by
    rintro p ps m ⟨hnd, hps⟩
    have hnew : p.1.id ∉ m.entries.keys := fun hmem =>
      (List.nodup_append.1 hnd).2.2 _ hmem _ (List.mem_cons_self ..) rfl
    obtain ⟨hg, hkeys⟩ := hps p (List.mem_cons_self ..)
    obtain ⟨m', hm'⟩ := insertEntry_ok (b := p.2.2) hnew hg hkeys
    obtain ⟨hrows, hgroups⟩ := insertEntry_rows hm'
    refine ⟨m', hm', ?_, ?_⟩
    · rw [Table.keys, hrows, List.map_append, List.append_assoc]
      exact hnd
    · intro q hq
      rw [hgroups]
      exact hps q (List.mem_cons_of_mem _ hq)
  obtain ⟨m', hm', -⟩ := foldlM_ok (fun (ps : List (Entry × Uuid × Bool)) (m : Mirror) =>
    (m.entries.keys ++ ps.map (·.1.id)).Nodup ∧ ∀ q ∈ ps, q.2.1 ∈ m.groups.keys ∧ q.1.SideKeys) hstep
    ⟨hnd, hps⟩
  exact ⟨m', hm'⟩

/-- **The tree of a vault is written** when its groups and its entries have distinct uuids and each
entry distinct keys. -/
theorem writeTree_ok {m : Mirror} (hgroups : m.groups.rows = []) (hentries : m.entries.rows = [])
    (hgnd : (vault.root.nodes.map (·.id)).Nodup) (hend : (vault.entries.map (·.id)).Nodup)
    (hkeys : ∀ e ∈ vault.entries, e.SideKeys) : ∃ m', m.writeTree vault = .ok m' := by
  -- the root has no parent; its subtrees are walked with their parents first
  have hids : (vault.groups.map (·.info.id)).Nodup := by
    rw [groups_ids]
    exact hgnd
  obtain ⟨i, es, gs, hroot⟩ : ∃ i es gs, vault.root = .node i es gs := by
    cases vault.root with
    | node i es gs => exact ⟨i, es, gs, rfl⟩
  have hcollect : vault.groups = ⟨i, es, none, 0⟩ :: Group.collectAll i.id 0 gs := by
    unfold Vault.groups
    rw [hroot]
    rfl
  have hnokeys : m.groups.keys = [] := by rw [Table.keys, hgroups]; rfl
  obtain ⟨a, ha⟩ := insertGroup_isOk (m := m) (g := ingestedRow vault ⟨i, es, none, 0⟩)
    (by rw [hnokeys]; exact List.not_mem_nil) (by intro p hp; cases hp)
  have hakeys : a.groups.keys = [i.id] := by
    rw [Table.keys, (insertGroup_rows ha).1, hgroups]
    rfl
  have hfirst : ParentsFirst (· ∈ a.groups.keys) (Group.collectAll i.id 0 gs) := by
    rw [hakeys]
    exact parentsFirst_collectAll (List.mem_singleton.2 rfl) 0 gs
  have hfresh : (a.groups.keys ++ (Group.collectAll i.id 0 gs).map (·.info.id)).Nodup := by
    rw [hcollect] at hids
    rw [hakeys]
    exact hids
  obtain ⟨b, hb⟩ := insertGroups_ok hfresh hfirst
  have hwalk : vault.groups.foldlM (fun (m : Mirror) f => m.insertGroup (ingestedRow vault f)) m =
      .ok b := by
    rw [hcollect, List.foldlM_cons, ha]
    exact hb
  -- the entries come after every group
  have hbkeys : b.groups.keys = vault.groups.map (·.info.id) := by
    have hrows := insertGroups_rows hwalk
    rw [Table.keys, hrows.1, hgroups, List.nil_append, List.map_map]
    rfl
  have hwalked : (vault.root.placed vault.metadata.recycleBinUuid false).map (fun e => (e.1, e.2.1)) =
      vault.entriesWithParent := placed_collect _ false none 0 vault.root
  have hplaced : ∀ p ∈ vault.root.placed vault.metadata.recycleBinUuid false,
      p.2.1 ∈ b.groups.keys ∧ p.1.SideKeys := by
    intro p hp
    have hmem : (p.1, p.2.1) ∈ vault.entriesWithParent := by
      rw [← hwalked]
      exact List.mem_map.2 ⟨p, hp, rfl⟩
    obtain ⟨f, hf, hmem⟩ := List.mem_flatMap.1 hmem
    obtain ⟨e, he, e'⟩ := List.mem_map.1 hmem
    obtain ⟨hpe, hg⟩ := Prod.mk.inj e'
    rw [hbkeys, ← hg, ← hpe]
    exact ⟨List.mem_map_of_mem hf, hkeys e (List.mem_flatMap.2 ⟨f, hf, he⟩)⟩
  have hnew : (b.entries.keys ++
      (vault.root.placed vault.metadata.recycleBinUuid false).map (·.1.id)).Nodup := by
    have hsame : (vault.root.placed vault.metadata.recycleBinUuid false).map (·.1.id) =
        vault.entries.map (·.id) := by
      rw [← entriesWithParent_map_fst, ← hwalked, List.map_map, List.map_map]
      rfl
    rw [Table.keys, (insertGroups_rows hwalk).2, hentries, hsame]
    exact hend
  obtain ⟨m', hm'⟩ := insertEntries_ok hnew hplaced
  refine ⟨m', ?_⟩
  unfold Mirror.writeTree
  exact except_bind_ok.2 ⟨b, hwalk, hm'⟩

/-- `write_meta` and `write_deleted_objects` go through exactly when no list repeats a key. -/
theorem writeMeta_isOk {m : Mirror} : (∃ m', m.writeMeta vault = .ok m') ↔
    (vault.metadata.customIcons.map (·.uuid)).Nodup ∧ (vault.metadata.customData.map (·.key)).Nodup ∧
      (vault.deletedObjects.map (·.uuid)).Nodup := by
  constructor
  · rintro ⟨m', h⟩
    obtain ⟨hw, -⟩ := writeMeta_written h
    have hicons := m'.settings.customIcons.nodup
    have hdata := m'.settings.customData.nodup
    have htomb := m'.tombstones.nodup
    rw [hw.icons, List.map_map] at hicons
    rw [hw.data, List.map_map] at hdata
    rw [hw.tombstones, List.map_map] at htomb
    exact ⟨hicons, hdata, htomb⟩
  · rintro ⟨hicons, hdata, htomb⟩
    have hi : ∃ T : Table CustomIconRow.uuid,
        insertAll (vault.metadata.customIcons.map (·.toRow)) = .ok T :=
      insertAll_isOk.2 (by rw [List.map_map]; exact hicons)
    have hd : ∃ T : Table CustomDataRow.key,
        insertAll (vault.metadata.customData.map (·.toRow)) = .ok T :=
      insertAll_isOk.2 (by rw [List.map_map]; exact hdata)
    have ht : ∃ T : Table TombstoneRow.uuid, insertAll (vault.deletedObjects.map (·.toRow)) = .ok T :=
      insertAll_isOk.2 (by rw [List.map_map]; exact htomb)
    obtain ⟨icons, hicons⟩ := hi
    obtain ⟨data, hdata⟩ := hd
    obtain ⟨tombstones, htomb⟩ := ht
    unfold Mirror.writeMeta
    rw [hicons, hdata, htomb]
    exact ⟨_, rfl⟩

/-- The guard of an ingest lets the vault in: a vault read from its file meets a mirror that owes no
write, a projected one the mirror it was projected from. -/
def Admits (source : Source) (m : Mirror) : Prop :=
  match source with
  | .vaultFile _ => m.isDirty = false
  | .inMemory projectedAtSeq => projectedAtSeq.isSome → projectedAtSeq = some m.mutationSeq

/-- An ingest the guard lets in returns when the meta and the tree are written. -/
theorem ingestVaultWithHeader_ok {source : Source} {m a b : Mirror} (hs : Admits source m)
    (ha : m.cleared.writeMeta vault = .ok a) (hb : a.writeTree vault = .ok b) :
    ∃ m', ingestVaultWithHeader vault source m = .ok m' := by
  unfold ingestVaultWithHeader
  cases source with
  | vaultFile settles =>
    have hclean : m.isDirty = false := hs
    rw [hclean, ha]
    cases settles with
    | false => exact ⟨b, by simp [hb, bind, Except.bind, pure, Except.pure]⟩
    | true => exact ⟨{ b with persistedSeq := b.mutationSeq }, by
        simp [hb, bind, Except.bind, pure, Except.pure]⟩
  | inMemory seq =>
    have hseq : ¬ (seq.isSome ∧ seq ≠ some m.mutationSeq) := fun h => h.2 (hs h.1)
    refine ⟨b, ?_⟩
    dsimp only
    rw [if_neg hseq, ha]
    exact hb

/-! ## The tombstones of an ingested vault -/

/-- The vault went into the mirror with the tombstones `tombstone_map` computes for it. -/
def IngestsTombstones (vault : Vault) (source : Source) (m : Mirror) : Prop :=
  ∃ m', ingestVaultWithHeader vault source m = .ok m' ∧
    ∀ u, m'.tombstones.find? u = (tombstoneTime vault.deletedObjects u).map fun t =>
      ⟨u, t.map (·.timestampMillis)⟩

/-- The rows written for a list without repetitions are the map read off it. -/
theorem MetaWritten.tombstone {m' : Mirror} (h : MetaWritten vault m') (u : Uuid) :
    m'.tombstones.find? u = (tombstoneTime vault.deletedObjects u).map fun t =>
      ⟨u, t.map (·.timestampMillis)⟩ := by
  have hnd : (vault.deletedObjects.map (·.uuid)).Nodup := by
    have := m'.tombstones.nodup
    rwa [h.tombstones, List.map_map] at this
  rw [tombstoneTime_of_nodup hnd, Table.find?, h.tombstones, List.find?_map, Option.map_map]
  show (vault.deletedObjects.find? (·.uuid = u)).map _ = _
  cases hfind : vault.deletedObjects.find? (·.uuid = u) with
  | none => rfl
  | some d =>
    have hd : d.uuid = u := by simpa using List.find?_some hfind
    rw [Option.map_some, Option.map_some, ← hd]
    rfl

/-- **A full ingest succeeds with the tombstones of the peer path** exactly when the deleted objects,
the custom icons and the vault-level custom data repeat no key. -/
theorem ingest_tombstones_iff {source : Source} {m : Mirror} (hs : Admits source m)
    (hgnd : (vault.root.nodes.map (·.id)).Nodup) (hend : (vault.entries.map (·.id)).Nodup)
    (hkeys : ∀ e ∈ vault.entries, e.SideKeys) :
    IngestsTombstones vault source m ↔ (vault.deletedObjects.map (·.uuid)).Nodup ∧
      (vault.metadata.customIcons.map (·.uuid)).Nodup ∧ (vault.metadata.customData.map (·.key)).Nodup := by
  constructor
  · rintro ⟨m', h, -⟩
    obtain ⟨a, -, ha, -⟩ := ingestVaultWithHeader_stages h
    obtain ⟨hicons, hdata, htomb⟩ := writeMeta_isOk.1 ⟨a, ha⟩
    exact ⟨htomb, hicons, hdata⟩
  · rintro ⟨htomb, hicons, hdata⟩
    obtain ⟨a, ha⟩ := writeMeta_isOk (m := m.cleared).2 ⟨hicons, hdata, htomb⟩
    obtain ⟨-, hg, he, -⟩ := writeMeta_written ha
    obtain ⟨b, hb⟩ := writeTree_ok (by rw [hg]; rfl) (by rw [he]; rfl) hgnd hend hkeys
    obtain ⟨m', hm'⟩ := ingestVaultWithHeader_ok hs ha hb
    exact ⟨m', hm', (ingestVaultWithHeader_meta hm').1.tombstone⟩

end Ingest

/-! ## A list with a repetition -/

/-- A vault of one group and entry `9`, with the given deleted objects. -/
def deletedVault (deleted : List DeletedObject) : Vault where
  root := .node { id := 1, name := "root" } [{ id := 9, title := "mail" }] []
  metadata := {}
  deletedObjects := deleted

theorem no_groups_fkParent : ∀ g ∈ (Table.empty : Table GroupRow.uuid).rows,
    ∀ p ∈ g.parentUuid, p ∈ (Table.empty : Table GroupRow.uuid).keys := by
  simp [Table.empty]

theorem no_groups_fkGroup : ∀ e ∈ (Table.empty : Table EntryRow.uuid).rows,
    e.groupUuid ∈ (Table.empty : Table GroupRow.uuid).keys := by
  simp [Table.empty]

/-- The empty mirror a vault is opened into. -/
def freshMirror : Mirror where
  groups := .empty
  fkParent := no_groups_fkParent
  fkGroup := no_groups_fkGroup

/-- Two deletions, one of them undated. -/
theorem ingest_tombstones_two :
    IngestsTombstones (deletedVault [⟨7, some (.atSecond 100)⟩, ⟨8, none⟩]) (.vaultFile true)
      freshMirror := by
  have hs : Admits (.vaultFile true) freshMirror := rfl
  exact (ingest_tombstones_iff hs (by decide) (by decide) (by decide)).2 (by decide)

/-- A uuid listed twice: the peer path reads the earlier time, the full ingest fails. -/
theorem repeated_tombstone_stops_ingest :
    let vault := deletedVault [⟨7, some (.atSecond 200)⟩, ⟨7, some (.atSecond 100)⟩]
    Admits (.vaultFile true) freshMirror ∧ (vault.root.nodes.map (·.id)).Nodup ∧
      (vault.entries.map (·.id)).Nodup ∧ (∀ e ∈ vault.entries, e.SideKeys) ∧
      tombstoneTime vault.deletedObjects 7 = some (some (.atSecond 100)) ∧
      ¬ IngestsTombstones vault (.vaultFile true) freshMirror := by
  intro vault
  refine ⟨rfl, by decide, by decide, by decide, by decide, ?_⟩
  rintro ⟨m', h, -⟩
  have herr : (ingestVaultWithHeader vault (.vaultFile true) freshMirror).isOk = false := by
    decide +kernel
  rw [h] at herr
  cases herr

end KeysCore.Verify
