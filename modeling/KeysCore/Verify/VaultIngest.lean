import KeysCore.Verify.PeerPull

/-!
# What ingesting a vault leaves

`ingest_vault_with_header` clears the tables and fills them from the vault, the meta first and the tree
after it. The settings, the tombstones and the parked conflicts it leaves are read off here
(`ingestVaultWithHeader_meta`).
-/

namespace KeysCore.Verify

open Lib

/-- One row of `insertAll`. -/
def insertStep {κ ρ : Type} [DecidableEq κ] {key : ρ → κ} (T : Table key) (r : ρ) :
    Except EngineError (Table key) :=
  match T.insert? r with
  | none => .error (.sqlite .constraintPrimaryKey)
  | some T' => .ok T'

theorem insertStep_ok {κ ρ : Type} [DecidableEq κ] {key : ρ → κ} {T T' : Table key} {r : ρ} :
    insertStep T r = .ok T' ↔ T.insert? r = some T' := by
  unfold insertStep
  cases T.insert? r <;> simp

/-- Rows inserted into an empty table are its rows. -/
theorem insertAll_rows {κ ρ : Type} [DecidableEq κ] {key : ρ → κ} {rows : List ρ} {T : Table key}
    (h : insertAll rows = .ok T) : T.rows = rows := by
  have hfold : ∀ (rows : List ρ) (S : Table key), rows.foldlM insertStep S = .ok T →
      T.rows = S.rows ++ rows := by
    intro rows
    induction rows with
    | nil =>
      intro S h
      obtain rfl := Except.ok.inj h
      simp
    | cons r rows ih =>
      intro S h
      rw [List.foldlM_cons] at h
      obtain ⟨S', hS', h⟩ := except_bind_ok.1 h
      rw [ih S' h, (Table.insert?_eq_some.1 (insertStep_ok.1 hS')).2, List.append_assoc,
        List.singleton_append]
  exact (hfold rows .empty h).trans (List.nil_append _)

/-- The tables outside groups and entries are the same. -/
structure SameButTree (m m' : Mirror) : Prop where
  settings : m'.settings = m.settings
  tombstones : m'.tombstones = m.tombstones
  conflicts : m'.conflicts = m.conflicts

theorem SameButTree.refl (m : Mirror) : SameButTree m m := ⟨rfl, rfl, rfl⟩

theorem SameButTree.trans {a b c : Mirror} (h : SameButTree a b) (h' : SameButTree b c) :
    SameButTree a c :=
  ⟨h'.settings.trans h.settings, h'.tombstones.trans h.tombstones, h'.conflicts.trans h.conflicts⟩

/-! ## The tree -/

mutual

/-- The position the walk gives a group fits a `u32`. -/
theorem collect_sortOrder (p : Option Uuid) (s : Nat) (hs : s < 2 ^ 32) : ∀ g : Group,
    ∀ f ∈ g.collect p s, f.sortOrder < 2 ^ 32
  | .node i es gs, f, hf => by
    rw [Group.collect] at hf
    rcases List.mem_cons.1 hf with rfl | hf
    · exact hs
    · exact collectAll_sortOrder i.id 0 gs f hf

theorem collectAll_sortOrder (q : Uuid) (idx : Nat) : ∀ gs : List Group,
    ∀ f ∈ Group.collectAll q idx gs, f.sortOrder < 2 ^ 32
  | [], f, hf => by cases hf
  | g :: gs, f, hf => by
    rw [Group.collectAll] at hf
    rcases List.mem_append.1 hf with hf | hf
    · exact collect_sortOrder (some q) _ (by unfold positionU32; omega) g f hf
    · exact collectAll_sortOrder q (idx + 1) gs f hf

end

section Ingest

variable {m m' a : Mirror} {vault : Vault}

theorem writeTree_sameButTree (h : m.writeTree vault = .ok m') : SameButTree m m' := by
  unfold Mirror.writeTree at h
  obtain ⟨b, hb, h⟩ := except_bind_ok.1 h
  have hgroups := foldlM_rel SameButTree.refl SameButTree.trans (fun _ _ _ _ hs =>
    ⟨(insertGroup_same hs).settings, (insertGroup_same hs).tombstones,
      (insertGroup_same hs).conflicts⟩) hb
  have hentries := foldlM_rel SameButTree.refl SameButTree.trans (fun _ _ _ _ hs =>
    ⟨(insertEntry_row hs).1.settings, (insertEntry_row hs).1.tombstones,
      (insertEntry_row hs).1.conflicts⟩) h
  exact hgroups.trans hentries

/-- The row of a group, flagged when it is the bin of the vault. -/
def ingestedRow (vault : Vault) (f : FlatGroup) : GroupRow :=
  { f.toRow with isRecycleBin := vault.metadata.recycleBinUuid = some f.info.id }

theorem insertGroup_rows {g : GroupRow} (h : m.insertGroup g = .ok m') :
    m'.groups.rows = m.groups.rows ++ [g] ∧ m'.entries = m.entries := by
  unfold Mirror.insertGroup at h
  split at h
  · cases h
  · rename_i T hT
    split at h
    · obtain rfl := Except.ok.inj h
      exact ⟨(Table.insert?_eq_some.1 hT).2, rfl⟩
    · cases h

theorem insertEntry_rows {e : Entry} {g : Uuid} {b : Bool} (h : m.insertEntry e g b = .ok m') :
    m'.entries.rows = m.entries.rows ++ [e.toRow g b] ∧ m'.groups = m.groups := by
  unfold Mirror.insertEntry at h
  obtain ⟨m₁, h₁, h⟩ := except_bind_ok.1 h
  have hm : m₁ = m' := by
    split at h
    · exact Except.ok.inj h
    · cases h
  subst hm
  unfold Mirror.insertEntryRow at h₁
  split at h₁
  · cases h₁
  · rename_i T hT
    split at h₁
    · obtain rfl := Except.ok.inj h₁
      exact ⟨(Table.insert?_eq_some.1 hT).2, rfl⟩
    · cases h₁

theorem insertGroups_rows {fs : List FlatGroup}
    (h : fs.foldlM (fun (m : Mirror) f => m.insertGroup (ingestedRow vault f)) m = .ok m') :
    m'.groups.rows = m.groups.rows ++ fs.map (ingestedRow vault) ∧ m'.entries = m.entries := by
  induction fs generalizing m with
  | nil =>
    obtain rfl := Except.ok.inj h
    simp
  | cons f fs ih =>
    rw [List.foldlM_cons] at h
    obtain ⟨mid, hmid, h⟩ := except_bind_ok.1 h
    obtain ⟨hg, he⟩ := insertGroup_rows hmid
    obtain ⟨hg', he'⟩ := ih h
    refine ⟨?_, he'.trans he⟩
    rw [hg', hg, List.append_assoc]
    rfl

theorem insertEntries_rows {ps : List (Entry × Uuid × Bool)}
    (h : ps.foldlM (fun (m : Mirror) p => m.insertEntry p.1 p.2.1 p.2.2) m = .ok m') :
    m'.entries.rows = m.entries.rows ++ ps.map (fun p => p.1.toRow p.2.1 p.2.2) ∧
      m'.groups = m.groups := by
  induction ps generalizing m with
  | nil =>
    obtain rfl := Except.ok.inj h
    simp
  | cons p ps ih =>
    rw [List.foldlM_cons] at h
    obtain ⟨mid, hmid, h⟩ := except_bind_ok.1 h
    obtain ⟨he, hg⟩ := insertEntry_rows hmid
    obtain ⟨he', hg'⟩ := ih h
    refine ⟨?_, hg'.trans hg⟩
    rw [he', he, List.append_assoc]
    rfl

/-- **The tree is written row by row, in the order of the walk.** -/
theorem writeTree_rows (hgroups : m.groups.rows = []) (hentries : m.entries.rows = [])
    (h : m.writeTree vault = .ok m') :
    m'.groups.rows = vault.groups.map (ingestedRow vault) ∧
      m'.entries.rows = (vault.root.placed vault.metadata.recycleBinUuid false).map fun p =>
        p.1.toRow p.2.1 p.2.2 := by
  unfold Mirror.writeTree at h
  obtain ⟨b, hb, h⟩ := except_bind_ok.1 h
  obtain ⟨hg, he⟩ := insertGroups_rows hb
  obtain ⟨he', hg'⟩ := insertEntries_rows h
  rw [hgroups, List.nil_append] at hg
  rw [he, hentries, List.nil_append] at he'
  exact ⟨hg' ▸ hg, he'⟩

/-- What `write_meta` leaves in the tables of `<Meta>`. -/
structure MetaWritten (vault : Vault) (m' : Mirror) : Prop where
  settings : m'.settings = vault.metadata.toSettings m'.settings.customIcons m'.settings.customData
  icons : m'.settings.customIcons.rows = vault.metadata.customIcons.map (·.toRow)
  data : m'.settings.customData.rows = vault.metadata.customData.map (·.toRow)
  tombstones : m'.tombstones.rows = vault.deletedObjects.map (·.toRow)

theorem writeMeta_written (h : m.writeMeta vault = .ok a) :
    MetaWritten vault a ∧ a.groups = m.groups ∧ a.entries = m.entries ∧ a.conflicts = m.conflicts := by
  unfold Mirror.writeMeta at h
  obtain ⟨icons, hicons, h⟩ := except_bind_ok.1 h
  obtain ⟨data, hdata, h⟩ := except_bind_ok.1 h
  obtain ⟨tombstones, htomb, h⟩ := except_bind_ok.1 h
  obtain rfl := Except.ok.inj h
  exact ⟨⟨rfl, insertAll_rows hicons, insertAll_rows hdata, insertAll_rows htomb⟩, rfl, rfl, rfl⟩

/-- **The stages of an ingest that returned.** -/
theorem ingestVaultWithHeader_stages {source : Source}
    (h : ingestVaultWithHeader vault source m = .ok m') :
    ∃ a b, m.cleared.writeMeta vault = .ok a ∧ a.writeTree vault = .ok b ∧ m'.groups = b.groups ∧
      m'.entries = b.entries ∧ SameButTree b m' := by
  unfold ingestVaultWithHeader at h
  split at h
  · split at h
    · cases h
    · obtain ⟨a, ha, h⟩ := except_bind_ok.1 h
      obtain ⟨b, hb, h⟩ := except_bind_ok.1 h
      split at h
      · obtain rfl := Except.ok.inj h
        exact ⟨a, b, ha, hb, rfl, rfl, rfl, rfl, rfl⟩
      · obtain rfl := Except.ok.inj h
        exact ⟨a, b, ha, hb, rfl, rfl, .refl b⟩
  · split at h
    · cases h
    · obtain ⟨a, ha, h⟩ := except_bind_ok.1 h
      exact ⟨a, m', ha, h, rfl, rfl, .refl m'⟩

/-- **An ingest leaves the meta of the vault, and the parked conflicts as they were.** -/
theorem ingestVaultWithHeader_meta {source : Source}
    (h : ingestVaultWithHeader vault source m = .ok m') :
    MetaWritten vault m' ∧ m'.conflicts = m.conflicts := by
  obtain ⟨a, b, ha, hb, -, -, hsame⟩ := ingestVaultWithHeader_stages h
  obtain ⟨hwritten, -, -, hconf⟩ := writeMeta_written ha
  have htree := (writeTree_sameButTree hb).trans hsame
  refine ⟨⟨?_, ?_, ?_, ?_⟩, htree.conflicts.trans hconf⟩
  · rw [htree.settings]
    exact hwritten.settings
  · rw [htree.settings]
    exact hwritten.icons
  · rw [htree.settings]
    exact hwritten.data
  · rw [htree.tombstones]
    exact hwritten.tombstones

/-- **An ingest leaves the groups and entries of the vault.** -/
theorem ingestVaultWithHeader_tree {source : Source}
    (h : ingestVaultWithHeader vault source m = .ok m') :
    m'.groups.rows = vault.groups.map (ingestedRow vault) ∧
      m'.entries.rows = (vault.root.placed vault.metadata.recycleBinUuid false).map fun p =>
        p.1.toRow p.2.1 p.2.2 := by
  obtain ⟨a, b, ha, hb, hg, he, -⟩ := ingestVaultWithHeader_stages h
  obtain ⟨-, hga, hea, -⟩ := writeMeta_written ha
  rw [hg, he]
  exact writeTree_rows (by rw [hga]; rfl) (by rw [hea]; rfl) hb

end Ingest

end KeysCore.Verify
