import KeysCore.Verify.EngineOps
import KeysCore.Verify.FieldMerge
import KeysCore.Verify.PeerPull
import KeysCore.Verify.RowKeys
import KeysCore.Verify.StructuralRuns
import KeysCore.Verify.Subtrees
import KeysCore.Verify.VaultIngest

/-!
# The recycled flag of a placed entry

Each operation that places an entry writes its `is_recycled` column in a way of its own: a constant
(`create_entry`, `restore_entry`, the additions of `ingest_peer`), the walk up from the destination
(`move_entry`, `reconcile_entry_location`), a flag carried down the tree (`ingest_vault_with_header`).
`placed_flag_iff`: when the column agrees with `group_in_bin_subtree` once the operation has committed.

For a pull the mirror is followed from the reconciled groups on. The walk over the peer's entries leaves
the groups alone, the group pass deletes no group that is above one left (the foreign keys see to it),
and the last pass moves the bin pointer. So the final walk from a group is the walk in the reconciled
groups to the bin of the merged meta (`ingestPeer_placed`).
-/

namespace KeysCore.Verify

open Lib Lib.Forest

/-! ## The bin pointer -/

/-- Is `u` a group flagged as the bin? -/
def binFlag (m : Mirror) (u : Uuid) : Bool := (m.groups.find? u).any (·.isRecycleBin)

theorem binFlag_iff {m : Mirror} {u : Uuid} :
    binFlag m u = true ↔ ∃ g ∈ m.groups.rows, g.uuid = u ∧ g.isRecycleBin = true := by
  unfold binFlag
  constructor
  · intro h
    cases hg : m.groups.find? u with
    | none => simp [hg] at h
    | some g => exact ⟨g, Table.find?_mem hg, Table.find?_key hg, by simpa [hg] using h⟩
  · rintro ⟨g, hg, rfl, hflag⟩
    rw [Table.find?_of_mem hg]
    exact hflag

theorem binFlag_mem {m : Mirror} {u : Uuid} (h : binFlag m u = true) : u ∈ m.groups.keys := by
  obtain ⟨g, hg, rfl, -⟩ := binFlag_iff.1 h
  exact Table.key_mem hg

/-- With one bin the pointer is the flag. -/
theorem recycleBinUuid_iff {m : Mirror} (hone : OneBin m) {u : Uuid} :
    m.recycleBinUuid = some u ↔ binFlag m u = true := by
  rw [binFlag_iff]
  constructor
  · intro h
    obtain ⟨g, hg, hflag, hu⟩ := recycleBinUuid_some h
    exact ⟨g, hg, hu, hflag⟩
  · rintro ⟨g, hg, rfl, hflag⟩
    cases hbin : m.recycleBinUuid with
    | none =>
      rw [recycleBinUuid_none hbin g hg] at hflag
      cases hflag
    | some b =>
      obtain ⟨c, hc, hcflag, rfl⟩ := recycleBinUuid_some hbin
      rw [hone c hc g hg hcflag hflag]

/-- No group is flagged but perhaps `bin`. -/
def BinIs (m : Mirror) (bin : Option Uuid) : Prop :=
  ∀ u, binFlag m u = true ↔ u ∈ m.groups.keys ∧ bin = some u

theorem BinIs.oneBin {m : Mirror} {bin : Option Uuid} (h : BinIs m bin) : OneBin m := by
  intro a ha b hb haflag hbflag
  have hau := ((h a.uuid).1 (binFlag_iff.2 ⟨a, ha, rfl, haflag⟩)).2
  have hbu := ((h b.uuid).1 (binFlag_iff.2 ⟨b, hb, rfl, hbflag⟩)).2
  exact Table.eq_of_key ha hb (Option.some.inj (hau.symm.trans hbu))

/-- Does the walk of `group_in_bin_subtree` from `g` meet `bin`? -/
def walksTo (m : Mirror) (bin : Option Uuid) (g : Uuid) : Bool :=
  bin.any fun b => m.binWalk b 10000 (some g)

theorem walksTo_iff {m : Mirror} {bin : Option Uuid} {g : Uuid} :
    walksTo m bin g = true ↔ ∃ b, bin = some b ∧ ∃ k < 10000, up m.parentOf k g = some b := by
  cases bin with
  | none => simp [walksTo]
  | some b => simp [walksTo, binWalk_iff]

theorem groupInBinSubtree_eq (m : Mirror) (g : Uuid) :
    m.groupInBinSubtree g = walksTo m m.recycleBinUuid g := by
  unfold Mirror.groupInBinSubtree walksTo
  cases m.recycleBinUuid <;> rfl

theorem groupInBinSubtree_bin {m : Mirror} {bin : Uuid} (h : m.recycleBinUuid = some bin) :
    m.groupInBinSubtree bin = true := by
  rw [groupInBinSubtree_eq, walksTo_iff]
  exact ⟨bin, h, 0, by omega, rfl⟩

theorem groupInBinSubtree_congr {m m' : Mirror} (h : m'.groups = m.groups) (g : Uuid) :
    m'.groupInBinSubtree g = m.groupInBinSubtree g := by
  have hbin : m'.recycleBinUuid = m.recycleBinUuid := by rw [Mirror.recycleBinUuid, h]; rfl
  unfold Mirror.groupInBinSubtree
  rw [hbin]
  cases m.recycleBinUuid with
  | none => rfl
  | some bin => exact binWalk_congr h bin 10000 (some g)

/-- A mirror whose groups are some of another's, each under the parent it has there. -/
def PartOf (m' m : Mirror) : Prop := ∀ u ∈ m'.groups.keys, m'.parentOf u = m.parentOf u

/-- The foreign keys keep every group above one that is left. -/
theorem PartOf.up_eq {m m' : Mirror} (h : PartOf m' m) (k : Nat) {g : Uuid}
    (hg : g ∈ m'.groups.keys) : up m'.parentOf k g = up m.parentOf k g := by
  refine (up_eq_of_closed (Q := (· ∈ m'.groups.keys)) ?_ (fun x hx => (h x hx).symm) k hg).symm
  intro x p _ hp
  exact (mem_keys_of_parentOf hp).2

/-- The bin subtree of part of the groups is the subtree of its bin in the whole. -/
theorem PartOf.inBin {m m' : Mirror} {bin : Option Uuid} (h : PartOf m' m) (hbin : BinIs m' bin)
    {g : Uuid} (hg : g ∈ m'.groups.keys) : m'.groupInBinSubtree g = walksTo m bin g := by
  rw [Bool.eq_iff_iff, groupInBinSubtree_eq, walksTo_iff, walksTo_iff]
  constructor
  · rintro ⟨b, hb, k, hk, hup⟩
    rw [recycleBinUuid_iff hbin.oneBin] at hb
    exact ⟨b, ((hbin b).1 hb).2, k, hk, (h.up_eq k hg).symm.trans hup⟩
  · rintro ⟨b, hb, k, hk, hup⟩
    rw [← h.up_eq k hg] at hup
    refine ⟨b, ?_, k, hk, hup⟩
    rw [recycleBinUuid_iff hbin.oneBin]
    exact (hbin b).2 ⟨up_parentOf_mem hg hup, hb⟩

/-! ## The groups of a pull -/

/-- The same groups are flagged. -/
def SameFlags (m m' : Mirror) : Prop := ∀ u, binFlag m' u = binFlag m u

theorem SameFlags.refl (m : Mirror) : SameFlags m m := fun _ => rfl

theorem SameFlags.trans {a b c : Mirror} (h : SameFlags a b) (h' : SameFlags b c) : SameFlags a c :=
  fun u => (h' u).trans (h u)

section GroupPasses

variable {m m' : Mirror} {st st' : Mirror × IngestPeerOutcome}

theorem insertGroup_flags {g : GroupRow} (h : m.insertGroup g = .ok m')
    (hg : g.isRecycleBin = false) : SameFlags m m' := by
  unfold Mirror.insertGroup at h
  split at h
  · cases h
  · rename_i T hT
    split at h
    · obtain rfl := Except.ok.inj h
      intro u
      unfold binFlag
      rw [Table.find?_insert hT]
      by_cases hu : g.uuid = u
      · have hnone : m.groups.find? u = none :=
          Table.find?_eq_none.2 (hu ▸ (Table.insert?_eq_some.1 hT).1)
        simp [hu, hnone, hg]
      · rw [if_neg hu]
    · cases h

theorem find?_updateGroups (m : Mirror) (p : GroupRow → Prop) [DecidablePred p]
    (f : GroupRow → GroupRow) (hu : ∀ r, (f r).uuid = r.uuid)
    (hp : ∀ r, (f r).parentUuid = r.parentUuid) (u : Uuid) :
    (m.updateGroups p f hu hp).groups.find? u =
      (m.groups.find? u).map fun r => if p r then f r else r :=
  Table.find?_update hu m.groups u

theorem binFlag_updateGroups (m : Mirror) (p : GroupRow → Prop) [DecidablePred p]
    (f : GroupRow → GroupRow) (hu : ∀ r, (f r).uuid = r.uuid)
    (hp : ∀ r, (f r).parentUuid = r.parentUuid) (u : Uuid) :
    binFlag (m.updateGroups p f hu hp) u =
      (m.groups.find? u).any fun r => (if p r then f r else r).isRecycleBin := by
  unfold binFlag
  rw [find?_updateGroups]
  cases m.groups.find? u <;> rfl

theorem updateGroups_flags (m : Mirror) (p : GroupRow → Prop) [DecidablePred p]
    (f : GroupRow → GroupRow) (hu : ∀ r, (f r).uuid = r.uuid)
    (hp : ∀ r, (f r).parentUuid = r.parentUuid) (hf : ∀ r, (f r).isRecycleBin = r.isRecycleBin) :
    SameFlags m (m.updateGroups p f hu hp) := by
  intro u
  have hrow : ∀ r, (if p r then f r else r).isRecycleBin = r.isRecycleBin := by
    intro r
    split
    · exact hf r
    · rfl
  simp only [binFlag_updateGroups, hrow]
  rfl

theorem setParent_flags {u p : Uuid} {f : GroupRow → GroupRow} {hu : ∀ r, (f r).uuid = r.uuid}
    (h : m.setParent u p f hu = .ok m') (hf : ∀ r, (f r).isRecycleBin = r.isRecycleBin) :
    SameFlags m m' := by
  unfold Mirror.setParent at h
  split at h
  · obtain rfl := Except.ok.inj h
    intro v
    unfold binFlag
    rw [Table.find?_modify]
    split
    · cases m.groups.find? v with
      | none => rfl
      | some g => exact hf g
    · rfl
  · split at h
    · cases h
    · obtain rfl := Except.ok.inj h
      exact .refl m

/-- A pass over groups: no bin moves, and no entry is reported as placed. -/
structure FlagPass (st st' : Mirror × IngestPeerOutcome) : Prop where
  flags : SameFlags st.1 st'.1
  added : st'.2.added = st.2.added
  moved : st'.2.moved = st.2.moved

theorem FlagPass.refl (st : Mirror × IngestPeerOutcome) : FlagPass st st := ⟨.refl _, rfl, rfl⟩

theorem FlagPass.trans {a b c : Mirror × IngestPeerOutcome} (h : FlagPass a b) (h' : FlagPass b c) :
    FlagPass a c :=
  ⟨h.flags.trans h'.flags, h'.added.trans h.added, h'.moved.trans h.moved⟩

theorem adoptGroup_flags {f : FlatGroup} (h : adoptGroup st f = .ok st') : FlagPass st st' := by
  unfold adoptGroup at h
  split at h
  · obtain rfl := Except.ok.inj h
    exact .refl _
  · obtain ⟨m, hm, h⟩ := except_bind_ok.1 h
    obtain rfl := Except.ok.inj h
    exact ⟨insertGroup_flags hm rfl, rfl, rfl⟩

theorem reconcileGroupMetadata_flags {g : GroupInfo} (h : reconcileGroupMetadata g st = .ok st') :
    FlagPass st st' := by
  unfold reconcileGroupMetadata at h
  split at h
  · obtain rfl := Except.ok.inj h
    exact .refl _
  · split at h
    · cases h
    · split at h
      · obtain rfl := Except.ok.inj h
        exact .refl _
      · obtain rfl := Except.ok.inj h
        refine ⟨?_, rfl, rfl⟩
        exact updateGroups_flags st.1 _ (GroupRow.adoptMetadata g) (fun _ => rfl) (fun _ => rfl)
          fun _ => rfl

theorem reconcileGroupLocation_flags {g : GroupInfo} {p : Uuid}
    (h : reconcileGroupLocation g p st = .ok st') : FlagPass st st' := by
  unfold reconcileGroupLocation at h
  split at h
  · obtain rfl := Except.ok.inj h
    exact .refl _
  · split at h
    · obtain rfl := Except.ok.inj h
      exact .refl _
    · split at h
      · obtain rfl := Except.ok.inj h
        exact .refl _
      · obtain ⟨m, hm, h⟩ := except_bind_ok.1 h
        obtain rfl := Except.ok.inj h
        exact ⟨setParent_flags hm fun _ => rfl, rfl, rfl⟩

theorem reconcileGroup_flags {f : FlatGroup} (h : reconcileGroup st f = .ok st') :
    FlagPass st st' := by
  unfold reconcileGroup at h
  obtain ⟨mid, hmid, h⟩ := except_bind_ok.1 h
  refine (reconcileGroupMetadata_flags hmid).trans ?_
  split at h
  · obtain rfl := Except.ok.inj h
    exact .refl _
  · exact reconcileGroupLocation_flags h

theorem breakGroupCycles_flags {ord : HashOrder} {root : Uuid} {fuel n : Nat}
    (h : breakGroupCycles ord root fuel n st = .ok st') : FlagPass st st' := by
  induction fuel generalizing n st with
  | zero => cases h
  | succ fuel ih =>
    unfold breakGroupCycles at h
    split at h
    · obtain rfl := Except.ok.inj h
      exact .refl _
    · split at h
      · cases h
      · obtain ⟨m, hm, h⟩ := except_bind_ok.1 h
        have hnext := ih h
        exact ⟨(setParent_flags hm fun _ => rfl).trans hnext.flags, hnext.added, hnext.moved⟩

/-- **Reconciling the peer's groups moves no bin.** -/
theorem reconcilePeerGroups_flags {ord : HashOrder} {peer : Vault}
    (h : reconcilePeerGroups ord peer st = .ok st') : FlagPass st st' := by
  unfold reconcilePeerGroups at h
  obtain ⟨st₁, h₁, h⟩ := except_bind_ok.1 h
  obtain ⟨st₂, h₂, h⟩ := except_bind_ok.1 h
  have hadopt := foldlM_rel FlagPass.refl FlagPass.trans (fun _ _ _ _ => adoptGroup_flags) h₁
  have hrec := foldlM_rel FlagPass.refl FlagPass.trans (fun _ _ _ _ => reconcileGroup_flags) h₂
  exact (hadopt.trans hrec).trans (breakGroupCycles_flags h)

end GroupPasses

/-- The bin the last pass of a pull leaves. -/
def landedBin (localMeta merged : Meta) (m : Mirror) : Option Uuid :=
  if merged = localMeta then m.recycleBinUuid else merged.recycleBinUuid

theorem writeRecycleBinGroup_binIs (m : Mirror) (u : Uuid) :
    BinIs (m.writeRecycleBinGroup u) (some u) := by
  intro v
  rw [(SameParents.writeRecycleBinGroup m u).keys]
  unfold Mirror.writeRecycleBinGroup
  rw [binFlag_updateGroups, find?_updateGroups, ← Table.exists_find?]
  cases hg : m.groups.find? v with
  | none => simp
  | some g =>
    have hgv : g.uuid = v := Table.find?_key hg
    subst hgv
    by_cases hgu : g.uuid = u
    · simp [hgu]
    · by_cases hflag : g.isRecycleBin = true
      · simp [hgu, hflag, Ne.symm hgu]
      · simp [hgu, hflag, Ne.symm hgu]

theorem clearRecycleBinGroup_binIs (m : Mirror) : BinIs m.clearRecycleBinGroup none := by
  intro v
  unfold Mirror.clearRecycleBinGroup
  rw [binFlag_updateGroups]
  cases m.groups.find? v with
  | none => simp
  | some g =>
    by_cases hflag : g.isRecycleBin = true
    · simp [hflag]
    · simp [hflag]

/-- A bin that is no group of the mirror is as good as none. -/
theorem BinIs.absent {m : Mirror} (h : BinIs m none) {u : Uuid} (hu : u ∉ m.groups.keys) :
    BinIs m (some u) := by
  intro v
  rw [h v]
  constructor
  · rintro ⟨-, hnone⟩
    cases hnone
  · rintro ⟨hv, hu'⟩
    exact absurd (Option.some.inj hu' ▸ hv) hu

/-- **The last pass of a pull** keeps the parents and leaves the bin of the merged meta. -/
theorem reconcilePeerMeta_binIs (a b : Meta) {m : Mirror} {bin : Option Uuid} (h : BinIs m bin) :
    SameParents m (reconcilePeerMeta a b m) ∧
      BinIs (reconcilePeerMeta a b m) (if b = a then bin else b.recycleBinUuid) := by
  unfold reconcilePeerMeta
  split
  · exact ⟨.refl m, h⟩
  · dsimp only
    generalize hw : (m.writeMetaScalars b).writeRecycleBinEnabled b.recycleBinEnabled = w
    have hgroups : w.groups = m.groups := by rw [← hw]; rfl
    have hsame := SameParents.of_groups hgroups
    cases hbin : b.recycleBinUuid with
    | none => exact ⟨hsame.trans (.clearRecycleBinGroup w), clearRecycleBinGroup_binIs w⟩
    | some g =>
      dsimp only
      split
      · exact ⟨hsame.trans (.writeRecycleBinGroup w g), writeRecycleBinGroup_binIs w g⟩
      · rename_i hg
        refine ⟨hsame.trans (.clearRecycleBinGroup w), (clearRecycleBinGroup_binIs w).absent ?_⟩
        rw [(SameParents.clearRecycleBinGroup w).keys]
        exact fun hmem => hg (groupExists_iff.2 hmem)

/-! ## The entries of a pull -/

/-- Every entry there is sits where it sat, with the flag it had. -/
structure KeepsPlaces (m m' : Mirror) : Prop where
  groups : m'.groups = m.groups
  place : ∀ u row', m'.entries.find? u = some row' → ∃ row, m.entries.find? u = some row ∧
    row'.groupUuid = row.groupUuid ∧ row'.isRecycled = row.isRecycled

namespace KeepsPlaces

variable {m m' m'' : Mirror}

theorem of_entries (hg : m'.groups = m.groups) (he : m'.entries = m.entries) : KeepsPlaces m m' :=
  ⟨hg, fun u row' h => ⟨row', by rw [← he, h], rfl, rfl⟩⟩

theorem refl (m : Mirror) : KeepsPlaces m m := of_entries rfl rfl

theorem trans (h : KeepsPlaces m m') (h' : KeepsPlaces m' m'') : KeepsPlaces m m'' := by
  refine ⟨h'.groups.trans h.groups, fun u row'' hrow'' => ?_⟩
  obtain ⟨row', hrow', hg', hf'⟩ := h'.place u row'' hrow''
  obtain ⟨row, hrow, hg, hf⟩ := h.place u row' hrow'
  exact ⟨row, hrow, hg'.trans hg, hf'.trans hf⟩

/-- A change of one row that keeps its place. -/
theorem of_row {u : Uuid} (h : RowOnly u m m')
    (hrow : ∀ row', m'.entries.find? u = some row' → ∃ row, m.entries.find? u = some row ∧
      row'.groupUuid = row.groupUuid ∧ row'.isRecycled = row.isRecycled) : KeepsPlaces m m' := by
  refine ⟨h.groups, fun v row' hv => ?_⟩
  by_cases hvu : v = u
  · subst hvu
    exact hrow row' hv
  · exact ⟨row', by rw [← h.entries v hvu, hv], rfl, rfl⟩

theorem updateEntry (m : Mirror) (u : Uuid) (f : EntryRow → EntryRow)
    (hu : ∀ r, (f r).uuid = r.uuid) (hg : ∀ r, (f r).groupUuid = r.groupUuid)
    (hf : ∀ r, (f r).isRecycled = r.isRecycled) : KeepsPlaces m (m.updateEntry u f hu hg) := by
  obtain ⟨hone, hfind⟩ := updateEntry_row m u f hu hg
  refine of_row hone fun row' hrow' => ?_
  rw [hfind] at hrow'
  obtain ⟨row, hrow, rfl⟩ := Option.map_eq_some_iff.1 hrow'
  exact ⟨row, hrow, hg row, hf row⟩

theorem advanceLocalEntry {e : Entry} (h : m.advanceLocalEntry e = .ok m') : KeepsPlaces m m' := by
  obtain ⟨row, hrow, hone, hfind⟩ := advanceLocalEntry_row h
  refine of_row hone fun row' hrow' => ⟨row, hrow, ?_⟩
  rw [hfind] at hrow'
  obtain rfl := Option.some.inj hrow'
  exact ⟨rfl, rfl⟩

theorem persistEntryHistory {e : Entry} (h : m.persistEntryHistory e = .ok m') :
    KeepsPlaces m m' := by
  unfold Mirror.persistEntryHistory at h
  split at h
  · obtain rfl := Except.ok.inj h
    exact updateEntry m e.id _ _ _ fun _ => rfl
  · cases h

theorem writePeerEntry {o : String} {e : Entry} (h : m.writePeerEntry o e = .ok m') :
    KeepsPlaces m m' := by
  unfold Mirror.writePeerEntry Mirror.insertConflictRow at h
  split at h
  · cases h
  · obtain rfl := Except.ok.inj h
    exact of_entries rfl rfl

end KeepsPlaces

section Pull

variable {M : MergeLib} {P : PeerPull} {st st' : Mirror × IngestPeerOutcome}

theorem verdictArm_keepsPlaces {l p : Entry} {base : HistoryBase}
    (h : P.verdictArm M l p st = .ok (st', base)) : KeepsPlaces st.1 st'.1 ∧
      st'.2.added = st.2.added ∧ st'.2.moved = st.2.moved := by
  have hdrop : ∀ m : Mirror, KeepsPlaces m (m.dropConflictRow P.owner p.id) := fun _ =>
    .of_entries rfl rfl
  unfold PeerPull.verdictArm at h
  dsimp only at h
  split at h
  · obtain ⟨rfl, -⟩ := Prod.mk.inj (Except.ok.inj h)
    exact ⟨hdrop _, rfl, rfl⟩
  · obtain ⟨m, hm, h⟩ := except_bind_ok.1 h
    obtain ⟨rfl, -⟩ := Prod.mk.inj (Except.ok.inj h)
    have hattach : ∀ (changes : List AttachmentChange) (m : Mirror),
        KeepsPlaces m (changes.foldl (Mirror.applyAttachmentChange p.id) m) := fun changes m =>
      foldl_rel KeepsPlaces.refl KeepsPlaces.trans
        (fun m c _ => .updateEntry m p.id (fun r => { r with attachments := c.apply r.attachments })
          (fun _ => rfl) (fun _ => rfl) fun _ => rfl) m
    exact ⟨((KeepsPlaces.advanceLocalEntry hm).trans (hattach _ m)).trans (hdrop _), rfl, rfl⟩
  · split at h
    · obtain ⟨rfl, -⟩ := Prod.mk.inj (Except.ok.inj h)
      exact ⟨hdrop _, rfl, rfl⟩
    · obtain ⟨m, hm, h⟩ := except_bind_ok.1 h
      obtain ⟨rfl, -⟩ := Prod.mk.inj (Except.ok.inj h)
      exact ⟨(hdrop _).trans (.advanceLocalEntry hm), rfl, rfl⟩
    · obtain ⟨m, hm, h⟩ := except_bind_ok.1 h
      obtain ⟨rfl, -⟩ := Prod.mk.inj (Except.ok.inj h)
      exact ⟨(hdrop _).trans (.writePeerEntry hm), rfl, rfl⟩

theorem reconcileHistory_keepsPlaces {ctx : HistoryFoldContext} {base : HistoryBase} {l p : Entry}
    {m m' : Mirror} {changed : Bool} (h : reconcileHistory M ctx base l p m = .ok (m', changed)) :
    KeepsPlaces m m' := by
  have hpersist : ∀ {e : Entry} {b changed : Bool}, (if b = true then do
      let m' ← m.persistEntryHistory e
      return (m', true) else return (m, false)) = Except.ok (m', changed) → KeepsPlaces m m' := by
    intro e b changed h
    split at h
    · obtain ⟨a, ha, h⟩ := except_bind_ok.1 h
      obtain ⟨rfl, -⟩ := Prod.mk.inj (Except.ok.inj h)
      exact .persistEntryHistory ha
    · obtain ⟨rfl, -⟩ := Prod.mk.inj (Except.ok.inj h)
      exact .refl _
  have hfold : ∀ {base other : Entry},
      foldEntryHistoryIntoMirror M ctx base other m = .ok (m', changed) → KeepsPlaces m m' := by
    intro base other h
    unfold foldEntryHistoryIntoMirror at h
    split at h
    · obtain ⟨rfl, -⟩ := Prod.mk.inj (Except.ok.inj h)
      exact .refl _
    · obtain ⟨⟨e, b⟩, -, h⟩ := except_bind_ok.1 h
      exact hpersist h
  unfold reconcileHistory at h
  split at h
  · unfold reconcileEntryHistoryTombstones at h
    split at h
    · obtain ⟨rfl, -⟩ := Prod.mk.inj (Except.ok.inj h)
      exact .refl _
    · obtain ⟨⟨e, b⟩, -, h⟩ := except_bind_ok.1 h
      exact hpersist h
  · exact hfold h
  · exact hfold h
  · exact hfold h

/-- Where a pull places `u`, which the peer has under `parent`: an addition whose group is not here goes
to the local root. -/
def destination (P : PeerPull) (m : Mirror) (u parent : Uuid) : Uuid :=
  if (P.localEntry u).isSome || m.groupExists parent then parent else P.localVault.root.id

/-- The flag a pull writes: none for an addition, for a relocation that of the walk. -/
def writtenFlag (P : PeerPull) (m : Mirror) (u g : Uuid) : Bool :=
  (P.localEntry u).isSome && m.groupInBinSubtree g

/-- The row of an entry as a pull placed it. -/
def PlacedRow (P : PeerPull) (m : Mirror) (u : Uuid) (row : EntryRow) : Prop :=
  row.isRecycled = writtenFlag P m u row.groupUuid ∧
    ∃ e parent, (e, parent) ∈ P.peer.entriesWithParent ∧ e.id = u ∧
      row.groupUuid = destination P m u parent

/-- The entries placed so far are as they were placed in the groups of `m`. -/
structure PlacedSoFar (P : PeerPull) (m : Mirror) (st : Mirror × IngestPeerOutcome) : Prop where
  groups : st.1.groups = m.groups
  rows : ∀ u ∈ st.2.added ++ st.2.moved, ∀ row, st.1.entries.find? u = some row → PlacedRow P m u row

theorem PlacedRow.of_place {m : Mirror} {u : Uuid} {row row' : EntryRow} (h : PlacedRow P m u row)
    (hg : row'.groupUuid = row.groupUuid) (hf : row'.isRecycled = row.isRecycled) :
    PlacedRow P m u row' := by
  obtain ⟨hflag, hplace⟩ := h
  refine ⟨?_, ?_⟩
  · rw [hf, hg, hflag]
  · rwa [hg]

theorem PlacedSoFar.keep {m : Mirror} (h : PlacedSoFar P m st) (hk : KeepsPlaces st.1 st'.1)
    (hadded : st'.2.added = st.2.added) (hmoved : st'.2.moved = st.2.moved) : PlacedSoFar P m st' := by
  refine ⟨hk.groups.trans h.groups, fun u hu row' hrow' => ?_⟩
  obtain ⟨row, hrow, hg, hf⟩ := hk.place u row' hrow'
  rw [hadded, hmoved] at hu
  exact (h.rows u hu row hrow).of_place hg hf

/-- A placement of `u`, the rest as before. -/
theorem PlacedSoFar.place {m : Mirror} {u : Uuid} (h : PlacedSoFar P m st) (hone : RowOnly u st.1 st'.1)
    (hrow : ∀ row, st'.1.entries.find? u = some row → PlacedRow P m u row)
    (hout : ∀ v ∈ st'.2.added ++ st'.2.moved, v = u ∨ v ∈ st.2.added ++ st.2.moved) :
    PlacedSoFar P m st' := by
  refine ⟨hone.groups.trans h.groups, fun v hv row' hrow' => ?_⟩
  by_cases hvu : v = u
  · subst hvu
    exact hrow row' hrow'
  · rw [hone.entries v hvu] at hrow'
    exact h.rows v ((hout v hv).resolve_left hvu) row' hrow'

theorem reconcileEntryLocation_placed {m : Mirror} {p : Entry} {parent : Uuid}
    (h : PlacedSoFar P m st) (hp : (p, parent) ∈ P.peer.entriesWithParent)
    (hlocal : (P.localEntry p.id).isSome) (hrun : reconcileEntryLocation p parent st = .ok st') :
    PlacedSoFar P m st' := by
  unfold reconcileEntryLocation at hrun
  split at hrun
  · obtain rfl := Except.ok.inj hrun
    exact h
  · split at hrun
    · obtain rfl := Except.ok.inj hrun
      exact h
    · split at hrun
      · obtain ⟨a, ha, hrun⟩ := except_bind_ok.1 hrun
        obtain rfl := Except.ok.inj hrun
        obtain ⟨hone, hfind⟩ := placeEntry_row ha
        refine h.place hone (fun row hrow => ?_) fun v hv => ?_
        · rw [hfind] at hrow
          obtain ⟨r, -, rfl⟩ := Option.map_eq_some_iff.1 hrow
          refine ⟨?_, p, parent, hp, rfl, ?_⟩
          · simp [writtenFlag, hlocal, groupInBinSubtree_congr h.groups]
          · simp [destination, hlocal]
        · simpa [or_comm, or_assoc, or_left_comm] using hv
      · obtain rfl := Except.ok.inj hrun
        exact h

theorem ingestPeerOnly_placed {m : Mirror} {p : Entry} {parent : Uuid} (h : PlacedSoFar P m st)
    (hp : (p, parent) ∈ P.peer.entriesWithParent) (hlocal : P.localEntry p.id = none)
    (hrun : P.ingestPeerOnly p parent st = .ok st') : PlacedSoFar P m st' := by
  unfold PeerPull.ingestPeerOnly at hrun
  dsimp only at hrun
  split at hrun
  · obtain rfl := Except.ok.inj hrun
    exact h
  · obtain ⟨a, ha, hrun⟩ := except_bind_ok.1 hrun
    obtain rfl := Except.ok.inj hrun
    generalize hw : (if (tombstoneTime P.localVault.deletedObjects p.id).isSome = true then
      st.1.removeTombstone p.id else st.1) = w at ha
    have hkeep : w.groups = st.1.groups ∧ w.entries = st.1.entries := by
      rw [← hw]
      split <;> exact ⟨rfl, rfl⟩
    have hw' : PlacedSoFar P m (w, st.2) := h.keep (.of_entries hkeep.1 hkeep.2) rfl rfl
    obtain ⟨hone, hfind, -⟩ := insertEntry_row ha
    refine hw'.place hone (fun row hrow => ?_) fun v hv => ?_
    · rw [hfind] at hrow
      obtain rfl := Option.some.inj hrow
      refine ⟨?_, p, parent, hp, rfl, ?_⟩
      · simp [writtenFlag, hlocal, Entry.toRow]
      · have hgroups : w.groups = m.groups := hw'.groups
        simp [destination, hlocal, Entry.toRow, Mirror.groupExists, hgroups]
    · simpa [or_comm, or_assoc, or_left_comm] using hv

/-- **One entry of the peer**, in the groups of `m`. -/
theorem ingestEntry_placed {m : Mirror} {pe : Entry × Uuid} (h : PlacedSoFar P m st)
    (hp : pe ∈ P.peer.entriesWithParent) (hrun : P.ingestEntry M st pe = .ok st') :
    PlacedSoFar P m st' := by
  unfold PeerPull.ingestEntry at hrun
  split at hrun
  · rename_i hlocal
    exact ingestPeerOnly_placed h hp hlocal hrun
  · rename_i l hlocal
    unfold PeerPull.ingestShared at hrun
    obtain ⟨⟨a, base⟩, ha, hrun⟩ := except_bind_ok.1 hrun
    obtain ⟨b, hb, hrun⟩ := except_bind_ok.1 hrun
    obtain ⟨⟨c, changed⟩, hc, hrun⟩ := except_bind_ok.1 hrun
    obtain rfl := Except.ok.inj hrun
    obtain ⟨harm, hadded, hmoved⟩ := verdictArm_keepsPlaces ha
    have hlocated := reconcileEntryLocation_placed (h.keep harm hadded hmoved) hp
      (by rw [hlocal]; rfl) hb
    refine hlocated.keep (reconcileHistory_keepsPlaces hc) ?_ ?_ <;>
    · dsimp only
      split <;> rfl

theorem reconcilePeerDeletes_keepsPlaces (st : Mirror × IngestPeerOutcome) :
    KeepsPlaces st.1 (P.reconcilePeerDeletes st).1 ∧
      (P.reconcilePeerDeletes st).2.added = st.2.added ∧
      (P.reconcilePeerDeletes st).2.moved = st.2.moved := by
  let R := fun a b : Mirror × IngestPeerOutcome =>
    KeepsPlaces a.1 b.1 ∧ b.2.added = a.2.added ∧ b.2.moved = a.2.moved
  have hrefl : ∀ a, R a a := fun a => ⟨.refl _, rfl, rfl⟩
  have htrans : ∀ {a b c}, R a b → R b c → R a c := fun h h' =>
    ⟨h.1.trans h'.1, h'.2.1.trans h.2.1, h'.2.2.trans h.2.2⟩
  refine foldl_rel hrefl htrans (fun a u _ => ?_) st
  unfold PeerPull.reconcileDelete
  split
  · split
    · exact hrefl a
    · obtain ⟨hone, hfind⟩ := deleteEntry_row a.1 u
      refine ⟨.of_row hone fun row hrow => ?_, rfl, rfl⟩
      rw [hfind] at hrow
      cases hrow
  · exact hrefl a

/-- **The entries of a pull and the bin it leaves.** Each entry reported as added or moved is as it was
placed in the reconciled groups; the final bin subtree is in these groups that of the bin of the merged
meta. -/
theorem ingestPeer_placed {ord : HashOrder} {m : Mirror} (hone : OneBin m)
    (h : ingestPeer M ord P m = .ok st) : ∃ st₁, reconcilePeerGroups ord P.peer (m, {}) = .ok st₁ ∧
      ∀ u ∈ st.2.added ++ st.2.moved, ∀ row, st.1.entries.find? u = some row →
        PlacedRow P st₁.1 u row ∧ st.1.groupInBinSubtree row.groupUuid =
          walksTo st₁.1 (landedBin P.localVault.metadata (P.mergedMeta M) m) row.groupUuid := by
  unfold ingestPeer at h
  obtain ⟨st₁, h₁, h⟩ := except_bind_ok.1 h
  obtain ⟨st₂, h₂, h⟩ := except_bind_ok.1 h
  obtain ⟨st₄, h₄, h⟩ := except_bind_ok.1 h
  obtain rfl := Except.ok.inj h
  refine ⟨st₁, h₁, ?_⟩
  have hpass := reconcilePeerGroups_flags h₁
  have hstart : PlacedSoFar P st₁.1 st₁ := by
    refine ⟨rfl, fun u hu => ?_⟩
    rw [hpass.added, hpass.moved] at hu
    cases hu
  have hwalk : PlacedSoFar P st₁.1 st₂ :=
    foldlM_inv (fun a ha pe hpe b hb => ingestEntry_placed ha hpe hb) hstart h₂
  obtain ⟨hdel, hdadded, hdmoved⟩ := reconcilePeerDeletes_keepsPlaces (P := P) st₂
  have htomb := (unionPeerTombstones_spec P.peer.deletedObjects (P.reconcilePeerDeletes st₂).1).1
  have hicons := (unionPeerCustomIcons_same P.peer.metadata.customIcons
    (unionPeerTombstones P.peer.deletedObjects (P.reconcilePeerDeletes st₂).1)).1
  have hdone := hwalk.keep hdel hdadded hdmoved
  -- the group pass deletes groups, and keeps the rows of the others
  obtain ⟨hentries, -, -, -, -, -, hgroups⟩ := materializeGroupTombstones_spec h₄
  have hgroups' : ∀ u, st₄.1.groups.find? u = none ∨ st₄.1.groups.find? u = st₁.1.groups.find? u := by
    intro u
    have h := hgroups u
    rwa [hicons.groups, htomb.groups, hdone.groups] at h
  have hreports : st₄.2.added = st₂.2.added ∧ st₄.2.moved = st₂.2.moved := by
    unfold materializeGroupTombstones at h₄
    obtain ⟨a, -, h₄⟩ := except_bind_ok.1 h₄
    obtain rfl := Except.ok.inj h₄
    exact ⟨hdadded, hdmoved⟩
  have hkey : ∀ u ∈ st₄.1.groups.keys, st₄.1.groups.find? u = st₁.1.groups.find? u := by
    intro u hu
    refine (hgroups' u).resolve_left fun hnone => ?_
    exact Table.find?_eq_none.1 hnone hu
  have hbin : BinIs st₄.1 m.recycleBinUuid := by
    intro u
    rw [← and_iff_right_of_imp fun hflag : binFlag st₄.1 u = true => binFlag_mem hflag]
    refine and_congr_right fun hu => ?_
    have hsame : binFlag st₄.1 u = binFlag m u := by
      rw [← hpass.flags u, binFlag, binFlag, hkey u hu]
    rw [hsame, recycleBinUuid_iff hone]
  obtain ⟨hparents, hlanded⟩ :=
    reconcilePeerMeta_binIs P.localVault.metadata (P.mergedMeta M) hbin
  have hpart : PartOf (reconcilePeerMeta P.localVault.metadata (P.mergedMeta M) st₄.1) st₁.1 := by
    intro u hu
    rw [hparents.parent, Mirror.parentOf, parentIn, hkey u ((hparents.keys u).1 hu)]
    rfl
  intro u hu row hrow
  have hg := (reconcilePeerMeta P.localVault.metadata (P.mergedMeta M) st₄.1).fkGroup row
    (Table.find?_mem hrow)
  rw [(reconcilePeerMeta_same _ _ _).1, hentries, hicons.entries, htomb.entries] at hrow
  dsimp only at hu
  rw [hreports.1, hreports.2, ← hdadded, ← hdmoved] at hu
  exact ⟨hdone.rows u hu row hrow, hpart.inBin hlanded hg⟩

end Pull

/-! ## A full ingest -/

/-- The parent a vault has a group under. -/
def vaultParentOf (v : Vault) (u : Uuid) : Option Uuid :=
  (v.groups.find? (·.info.id = u)).bind (·.parent)

mutual

/-- The flag carried down the tree says whether the bin is above, or is the group itself. `par` is the
parent function of the whole tree, `under` the flag that arrives from above. -/
theorem placed_flag (bin : Option Uuid) {par : Uuid → Option Uuid} (under : Bool) (p : Option Uuid)
    (s : Nat) (hunder : under = true ↔ ∃ b q, bin = some b ∧ p = some q ∧ Reach par q b) :
    ∀ g : Group, (∀ f ∈ g.collect p s, par f.info.id = f.parent) → ∀ x ∈ g.placed bin under,
      x.2.2 = true ↔ ∃ b, bin = some b ∧ Reach par x.2.1 b
  | .node i es gs, hpar, x, hx => by
    have hi : par i.id = p := hpar ⟨i, es, p, s⟩ (by rw [Group.collect]; exact List.mem_cons_self ..)
    have hself : (under || bin = some i.id) = true ↔ ∃ b, bin = some b ∧ Reach par i.id b := by
      rw [Bool.or_eq_true, hunder, decide_eq_true_iff]
      constructor
      · rintro (⟨b, q, hb, rfl, hq⟩ | hb)
        · exact ⟨b, hb, hq.step hi⟩
        · exact ⟨i.id, hb, .refl _⟩
      · rintro ⟨b, hb, hreach⟩
        rcases reach_iff_parent.1 hreach with rfl | ⟨q, hq, hqb⟩
        · exact .inr hb
        · exact .inl ⟨b, q, hb, hi.symm.trans hq, hqb⟩
    rw [Group.placed] at hx
    rcases List.mem_append.1 hx with hx | hx
    · obtain ⟨e, -, rfl⟩ := List.mem_map.1 hx
      exact hself
    · refine placedAll_flag bin _ i.id 0 hself gs (fun f hf => hpar f ?_) x hx
      rw [Group.collect]
      exact List.mem_cons_of_mem _ hf

theorem placedAll_flag (bin : Option Uuid) {par : Uuid → Option Uuid} (under : Bool) (q : Uuid)
    (idx : Nat) (hunder : under = true ↔ ∃ b, bin = some b ∧ Reach par q b) :
    ∀ gs : List Group, (∀ f ∈ Group.collectAll q idx gs, par f.info.id = f.parent) →
      ∀ x ∈ Group.placedAll bin under gs, x.2.2 = true ↔ ∃ b, bin = some b ∧ Reach par x.2.1 b
  | [], _, x, hx => by cases hx
  | g :: gs, hpar, x, hx => by
    rw [Group.collectAll] at hpar
    rw [Group.placedAll] at hx
    rcases List.mem_append.1 hx with hx | hx
    · refine placed_flag bin under (some q) (positionU32 idx) ?_ g
        (fun f hf => hpar f (List.mem_append_left _ hf)) x hx
      rw [hunder]
      constructor
      · rintro ⟨b, hb, hreach⟩
        exact ⟨b, q, hb, rfl, hreach⟩
      · rintro ⟨b, q', hb, hq, hreach⟩
        exact ⟨b, hb, Option.some.inj hq ▸ hreach⟩
    · exact placedAll_flag bin under q (idx + 1) hunder gs
        (fun f hf => hpar f (List.mem_append_right _ hf)) x hx

end

section Ingest

variable {vault : Vault} {source : Source} {m m' : Mirror}

theorem ingested_parentOf (h : ingestVaultWithHeader vault source m = .ok m') :
    m'.parentOf = vaultParentOf vault := by
  obtain ⟨hrows, -⟩ := ingestVaultWithHeader_tree h
  funext u
  have hfind : m'.groups.find? u = (vault.groups.find? (·.info.id = u)).map (ingestedRow vault) := by
    rw [Table.find?, hrows, List.find?_map]
    rfl
  rw [Mirror.parentOf, parentIn, hfind, vaultParentOf]
  cases vault.groups.find? (·.info.id = u) <;> rfl

theorem ingested_binIs (h : ingestVaultWithHeader vault source m = .ok m') :
    BinIs m' vault.metadata.recycleBinUuid := by
  obtain ⟨hrows, -⟩ := ingestVaultWithHeader_tree h
  intro u
  rw [binFlag_iff, Table.mem_keys, hrows]
  constructor
  · rintro ⟨g, hg, rfl, hflag⟩
    obtain ⟨f, -, rfl⟩ := List.mem_map.1 hg
    exact ⟨⟨_, hg, rfl⟩, of_decide_eq_true hflag⟩
  · rintro ⟨⟨g, hg, rfl⟩, hbin⟩
    obtain ⟨f, -, rfl⟩ := List.mem_map.1 hg
    exact ⟨_, hg, rfl, decide_eq_true_iff.2 hbin⟩

/-- **An ingested entry has its flag right** exactly when its group is not `10000` or more steps below
the bin. -/
theorem ingested_flag_iff (h : ingestVaultWithHeader vault source m = .ok m') {row : EntryRow}
    (hrow : row ∈ m'.entries.rows) :
    row.isRecycled = m'.groupInBinSubtree row.groupUuid ↔ ∀ b k,
      vault.metadata.recycleBinUuid = some b → up (vaultParentOf vault) k row.groupUuid = some b →
        k < 10000 := by
  have hr := ingestVaultWithHeader_rooted h
  have hparent := ingested_parentOf h
  have hg := m'.fkGroup row hrow
  rw [(ingestVaultWithHeader_tree h).2] at hrow
  obtain ⟨x, hx, rfl⟩ := List.mem_map.1 hrow
  have hflag : x.2.2 = true ↔
      ∃ b, vault.metadata.recycleBinUuid = some b ∧ Reach (vaultParentOf vault) x.2.1 b := by
    refine placed_flag vault.metadata.recycleBinUuid false none 0 (by simp) vault.root ?_ x hx
    intro f hf
    have hmem : ingestedRow vault f ∈ m'.groups.rows := by
      rw [(ingestVaultWithHeader_tree h).1]
      exact List.mem_map_of_mem hf
    rw [← hparent]
    exact parentOf_of_mem hmem
  have hwalk := PartOf.inBin (m := m') (fun _ _ => rfl) (ingested_binIs h) hg
  rw [hwalk, Bool.eq_iff_iff, walksTo_iff]
  refine Iff.trans (iff_congr hflag Iff.rfl) ?_
  rw [hparent]
  have hr : Rooted (vaultParentOf vault) (· ∈ m'.groups.keys) vault.root.id := hparent ▸ hr
  constructor
  · intro hhonest b k hb hk
    obtain ⟨b', hb', k', hk', hup⟩ := hhonest.1 ⟨b, hb, k, hk⟩
    obtain rfl := Option.some.inj (hb.symm.trans hb')
    rwa [hr.steps_unique hg hk hup]
  · intro hshort
    constructor
    · rintro ⟨b, hb, k, hk⟩
      exact ⟨b, hb, k, hshort b k hb hk, hk⟩
    · rintro ⟨b, hb, k, -, hk⟩
      exact ⟨b, hb, k, hk⟩

end Ingest

/-! ## The operations -/

theorem createRecycleBinGroup_bin {m m' : Mirror} {now : EpochMs} {bin : Uuid}
    (h : m.createRecycleBinGroup now bin = .ok m') : m'.recycleBinUuid = some bin := by
  unfold Mirror.createRecycleBinGroup at h
  split at h
  · cases h
  · obtain ⟨a, ha, h⟩ := except_bind_ok.1 h
    obtain rfl := Except.ok.inj h
    have hbin : BinIs (((a.writeRecycleBinGroup bin).writeRecycleBinEnabled
        true).writeRecycleBinChanged now) (some bin) := writeRecycleBinGroup_binIs a bin
    rw [recycleBinUuid_iff hbin.oneBin, hbin]
    refine ⟨((SameParents.writeRecycleBinGroup a bin).keys bin).2 ?_, rfl⟩
    rw [insertGroup_keys ha]
    exact .inl rfl

/-- The operations that place entries. -/
inductive Placing where
  | createEntry (group : Uuid) (fields : NewEntryFields) (now : EpochMs) (newUuid : Uuid)
  | moveEntry (u group : Uuid) (now : EpochMs)
  | recycleEntry (u : Uuid) (now : EpochMs) (binUuid : Uuid)
  | restoreEntry (u : Uuid) (now : EpochMs)
  | ingestVault (vault : Vault) (source : Source)
  | ingestPeer (P : PeerPull)

namespace Placing

variable (M : MergeLib) (ord : HashOrder) (m : Mirror)

/-- The mirror an operation commits, and the entries it placed. -/
def run : Placing → Except EngineError (Mirror × List Uuid)
  | createEntry group fields now u => do return ((← m.createEntry group fields now u).1, [u])
  | moveEntry u group now => do return ((← m.moveEntry u group now).1, [u])
  | recycleEntry u now bin => do
    let inBin := (m.entries.find? u).any fun row => m.groupInBinSubtree row.groupUuid
    -- an entry that is in the bin stays where it is
    return (← m.recycleEntry u now bin, if inBin then [] else [u])
  | restoreEntry u now => do return (← m.restoreEntry u now, [u])
  | ingestVault vault source => do
    return (← ingestVaultWithHeader vault source m, vault.entries.map (·.id))
  | ingestPeer P => do
    let (m', outcome) ← KeysCore.ingestPeer M ord P m
    return (m', outcome.added ++ outcome.moved)

/-- May `u` be placed in `g`? -/
def Target (u g : Uuid) : Placing → Prop
  | createEntry group _ _ _ => g = group
  | moveEntry _ group _ => g = group
  | recycleEntry _ _ bin => g = m.recycleBinUuid.getD bin
  | restoreEntry _ _ => ∃ row, m.entries.find? u = some row ∧
      if m.groupInBinSubtree row.groupUuid then m.restoreDestination row.previousParentUuid = some g
      else g = row.groupUuid
  | ingestVault vault _ => ∃ row ∈ vault.root.placed vault.metadata.recycleBinUuid false,
      row.1.id = u ∧ row.2.1 = g
  | ingestPeer P => ∃ st₁ e parent, reconcilePeerGroups ord P.peer (m, {}) = .ok st₁ ∧
      (e, parent) ∈ P.peer.entriesWithParent ∧ e.id = u ∧ g = destination P st₁.1 u parent

/-- When the flag of `u`, placed in `g`, is right. -/
def HonestIn (u g : Uuid) : Placing → Prop
  -- the column is left at its default
  | createEntry .. => m.groupInBinSubtree g = false
  | moveEntry .. | recycleEntry .. => True
  -- the root may be the bin
  | restoreEntry .. => m.groupInBinSubtree g = false
  -- the flag carried down the tree has no bound, the walk has one
  | ingestVault vault _ => ∀ b k, vault.metadata.recycleBinUuid = some b →
      up (vaultParentOf vault) k g = some b → k < 10000
  -- an addition is never flagged; a relocation is flagged before the bin pointer is merged
  | ingestPeer P => ∀ st₁, reconcilePeerGroups ord P.peer (m, {}) = .ok st₁ →
      (((P.localEntry u).isSome ∧ st₁.1.groupInBinSubtree g = true) ↔
        walksTo st₁.1 (landedBin P.localVault.metadata (P.mergedMeta M) m) g = true)

end Placing

section Placings

variable {M : MergeLib} {ord : HashOrder} {m m' : Mirror} {u : Uuid} {row : EntryRow}

theorem createEntry_flag {g v : Uuid} {fields : NewEntryFields} {now : EpochMs}
    (h : m.createEntry g fields now u = .ok (m', v)) (hrow : m'.entries.find? u = some row) :
    row.groupUuid = g ∧ (row.isRecycled = m'.groupInBinSubtree row.groupUuid ↔
      m.groupInBinSubtree row.groupUuid = false) := by
  obtain ⟨hone, -, hfind, -⟩ := createEntry_row h
  rw [hfind] at hrow
  obtain rfl := Option.some.inj hrow
  rw [groupInBinSubtree_congr hone.groups]
  exact ⟨rfl, eq_comm⟩

theorem moveEntry_flag {g : Uuid} {now : EpochMs}
    (h : (StructuralOp.moveEntry u g now).run m = .ok m') (hrow : m'.entries.find? u = some row) :
    row.groupUuid = g ∧ row.isRecycled = m'.groupInBinSubtree row.groupUuid := by
  cases StructuralOp.run_commits h with
  | moveEntry hfound hplace =>
    obtain ⟨hone, hfind⟩ := placeEntry_row hplace
    rw [hfind, hfound] at hrow
    obtain rfl := Option.some.inj hrow
    exact ⟨rfl, (groupInBinSubtree_congr hone.groups g).symm⟩

theorem recycleInto_flag {bin : Uuid} {now : EpochMs} (hbin : m.recycleBinUuid = some bin)
    (h : m.recycleInto u bin now = .ok m') (hrow : m'.entries.find? u = some row) :
    row.groupUuid = bin ∧ row.isRecycled = m'.groupInBinSubtree row.groupUuid := by
  obtain ⟨hone, hfind⟩ := placeEntry_row h
  rw [hfind] at hrow
  obtain ⟨r, -, rfl⟩ := Option.map_eq_some_iff.1 hrow
  refine ⟨rfl, ?_⟩
  rw [groupInBinSubtree_congr hone.groups]
  exact (groupInBinSubtree_bin hbin).symm

theorem recycleEntry_flag {bin : Uuid} {now : EpochMs} (h : m.recycleEntry u now bin = .ok m')
    (hout : ((m.entries.find? u).any fun row => m.groupInBinSubtree row.groupUuid) = false)
    (hrow : m'.entries.find? u = some row) :
    row.groupUuid = m.recycleBinUuid.getD bin ∧
      row.isRecycled = m'.groupInBinSubtree row.groupUuid := by
  have hcommits : StructuralOp.Commits m (.recycleEntry u now bin) m' := StructuralOp.run_commits h
  cases hcommits with
  | inBin hfound hin => simp [hfound, hin] at hout
  | recycled _ _ hbin hplace =>
    rw [hbin]
    exact recycleInto_flag hbin hplace hrow
  | recycledNew _ _ hbin _ hnew hplace =>
    rw [hbin]
    exact recycleInto_flag (createRecycleBinGroup_bin hnew) hplace hrow
  | deleted =>
    have hnone : ((m.deleteEntries fun e => e.uuid = u).recordTombstone u now).entries.find? u =
        none := (deleteEntry_row m u).2
    rw [hnone] at hrow
    cases hrow

/-- A restored entry is never flagged. -/
theorem restoreEntry_flag {now : EpochMs} (h : m.restoreEntry u now = .ok m')
    (hrow : m'.entries.find? u = some row) :
    (Placing.restoreEntry u now).Target ord m u row.groupUuid ∧ row.isRecycled = false ∧
      m'.groupInBinSubtree row.groupUuid = m.groupInBinSubtree row.groupUuid := by
  have hcommits : StructuralOp.Commits m (.restoreEntry u now) m' := StructuralOp.run_commits h
  cases hcommits with
  | restored hfound hin hdest hplace =>
    obtain ⟨hone, hfind⟩ := placeEntry_row hplace
    rw [hfind, hfound] at hrow
    obtain rfl := Option.some.inj hrow
    exact ⟨⟨_, hfound, by rwa [if_pos hin]⟩, rfl, groupInBinSubtree_congr hone.groups _⟩
  | unflagged hfound hin _ =>
    obtain ⟨hone, hfind⟩ := updateEntry_row m u (fun e => { e with isRecycled := false })
      (fun _ => rfl) fun _ => rfl
    rw [hfind, hfound] at hrow
    obtain rfl := Option.some.inj hrow
    exact ⟨⟨_, hfound, by simp [hin]⟩, rfl, groupInBinSubtree_congr hone.groups _⟩
  | outside hfound hin hflag =>
    obtain rfl := Option.some.inj (hfound.symm.trans hrow)
    exact ⟨⟨_, hfound, by simp [hin]⟩, hflag, rfl⟩

/-- **When the recycled flag of a placed entry is right**: it was placed where its row says, and the
flag is that of the group exactly when `HonestIn` says so. -/
theorem placed_flag_iff {op : Placing} {placed : List Uuid} (hone : OneBin m)
    (h : op.run M ord m = .ok (m', placed)) (hu : u ∈ placed) (hrow : m'.entries.find? u = some row) :
    op.Target ord m u row.groupUuid ∧
      (row.isRecycled = m'.groupInBinSubtree row.groupUuid ↔ op.HonestIn M ord m u row.groupUuid) := by
  cases op with
  | createEntry g fields now new =>
    obtain ⟨⟨a, v⟩, ha, h⟩ := except_bind_ok.1 h
    obtain ⟨rfl, rfl⟩ := Prod.mk.inj (Except.ok.inj h)
    obtain rfl := List.mem_singleton.1 hu
    exact createEntry_flag ha hrow
  | moveEntry v g now =>
    obtain ⟨⟨a, out⟩, ha, h⟩ := except_bind_ok.1 h
    obtain ⟨rfl, rfl⟩ := Prod.mk.inj (Except.ok.inj h)
    obtain rfl := List.mem_singleton.1 hu
    have hrun : (StructuralOp.moveEntry u g now).run m = .ok a := by
      rw [StructuralOp.run, ha]
      rfl
    obtain ⟨htarget, hflag⟩ := moveEntry_flag hrun hrow
    exact ⟨htarget, iff_of_true hflag trivial⟩
  | recycleEntry v now bin =>
    obtain ⟨a, ha, h⟩ := except_bind_ok.1 h
    obtain ⟨rfl, rfl⟩ := Prod.mk.inj (Except.ok.inj h)
    split at hu
    · cases hu
    · rename_i hout
      obtain rfl := List.mem_singleton.1 hu
      obtain ⟨htarget, hflag⟩ := recycleEntry_flag ha (Bool.eq_false_iff.2 hout) hrow
      exact ⟨htarget, iff_of_true hflag trivial⟩
  | restoreEntry v now =>
    obtain ⟨a, ha, h⟩ := except_bind_ok.1 h
    obtain ⟨rfl, rfl⟩ := Prod.mk.inj (Except.ok.inj h)
    obtain rfl := List.mem_singleton.1 hu
    obtain ⟨htarget, hflag, hbin⟩ := restoreEntry_flag ha hrow
    refine ⟨htarget, ?_⟩
    rw [hflag, hbin]
    exact eq_comm
  | ingestVault vault source =>
    obtain ⟨a, ha, h⟩ := except_bind_ok.1 h
    obtain ⟨rfl, rfl⟩ := Prod.mk.inj (Except.ok.inj h)
    have hmem := Table.find?_mem hrow
    refine ⟨?_, ingested_flag_iff ha hmem⟩
    have hkey := Table.find?_key hrow
    rw [(ingestVaultWithHeader_tree ha).2] at hmem
    obtain ⟨x, hx, rfl⟩ := List.mem_map.1 hmem
    exact ⟨x, hx, hkey, rfl⟩
  | ingestPeer P =>
    obtain ⟨⟨a, out⟩, ha, h⟩ := except_bind_ok.1 h
    obtain ⟨rfl, rfl⟩ := Prod.mk.inj (Except.ok.inj h)
    obtain ⟨st₁, h₁, hplaced⟩ := ingestPeer_placed hone ha
    obtain ⟨⟨hflag, e, parent, hp, he, hg⟩, hbin⟩ := hplaced u hu row hrow
    refine ⟨⟨st₁, e, parent, h₁, hp, he, hg⟩, ?_⟩
    dsimp only at hbin ⊢
    rw [hbin, hflag, Bool.eq_iff_iff, writtenFlag, Bool.and_eq_true]
    constructor
    · rintro hhonest st₂ h₂
      obtain rfl := Except.ok.inj (h₁.symm.trans h₂)
      exact hhonest
    · exact fun hhonest => hhonest st₁ h₁

end Placings

/-- Created outside the bin the flag is right, and created in the bin it is wrong. -/
theorem placed_flag_work_and_bin :
    (∃ m' row, (Placing.createEntry 2 {} default 7).run fieldMerge .insertion (nestedMirror true) =
        .ok (m', [7]) ∧
      m'.entries.find? 7 = some row ∧ row.isRecycled = m'.groupInBinSubtree row.groupUuid) ∧
    ∃ m' row, (Placing.createEntry 3 {} default 7).run fieldMerge .insertion (nestedMirror true) =
        .ok (m', [7]) ∧
      m'.entries.find? 7 = some row ∧ row.isRecycled ≠ m'.groupInBinSubtree row.groupUuid := by
  have hone : OneBin (nestedMirror true) := by
    unfold OneBin
    decide
  have hcreated : ∀ g ∈ [2, 3], ∃ m' row, (Placing.createEntry g {} default 7).run fieldMerge .insertion
      (nestedMirror true) = .ok (m', [7]) ∧ m'.entries.find? 7 = some row ∧ row.groupUuid = g := by
    intro g hg
    obtain rfl | rfl : g = 2 ∨ g = 3 := by simpa using hg
    · exact ⟨_, _, rfl, rfl, rfl⟩
    · exact ⟨_, _, rfl, rfl, rfl⟩
  constructor
  · obtain ⟨m', row, hrun, hrow, hg⟩ := hcreated 2 (by decide)
    refine ⟨m', row, hrun, hrow, ?_⟩
    rw [(placed_flag_iff hone hrun (List.mem_singleton_self 7) hrow).2, hg, Placing.HonestIn]
    decide
  · obtain ⟨m', row, hrun, hrow, hg⟩ := hcreated 3 (by decide)
    refine ⟨m', row, hrun, hrow, ?_⟩
    rw [Ne, (placed_flag_iff hone hrun (List.mem_singleton_self 7) hrow).2, hg, Placing.HonestIn]
    decide

/-- An entry created in the bin is not flagged. -/
theorem created_in_bin_unflagged : ∃ m' row, GroupTree (nestedMirror true) ∧
    (nestedMirror true).createEntry 3 {} default 7 = .ok (m', 7) ∧ m'.entries.find? 7 = some row ∧
    row.groupUuid = 3 ∧ m'.groupInBinSubtree 3 = true ∧ row.isRecycled = false :=
  ⟨_, _, nestedMirror_groupTree true, rfl, rfl, rfl, rfl, rfl⟩

end KeysCore.Verify
