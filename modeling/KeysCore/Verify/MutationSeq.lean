import KeysCore.Settling
import KeysCore.Verify.EngineOps

/-!
# The mutation sequence counts every content write

A transaction that leaves `mutation_seq` where it was has changed no content (`Advances`), so two
reads of one value of it bracket a stretch in which the projection stood still (`SameContent.project`).
Proved statement by statement, then for the peer ingest, the replacing ingest and the mutations.
-/

namespace KeysCore.Verify

open Lib

/-- The tables a projection reads are the same. -/
structure SameContent (m m' : Mirror) : Prop where
  groups : m'.groups = m.groups
  entries : m'.entries = m.entries
  tombstones : m'.tombstones = m.tombstones
  settings : m'.settings = m.settings

namespace SameContent

theorem refl (m : Mirror) : SameContent m m := ⟨rfl, rfl, rfl, rfl⟩

theorem trans {a b c : Mirror} (h : SameContent a b) (h' : SameContent b c) : SameContent a c :=
  ⟨h'.groups.trans h.groups, h'.entries.trans h.entries, h'.tombstones.trans h.tombstones,
    h'.settings.trans h.settings⟩

/-- **The projection reads no other table.** -/
theorem project {m m' : Mirror} (h : SameContent m m') : m'.project = m.project := by
  unfold Mirror.project loadGroupRows Mirror.entriesOf Mirror.readMeta Mirror.readDeletedObjects
  rw [h.groups, h.entries, h.tombstones, h.settings]

end SameContent

/-- `mutation_seq` did not go back, and moved on if any content did; `persisted_seq` stayed. -/
structure Advances (m m' : Mirror) : Prop where
  le : m.mutationSeq ≤ m'.mutationSeq
  content : m'.mutationSeq = m.mutationSeq → SameContent m m'
  persisted : m'.persistedSeq = m.persistedSeq

namespace Advances

variable {a b c m m' : Mirror}

theorem refl (m : Mirror) : Advances m m := ⟨le_refl _, fun _ => .refl m, rfl⟩

theorem trans (h : Advances a b) (h' : Advances b c) : Advances a c := by
  refine ⟨h.le.trans h'.le, fun e => ?_, h'.persisted.trans h.persisted⟩
  have hb : b.mutationSeq = a.mutationSeq := le_antisymm (e ▸ h'.le) h.le
  exact (h.content hb).trans (h'.content (e.trans hb.symm))

theorem of_lt (h : m.mutationSeq < m'.mutationSeq) (hp : m'.persistedSeq = m.persistedSeq) :
    Advances m m' :=
  ⟨h.le, fun e => absurd e h.ne', hp⟩

theorem of_same (h : SameContent m m') (hseq : m'.mutationSeq = m.mutationSeq)
    (hp : m'.persistedSeq = m.persistedSeq) : Advances m m' :=
  ⟨hseq.ge, fun _ => h, hp⟩

/-- A statement that counts its rows and changes nothing when there is none. -/
theorem of_add {n : Nat} (hseq : m'.mutationSeq = m.mutationSeq + n)
    (hp : m'.persistedSeq = m.persistedSeq) (h : n = 0 → SameContent m m') : Advances m m' :=
  ⟨by omega, fun e => h (by omega), hp⟩

/-! ## Statements -/

theorem insertGroup {g : GroupRow} (h : m.insertGroup g = .ok m') : Advances m m' := by
  unfold Mirror.insertGroup at h
  split at h
  · cases h
  · split at h
    · obtain rfl := Except.ok.inj h
      exact of_lt (Nat.lt_succ_self _) rfl
    · cases h

theorem updateGroups {p : GroupRow → Prop} [DecidablePred p] {f : GroupRow → GroupRow}
    {hu : ∀ r, (f r).uuid = r.uuid} {hp : ∀ r, (f r).parentUuid = r.parentUuid} :
    Advances m (m.updateGroups p f hu hp) :=
  of_add rfl rfl fun h => ⟨Table.update_of_none hu h, rfl, rfl, rfl⟩

theorem setParent {u p : Uuid} {f : GroupRow → GroupRow} {hu : ∀ r, (f r).uuid = r.uuid}
    (h : m.setParent u p f hu = .ok m') : Advances m m' := by
  unfold Mirror.setParent at h
  split at h
  · obtain rfl := Except.ok.inj h
    exact of_add rfl rfl fun h =>
      ⟨Table.update_of_none (f := fun r => { f r with parentUuid := some p }) hu h, rfl, rfl, rfl⟩
  · split at h
    · cases h
    · obtain rfl := Except.ok.inj h
      exact refl m

theorem deleteGroupRow {u : Uuid} (h : m.deleteGroupRow u = .ok m') : Advances m m' := by
  unfold Mirror.deleteGroupRow at h
  split at h
  · obtain rfl := Except.ok.inj h
    exact of_add rfl rfl fun h => ⟨Table.delete_of_none h, rfl, rfl, rfl⟩
  · cases h

theorem insertEntry {e : Entry} {g : Uuid} {b : Bool} (h : m.insertEntry e g b = .ok m') :
    Advances m m' := by
  unfold Mirror.insertEntry at h
  obtain ⟨a, ha, h⟩ := except_bind_ok.1 h
  split at h
  · obtain rfl := Except.ok.inj h
    unfold Mirror.insertEntryRow at ha
    split at ha
    · cases ha
    · split at ha
      · obtain rfl := Except.ok.inj ha
        exact of_lt (Nat.lt_succ_self _) rfl
      · cases ha
  · cases h

theorem updateEntry {u : Uuid} {f : EntryRow → EntryRow} {hu : ∀ r, (f r).uuid = r.uuid}
    {hg : ∀ r, (f r).groupUuid = r.groupUuid} : Advances m (m.updateEntry u f hu hg) :=
  of_add rfl rfl fun h => ⟨rfl, Table.update_of_none hu h, rfl, rfl⟩

theorem placeEntry {u g : Uuid} {f : EntryRow → EntryRow} {hu : ∀ r, (f r).uuid = r.uuid}
    (h : m.placeEntry u g f hu = .ok m') : Advances m m' := by
  unfold Mirror.placeEntry at h
  split at h
  · obtain rfl := Except.ok.inj h
    exact of_add rfl rfl fun h =>
      ⟨rfl, Table.update_of_none (f := fun r => { f r with groupUuid := g }) hu h, rfl, rfl⟩
  · split at h
    · cases h
    · obtain rfl := Except.ok.inj h
      exact refl m

theorem deleteEntries (m : Mirror) (p : EntryRow → Prop) [DecidablePred p] :
    Advances m (m.deleteEntries p) :=
  of_add rfl rfl fun h => ⟨rfl, Table.delete_of_none h, rfl, rfl⟩

theorem putTombstone (m : Mirror) (r : TombstoneRow) : Advances m (m.putTombstone r) :=
  of_lt (Nat.lt_succ_self _) rfl

theorem removeTombstone (m : Mirror) (u : Uuid) : Advances m (m.removeTombstone u) :=
  of_add rfl rfl fun h => ⟨rfl, rfl, Table.delete_of_none h, rfl⟩

theorem dropConflictRow (m : Mirror) (o : String) (u : Uuid) : Advances m (m.dropConflictRow o u) :=
  of_same ⟨rfl, rfl, rfl, rfl⟩ rfl rfl

theorem insertConflictRow {r : ConflictRow} (h : m.insertConflictRow r = .ok m') : Advances m m' := by
  unfold Mirror.insertConflictRow at h
  split at h
  · cases h
  · obtain rfl := Except.ok.inj h
    exact of_same ⟨rfl, rfl, rfl, rfl⟩ rfl rfl

theorem writeSettings (m : Mirror) (f : Settings → Settings) (n : Nat) :
    Advances m (m.writeSettings f (n + 1)) :=
  of_lt (by show m.mutationSeq < m.mutationSeq + (n + 1); omega) rfl

/-! ## The peer ingest -/

theorem writeRecycleBinGroup (m : Mirror) (u : Uuid) : Advances m (m.writeRecycleBinGroup u) :=
  updateGroups.trans updateGroups

theorem clearRecycleBinGroup (m : Mirror) : Advances m m.clearRecycleBinGroup :=
  updateGroups

theorem of_foldl {α : Type} {step : Mirror → α → Mirror} (h : ∀ m a, Advances m (step m a))
    (l : List α) (m : Mirror) : Advances m (l.foldl step m) :=
  foldl_rel refl trans (fun m a _ => h m a) m

section Step

variable {st st' : Mirror × IngestPeerOutcome}

theorem adoptGroup {f : FlatGroup} (h : KeysCore.adoptGroup st f = .ok st') :
    Advances st.1 st'.1 := by
  unfold KeysCore.adoptGroup at h
  split at h
  · obtain rfl := Except.ok.inj h
    exact refl _
  · obtain ⟨m, hm, h⟩ := except_bind_ok.1 h
    obtain rfl := Except.ok.inj h
    exact insertGroup hm

theorem reconcileGroupMetadata {g : GroupInfo}
    (h : KeysCore.reconcileGroupMetadata g st = .ok st') : Advances st.1 st'.1 := by
  unfold KeysCore.reconcileGroupMetadata at h
  split at h
  · obtain rfl := Except.ok.inj h
    exact refl _
  · split at h
    · cases h
    · split at h
      · obtain rfl := Except.ok.inj h
        exact refl _
      · obtain rfl := Except.ok.inj h
        have hone : ∀ hu hp, Advances st.1
            (st.1.updateGroups (fun r => r.uuid = g.id) (GroupRow.adoptMetadata g) hu hp) :=
          fun _ _ => updateGroups
        exact hone (fun _ => rfl) (fun _ => rfl)

theorem reconcileGroupLocation {g : GroupInfo} {p : Uuid}
    (h : KeysCore.reconcileGroupLocation g p st = .ok st') : Advances st.1 st'.1 := by
  unfold KeysCore.reconcileGroupLocation at h
  split at h
  · obtain rfl := Except.ok.inj h
    exact refl _
  · split at h
    · obtain rfl := Except.ok.inj h
      exact refl _
    · split at h
      · obtain rfl := Except.ok.inj h
        exact refl _
      · obtain ⟨m, hm, h⟩ := except_bind_ok.1 h
        obtain rfl := Except.ok.inj h
        exact setParent hm

theorem reconcileGroup {f : FlatGroup} (h : KeysCore.reconcileGroup st f = .ok st') :
    Advances st.1 st'.1 := by
  unfold KeysCore.reconcileGroup at h
  obtain ⟨st₁, h₁, h⟩ := except_bind_ok.1 h
  refine (reconcileGroupMetadata h₁).trans ?_
  split at h
  · obtain rfl := Except.ok.inj h
    exact refl _
  · exact reconcileGroupLocation h

theorem breakGroupCycles {ord : HashOrder} {root : Uuid} {fuel n : Nat}
    (h : KeysCore.breakGroupCycles ord root fuel n st = .ok st') : Advances st.1 st'.1 := by
  induction fuel generalizing n st with
  | zero => cases h
  | succ fuel ih =>
    unfold KeysCore.breakGroupCycles at h
    split at h
    · obtain rfl := Except.ok.inj h
      exact refl _
    · split at h
      · cases h
      · obtain ⟨m, hm, h⟩ := except_bind_ok.1 h
        have hone : Advances st.1 m := setParent hm
        exact hone.trans (ih h)

theorem reconcilePeerGroups {ord : HashOrder} {peer : Vault}
    (h : KeysCore.reconcilePeerGroups ord peer st = .ok st') : Advances st.1 st'.1 := by
  unfold KeysCore.reconcilePeerGroups at h
  obtain ⟨st₁, h₁, h⟩ := except_bind_ok.1 h
  obtain ⟨st₂, h₂, h⟩ := except_bind_ok.1 h
  have hadopt := foldlM_rel (R := fun a b : Mirror × IngestPeerOutcome => Advances a.1 b.1)
    (fun _ => refl _) trans (fun _ _ _ _ => adoptGroup) h₁
  have hrec := foldlM_rel (R := fun a b : Mirror × IngestPeerOutcome => Advances a.1 b.1)
    (fun _ => refl _) trans (fun _ _ _ _ => reconcileGroup) h₂
  exact (hadopt.trans hrec).trans (breakGroupCycles h)

theorem advanceLocalEntry {e : Entry} (h : m.advanceLocalEntry e = .ok m') : Advances m m' := by
  unfold Mirror.advanceLocalEntry at h
  split at h
  · cases h
  · exact (deleteEntries m _).trans (insertEntry h)

theorem persistEntryHistory {e : Entry} (h : m.persistEntryHistory e = .ok m') : Advances m m' := by
  unfold Mirror.persistEntryHistory at h
  split at h
  · obtain rfl := Except.ok.inj h
    exact updateEntry
  · cases h

variable {M : MergeLib} {P : PeerPull}

theorem verdictArm {l p : Entry} {base : HistoryBase}
    (h : P.verdictArm M l p st = .ok (st', base)) : Advances st.1 st'.1 := by
  unfold PeerPull.verdictArm at h
  dsimp only at h
  split at h
  · obtain ⟨rfl, -⟩ := Prod.mk.inj (Except.ok.inj h)
    exact dropConflictRow _ _ _
  · rename_i merged changes _
    obtain ⟨m, hm, h⟩ := except_bind_ok.1 h
    obtain ⟨rfl, -⟩ := Prod.mk.inj (Except.ok.inj h)
    have hchanges : Advances m (changes.foldl (Mirror.applyAttachmentChange p.id) m) :=
      of_foldl (fun _ _ => updateEntry) changes m
    exact ((advanceLocalEntry hm).trans hchanges).trans (dropConflictRow _ _ _)
  · have hdrop := dropConflictRow st.1 P.owner p.id
    split at h
    · obtain ⟨rfl, -⟩ := Prod.mk.inj (Except.ok.inj h)
      exact hdrop
    · obtain ⟨m, hm, h⟩ := except_bind_ok.1 h
      obtain ⟨rfl, -⟩ := Prod.mk.inj (Except.ok.inj h)
      exact hdrop.trans (advanceLocalEntry hm)
    · obtain ⟨m, hm, h⟩ := except_bind_ok.1 h
      obtain ⟨rfl, -⟩ := Prod.mk.inj (Except.ok.inj h)
      exact hdrop.trans (insertConflictRow hm)

theorem reconcileEntryLocation {p : Entry} {parent : Uuid}
    (h : KeysCore.reconcileEntryLocation p parent st = .ok st') : Advances st.1 st'.1 := by
  unfold KeysCore.reconcileEntryLocation at h
  split at h
  · obtain rfl := Except.ok.inj h
    exact refl _
  · split at h
    · obtain rfl := Except.ok.inj h
      exact refl _
    · split at h
      · obtain ⟨m, hm, h⟩ := except_bind_ok.1 h
        obtain rfl := Except.ok.inj h
        exact placeEntry hm
      · obtain rfl := Except.ok.inj h
        exact refl _

/-- A history pass that reports a change wrote it. -/
theorem of_changed {x : Except EngineError (Entry × Bool)} {b : Bool}
    (h : (do
      let (merged, changed) ← x
      if changed then return (← m.persistEntryHistory merged, true) else return (m, false)) =
        Except.ok (m', b)) : Advances m m' := by
  obtain ⟨⟨merged, changed⟩, -, h⟩ := except_bind_ok.1 h
  dsimp only at h
  split at h
  · obtain ⟨a, ha, h⟩ := except_bind_ok.1 h
    obtain ⟨rfl, -⟩ := Prod.mk.inj (Except.ok.inj h)
    exact persistEntryHistory ha
  · obtain ⟨rfl, -⟩ := Prod.mk.inj (Except.ok.inj h)
    exact refl _

theorem reconcileHistory {ctx : HistoryFoldContext} {base : HistoryBase} {l p : Entry} {b : Bool}
    (h : KeysCore.reconcileHistory M ctx base l p m = .ok (m', b)) : Advances m m' := by
  have hfold : ∀ base other, foldEntryHistoryIntoMirror M ctx base other m = .ok (m', b) →
      Advances m m' := by
    intro base other h
    unfold foldEntryHistoryIntoMirror at h
    split at h
    · obtain ⟨rfl, -⟩ := Prod.mk.inj (Except.ok.inj h)
      exact refl _
    · exact of_changed h
  cases base with
  | held =>
    unfold KeysCore.reconcileHistory reconcileEntryHistoryTombstones at h
    dsimp only at h
    split at h
    · obtain ⟨rfl, -⟩ := Prod.mk.inj (Except.ok.inj h)
      exact refl _
    · exact of_changed h
  | ofLocal => exact hfold _ _ h
  | autoMerged merged => exact hfold _ _ h
  | ofPeer => exact hfold _ _ h

theorem ingestEntry {pe : Entry × Uuid} (h : P.ingestEntry M st pe = .ok st') :
    Advances st.1 st'.1 := by
  unfold PeerPull.ingestEntry at h
  split at h
  · unfold PeerPull.ingestPeerOnly at h
    dsimp only at h
    split at h
    · obtain rfl := Except.ok.inj h
      exact refl _
    · obtain ⟨m, hm, h⟩ := except_bind_ok.1 h
      obtain rfl := Except.ok.inj h
      refine Advances.trans ?_ (insertEntry hm)
      split
      · exact removeTombstone _ _
      · exact refl _
  · unfold PeerPull.ingestShared at h
    obtain ⟨⟨st₁, base⟩, h₁, h⟩ := except_bind_ok.1 h
    obtain ⟨st₂, h₂, h⟩ := except_bind_ok.1 h
    obtain ⟨⟨m₃, changed⟩, h₃, h⟩ := except_bind_ok.1 h
    obtain rfl := Except.ok.inj h
    exact ((verdictArm h₁).trans (reconcileEntryLocation h₂)).trans (reconcileHistory h₃)

theorem reconcilePeerDeletes (st : Mirror × IngestPeerOutcome) :
    Advances st.1 (P.reconcilePeerDeletes st).1 := by
  refine foldl_rel (R := fun a b : Mirror × IngestPeerOutcome => Advances a.1 b.1) (fun _ => refl _)
    trans (fun a u _ => ?_) st
  unfold PeerPull.reconcileDelete
  split
  · split
    · exact refl _
    · exact deleteEntries _ _
  · exact refl _

theorem unionPeerTombstones (deleted : List DeletedObject) (m : Mirror) :
    Advances m (KeysCore.unionPeerTombstones deleted m) := by
  refine of_foldl (fun m u => ?_) _ m
  unfold unionPeerTombstone
  split
  · exact refl _
  · split
    · exact refl _
    · unfold unionTombstone
      dsimp only
      split
      · exact putTombstone _ _
      · split
        · exact refl _
        · exact putTombstone _ _

theorem unionPeerCustomIcons (icons : List CustomIcon) (m : Mirror) :
    Advances m (KeysCore.unionPeerCustomIcons icons m) := by
  refine of_foldl (fun m i => ?_) _ m
  unfold unionIcon
  split
  · exact refl _
  · exact writeSettings _ _ 0

theorem materializeGroupTombstones (h : KeysCore.materializeGroupTombstones st = .ok st') :
    Advances st.1 st'.1 := by
  unfold KeysCore.materializeGroupTombstones at h
  obtain ⟨m, hm, h⟩ := except_bind_ok.1 h
  obtain rfl := Except.ok.inj h
  exact (of_foldl removeTombstone _ st.1).trans
    (foldlM_rel refl trans (fun _ _ _ _ => deleteGroupRow) hm)

theorem reconcilePeerMeta (a b : Meta) (m : Mirror) :
    Advances m (KeysCore.reconcilePeerMeta a b m) := by
  unfold KeysCore.reconcilePeerMeta
  split
  · exact refl _
  · have hwrite : Advances m ((m.writeMetaScalars b).writeRecycleBinEnabled b.recycleBinEnabled) :=
      (writeSettings m _ 12).trans (writeSettings _ _ 0)
    dsimp only
    split
    · split
      · exact hwrite.trans (writeRecycleBinGroup _ _)
      · exact hwrite.trans (clearRecycleBinGroup _)
    · exact hwrite.trans (clearRecycleBinGroup _)

/-- **A peer ingest that leaves `mutation_seq` has changed no content.** -/
theorem ingestPeer {ord : HashOrder} (h : KeysCore.ingestPeer M ord P m = .ok st) :
    Advances m st.1 := by
  unfold KeysCore.ingestPeer at h
  obtain ⟨st₁, h₁, h⟩ := except_bind_ok.1 h
  obtain ⟨st₂, h₂, h⟩ := except_bind_ok.1 h
  obtain ⟨st₄, h₄, h⟩ := except_bind_ok.1 h
  obtain rfl := Except.ok.inj h
  have hwalk := foldlM_rel (R := fun a b : Mirror × IngestPeerOutcome => Advances a.1 b.1)
    (fun _ => refl _) trans (fun _ _ _ _ => ingestEntry) h₂
  have hdeletes : Advances m (P.reconcilePeerDeletes st₂).1 :=
    ((reconcilePeerGroups h₁).trans hwalk).trans (reconcilePeerDeletes st₂)
  have hunion := (unionPeerTombstones P.peer.deletedObjects (P.reconcilePeerDeletes st₂).1).trans
    (unionPeerCustomIcons P.peer.metadata.customIcons _)
  exact ((hdeletes.trans hunion).trans (materializeGroupTombstones h₄)).trans
    (reconcilePeerMeta _ _ _)

end Step

/-! ## The replacing ingest -/

/-- **Replacing the mirror moves `mutation_seq` on.** -/
theorem writeContent {a : Mirror} {vault : Vault} (ha : m.cleared.writeMeta vault = .ok a)
    (h : a.writeTree vault = .ok m') : m.mutationSeq < m'.mutationSeq := by
  have hmeta : m.mutationSeq < a.mutationSeq := by
    unfold Mirror.writeMeta at ha
    obtain ⟨icons, -, ha⟩ := except_bind_ok.1 ha
    obtain ⟨data, -, ha⟩ := except_bind_ok.1 ha
    obtain ⟨tombstones, -, ha⟩ := except_bind_ok.1 ha
    obtain rfl := Except.ok.inj ha
    show m.mutationSeq < m.cleared.mutationSeq + metaScalarRows + _ + _ + _ + 1
    have : m.mutationSeq ≤ m.cleared.mutationSeq := by
      unfold Mirror.cleared
      dsimp only
      omega
    omega
  unfold Mirror.writeTree at h
  obtain ⟨b, hb, h⟩ := except_bind_ok.1 h
  have hgroups := foldlM_rel refl trans (fun _ _ _ _ => insertGroup) hb
  have hentries := foldlM_rel refl trans (fun _ _ _ _ => insertEntry) h
  exact hmeta.trans_le (hgroups.trans hentries).le

/-- The replacement leaves the watermark to its caller. -/
theorem writeContent_persisted {a : Mirror} {vault : Vault} (ha : m.cleared.writeMeta vault = .ok a)
    (h : a.writeTree vault = .ok m') : m'.persistedSeq = m.persistedSeq := by
  unfold Mirror.writeMeta at ha
  obtain ⟨icons, -, ha⟩ := except_bind_ok.1 ha
  obtain ⟨data, -, ha⟩ := except_bind_ok.1 ha
  obtain ⟨tombstones, -, ha⟩ := except_bind_ok.1 ha
  obtain rfl := Except.ok.inj ha
  unfold Mirror.writeTree at h
  obtain ⟨b, hb, h⟩ := except_bind_ok.1 h
  have hgroups := foldlM_rel refl trans (fun _ _ _ _ => insertGroup) hb
  have hentries := foldlM_rel refl trans (fun _ _ _ _ => insertEntry) h
  exact (hgroups.trans hentries).persisted

theorem ingestVaultWithHeader {vault : Vault} {source : Source}
    (h : KeysCore.ingestVaultWithHeader vault source m = .ok m') : m.mutationSeq < m'.mutationSeq := by
  unfold KeysCore.ingestVaultWithHeader at h
  split at h
  · split at h
    · cases h
    · obtain ⟨a, ha, h⟩ := except_bind_ok.1 h
      obtain ⟨b, hb, h⟩ := except_bind_ok.1 h
      have hlt := writeContent ha hb
      split at h
      · obtain rfl := Except.ok.inj h
        exact hlt
      · obtain rfl := Except.ok.inj h
        exact hlt
  · split at h
    · cases h
    · obtain ⟨a, ha, h⟩ := except_bind_ok.1 h
      exact writeContent ha h

/-- The ingest of the file settles the watermark or leaves it. -/
theorem ingestFile_persisted {vault : Vault} {settles : Bool}
    (h : KeysCore.ingestVaultWithHeader vault (.vaultFile settles) m = .ok m') :
    m'.persistedSeq = m'.mutationSeq ∨ m'.persistedSeq = m.persistedSeq := by
  unfold KeysCore.ingestVaultWithHeader at h
  dsimp only at h
  split at h
  · cases h
  · obtain ⟨a, ha, h⟩ := except_bind_ok.1 h
    obtain ⟨b, hb, h⟩ := except_bind_ok.1 h
    split at h
    · obtain rfl := Except.ok.inj h
      exact .inl rfl
    · obtain rfl := Except.ok.inj h
      exact .inr (writeContent_persisted ha hb)

/-- **A mirror that owes a write refuses the file.** -/
theorem ingestFile_clean {vault : Vault} {settles : Bool}
    (h : KeysCore.ingestVaultWithHeader vault (.vaultFile settles) m = .ok m') : m.isDirty = false := by
  unfold KeysCore.ingestVaultWithHeader at h
  dsimp only at h
  split at h
  · cases h
  · rename_i hclean
    simpa using hclean

/-- **A projected vault lands on the `mutation_seq` it was projected at only.** -/
theorem ingestProjectedVault_seq {vault : Vault} {seq : Nat}
    (h : KeysCore.ingestProjectedVault vault seq m = .ok m') : m.mutationSeq = seq := by
  unfold KeysCore.ingestProjectedVault KeysCore.ingestVaultWithHeader at h
  dsimp only at h
  split at h
  · cases h
  · rename_i hseq
    simpa [eq_comm] using hseq

/-! ## Mutations -/

theorem recordTombstone (m : Mirror) (u : Uuid) (now : EpochMs) :
    Advances m (m.recordTombstone u now) := putTombstone m _

theorem renumber (order : List Uuid) (i : Nat) (m : Mirror) :
    Advances m (Mirror.renumber i order m) := by
  induction order generalizing i m with
  | nil => exact refl m
  | cons u order ih => exact updateGroups.trans (ih (i + 1) _)

theorem deleteDirectChildEntries (now : EpochMs) (g p : Uuid) (st : Mirror × DeleteGroupOutcome) :
    Advances st.1 (Mirror.deleteDirectChildEntries now g p st).1 :=
  (of_foldl (fun m u => recordTombstone m u now) _ st.1).trans (deleteEntries _ _)

theorem deleteGroupRecursive {now : EpochMs} {fuel : Nat} {u : Uuid} {p : Option Uuid}
    {st st' : Mirror × DeleteGroupOutcome}
    (h : Mirror.deleteGroupRecursive now fuel u p st = .ok st') : Advances st.1 st'.1 := by
  induction fuel generalizing u p st st' with
  | zero => cases h
  | succ fuel ih =>
    unfold Mirror.deleteGroupRecursive at h
    obtain ⟨st₁, h₁, h⟩ := except_bind_ok.1 h
    obtain ⟨m, hm, h⟩ := except_bind_ok.1 h
    obtain rfl := Except.ok.inj h
    have hkids := foldlM_rel (R := fun a b : Mirror × DeleteGroupOutcome => Advances a.1 b.1)
      (fun _ => refl _) trans (fun _ _ _ _ => ih) h₁
    exact ((hkids.trans (deleteDirectChildEntries now u u st₁)).trans (deleteGroupRow hm)).trans
      (recordTombstone m u now)

theorem setBin (m : Mirror) (enabled : Bool) (now : EpochMs) :
    Advances m ((m.writeRecycleBinEnabled enabled).writeRecycleBinChanged now) :=
  (writeSettings m _ 0).trans (writeSettings _ _ 0)

theorem createRecycleBinGroup {now : EpochMs} {bin : Uuid}
    (h : m.createRecycleBinGroup now bin = .ok m') : Advances m m' := by
  unfold Mirror.createRecycleBinGroup at h
  split at h
  · cases h
  · obtain ⟨a, ha, h⟩ := except_bind_ok.1 h
    obtain rfl := Except.ok.inj h
    exact ((insertGroup ha).trans (writeRecycleBinGroup a bin)).trans (setBin _ true now)

theorem deleteEntry (m : Mirror) (u : Uuid) (now : EpochMs) :
    Advances m ((m.deleteEntries (fun e => e.uuid = u)).recordTombstone u now) :=
  (deleteEntries m _).trans (recordTombstone _ u now)

theorem structural {op : StructuralOp} (h : op.run m = .ok m') : Advances m m' := by
  cases StructuralOp.run_commits h with
  | createGroup _ hins => exact insertGroup hins
  | moveGroup _ _ hset => exact setParent hset
  | recycleGroup _ _ hset => exact setParent hset
  | reorderGroup => exact (renumber _ 0 m).trans updateGroups
  | deleteGroup _ hdel => exact deleteGroupRecursive hdel
  | noBin => exact refl m
  | emptyBin _ hst =>
    have hkids := foldlM_rel (R := fun a b : Mirror × DeleteGroupOutcome => Advances a.1 b.1)
      (fun _ => refl _) trans (fun _ _ _ _ => deleteGroupRecursive) hst
    exact hkids.trans (deleteDirectChildEntries _ _ _ _)
  | setBin => exact (writeRecycleBinGroup m _).trans (setBin _ _ _)
  | clearBin => exact (clearRecycleBinGroup m).trans (setBin _ _ _)
  | moveEntry _ hplace => exact placeEntry hplace
  | inBin => exact refl m
  | recycled _ _ _ hplace => exact placeEntry hplace
  | recycledNew _ _ _ _ hbin hplace => exact (createRecycleBinGroup hbin).trans (placeEntry hplace)
  | deleted => exact deleteEntry m _ _
  | restored _ _ _ hplace => exact placeEntry hplace
  | unflagged => exact updateEntry
  | outside => exact refl m

theorem insertEntryRow {row : EntryRow} (h : m.insertEntryRow row = .ok m') : Advances m m' := by
  unfold Mirror.insertEntryRow at h
  split at h
  · cases h
  · split at h
    · obtain rfl := Except.ok.inj h
      exact of_lt (Nat.lt_succ_self _) rfl
    · cases h

theorem createEntry {g u v : Uuid} {fields : NewEntryFields} {now : EpochMs}
    (h : m.createEntry g fields now u = .ok (m', v)) : Advances m m' := by
  unfold Mirror.createEntry at h
  split at h
  · obtain ⟨a, ha, h⟩ := except_bind_ok.1 h
    split at h
    · obtain ⟨rfl, -⟩ := Prod.mk.inj (Except.ok.inj h)
      exact insertEntryRow ha
    · cases h
  · cases h

theorem editsRow {R : EntryRow → EntryRow → Prop} {u : Uuid} (h : EditsRow R u m m') :
    Advances m m' := by
  induction h with
  | refl => exact refl m
  | step _ _ _ ih => exact ih.trans updateEntry

theorem bump (m : Mirror) (n : Nat) : Advances m (m.bump n) :=
  of_add rfl rfl fun _ => ⟨rfl, rfl, rfl, rfl⟩

/-- **A mutation that leaves `mutation_seq` has changed no content.** -/
theorem mutate {E : EngineEnv} {op : EngineOp} (h : op.run E m = .ok m') : Advances m m' := by
  cases EngineOp.run_commits h with
  | structural h => exact structural h
  | updateGroup => exact updateGroups.trans (bump _ _)
  | createEntry h => exact createEntry h
  | editEntry h => exact editsRow (EntryEdit.run_editsRow h)
  | deleteEntry => exact deleteEntry m _ _
  | binPresent => exact refl m
  | binCreated _ _ h => exact createRecycleBinGroup h
  | binDisabled => exact refl m
  | iconPresent => exact refl m
  | iconAdded => exact writeSettings m _ 0
  | setHistoryMaxItems => exact writeSettings m _ 0
  | setHistoryMaxSize => exact writeSettings m _ 0

theorem dropConflictRows (m : Mirror) (u : Uuid) : Advances m (m.dropConflictRows u) :=
  of_same ⟨rfl, rfl, rfl, rfl⟩ rfl rfl

theorem dropConflictOwners (m : Mirror) (u : Uuid) (owners : List String) :
    Advances m (m.dropConflictOwners u owners) :=
  of_foldl (fun m o => dropConflictRow m o u) owners m

theorem dropResolvedRows (m : Mirror) (r : Resolution) : Advances m (m.dropResolvedRows r) :=
  of_foldl dropConflictRows r.entries m

/-- Replacing the mirror from memory leaves the watermark. -/
theorem ingestInMemory {vault : Vault} {seq : Option Nat}
    (h : KeysCore.ingestVaultWithHeader vault (.inMemory seq) m = .ok m') : Advances m m' := by
  have hlt := ingestVaultWithHeader h
  refine of_lt hlt ?_
  unfold KeysCore.ingestVaultWithHeader at h
  dsimp only at h
  split at h
  · cases h
  · obtain ⟨a, ha, h⟩ := except_bind_ok.1 h
    exact writeContent_persisted ha h

theorem applyConflictResolution {L : VaultMergeLib} {ctx : PendingConflictContext L} {r : Resolution}
    {now : DateTime} (h : KeysCore.applyConflictResolution ctx r now m = .ok m') : Advances m m' := by
  obtain ⟨v, -, h⟩ := except_bind_ok.1 h
  obtain ⟨a, ha, h⟩ := except_bind_ok.1 h
  obtain rfl := Except.ok.inj h
  exact (ingestInMemory ha).trans (dropResolvedRows a r)

end Advances

end KeysCore.Verify
