import KeysCore.Verify.EntryBodies

/-!
# What holds of every entry's row

A property of rows that an insert establishes and every other write keeps (`RowRule`) holds of every
row along a run: an ingest writes all rows anew, a pull writes those of the entries it advances, a
mutation edits one, and what else they do to a row is to place it, to fold its history or to change its
attachments (`RowRule.run`).
-/

namespace KeysCore.Verify

open Lib

/-- Every entry's row has `Q`. -/
def EveryRow (Q : EntryRow → Prop) (m : Mirror) : Prop := ∀ r ∈ m.entries.rows, Q r

/-- `Q` is established by the inserts of a row and kept by what is done to one. -/
structure RowRule (H : HistoryLib) (Q : EntryRow → Prop) : Prop where
  insert (e : Entry) (g : Uuid) (b : Bool) : e.SideKeys → Q (e.toRow g b)
  create (g : Uuid) (fields : NewEntryFields) (now : EpochMs) (u : Uuid) :
    ((protectedOf fields.customFields).map (·.1)).Nodup →
    ((plainOf fields.customFields).map (·.1)).Nodup → Q (createdRow g fields now u)
  edit {s : Settings} {e : EntryEdit} {r r' : EntryRow} : Q r → e.Step H s r r' → Q r'
  place (r : EntryRow) (u g : Uuid) (b : Bool) (p : Option Uuid) (t : Option EpochMs) (now : EpochMs) :
    Q r → Q { r with
      uuid := u
      groupUuid := g
      isRecycled := b
      previousParentUuid := p
      locationChangedAt := t
      modifiedAt := now }
  history (r : EntryRow) (merged : Entry) : Q r → Q (r.withHistoryOf merged)
  attachments (r : EntryRow) (c : AttachmentChange) :
    Q r → Q { r with attachments := c.apply r.attachments }

namespace EveryRow

variable {Q : EntryRow → Prop} {m m' : Mirror}

theorem of_entries (hm : EveryRow Q m) (h : m'.entries = m.entries) : EveryRow Q m' := fun r hr =>
  hm r (by rwa [h] at hr)

theorem find (hm : EveryRow Q m) {u : Uuid} {r : EntryRow} (h : m.entries.find? u = some r) : Q r :=
  hm r (Table.find?_mem h)

theorem deleteEntries (hm : EveryRow Q m) (p : EntryRow → Prop) [DecidablePred p] :
    EveryRow Q (m.deleteEntries p) := fun r hr => hm r (Table.mem_delete.1 hr).1

theorem updateEntry (hm : EveryRow Q m) {u : Uuid} {f : EntryRow → EntryRow}
    (hu : ∀ r, (f r).uuid = r.uuid) (hg : ∀ r, (f r).groupUuid = r.groupUuid)
    (hf : ∀ r, Q r → Q (f r)) : EveryRow Q (m.updateEntry u f hu hg) := by
  intro r hr
  obtain ⟨a, ha, rfl⟩ := (Table.mem_update hu).1 hr
  split
  · exact hf a (hm a ha)
  · exact hm a ha

/-- Only the row of `u` may be another one. -/
theorem of_others (hm : EveryRow Q m) {u : Uuid}
    (h : ∀ v, v ≠ u → m'.entries.find? v = m.entries.find? v)
    (hu : ∀ r, m'.entries.find? u = some r → Q r) : EveryRow Q m' := by
  intro r hr
  have hfind := Table.find?_of_mem hr
  by_cases e : r.uuid = u
  · rw [e] at hfind
    exact hu r hfind
  · rw [h _ e] at hfind
    exact hm.find hfind

end EveryRow

namespace RowRule

variable {H : HistoryLib} {Q : EntryRow → Prop} {m m' : Mirror}

/-- A row with the body of one that has `Q`. -/
theorem of_body (hQ : RowRule H Q) {r r' : EntryRow} (h : EntryRow.body r' = EntryRow.body r)
    (hr : Q r) : Q r' := by
  have hplaced := hQ.place r r'.uuid r'.groupUuid r'.isRecycled r'.previousParentUuid
    r'.locationChangedAt r'.modifiedAt hr
  have heq : r' = { r with
      uuid := r'.uuid
      groupUuid := r'.groupUuid
      isRecycled := r'.isRecycled
      previousParentUuid := r'.previousParentUuid
      locationChangedAt := r'.locationChangedAt
      modifiedAt := r'.modifiedAt } := by
    cases r
    cases r'
    simp only [EntryRow.body, EntryRow.mk.injEq] at h ⊢
    simp only [h, and_self]
  rw [heq]
  exact hplaced

theorem of_fewerBodies (hQ : RowRule H Q) (hm : EveryRow Q m) (h : FewerBodies m m') :
    EveryRow Q m' := by
  intro r hr
  have hfind := Table.find?_of_mem hr
  have hbody : bodyOf m' r.uuid = some (EntryRow.body r) := by rw [bodyOf, hfind, Option.map_some]
  rcases h r.uuid with hnone | hsame
  · rw [hbody] at hnone
    cases hnone
  · rw [hbody] at hsame
    obtain ⟨a, ha, hab⟩ := Option.map_eq_some_iff.1 hsame.symm
    exact hQ.of_body hab.symm (hm.find ha)

theorem insertEntry (hQ : RowRule H Q) (hm : EveryRow Q m) {e : Entry} {g : Uuid} {b : Bool}
    (h : m.insertEntry e g b = .ok m') : EveryRow Q m' := by
  have hrows := (insertEntry_rows h).1
  unfold Mirror.insertEntry at h
  obtain ⟨a, -, h⟩ := except_bind_ok.1 h
  split at h
  · rename_i hkeys
    intro r hr
    rw [hrows] at hr
    rcases List.mem_append.1 hr with hr | hr
    · exact hm r hr
    · rw [List.mem_singleton.1 hr]
      exact hQ.insert e g b hkeys
  · cases h

/-! ## Mutations -/

theorem editsRow (hQ : RowRule H Q) (hm : EveryRow Q m) {s : Settings} {e : EntryEdit} {u : Uuid}
    (h : EditsRow (e.Step H s) u m m') : EveryRow Q m' := by
  induction h with
  | refl => exact hm
  | @step a row row' _ hfind hstep ih =>
    have hrow' := hQ.edit (ih.find hfind) hstep
    refine ih.updateEntry _ _ fun r _ => ?_
    exact hQ.place row' r.uuid r.groupUuid row'.isRecycled row'.previousParentUuid
      row'.locationChangedAt row'.modifiedAt hrow'

theorem mutate {E : EngineEnv} (hQ : RowRule E.history Q) (hm : EveryRow Q m) {op : EngineOp}
    (h : op.run E m = .ok m') : EveryRow Q m' := by
  cases EngineOp.run_commits h with
  | structural h => exact hQ.of_fewerBodies hm (StructuralOp.run_bodies h).1
  | updateGroup => exact hm.of_entries rfl
  | createEntry h =>
    obtain ⟨hone, -, hrow, -, hprot, hplain⟩ := createEntry_row h
    refine hm.of_others hone.entries fun r hr => ?_
    obtain rfl := Option.some.inj (hrow.symm.trans hr)
    exact hQ.create _ _ _ _ hprot hplain
  | editEntry h => exact hQ.editsRow hm (EntryEdit.run_editsRow h)
  | deleteEntry => exact (hm.deleteEntries _).of_entries rfl
  | binPresent => exact hm
  | binCreated _ _ h => exact hm.of_entries (createRecycleBinGroup_entries h)
  | binDisabled => exact hm
  | iconPresent => exact hm
  | iconAdded => exact hm.of_entries rfl
  | setHistoryMaxItems => exact hm.of_entries rfl
  | setHistoryMaxSize => exact hm.of_entries rfl

/-! ## Ingests -/

/-- **An ingest writes every row.** -/
theorem ingest (hQ : RowRule H Q) {vault : Vault} {source : Source}
    (h : ingestVaultWithHeader vault source m = .ok m') : EveryRow Q m' := by
  obtain ⟨a, b, ha, hb, -, he, -⟩ := ingestVaultWithHeader_stages h
  obtain ⟨-, -, hea, -⟩ := writeMeta_written ha
  unfold Mirror.writeTree at hb
  obtain ⟨c, hc, hb⟩ := except_bind_ok.1 hb
  have hgroups : c.entries = a.entries :=
    foldlM_rel (R := fun x y : Mirror => y.entries = x.entries) (fun _ => rfl)
      (fun h h' => h'.trans h) (fun _ _ _ _ hs => (insertGroup_rows hs).2) hc
  have hempty : EveryRow Q c := by
    intro r hr
    rw [hgroups, hea] at hr
    cases hr
  exact (foldlM_inv (P := EveryRow Q) (fun _ hs _ _ _ hstep => hQ.insertEntry hs hstep) hempty
    hb).of_entries he

section Pull

variable {M : MergeLib} {P : PeerPull} {st st' : Mirror × IngestPeerOutcome}

theorem advanceLocalEntry (hQ : RowRule H Q) (hm : EveryRow Q m) {e : Entry}
    (h : m.advanceLocalEntry e = .ok m') : EveryRow Q m' := by
  unfold Mirror.advanceLocalEntry at h
  split at h
  · cases h
  · exact hQ.insertEntry (hm.deleteEntries _) h

theorem persistEntryHistory (hQ : RowRule H Q) (hm : EveryRow Q m) {e : Entry}
    (h : m.persistEntryHistory e = .ok m') : EveryRow Q m' := by
  unfold Mirror.persistEntryHistory at h
  split at h
  · obtain rfl := Except.ok.inj h
    exact hm.updateEntry _ _ fun r hr => hQ.history r e hr
  · cases h

theorem verdictArm (hQ : RowRule H Q) {l p : Entry} {base : HistoryBase} (hm : EveryRow Q st.1)
    (h : P.verdictArm M l p st = .ok (st', base)) : EveryRow Q st'.1 := by
  have hdrop : EveryRow Q (st.1.dropConflictRow P.owner p.id) := hm.of_entries rfl
  unfold PeerPull.verdictArm at h
  dsimp only at h
  split at h
  · obtain ⟨rfl, -⟩ := Prod.mk.inj (Except.ok.inj h)
    exact hdrop
  · obtain ⟨a, ha, h⟩ := except_bind_ok.1 h
    obtain ⟨rfl, -⟩ := Prod.mk.inj (Except.ok.inj h)
    have hfiles : ∀ changes : List AttachmentChange,
        EveryRow Q (changes.foldl (Mirror.applyAttachmentChange p.id) a) := fun changes =>
      List.foldlRecOn changes _ (hQ.advanceLocalEntry hm ha) fun _ hb c _ =>
        hb.updateEntry _ _ fun r hr => hQ.attachments r c hr
    exact (hfiles _).of_entries rfl
  · split at h
    · obtain ⟨rfl, -⟩ := Prod.mk.inj (Except.ok.inj h)
      exact hdrop
    · obtain ⟨a, ha, h⟩ := except_bind_ok.1 h
      obtain ⟨rfl, -⟩ := Prod.mk.inj (Except.ok.inj h)
      exact hQ.advanceLocalEntry hdrop ha
    · obtain ⟨a, ha, h⟩ := except_bind_ok.1 h
      obtain ⟨rfl, -⟩ := Prod.mk.inj (Except.ok.inj h)
      exact hdrop.of_entries (writePeerEntry_touches ha).2.1

theorem reconcileEntryLocation (hQ : RowRule H Q) {p : Entry} {parent : Uuid} (hm : EveryRow Q st.1)
    (h : KeysCore.reconcileEntryLocation p parent st = .ok st') : EveryRow Q st'.1 := by
  obtain ⟨hone, hfind, -⟩ := reconcileEntryLocation_spec h
  refine hm.of_others hone.entries fun r hr => ?_
  rw [hfind] at hr
  obtain ⟨a, ha, rfl⟩ := Option.map_eq_some_iff.1 hr
  refine hQ.of_body ?_ (hm.find ha)
  unfold locatedRow
  split
  · rfl
  · split <;> rfl

theorem ingestEntry (hQ : RowRule H Q) {pe : Entry × Uuid} (hm : EveryRow Q st.1)
    (h : P.ingestEntry M st pe = .ok st') : EveryRow Q st'.1 := by
  unfold PeerPull.ingestEntry at h
  split at h
  · unfold PeerPull.ingestPeerOnly at h
    dsimp only at h
    split at h
    · obtain rfl := Except.ok.inj h
      exact hm
    · obtain ⟨a, ha, h⟩ := except_bind_ok.1 h
      obtain rfl := Except.ok.inj h
      refine hQ.insertEntry ?_ ha
      split
      · exact hm.of_entries rfl
      · exact hm
  · obtain ⟨⟨a, base⟩, ha, h⟩ := except_bind_ok.1 h
    obtain ⟨b, hb, h⟩ := except_bind_ok.1 h
    obtain ⟨⟨c, changed⟩, hc, h⟩ := except_bind_ok.1 h
    obtain rfl := Except.ok.inj h
    have hplaced := hQ.reconcileEntryLocation (hQ.verdictArm hm ha) hb
    rcases reconcileHistory_spec hc with ⟨-, rfl, -⟩ | ⟨e, -, he, -⟩
    · exact hplaced
    · exact hQ.persistEntryHistory hplaced he

/-- **A pull keeps what holds of every row.** -/
theorem ingestPeer (hQ : RowRule H Q) {ord : HashOrder} (hm : EveryRow Q m)
    (h : KeysCore.ingestPeer M ord P m = .ok st) : EveryRow Q st.1 := by
  unfold KeysCore.ingestPeer at h
  obtain ⟨st₁, h₁, h⟩ := except_bind_ok.1 h
  obtain ⟨st₂, h₂, h⟩ := except_bind_ok.1 h
  obtain ⟨st₄, h₄, h⟩ := except_bind_ok.1 h
  obtain rfl := Except.ok.inj h
  have hgroups : EveryRow Q st₁.1 :=
    hm.of_entries (GroupPass.of_reconcilePeerGroups h₁).rest.entries
  have hwalk : EveryRow Q st₂.1 :=
    foldlM_inv (P := fun a : Mirror × IngestPeerOutcome => EveryRow Q a.1)
      (fun _ hs _ _ _ hstep => hQ.ingestEntry hs hstep) hgroups h₂
  have hdel : EveryRow Q (P.reconcilePeerDeletes st₂).1 := by
    unfold PeerPull.reconcilePeerDeletes
    refine List.foldlRecOn (motive := fun a : Mirror × IngestPeerOutcome => EveryRow Q a.1) _ _ hwalk
      fun a ha u _ => ?_
    unfold PeerPull.reconcileDelete
    split
    · split
      · exact ha
      · exact ha.deleteEntries _
    · exact ha
  obtain ⟨htomb, -⟩ := unionPeerTombstones_spec P.peer.deletedObjects (P.reconcilePeerDeletes st₂).1
  obtain ⟨hicon, -⟩ := unionPeerCustomIcons_same P.peer.metadata.customIcons
    (unionPeerTombstones P.peer.deletedObjects (P.reconcilePeerDeletes st₂).1)
  have hmat := (materializeGroupTombstones_spec h₄).1
  refine hdel.of_entries ?_
  rw [(reconcilePeerMeta_same P.localVault.metadata (P.mergedMeta M) st₄.1).1, hmat, hicon.entries,
    htomb.entries]

end Pull

/-! ## Runs -/

section Run

variable {Λ : Libs}

theorem applyDissolve (hQ : RowRule H Q) {u : Uuid} {d : DissolveDecision} {b : Bool}
    (hm : EveryRow Q m) (h : KeysCore.applyDissolve u m d = .ok (m', b)) : EveryRow Q m' := by
  cases d with
  | dropAll =>
    obtain ⟨rfl, -⟩ := Prod.mk.inj (Except.ok.inj h)
    exact hm.of_entries rfl
  | settle dropped adopt =>
    cases adopt with
    | none =>
      obtain ⟨rfl, -⟩ := Prod.mk.inj (Except.ok.inj h)
      exact hm.of_entries (dropConflictOwners_sameContent m u dropped).entries
    | some a =>
      obtain ⟨a, ha, h⟩ := except_bind_ok.1 h
      obtain ⟨rfl, -⟩ := Prod.mk.inj (Except.ok.inj h)
      exact (hQ.ingest ha).of_entries rfl

theorem applyConflictResolution (hQ : RowRule H Q) {L : VaultMergeLib}
    {ctx : PendingConflictContext L} {r : Resolution} {now : DateTime}
    (h : KeysCore.applyConflictResolution ctx r now m = .ok m') : EveryRow Q m' := by
  obtain ⟨v, -, h⟩ := except_bind_ok.1 h
  obtain ⟨a, ha, h⟩ := except_bind_ok.1 h
  obtain rfl := Except.ok.inj h
  exact (hQ.ingest ha).of_entries (dropResolvedRows_sameContent a r).entries

theorem step (hQ : RowRule Λ.env.history Q) {s s' : EngineState Λ.vaults} {txn : EngineTxn}
    (hs : EveryRow Q s.mirror) (h : txn.run Λ s = .ok s') : EveryRow Q s'.mirror := by
  cases EngineTxn.run_step h with
  | mutate hop => exact hQ.mutate hs hop
  | pull _ _ hpull => exact hQ.ingestPeer hs hpull
  | ingestFile hfile => exact hQ.ingest hfile
  | settle _ _ hsettle => exact hQ.applyDissolve hs hsettle
  | noConflict => exact hs
  | opened => exact hs
  | resolve _ hres => exact hQ.applyConflictResolution hres
  | discard => exact hs
  | dismiss => exact hs.of_entries rfl

/-- **Every row of every mirror a run reaches.** -/
theorem run (hQ : RowRule Λ.env.history Q) {C : EngineState Λ.vaults → EngineTxn → Prop}
    {s t : EngineState Λ.vaults} (hs : EveryRow Q s.mirror) (h : EngineRun Λ C s t) :
    EveryRow Q t.mirror :=
  h.invariant (I := fun t => EveryRow Q t.mirror) hs fun _ _ _ ht _ hstep => hQ.step ht hstep

end Run

end RowRule

end KeysCore.Verify
