import Mathlib.Order.ConditionallyCompleteLattice.Basic
import KeysCore.Portable
import KeysCore.Verify.CascadeOutcome
import KeysCore.Verify.NoChange
import KeysCore.Verify.ReplicaRuns

/-!
# Custom icons and custom data of the vault

What mutations and pulls do to the two lists of the vault's meta. The custom data is left alone, and the
icon pool only grows: an icon that is there keeps its bytes (`EngineOp.run_lists`,
`ingestPeer_lists`). So the pools gossip (`icons_gossip`), and replicas whose pools read off one
assignment of bytes to uuids end with the same icons (`quiet_pools_agree`).
-/

namespace KeysCore.Verify

open Lib

/-- The custom data and the icons are the same. -/
structure SameLists (m m' : Mirror) : Prop where
  data : m'.settings.customData = m.settings.customData
  icons : m'.settings.customIcons = m.settings.customIcons

namespace SameLists

variable {m m' m'' : Mirror}

theorem refl (m : Mirror) : SameLists m m := ⟨rfl, rfl⟩

theorem trans (h : SameLists m m') (h' : SameLists m' m'') : SameLists m m'' :=
  ⟨h'.data.trans h.data, h'.icons.trans h.icons⟩

theorem of_settings (h : m'.settings = m.settings) : SameLists m m' := ⟨by rw [h], by rw [h]⟩

end SameLists

/-! ## Mutations -/

theorem deleteGroupRecursive_settings {now : EpochMs} {fuel : Nat} {u : Uuid} {parent : Option Uuid}
    {st st' : Mirror × DeleteGroupOutcome}
    (h : Mirror.deleteGroupRecursive now fuel u parent st = .ok st') :
    st'.1.settings = st.1.settings := by
  induction fuel generalizing u parent st st' with
  | zero => cases h
  | succ fuel ih =>
    unfold Mirror.deleteGroupRecursive at h
    obtain ⟨mid, hmid, h⟩ := except_bind_ok.1 h
    obtain ⟨b, hb, h⟩ := except_bind_ok.1 h
    obtain rfl := Except.ok.inj h
    have hkids := foldlM_rel (R := fun a b : Mirror × DeleteGroupOutcome =>
      b.1.settings = a.1.settings) (fun _ => rfl) (fun h h' => h'.trans h)
      (fun _ _ _ _ hc => ih hc) hmid
    exact ((deleteGroupRow_same hb).1.settings.trans (recordTombstones_frame now _ mid.1).2).trans hkids

theorem createRecycleBinGroup_lists {m m' : Mirror} {now : EpochMs} {u : Uuid}
    (h : m.createRecycleBinGroup now u = .ok m') : SameLists m m' := by
  unfold Mirror.createRecycleBinGroup at h
  split at h
  · cases h
  · obtain ⟨a, ha, h⟩ := except_bind_ok.1 h
    obtain rfl := Except.ok.inj h
    have hinsert : SameLists m a := .of_settings (insertGroup_same ha).settings
    have hbin : SameLists a (a.writeRecycleBinGroup u) := .of_settings rfl
    exact ((hinsert.trans hbin).trans ⟨rfl, rfl⟩).trans ⟨rfl, rfl⟩

theorem StructuralOp.run_lists {m m' : Mirror} {op : StructuralOp} (h : op.run m = .ok m') :
    SameLists m m' := by
  cases run_commits h with
  | createGroup _ hins => exact .of_settings (insertGroup_same hins).settings
  | moveGroup _ _ hset => exact .of_settings (setParent_same hset).settings
  | recycleGroup _ _ hset => exact .of_settings (setParent_same hset).settings
  | @reorderGroup u _ pos _ siblings =>
    exact .of_settings (renumber_same (Mirror.spliceSiblings siblings u pos) 0 m).settings
  | deleteGroup _ hdel => exact .of_settings (deleteGroupRecursive_settings hdel)
  | noBin => exact .refl m
  | @emptyBin _ now st _ hst =>
    have hkids := foldlM_rel (R := fun a b : Mirror × DeleteGroupOutcome =>
      b.1.settings = a.1.settings) (fun _ => rfl) (fun h h' => h'.trans h)
      (fun _ _ _ _ hc => deleteGroupRecursive_settings hc) hst
    exact .of_settings ((recordTombstones_frame now _ st.1).2.trans hkids)
  | @setBin _ u =>
    have hbin : SameLists m (m.writeRecycleBinGroup u) := .of_settings rfl
    exact (hbin.trans ⟨rfl, rfl⟩).trans ⟨rfl, rfl⟩
  | clearBin =>
    have hbin : SameLists m m.clearRecycleBinGroup := .of_settings rfl
    exact (hbin.trans ⟨rfl, rfl⟩).trans ⟨rfl, rfl⟩
  | moveEntry _ hplace => exact .of_settings (placeEntry_row hplace).1.settings
  | inBin => exact .refl m
  | recycled _ _ _ hplace => exact .of_settings (placeEntry_row hplace).1.settings
  | recycledNew _ _ _ _ hnew hplace =>
    exact (createRecycleBinGroup_lists hnew).trans (.of_settings (placeEntry_row hplace).1.settings)
  | deleted => exact .of_settings rfl
  | restored _ _ _ hplace => exact .of_settings (placeEntry_row hplace).1.settings
  | unflagged => exact .of_settings rfl
  | outside => exact .refl m

/-- **A mutation leaves the custom data and the icons**, unless it adds an icon. -/
theorem EngineOp.run_lists {E : EngineEnv} {m m' : Mirror} {op : EngineOp} (h : op.run E m = .ok m') :
    SameLists m m' ∨ ∃ bytes now T, op = .addCustomIcon bytes now ∧
      m.settings.customIcons.insert? ⟨E.iconUuid bytes, "", bytes, some now⟩ = some T ∧
      m'.settings.customData = m.settings.customData ∧ m'.settings.customIcons = T := by
  cases run_commits h with
  | structural h => exact .inl (StructuralOp.run_lists h)
  | updateGroup => exact .inl (.of_settings rfl)
  | createEntry h => exact .inl (.of_settings (createEntry_row h).1.settings)
  | editEntry h => exact .inl (.of_settings (EntryEdit.run_editsRow h).rowOnly.settings)
  | deleteEntry => exact .inl (.of_settings rfl)
  | binPresent => exact .inl (.refl m)
  | binCreated _ _ h => exact .inl (createRecycleBinGroup_lists h)
  | binDisabled => exact .inl (.refl m)
  | iconPresent => exact .inl (.refl m)
  | iconAdded _ hT => exact .inr ⟨_, _, _, rfl, hT, rfl, rfl⟩
  | setHistoryMaxItems => exact .inl ⟨rfl, rfl⟩
  | setHistoryMaxSize => exact .inl ⟨rfl, rfl⟩

/-- An icon of the pool stays, and a new one has the bytes its uuid was derived from. -/
theorem EngineOp.run_icons {E : EngineEnv} {m m' : Mirror} {op : EngineOp} (h : op.run E m = .ok m')
    (u : Uuid) :
    m'.settings.customIcons.find? u = m.settings.customIcons.find? u ∨
      m.settings.customIcons.find? u = none ∧ ∃ bytes now, op = .addCustomIcon bytes now ∧
        u = E.iconUuid bytes ∧ m'.settings.customIcons.find? u = some ⟨u, "", bytes, some now⟩ := by
  rcases EngineOp.run_lists h with hsame | ⟨bytes, now, T, hop, hT, -, hicons⟩
  · exact .inl (by rw [hsame.icons])
  · have hfind := Table.find?_insert hT u
    rw [hicons, hfind]
    by_cases e : E.iconUuid bytes = u
    · subst e
      exact .inr ⟨Table.find?_eq_none.2 (Table.insert?_eq_some.1 hT).1, bytes, now, hop, rfl, if_pos rfl⟩
    · exact .inl (if_neg e)

/-! ## Pulls -/

/-- **The icons after the peer's are united in**: an icon that is there stays as it is, and of the
peer's the first under each uuid is taken. -/
theorem unionPeerCustomIcons_find? (icons : List CustomIcon) (m : Mirror) (u : Uuid) :
    (unionPeerCustomIcons icons m).settings.customIcons.find? u =
      (m.settings.customIcons.find? u).or ((icons.find? (·.uuid = u)).map (·.toRow)) := by
  induction icons generalizing m with
  | nil => simp [unionPeerCustomIcons]
  | cons icon icons ih =>
    have hstep : (unionIcon m icon).settings.customIcons.find? u =
        (m.settings.customIcons.find? u).or (if icon.uuid = u then some icon.toRow else none) := by
      unfold unionIcon
      cases hT : m.settings.customIcons.insert? icon.toRow with
      | none =>
        have hin := Table.insert?_eq_none.1 hT
        by_cases e : icon.uuid = u
        · obtain ⟨row, hrow⟩ := Option.isSome_iff_exists.1 (Table.find?_isSome.2 hin)
          rw [← e, show m.settings.customIcons.find? icon.uuid = some row from hrow]
          rfl
        · simp [e]
      | some T =>
        have hput : T.find? u = if icon.uuid = u then some icon.toRow else m.settings.customIcons.find? u :=
          Table.find?_insert hT u
        show T.find? u = _
        rw [hput]
        by_cases e : icon.uuid = u
        · have hout := Table.find?_eq_none.2 (Table.insert?_eq_some.1 hT).1
          rw [if_pos e, if_pos e, ← e, show m.settings.customIcons.find? icon.uuid = none from hout]
          rfl
        · rw [if_neg e, if_neg e, Option.or_none]
    show (unionPeerCustomIcons icons (unionIcon m icon)).settings.customIcons.find? u = _
    rw [ih, hstep, Option.or_assoc]
    by_cases e : icon.uuid = u
    · simp [e]
    · simp [e]

section Pull

variable {M : MergeLib} {ord : HashOrder} {P : PeerPull} {m : Mirror} {st : Mirror × IngestPeerOutcome}

theorem reconcilePeerMeta_lists (a b : Meta) (m : Mirror) :
    (reconcilePeerMeta a b m).settings.customData = m.settings.customData ∧
      (reconcilePeerMeta a b m).settings.customIcons = m.settings.customIcons := by
  unfold reconcilePeerMeta
  split
  · exact ⟨rfl, rfl⟩
  · dsimp only
    split
    · split
      · exact ⟨rfl, rfl⟩
      · exact ⟨rfl, rfl⟩
    · exact ⟨rfl, rfl⟩

/-- **A pull leaves the custom data and unites the icons.** -/
theorem ingestPeer_lists (hM : Lawful M) (h : ingestPeer M ord P m = .ok st) :
    st.1.settings.customData = m.settings.customData ∧
      ∀ u, st.1.settings.customIcons.find? u = (m.settings.customIcons.find? u).or
        ((P.peer.metadata.customIcons.find? (·.uuid = u)).map (·.toRow)) := by
  unfold ingestPeer at h
  obtain ⟨st₁, h₁, h⟩ := except_bind_ok.1 h
  obtain ⟨st₂, h₂, h⟩ := except_bind_ok.1 h
  obtain ⟨st₄, h₄, h⟩ := except_bind_ok.1 h
  obtain rfl := Except.ok.inj h
  have hwalk : st₂.1.settings = m.settings :=
    (foldlM_rel (R := fun a b : Mirror × IngestPeerOutcome => b.1.settings = a.1.settings)
      (fun _ => rfl) (fun h h' => h'.trans h)
      (fun _ _ _ _ hs => (ingestEntry_touches hM hs).1.settings) h₂).trans
      (GroupPass.of_reconcilePeerGroups h₁).rest.settings
  have hdel : (P.reconcilePeerDeletes st₂).1.settings = m.settings :=
    (foldl_rel (R := fun a b : Mirror × IngestPeerOutcome => b.1.settings = a.1.settings)
      (fun _ => rfl) (fun h h' => h'.trans h)
      (fun s u _ => (reconcileDelete_spec s u).1.settings) st₂).trans hwalk
  have hunion := (unionPeerTombstones_settings P.peer.deletedObjects _).trans hdel
  have hlast : st₄.1.settings = (unionPeerCustomIcons P.peer.metadata.customIcons
      (unionPeerTombstones P.peer.deletedObjects (P.reconcilePeerDeletes st₂).1)).settings := by
    unfold materializeGroupTombstones at h₄
    obtain ⟨m₄, hm₄, h₄⟩ := except_bind_ok.1 h₄
    obtain rfl := Except.ok.inj h₄
    exact (deleteGroupRows_same hm₄).1.settings.trans (removeTombstones_settings _ _)
  obtain ⟨hdata, hicons⟩ := reconcilePeerMeta_lists P.localVault.metadata (P.mergedMeta M) st₄.1
  refine ⟨?_, fun u => ?_⟩
  · rw [hdata, hlast, (unionPeerCustomIcons_icons _ _).2.2.1, hunion]
  · rw [hicons, hlast, unionPeerCustomIcons_find?, hunion]

end Pull

/-! ## The icons of replicas -/

/-- The uuids in the icon pool. -/
def iconsOf (m : Mirror) : Set Uuid := {u | u ∈ m.settings.customIcons.keys}

/-- The uuids of the icons a file holds. -/
def iconsShown (v : Vault) : Set Uuid := {u | u ∈ v.metadata.customIcons.map (·.uuid)}

/-- A projection shows the icons of the pool, with their bytes. -/
theorem project_icons {m : Mirror} {v : Vault} (hv : m.project = .ok v) :
    (v.metadata.customIcons.map fun i => (i.uuid, i.data)).Perm
      (m.settings.customIcons.rows.map fun r => (r.uuid, r.bytes)) := by
  obtain ⟨bin, g, -, rfl⟩ := project_ok hv
  show ((_ : List CustomIcon).map _).Perm _
  rw [Mirror.readMeta, List.map_map]
  exact (List.perm_insertionSort _ _).map _

theorem project_iconsShown {m : Mirror} {v : Vault} (hv : m.project = .ok v) :
    iconsShown v = iconsOf m := by
  ext u
  have hperm := ((project_icons hv).map Prod.fst).mem_iff (a := u)
  simpa [List.map_map, Function.comp_def, iconsShown, iconsOf, Table.keys] using hperm

/-- The icon pools gossip. -/
theorem icons_gossip {E : EngineEnv} {M : MergeLib} (hM : Lawful M) :
    Gossips E M iconsOf iconsShown where
  project _ hv := project_iconsShown hv
  pull _ _ _ h := by
    ext u
    show u ∈ Table.keys _ ↔ u ∈ Table.keys _ ∨ u ∈ List.map _ _
    rw [← Table.find?_isSome, (ingestPeer_lists hM h).2 u, Option.isSome_or, Bool.or_eq_true,
      Table.find?_isSome, Option.isSome_map, List.find?_isSome]
    simp
  mutate h := by
    intro u hu
    refine Table.find?_isSome.1 ?_
    rcases EngineOp.run_icons h u with e | ⟨-, _, _, -, -, e⟩
    · rwa [e, Table.find?_isSome]
    · rw [e]
      rfl

/-- The pool holds the bytes `f` assigns to each uuid. -/
def ReadsOff (f : Uuid → List UInt8) (m : Mirror) : Prop :=
  ∀ u b, m.readCustomIconBytes u = some b → b = f u

/-- The icons of the file have the bytes `f` assigns to their uuids. -/
def FileReadsOff (f : Uuid → List UInt8) (v : Vault) : Prop :=
  ∀ i ∈ v.metadata.customIcons, i.data = f i.uuid

theorem readsOff_iff {f : Uuid → List UInt8} {m : Mirror} :
    ReadsOff f m ↔ ∀ row ∈ m.settings.customIcons.rows, row.bytes = f row.uuid := by
  constructor
  · exact fun h row hrow => h _ _ (by rw [Mirror.readCustomIconBytes, Table.find?_of_mem hrow]; rfl)
  · intro h u b hb
    obtain ⟨row, hrow, rfl⟩ := Option.map_eq_some_iff.1 hb
    rw [h row (Table.find?_mem hrow), Table.find?_key hrow]

/-- An icon that is added gets the uuid of its bytes. -/
theorem ReadsOff.mutate {f : Uuid → List UInt8} {E : EngineEnv} {m m' : Mirror} {op : EngineOp}
    (hadd : ∀ bytes now, op = .addCustomIcon bytes now → f (E.iconUuid bytes) = bytes)
    (h : op.run E m = .ok m') (hm : ReadsOff f m) : ReadsOff f m' := by
  intro u b hb
  rw [Mirror.readCustomIconBytes] at hb
  rcases EngineOp.run_icons h u with e | ⟨-, bytes, now, hop, rfl, e⟩
  · rw [e] at hb
    exact hm u b hb
  · rw [e] at hb
    rw [hadd bytes now hop]
    exact (Option.some.inj hb).symm

theorem ReadsOff.pull {f : Uuid → List UInt8} {M : MergeLib} {ord : HashOrder} {P : PeerPull}
    {m : Mirror} {st : Mirror × IngestPeerOutcome} (hM : Lawful M) (h : ingestPeer M ord P m = .ok st)
    (hm : ReadsOff f m) (hP : FileReadsOff f P.peer) : ReadsOff f st.1 := by
  intro u b hb
  rw [Mirror.readCustomIconBytes, (ingestPeer_lists hM h).2 u] at hb
  cases hold : m.settings.customIcons.find? u with
  | some row =>
    rw [hold] at hb
    exact hm u b (by rw [Mirror.readCustomIconBytes, hold]; exact hb)
  | none =>
    rw [hold, Option.none_or, Option.map_map] at hb
    obtain ⟨i, hi, rfl⟩ := Option.map_eq_some_iff.1 hb
    have huuid : i.uuid = u := by simpa using List.find?_some hi
    rw [← huuid]
    exact hP i (List.mem_of_find?_eq_some hi)

theorem ReadsOff.project {f : Uuid → List UInt8} {m : Mirror} {v : Vault} (hv : m.project = .ok v)
    (hm : ReadsOff f m) : FileReadsOff f v := by
  intro i hi
  have hpair := (project_icons hv).mem_iff.1 (List.mem_map.2 ⟨i, hi, rfl⟩)
  obtain ⟨row, hrow, he⟩ := List.mem_map.1 hpair
  obtain ⟨hu, hb⟩ := Prod.mk.inj he
  rw [← hb, ← hu]
  exact readsOff_iff.1 hm row hrow

section Runs

variable {ι : Type} [DecidableEq ι] {E : EngineEnv} {M : MergeLib} {C : ι → EngineOp → Mirror → Prop}
  {w₀ w w' : World ι}

/-- **An icon never goes and never changes its bytes**, along any run of replicas. -/
theorem icon_bytes_kept (hM : Lawful M) (hC : ∀ i op m, C i op m → op.Safe m) (hw : w.Intact)
    (hrun : ReplicaRun E M C w w') {i : ι} {u : Uuid} {b : List UInt8}
    (hb : (w.mirror i).readCustomIconBytes u = some b) :
    (w'.mirror i).readCustomIconBytes u = some b := by
  refine (ReplicaRun.invariant hM hC (F := fun _ => True)
    (I := fun j m => j = i → m.readCustomIconBytes u = some b) ?_ (fun _ _ _ _ _ => trivial) ?_ hw ?_
    (fun _ _ => trivial) hrun).1 i rfl
  · intro j op m m' _ hop hm e
    have hm := hm e
    rw [Mirror.readCustomIconBytes] at hm ⊢
    rcases EngineOp.run_icons hop u with hsame | ⟨hnone, -⟩
    · rwa [hsame]
    · rw [hnone] at hm
      cases hm
  · intro j m P ord st _ _ hst hm _ e
    obtain ⟨row, hrow, hbytes⟩ := Option.map_eq_some_iff.1 (hm e)
    rw [Mirror.readCustomIconBytes, (ingestPeer_lists hM hst).2 u, hrow]
    exact congrArg some hbytes
  · rintro j rfl
    exact hb

/-- **Replicas that heard of each other have the same icons.** The icons of every replica have the bytes
`f` assigns to their uuids at the start, and so have those the edits add, whose uuids are derived from
their bytes. Then any two replicas that, while nobody edits, ingest from each of the others a file with
all of its icons hold the same icons with the same bytes. -/
theorem quiet_pools_agree (hM : Lawful M) (hC : ∀ i op m, C i op m → op.Safe m)
    {f : Uuid → List UInt8}
    (hadd : ∀ i op m bytes now, C i op m → op = .addCustomIcon bytes now →
      f (E.iconUuid bytes) = bytes)
    (hw : w₀.Fresh) (hstart : ∀ i, ReadsOff f (w₀.mirror i)) (hedits : ReplicaRun E M C w₀ w)
    (hquiet : ReplicaRun E M (fun _ _ _ => False) w w') {i j : ι}
    (hi : ∀ k, k ≠ i → ∃ v ∈ w'.ingested i, iconsOf (w.mirror k) ⊆ iconsShown v)
    (hj : ∀ k, k ≠ j → ∃ v ∈ w'.ingested j, iconsOf (w.mirror k) ⊆ iconsShown v) (u : Uuid) :
    (w'.mirror i).readCustomIconBytes u = (w'.mirror j).readCustomIconBytes u := by
  have hpool : iconsOf (w'.mirror i) = iconsOf (w'.mirror j) :=
    ((icons_gossip hM).agree hM hC hw hedits hquiet hi).unique
      ((icons_gossip hM).agree hM hC hw hedits hquiet hj)
  have hread₁ := ReplicaRun.invariant hM hC (I := fun _ => ReadsOff f) (F := FileReadsOff f)
    (fun i op m m' hop h hm => hm.mutate (fun bytes now e => hadd i op m bytes now hop e) h)
    (fun _ _ _ hv hm => hm.project hv) (fun _ _ _ _ _ _ _ hst hm hP => hm.pull hM hst hP) hw.intact
    hstart (by simp [hw.files]) hedits
  have hread := (ReplicaRun.invariant hM (fun _ _ _ h => h.elim) (I := fun _ => ReadsOff f)
    (F := FileReadsOff f) (fun _ _ _ _ h => h.elim)
    (fun _ _ _ hv hm => hm.project hv) (fun _ _ _ _ _ _ _ hst hm hP => hm.pull hM hst hP)
    (ReplicaRun.intact hM hC hw.intact hedits) hread₁.1 hread₁.2 hquiet).1
  have hsome : ∀ m : Mirror, (m.readCustomIconBytes u).isSome ↔ u ∈ iconsOf m := fun m => by
    rw [Mirror.readCustomIconBytes, Option.isSome_map]
    exact Table.find?_isSome
  cases hbi : (w'.mirror i).readCustomIconBytes u with
  | none =>
    symm
    rw [← Option.not_isSome_iff_eq_none, hsome, ← hpool, ← hsome, hbi]
    simp
  | some b =>
    have hmem : (w'.mirror j).readCustomIconBytes u |>.isSome := by
      rw [hsome, ← hpool, ← hsome, hbi]
      rfl
    obtain ⟨c, hc⟩ := Option.isSome_iff_exists.1 hmem
    rw [hc, hread i u b hbi, hread j u c hc]

end Runs

/-- The replica with a new icon. -/
def afterIcon : Mirror := (EngineOp.addCustomIcon [7, 7] (.atSecond 40)).next plainEnv (nestedMirror false)

theorem afterIcon_run : ReplicaRun plainEnv fieldMerge
    (fun _ op _ => op = .addCustomIcon [7, 7] (.atSecond 40)) equalReplicas
    (equalReplicas.edit true afterIcon) :=
  equalReplicas_edit (by decide)

theorem afterIcon_spreads {C : Bool → EngineOp → Mirror → Prop} : ReplicaRun plainEnv fieldMerge C
    (equalReplicas.edit true afterIcon) (equalReplicas.spread afterIcon) :=
  equalReplicas_spread (by decide +kernel) (by decide +kernel) (by decide +kernel)

theorem afterIcon_spreadsBack {C : Bool → EngineOp → Mirror → Prop} : ReplicaRun plainEnv fieldMerge C
    (equalReplicas.spread afterIcon) (equalReplicas.spreadBack afterIcon) :=
  equalReplicas_spreadBack (by decide +kernel) (by decide +kernel) (by decide +kernel) (by decide +kernel)

theorem safe_of_icon (_ : Bool) (op : EngineOp) (m : Mirror)
    (h : op = .addCustomIcon [7, 7] (.atSecond 40)) : op.Safe m := by
  subst h
  intro o ho
  cases ho

theorem icon_bytes_kept_spread :
    ((equalReplicas.spread afterIcon).mirror true).readCustomIconBytes 0 = some [7, 7] :=
  icon_bytes_kept (C := fun _ _ _ => False) fieldMerge_lawful (fun _ _ _ h => h.elim)
    (ReplicaRun.intact fieldMerge_lawful safe_of_icon equalReplicas_fresh.intact afterIcon_run)
    afterIcon_spreads (by decide)

theorem quiet_pools_agree_spread :
    (spreadTo afterIcon).readCustomIconBytes 0 = some [7, 7] ∧
      ∀ u, (spreadTo afterIcon).readCustomIconBytes u =
        (backTo afterIcon (spreadTo afterIcon)).readCustomIconBytes u := by
  refine ⟨by decide +kernel, ?_⟩
  refine quiet_pools_agree (i := false) (j := true) (f := fun _ => [7, 7]) fieldMerge_lawful safe_of_icon
    ?_ equalReplicas_fresh ?_ afterIcon_run (afterIcon_spreads.trans afterIcon_spreadsBack) ?_ ?_
  · intro _ op _ bytes now h e
    rw [h] at e
    cases e
    rfl
  · intro i u b hb
    cases hb
  · intro k hk
    obtain rfl : k = true := by simpa using hk
    refine ⟨view afterIcon, by simp [World.spreadBack, World.spread, World.pull, World.publish], ?_⟩
    rw [project_iconsShown (project_view (m := afterIcon) (by decide +kernel))]
    exact subset_rfl
  · intro k hk
    obtain rfl : k = false := by simpa using hk
    refine ⟨view (spreadTo afterIcon), by simp [World.spreadBack, World.pull], ?_⟩
    intro u hu
    cases hu

end KeysCore.Verify
