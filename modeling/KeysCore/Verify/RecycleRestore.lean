import KeysCore.Verify.Cascade
import KeysCore.Verify.PeerGroups
import KeysCore.Verify.RecycledFlag

/-!
# Recycling and restoring an entry

`recycle_entry` puts an entry into the bin and keeps the group it came from in `previous_parent_uuid`;
`restore_entry` puts it back there, or into the root when that group is gone or in the bin itself.
`recycle_and_restore` says so of the bin's whole subtree (`InBin`), and over any run in between that
leaves the bin the bin: the entry stays in the bin group, from where recycling does nothing, and no other
operation writes its row (`Binned.run`).

`group_in_bin_subtree` gives up after 10,000 groups. In a chain that is longer below the bin
(`chainMirror`), an entry at its end is in the bin and is not restored.
-/

namespace KeysCore.Verify

open Lib Lib.Forest

/-! ## The subtree of the bin -/

/-- The group is the bin, or below it. -/
def InBin (m : Mirror) (g : Uuid) : Prop :=
  ∃ bin, m.recycleBinUuid = some bin ∧ Reach m.parentOf g bin

/-- No group is so far below the bin that `group_in_bin_subtree` does not see it. -/
def BinShallow (m : Mirror) : Prop :=
  ∀ bin g k, m.recycleBinUuid = some bin → up m.parentOf k g = some bin → k < 10000

def BinNotRoot (m : Mirror) : Prop :=
  ∀ bin, m.recycleBinUuid = some bin → m.parentOf bin ≠ none

section Bin

variable {m m' : Mirror} {g : Uuid}

theorem inBin_of_walk (h : m.groupInBinSubtree g = true) : InBin m g := by
  rw [groupInBinSubtree_eq, walksTo_iff] at h
  obtain ⟨bin, hbin, k, -, hk⟩ := h
  exact ⟨bin, hbin, k, hk⟩

theorem walk_iff_inBin (hs : BinShallow m) : m.groupInBinSubtree g = true ↔ InBin m g := by
  refine ⟨inBin_of_walk, ?_⟩
  rintro ⟨bin, hbin, k, hk⟩
  rw [groupInBinSubtree_eq, walksTo_iff]
  exact ⟨bin, hbin, k, hs bin g k hbin hk, hk⟩

theorem walk_eq_false (hs : BinShallow m) : m.groupInBinSubtree g = false ↔ ¬ InBin m g := by
  rw [← walk_iff_inBin hs, Bool.not_eq_true]

theorem inBin_congr (h : m'.groups = m.groups) : InBin m' g ↔ InBin m g := by
  have hbin : m'.recycleBinUuid = m.recycleBinUuid := by rw [Mirror.recycleBinUuid, h]; rfl
  have hpar : m'.parentOf = m.parentOf := by
    funext u
    rw [Mirror.parentOf, h]
    rfl
  unfold InBin
  rw [hbin, hpar]

theorem root_not_inBin {r : Uuid} (hr : RootedAt m r) (hroot : BinNotRoot m) : ¬ InBin m r := by
  rintro ⟨bin, hbin, hreach⟩
  rcases reach_iff_parent.1 hreach with rfl | ⟨p, hp, -⟩
  · exact hroot r hbin hr.root_par
  · rw [hr.root_par] at hp
    cases hp

/-- Ten thousand groups cannot be nested too deep. -/
theorem binShallow_of_length {m : Mirror} {r : Uuid} (hr : RootedAt m r)
    (hlen : m.groups.rows.length ≤ 10000) : BinShallow m := by
  intro bin g k _ hk
  by_cases hg : g ∈ m.groups.keys
  · have hlt : k < m.groups.keys.length := hr.up_lt_length (fun x hx => hx) hg hk
    rw [Table.keys, List.length_map] at hlt
    omega
  · cases k with
    | zero => omega
    | succ k =>
      cases hp : m.parentOf g with
      | none => simp [up_succ, hp] at hk
      | some p => exact absurd (mem_keys_of_parentOf hp).1 hg

end Bin

/-! ## Into the bin -/

/-- The entry is deleted for good, with a tombstone. -/
def Erased (m : Mirror) (u : Uuid) (now : EpochMs) : Prop :=
  m.entries.find? u = none ∧ m.tombstones.find? u = some ⟨u, some now⟩

/-- The entry is in the bin group, and came from `g`. -/
structure Binned (m : Mirror) (u bin g : Uuid) : Prop where
  pointer : m.recycleBinUuid = some bin
  sits : ∃ row, m.entries.find? u = some row ∧ row.groupUuid = bin ∧ row.previousParentUuid = some g

section Recycling

variable {m m' : Mirror} {u bin new : Uuid} {row : EntryRow} {now : EpochMs}

theorem recycleInto_binned (hbin : m.recycleBinUuid = some bin) (hrow : m.entries.find? u = some row)
    (h : m.recycleInto u bin now = .ok m') : Binned m' u bin row.groupUuid := by
  obtain ⟨hone, hfind⟩ := placeEntry_row h
  rw [hrow] at hfind
  refine ⟨?_, _, hfind, rfl, rfl⟩
  rw [← hbin, Mirror.recycleBinUuid, hone.groups]
  rfl

/-- `recycle_entry` does nothing in the bin, moves into the bin, or deletes for good. -/
theorem recycleEntry_cases (hrow : m.entries.find? u = some row)
    (h : m.recycleEntry u now new = .ok m') :
    (m.groupInBinSubtree row.groupUuid = true ∧ m' = m) ∨
    (¬ (m.recycleBinUuid = none ∧ m.readRecycleBinEnabled = false) ∧
      ∃ bin, Binned m' u bin row.groupUuid) ∨
    ((m.recycleBinUuid = none ∧ m.readRecycleBinEnabled = false) ∧ m'.recycleBinUuid = none ∧
      Erased m' u now) := by
  have hcommits : StructuralOp.Commits m (.recycleEntry u now new) m' := StructuralOp.run_commits h
  cases hcommits with
  | inBin hfound hin =>
    obtain rfl := Option.some.inj (hrow.symm.trans hfound)
    exact .inl ⟨hin, rfl⟩
  | recycled _ _ hbin hplace =>
    exact .inr (.inl ⟨by simp [hbin], _, recycleInto_binned hbin hrow hplace⟩)
  | recycledNew _ _ _ hen hnew hplace =>
    rw [← createRecycleBinGroup_entries hnew] at hrow
    exact .inr (.inl ⟨by simp [hen], _, recycleInto_binned (createRecycleBinGroup_bin hnew) hrow hplace⟩)
  | deleted _ _ hnone hdis =>
    refine .inr (.inr ⟨⟨hnone, hdis⟩, hnone, (deleteEntry_row m u).2, ?_⟩)
    unfold Mirror.recordTombstone Mirror.putTombstone
    rw [Table.find?_put, if_pos rfl]

/-- **After `recycle_entry`** the entry is in the bin, or it was deleted for good, which happens exactly
when there is no bin and none may be made. -/
theorem recycleEntry_leaves (hrow : m.entries.find? u = some row)
    (h : m.recycleEntry u now new = .ok m') :
    ((∃ row', m'.entries.find? u = some row' ∧ InBin m' row'.groupUuid) ∨ Erased m' u now) ∧
      (Erased m' u now ↔ m.recycleBinUuid = none ∧ m.readRecycleBinEnabled = false) := by
  rcases recycleEntry_cases hrow h with ⟨hin, rfl⟩ | ⟨hkeep, bin, hbin, row', hrow', hg, -⟩ |
    ⟨hgone, -, herased⟩
  · refine ⟨.inl ⟨row, hrow, inBin_of_walk hin⟩, ?_, ?_⟩
    · rintro ⟨hnone, -⟩
      rw [hnone] at hrow
      cases hrow
    · rintro ⟨hnone, -⟩
      obtain ⟨bin, hbin, -⟩ := inBin_of_walk hin
      rw [hnone] at hbin
      cases hbin
  · refine ⟨.inl ⟨row', hrow', bin, hbin, hg ▸ .refl _⟩, ?_, fun hgone => absurd hgone hkeep⟩
    rintro ⟨hnone, -⟩
    rw [hnone] at hrow'
    cases hrow'
  · exact ⟨.inr herased, iff_of_true herased hgone⟩

/-- An entry outside the bin is put into the bin group, which may be new. -/
theorem recycleEntry_binned (hrow : m.entries.find? u = some row) (hout : ¬ InBin m row.groupUuid)
    (h : m.recycleEntry u now new = .ok m') (hbin : m'.recycleBinUuid = some bin) :
    Binned m' u bin row.groupUuid := by
  rcases recycleEntry_cases hrow h with ⟨hin, -⟩ | ⟨-, bin', hbinned⟩ | ⟨-, hnone, -⟩
  · exact absurd (inBin_of_walk hin) hout
  · obtain rfl := Option.some.inj (hbinned.pointer.symm.trans hbin)
    exact hbinned
  · rw [hnone] at hbin
    cases hbin

end Recycling

/-! ## In the bin -/

/-- The operation neither moves nor restores `u`, and does not empty the bin. -/
def StructuralOp.Spares (u : Uuid) : StructuralOp → Prop
  | moveEntry v _ _ | restoreEntry v _ => v ≠ u
  | emptyRecycleBin _ => False
  | _ => True

/-- Any operations that spare `u`, with the one bin after each. -/
inductive Meantime (u bin : Uuid) : Mirror → Mirror → Prop where
  | refl (m : Mirror) : Meantime u bin m m
  | step {m m' m'' : Mirror} {op : StructuralOp} : Meantime u bin m m' → op.run m' = .ok m'' →
      op.Spares u → m''.recycleBinUuid = some bin → Meantime u bin m m''

section Staying

variable {m m' : Mirror} {u bin g : Uuid}

/-- One operation leaves the row of the entry alone. -/
theorem Binned.row_kept (h : Binned m u bin g) {op : StructuralOp} (hop : op.Spares u)
    (hrun : op.run m = .ok m') (hbin : m'.recycleBinUuid = some bin) :
    m'.entries.find? u = m.entries.find? u := by
  obtain ⟨hold, row, hrow, rfl, -⟩ := h
  have hin : m.groupInBinSubtree row.groupUuid = true := groupInBinSubtree_bin hold
  have hsame : SameButGroups m m' → m'.entries.find? u = m.entries.find? u := fun h => by
    rw [h.entries]
  cases StructuralOp.run_commits hrun with
  | createGroup _ hins => exact hsame (insertGroup_same hins)
  | moveGroup _ _ hset => exact hsame (setParent_same hset)
  | recycleGroup _ _ hset => exact hsame (setParent_same hset)
  | reorderGroup => exact hsame ((renumber_same _ 0 m).trans ⟨rfl, rfl, rfl, rfl⟩)
  | deleteGroup hfind hdel =>
    -- the bin is left, so what is in it is
    have hrem := deleteGroupRecursive_subtrees hdel
    have hleft := (hrem.groups.not_below.1 (recycleBinUuid_mem hbin)).2
    have hkept := (hrem.entries row).2 ⟨Table.find?_mem hrow, hleft⟩
    rw [hrow]
    exact Table.find?_eq_some.2 ⟨hkept, Table.find?_key hrow⟩
  | noBin => exact hop.elim
  | emptyBin => exact hop.elim
  | setBin => rfl
  | clearBin => rfl
  | moveEntry _ hplace => exact (placeEntry_row hplace).1.entries u (Ne.symm hop)
  | inBin => rfl
  | @recycled v bin' new now row' m' hfound hout hbin' hplace =>
    refine (placeEntry_row hplace).1.entries u ?_
    rintro rfl
    obtain rfl := Option.some.inj (hrow.symm.trans hfound)
    rw [hin] at hout
    cases hout
  | recycledNew _ _ hnone => rw [hold] at hnone; cases hnone
  | deleted _ _ hnone => rw [hold] at hnone; cases hnone
  | restored _ _ _ hplace => exact (placeEntry_row hplace).1.entries u (Ne.symm hop)
  | unflagged => exact (updateEntry_row m _ _ _ _).1.entries u (Ne.symm hop)
  | outside => rfl

/-- **An entry in the bin stays there as it is**, whatever happens to the groups. -/
theorem Binned.run (h : Binned m u bin g) (hrun : Meantime u bin m m') : Binned m' u bin g := by
  induction hrun with
  | refl => exact h
  | step _ hstep hop hbin ih =>
    obtain ⟨row, hrow, hg, hprev⟩ := ih.sits
    exact ⟨hbin, row, (ih.row_kept hop hstep hbin).trans hrow, hg, hprev⟩

end Staying

/-! ## Out of the bin -/

section Restoring

variable {m m' : Mirror} {u r bin g : Uuid} {row : EntryRow}

/-- In a tree there is always somewhere to restore to, outside the bin or else the root. -/
theorem restoreDestination_ok (hr : RootedAt m r) (previous : Option Uuid) :
    ∃ dest ∈ m.groups.keys, m.restoreDestination previous = some dest ∧
      (m.groupInBinSubtree dest = false ∨ dest = r) := by
  have hroot := GroupTree.rootUuid? hr
  unfold Mirror.restoreDestination
  cases previous with
  | none => exact ⟨r, hr.root_mem, hroot, .inr rfl⟩
  | some prev =>
    dsimp only
    split
    · rename_i h
      obtain ⟨hex, hout⟩ := Bool.and_eq_true_iff.1 h
      exact ⟨prev, groupExists_iff.1 hex, rfl, .inl (by simpa using hout)⟩
    · exact ⟨r, hr.root_mem, hroot, .inr rfl⟩

/-- **`restore_entry` in a tree**: it succeeds and leaves the groups alone; an entry outside the bin
keeps its place. -/
theorem restoreEntry_ok (hr : RootedAt m r) (hrow : m.entries.find? u = some row) (now : EpochMs) :
    ∃ m' row', m.restoreEntry u now = .ok m' ∧ m'.groups = m.groups ∧
      m'.entries.find? u = some row' ∧
      (if m.groupInBinSubtree row.groupUuid then
        m.restoreDestination row.previousParentUuid = some row'.groupUuid
      else row' = { row with isRecycled := false }) := by
  unfold Mirror.restoreEntry
  rw [hrow]
  dsimp only
  split
  · obtain ⟨dest, hmem, hdest, -⟩ := restoreDestination_ok hr row.previousParentUuid
    rw [hdest]
    obtain ⟨m', hplace⟩ := placeEntry_ok (m := m) (u := u)
      (f := fun e => { e with
        isRecycled := false, previousParentUuid := some e.groupUuid
        modifiedAt := now, locationChangedAt := some now }) (fun _ => rfl) hmem
    obtain ⟨hone, hfind⟩ := placeEntry_row hplace
    rw [hrow] at hfind
    exact ⟨m', _, hplace, hone.groups, hfind, rfl⟩
  · split
    · obtain ⟨hone, hfind⟩ := updateEntry_row m u (fun e => { e with isRecycled := false })
        (fun _ => rfl) fun _ => rfl
      rw [hrow] at hfind
      exact ⟨_, _, rfl, hone.groups, hfind, rfl⟩
    · rename_i hflag
      have hclear : row.isRecycled = false := by simpa using hflag
      refine ⟨m, row, rfl, rfl, hrow, ?_⟩
      rw [← hclear]

/-- **A restored entry is never in the bin**, whichever group but the root that is. -/
theorem restoreEntry_leaves_bin (hr : RootedAt m r) (hroot : BinNotRoot m) (hs : BinShallow m)
    (hrow : m.entries.find? u = some row) (now : EpochMs) :
    ∃ m' row', m.restoreEntry u now = .ok m' ∧ m'.entries.find? u = some row' ∧
      ¬ InBin m' row'.groupUuid := by
  obtain ⟨m', row', hrun, hgroups, hrow', hplace⟩ := restoreEntry_ok hr hrow now
  refine ⟨m', row', hrun, hrow', ?_⟩
  rw [inBin_congr hgroups]
  split at hplace
  · obtain ⟨dest, -, hdest, hout⟩ := restoreDestination_ok hr row.previousParentUuid
    obtain rfl := Option.some.inj (hplace.symm.trans hdest)
    rcases hout with hout | rfl
    · exact (walk_eq_false hs).1 hout
    · exact root_not_inBin hr hroot
  · rename_i hout
    rw [hplace]
    exact (walk_eq_false hs).1 (Bool.not_eq_true _ ▸ hout)

/-- **Restoring from the bin group** goes back to the group the entry came from, if that is there and
not in the bin, and to the root otherwise. -/
theorem Binned.restored (h : Binned m u bin g) (hr : RootedAt m r) (hs : BinShallow m)
    (now : EpochMs) : ∃ m' row', m.restoreEntry u now = .ok m' ∧ m'.entries.find? u = some row' ∧
      (g ∈ m.groups.keys ∧ ¬ InBin m g → row'.groupUuid = g) ∧
      (¬ (g ∈ m.groups.keys ∧ ¬ InBin m g) → row'.groupUuid = r) := by
  obtain ⟨row, hrow, rfl, hprev⟩ := h.sits
  obtain ⟨m', row', hrun, -, hrow', hplace⟩ := restoreEntry_ok hr hrow now
  refine ⟨m', row', hrun, hrow', ?_⟩
  rw [if_pos (groupInBinSubtree_bin h.pointer), hprev] at hplace
  have hback : (m.groupExists g && !m.groupInBinSubtree g) = true ↔ g ∈ m.groups.keys ∧ ¬ InBin m g := by
    rw [Bool.and_eq_true, groupExists_iff, Bool.not_eq_true', walk_eq_false hs]
  unfold Mirror.restoreDestination at hplace
  dsimp only at hplace
  rw [← hback]
  split at hplace
  · rename_i hyes
    exact ⟨fun _ => (Option.some.inj hplace).symm, fun hno => absurd hyes hno⟩
  · rename_i hno
    rw [GroupTree.rootUuid? hr] at hplace
    exact ⟨fun hyes => absurd hyes hno, fun _ => (Option.some.inj hplace).symm⟩

end Restoring

/-- Recycling succeeds unless the uuid for a new bin is taken. -/
theorem recycleEntry_ok {m : Mirror} {r u new : Uuid} {row : EntryRow} (hr : RootedAt m r)
    (hrow : m.entries.find? u = some row) (hnew : new ∉ m.groups.keys) (now : EpochMs) :
    ∃ m', m.recycleEntry u now new = .ok m' := by
  unfold Mirror.recycleEntry
  rw [hrow]
  dsimp only
  split
  · exact ⟨m, rfl⟩
  · split
    · rename_i bin hbin
      exact placeEntry_ok _ (recycleBinUuid_mem hbin)
    · split
      · obtain ⟨m₁, h₁⟩ : ∃ m₁, m.createRecycleBinGroup now new = .ok m₁ := by
          unfold Mirror.createRecycleBinGroup
          rw [GroupTree.rootUuid? hr]
          obtain ⟨a, ha, -⟩ := insertGroup_ok (m := m) (p := r)
            (g := { uuid := new, parentUuid := some r, name := "Recycle Bin", iconIndex := some 43
                    createdAt := now, modifiedAt := now, sortOrder := m.nextSortOrder r })
            hnew rfl hr.root_mem
          exact ⟨_, except_bind_ok.2 ⟨a, ha, rfl⟩⟩
        have hbin := recycleBinUuid_mem (createRecycleBinGroup_bin h₁)
        obtain ⟨m', h'⟩ := placeEntry_ok (m := m₁) (u := u) (f := fun e => { e with
          isRecycled := true, previousParentUuid := some e.groupUuid
          modifiedAt := now, locationChangedAt := some now }) (fun _ => rfl) hbin
        exact ⟨m', except_bind_ok.2 ⟨m₁, h₁, h'⟩⟩
      · exact ⟨_, rfl⟩

/-- **Recycling and restoring an entry** of a tree whose bin is not the root: where recycling leaves it;
where restoring it later puts it, whatever happens in between; that it is never restored into the bin,
whichever group that is by then; that an entry outside the bin is left where it is. -/
theorem recycle_and_restore {m : Mirror} (ht : GroupTree m) (hroot : BinNotRoot m) {u : Uuid}
    {row : EntryRow} (hrow : m.entries.find? u = some row) :
    (∀ now new, (new ∉ m.groups.keys → ∃ m', m.recycleEntry u now new = .ok m') ∧
      ∀ m', m.recycleEntry u now new = .ok m' →
        ((∃ row', m'.entries.find? u = some row' ∧ InBin m' row'.groupUuid) ∨ Erased m' u now) ∧
        (Erased m' u now ↔ m.recycleBinUuid = none ∧ m.readRecycleBinEnabled = false)) ∧
    (¬ InBin m row.groupUuid → ∀ now new bin m₁ m₂, m.recycleEntry u now new = .ok m₁ →
      m₁.recycleBinUuid = some bin → Meantime u bin m₁ m₂ → GroupTree m₂ → BinShallow m₂ →
      ∀ now', ∃ m₃ row₃, m₂.restoreEntry u now' = .ok m₃ ∧ m₃.entries.find? u = some row₃ ∧
        (row.groupUuid ∈ m₂.groups.keys ∧ ¬ InBin m₂ row.groupUuid →
          row₃.groupUuid = row.groupUuid) ∧
        (¬ (row.groupUuid ∈ m₂.groups.keys ∧ ¬ InBin m₂ row.groupUuid) →
          m₂.rootUuid? = some row₃.groupUuid)) ∧
    (BinShallow m → ∀ now, ∃ m' row', m.restoreEntry u now = .ok m' ∧
      m'.entries.find? u = some row' ∧ ¬ InBin m' row'.groupUuid) ∧
    (¬ InBin m row.groupUuid → ∀ now, ∃ m' row', m.restoreEntry u now = .ok m' ∧
      m'.entries.find? u = some row' ∧ row'.groupUuid = row.groupUuid ∧
      row'.previousParentUuid = row.previousParentUuid ∧
      row'.locationChangedAt = row.locationChangedAt) := by
  obtain ⟨r, hr⟩ := groupTree_iff.1 ht
  refine ⟨fun now new => ⟨fun hnew => recycleEntry_ok hr hrow hnew now,
    fun m' h => recycleEntry_leaves hrow h⟩, ?_, ?_, ?_⟩
  · intro hout now new bin m₁ m₂ h₁ hbin hrun ht₂ hs now'
    obtain ⟨r₂, hr₂⟩ := groupTree_iff.1 ht₂
    have hbinned := (recycleEntry_binned hrow hout h₁ hbin).run hrun
    obtain ⟨m₃, row₃, h₃, hrow₃, hback, hgone⟩ := hbinned.restored hr₂ hs now'
    refine ⟨m₃, row₃, h₃, hrow₃, hback, fun hno => ?_⟩
    rw [GroupTree.rootUuid? hr₂, hgone hno]
  · intro hs now
    exact restoreEntry_leaves_bin hr hroot hs hrow now
  · intro hout now
    obtain ⟨m', row', h, -, hrow', hplace⟩ := restoreEntry_ok hr hrow now
    rw [if_neg fun hin => hout (inBin_of_walk hin)] at hplace
    refine ⟨m', row', h, hrow', ?_⟩
    rw [hplace]
    exact ⟨rfl, rfl, rfl⟩

/-- Recycled twice, with the bin moved out and the group it came from deleted in between, an entry is
restored into the root. -/
theorem recycle_and_restore_nested :
    let m₁ := (StructuralOp.recycleEntry 9 default 4).next (nestedMirror true)
    let m₂ := (StructuralOp.moveGroup 3 1 default).next m₁
    let m₃ := (StructuralOp.recycleEntry 9 default 4).next m₂
    let m₄ := (StructuralOp.deleteGroup 2 default).next m₃
    ∃ m₅ row, m₄.restoreEntry 9 default = .ok m₅ ∧ m₅.entries.find? 9 = some row ∧
      row.groupUuid = 1 := by
  intro m₁ m₂ m₃ m₄
  have hroot : BinNotRoot (nestedMirror true) := by
    intro bin hbin
    obtain rfl := Option.some.inj (hbin : some 3 = some bin)
    decide
  have hout : ¬ InBin (nestedMirror true) 2 := by
    have hr : RootedAt (nestedMirror true) 1 := .of_walks (by decide) (by decide) (by decide)
    rw [← walk_eq_false (binShallow_of_length hr (by decide))]
    decide
  have hrun₁ : (nestedMirror true).recycleEntry 9 default 4 = .ok m₁ :=
    StructuralOp.run_next (by decide : ((StructuralOp.recycleEntry 9 default 4).run
      (nestedMirror true)).isOk = true)
  have hrun₂ : (StructuralOp.moveGroup 3 1 default).run m₁ = .ok m₂ :=
    StructuralOp.run_next (by decide)
  have hrun₃ : (StructuralOp.recycleEntry 9 default 4).run m₂ = .ok m₃ :=
    StructuralOp.run_next (by decide)
  have hrun₄ : (StructuralOp.deleteGroup 2 default).run m₃ = .ok m₄ :=
    StructuralOp.run_next (by decide)
  have h₂ : Meantime 9 3 m₁ m₂ := .step (.refl m₁) hrun₂ trivial (by decide)
  have h₃ : Meantime 9 3 m₁ m₃ := .step h₂ hrun₃ trivial (by decide)
  have h₄ : Meantime 9 3 m₁ m₄ := .step h₃ hrun₄ trivial (by decide)
  have hr₄ : RootedAt m₄ 1 := .of_walks (by decide) (by decide) (by decide)
  obtain ⟨m₅, row, hrestore, hrow, -, hgone⟩ :=
    (recycle_and_restore (nestedMirror_groupTree true) hroot rfl).2.1 hout default 4 3 m₁ m₄
      hrun₁ (by decide) h₄
      (groupTree_iff.2 ⟨1, hr₄⟩) (binShallow_of_length hr₄ (by decide)) default
  refine ⟨m₅, row, hrestore, hrow, ?_⟩
  have hsome := hgone fun h => absurd h.1 (by decide)
  rw [GroupTree.rootUuid? hr₄] at hsome
  exact (Option.some.inj hsome).symm

/-! ## A bin that is too deep -/

def chainUuid (i : Nat) : Uuid := Fin.ofNat (2 ^ 128) i

theorem chainUuid_inj {i j : Nat} (hi : i < 2 ^ 128) (hj : j < 2 ^ 128)
    (h : chainUuid i = chainUuid j) : i = j := by
  have hval : i % 2 ^ 128 = j % 2 ^ 128 := congrArg Fin.val h
  rwa [Nat.mod_eq_of_lt hi, Nat.mod_eq_of_lt hj] at hval

/-- The `i`th group of a chain, under the one before it; the second is the bin. -/
def chainRow (i : Nat) : GroupRow where
  uuid := chainUuid i
  parentUuid := if i = 0 then none else some (chainUuid (i - 1))
  isRecycleBin := i = 1

theorem chainRow_mem {n i : Nat} (hi : i ≤ n) : chainRow i ∈ (List.range (n + 1)).map chainRow :=
  List.mem_map_of_mem (List.mem_range.2 (by omega))

/-- A chain of `n + 1` groups from the root through the bin, and an entry in the last. -/
def chainMirror (n : Nat) (h : n < 2 ^ 128) : Mirror where
  groups := ⟨(List.range (n + 1)).map chainRow, by
    rw [List.map_map]
    refine List.Nodup.map_on (fun i hi j hj hij => ?_) List.nodup_range
    rw [List.mem_range] at hi hj
    exact chainUuid_inj (by omega) (by omega) hij⟩
  entries := ⟨[{ uuid := 0, groupUuid := chainUuid n }], List.nodup_singleton _⟩
  fkParent := by
    intro g hg p hp
    obtain ⟨i, hi, rfl⟩ := List.mem_map.1 hg
    rw [List.mem_range] at hi
    by_cases h0 : i = 0
    · simp [chainRow, h0] at hp
    · rw [chainRow, if_neg h0] at hp
      obtain rfl := Option.some.inj hp
      exact List.mem_map_of_mem (f := GroupRow.uuid) (chainRow_mem (n := n) (by omega))
  fkGroup := by
    intro e he
    obtain rfl := List.mem_singleton.1 he
    exact List.mem_map_of_mem (f := GroupRow.uuid) (chainRow_mem (Nat.le_refl n))

section Chain

variable {n : Nat} {h : n < 2 ^ 128}

theorem chainMirror_parent {i : Nat} (hi : i + 1 ≤ n) :
    (chainMirror n h).parentOf (chainUuid (i + 1)) = some (chainUuid i) := by
  have hrow : chainRow (i + 1) ∈ (chainMirror n h).groups.rows := chainRow_mem hi
  exact parentOf_of_mem hrow

/-- Walking up the chain counts down. -/
theorem chainMirror_up (k i : Nat) (hi : k + i ≤ n) :
    up (chainMirror n h).parentOf k (chainUuid (k + i)) = some (chainUuid i) := by
  induction k with
  | zero => rw [Nat.zero_add]; rfl
  | succ k ih =>
    rw [Nat.succ_add] at hi ⊢
    rw [up_succ_of_par (chainMirror_parent hi), ih (by omega)]

theorem chainMirror_rooted : RootedAt (chainMirror n h) (chainUuid 0) := by
  have hroot : chainRow 0 ∈ (chainMirror n h).groups.rows := chainRow_mem (Nat.zero_le n)
  refine ⟨Table.key_mem hroot, parentOf_of_mem hroot, fun _ hp => (mem_keys_of_parentOf hp).2,
    fun {x} hx => ?_⟩
  obtain ⟨g, hg, rfl⟩ := Table.mem_keys.1 hx
  obtain ⟨i, hi, rfl⟩ := List.mem_map.1 hg
  rw [List.mem_range] at hi
  exact ⟨i, chainMirror_up i 0 (by omega)⟩

theorem chainMirror_bin (hn : 1 ≤ n) : (chainMirror n h).recycleBinUuid = some (chainUuid 1) := by
  have hone : OneBin (chainMirror n h) := by
    intro a ha b hb haflag hbflag
    obtain ⟨i, -, rfl⟩ := List.mem_map.1 ha
    obtain ⟨j, -, rfl⟩ := List.mem_map.1 hb
    have hi : i = 1 := of_decide_eq_true haflag
    have hj : j = 1 := of_decide_eq_true hbflag
    rw [hi, hj]
  rw [recycleBinUuid_iff hone, binFlag_iff]
  exact ⟨_, chainRow_mem hn, rfl, rfl⟩

/-- The entry at the end of a long chain is in the bin, and `restore_entry` leaves it there. -/
theorem chainMirror_restore (hn : 10001 ≤ n) (now : EpochMs) :
    GroupTree (chainMirror n h) ∧ BinNotRoot (chainMirror n h) ∧
      ∃ row, (chainMirror n h).entries.find? 0 = some row ∧
        InBin (chainMirror n h) row.groupUuid ∧
        (chainMirror n h).restoreEntry 0 now = .ok (chainMirror n h) := by
  have hbin := chainMirror_bin (h := h) (by omega)
  have hup : up (chainMirror n h).parentOf (n - 1) (chainUuid n) = some (chainUuid 1) := by
    have hcount := chainMirror_up (h := h) (n - 1) 1 (by omega)
    rwa [Nat.sub_add_cancel (by omega)] at hcount
  have hlast : chainUuid n ∈ (chainMirror n h).groups.keys :=
    List.mem_map_of_mem (f := GroupRow.uuid) (chainRow_mem (Nat.le_refl n))
  have hunseen : (chainMirror n h).groupInBinSubtree (chainUuid n) = false := by
    rw [← Bool.not_eq_true, groupInBinSubtree_eq, walksTo_iff]
    rintro ⟨bin, hbin', k, hk, hup'⟩
    obtain rfl := Option.some.inj (hbin.symm.trans hbin')
    have hlen := chainMirror_rooted.steps_unique hlast hup hup'
    omega
  have hrow : (chainMirror n h).entries.find? 0 = some { uuid := 0, groupUuid := chainUuid n } := rfl
  refine ⟨groupTree_iff.2 ⟨_, chainMirror_rooted⟩, ?_, _, hrow, ⟨_, hbin, n - 1, hup⟩, ?_⟩
  · intro bin hbin'
    obtain rfl := Option.some.inj (hbin.symm.trans hbin')
    simp [chainMirror_parent (h := h) (i := 0) (by omega)]
  · unfold Mirror.restoreEntry
    rw [hrow]
    dsimp only
    rw [hunseen]
    rfl

end Chain

/-- A bin with more than ten thousand groups nested in it: the entry in the last is not restored. -/
theorem deep_entry_not_restored :
    let m := chainMirror 10001 (by omega)
    GroupTree m ∧ BinNotRoot m ∧ ∃ row, m.entries.find? 0 = some row ∧ InBin m row.groupUuid ∧
      m.restoreEntry 0 default = .ok m :=
  chainMirror_restore (Nat.le_refl _) default

end KeysCore.Verify
