import KeysCore.Verify.GroupTree

/-!
# What a group deletion takes with it

`delete_group_recursive` removes the groups below the one deleted, removes the entries in them, and
leaves a tombstone for each (`deleteGroupRecursive_subtrees`). The step of the recursion is
`RemovesSubtrees.append`: groups deleted one after the other remove what is below any of them, the
later deletions being seen in the tables the earlier ones left.
-/

namespace KeysCore.Verify

open Lib Lib.Forest

/-- `v` is below one of `cs` in `T`, or is one of them. -/
def Below (T : Table GroupRow.uuid) (cs : List Uuid) (v : Uuid) : Prop :=
  ∃ c ∈ cs, Reach (parentIn T) v c

theorem below_append {T : Table GroupRow.uuid} {cs ds : List Uuid} {v : Uuid} :
    Below T (cs ++ ds) v ↔ Below T cs v ∨ Below T ds v := by
  simp only [Below, List.mem_append, or_and_right, exists_or]

theorem below_singleton {T : Table GroupRow.uuid} {c v : Uuid} :
    Below T [c] v ↔ Reach (parentIn T) v c := by
  simp [Below]

theorem mem_childGroups {m : Mirror} {p c : Uuid} :
    c ∈ m.childGroups p ↔ m.parentOf c = some p := by
  refine ⟨childGroups_parent, fun h => ?_⟩
  obtain ⟨g, hg, rfl, hp⟩ := parentOf_eq_some.1 h
  exact List.mem_map.2 ⟨g, List.mem_filter.2 ⟨hg, by simp [hp]⟩, rfl⟩

/-- Below a group is the group itself, or below one of its children. -/
theorem below_iff_child {m : Mirror} {u v : Uuid} :
    Below m.groups [u] v ↔ v = u ∨ Below m.groups (m.childGroups u) v := by
  rw [below_singleton, reach_iff_child]
  refine or_congr Iff.rfl (exists_congr fun c => ?_)
  rw [mem_childGroups]
  rfl

/-- `m'` is `m` without what is below `cs`, with a tombstone for each object that went. -/
structure RemovesSubtrees (m m' : Mirror) (cs : List Uuid) : Prop where
  groups : RemovesBelow m.groups m'.groups cs
  entries : ∀ e, e ∈ m'.entries.rows ↔ e ∈ m.entries.rows ∧ ¬ Below m.groups cs e.groupUuid
  tombstones : ∀ u, u ∈ m'.tombstones.keys ↔ u ∈ m.tombstones.keys ∨ Below m.groups cs u ∨
    ∃ e ∈ m.entries.rows, e.uuid = u ∧ Below m.groups cs e.groupUuid

theorem RemovesBelow.not_below {T U : Table GroupRow.uuid} {cs : List Uuid}
    (h : RemovesBelow T U cs) {u : Uuid} : u ∈ U.keys ↔ u ∈ T.keys ∧ ¬ Below T cs u := by
  rw [h.mem_keys]
  refine and_congr Iff.rfl ?_
  simp only [Below, not_exists, not_and]

namespace RemovesSubtrees

variable {m m' m'' : Mirror} {cs ds : List Uuid} {u : Uuid}

theorem refl (m : Mirror) : RemovesSubtrees m m [] :=
  ⟨fun g => by simp, fun e => by simp [Below], fun u => by simp [Below]⟩

/-- Of what stays, the same is below `ds` as before. -/
theorem below_iff (h : RemovesSubtrees m m' cs) {v : Uuid} (hv : v ∈ m'.groups.keys) :
    Below m'.groups ds v ↔ Below m.groups ds v :=
  exists_congr fun _ => and_congr Iff.rfl (h.groups.reach_iff m.fkParent hv)

/-- Below a later deletion, or gone with an earlier one. -/
theorem below_or (h : RemovesSubtrees m m' cs) {v : Uuid} :
    Below m.groups cs v ∨ Below m'.groups ds v ↔ Below m.groups cs v ∨ Below m.groups ds v := by
  by_cases hv : v ∈ m'.groups.keys
  · rw [h.below_iff hv]
  · by_cases hcs : Below m.groups cs v
    · exact iff_of_true (.inl hcs) (.inl hcs)
    · -- not a group on either side, so it is below `ds` only as one of them
      have hm : v ∉ m.groups.keys := fun hmem => hv (h.groups.not_below.2 ⟨hmem, hcs⟩)
      have hself : ∀ T : Table GroupRow.uuid, v ∉ T.keys → (Below T ds v ↔ v ∈ ds) := by
        intro T hT
        have hnone : parentIn T v = none := by
          rw [parentIn, Table.find?_eq_none.2 hT]
          rfl
        constructor
        · rintro ⟨c, hc, hr⟩
          rcases reach_iff_parent.1 hr with rfl | ⟨p, hp, -⟩
          · exact hc
          · rw [hnone] at hp
            cases hp
        · exact fun hmem => ⟨v, hmem, .refl v⟩
      rw [hself _ hv, hself _ hm]

theorem append (h : RemovesSubtrees m m' cs) (h' : RemovesSubtrees m' m'' ds) :
    RemovesSubtrees m m'' (cs ++ ds) := by
  refine ⟨h.groups.append m.fkParent h'.groups, fun e => ?_, fun u => ?_⟩
  · rw [h'.entries, h.entries, below_append, not_or, and_assoc]
    refine and_congr_right fun he => and_congr_right fun hn => ?_
    rw [h.below_iff (m'.fkGroup e ((h.entries e).2 ⟨he, hn⟩))]
  · rw [h'.tombstones, h.tombstones]
    have hentry : ∀ e ∈ m.entries.rows, (Below m.groups (cs ++ ds) e.groupUuid ↔
        Below m.groups cs e.groupUuid ∨
          (e ∈ m'.entries.rows ∧ Below m'.groups ds e.groupUuid)) := by
      intro e he
      rw [below_append, ← h.below_or, h.entries e]
      tauto
    have hsub : ∀ e ∈ m'.entries.rows, e ∈ m.entries.rows := fun e he => ((h.entries e).1 he).1
    rw [below_append, ← h.below_or]
    constructor
    · rintro ((hold | hb | ⟨e, he, rfl, hb⟩) | hb | ⟨e, he, rfl, hb⟩)
      · exact .inl hold
      · exact .inr (.inl (.inl hb))
      · exact .inr (.inr ⟨e, he, rfl, (hentry e he).2 (.inl hb)⟩)
      · exact .inr (.inl (.inr hb))
      · exact .inr (.inr ⟨e, hsub e he, rfl, (hentry e (hsub e he)).2 (.inr ⟨he, hb⟩)⟩)
    · rintro (hold | (hb | hb) | ⟨e, he, rfl, hb⟩)
      · exact .inl (.inl hold)
      · exact .inl (.inr (.inl hb))
      · exact .inr (.inl hb)
      · rcases (hentry e he).1 hb with hb | ⟨he', hb⟩
        · exact .inl (.inr (.inr ⟨e, he, rfl, hb⟩))
        · exact .inr (.inr ⟨e, he', rfl, hb⟩)

/-- The entries below a group: those below its children, and its own, which the deletion of the
children leaves. -/
theorem entry_below (h : RemovesSubtrees m m' (m.childGroups u)) (v : Uuid) :
    (∃ e ∈ m'.entries.rows, e.uuid = v ∧ e.groupUuid = u) ∨
        (∃ e ∈ m.entries.rows, e.uuid = v ∧ Below m.groups (m.childGroups u) e.groupUuid) ↔
      ∃ e ∈ m.entries.rows, e.uuid = v ∧ Below m.groups [u] e.groupUuid := by
  constructor
  · rintro (⟨e, he, hv, hg⟩ | ⟨e, he, hv, hb⟩)
    · exact ⟨e, ((h.entries e).1 he).1, hv, below_iff_child.2 (.inl hg)⟩
    · exact ⟨e, he, hv, below_iff_child.2 (.inr hb)⟩
  · rintro ⟨e, he, hv, hb⟩
    by_cases hkid : Below m.groups (m.childGroups u) e.groupUuid
    · exact .inr ⟨e, he, hv, hkid⟩
    · exact .inl ⟨e, (h.entries e).2 ⟨he, hkid⟩, hv, (below_iff_child.1 hb).resolve_right hkid⟩

end RemovesSubtrees

/-! ## The cascade -/

theorem recordTombstone_keys (m : Mirror) (u : Uuid) (now : EpochMs) (v : Uuid) :
    v ∈ (m.recordTombstone u now).tombstones.keys ↔ v = u ∨ v ∈ m.tombstones.keys := by
  unfold Mirror.recordTombstone Mirror.putTombstone
  rw [Table.mem_keys_put]

theorem recordTombstones_keys (now : EpochMs) (es : List Uuid) (m : Mirror) (v : Uuid) :
    v ∈ (es.foldl (fun m e => m.recordTombstone e now) m).tombstones.keys ↔
      v ∈ es ∨ v ∈ m.tombstones.keys := by
  induction es generalizing m with
  | nil => simp
  | cons e es ih =>
    rw [List.foldl_cons, ih, recordTombstone_keys, List.mem_cons]
    tauto

@[simp] theorem recordTombstones_entries (now : EpochMs) (es : List Uuid) (m : Mirror) :
    (es.foldl (fun m e => m.recordTombstone e now) m).entries = m.entries := by
  induction es generalizing m with
  | nil => rfl
  | cons e es ih => rw [List.foldl_cons, ih]; rfl

section DirectChildren

variable (now : EpochMs) (g a : Uuid) (st : Mirror × DeleteGroupOutcome)

theorem deleteDirectChildEntries_entries (e : EntryRow) :
    e ∈ (Mirror.deleteDirectChildEntries now g a st).1.entries.rows ↔
      e ∈ st.1.entries.rows ∧ e.groupUuid ≠ g := by
  unfold Mirror.deleteDirectChildEntries Mirror.deleteEntries
  dsimp only
  rw [Table.mem_delete, recordTombstones_entries]

theorem deleteDirectChildEntries_tombstones (u : Uuid) :
    u ∈ (Mirror.deleteDirectChildEntries now g a st).1.tombstones.keys ↔
      u ∈ st.1.tombstones.keys ∨ ∃ e ∈ st.1.entries.rows, e.uuid = u ∧ e.groupUuid = g := by
  unfold Mirror.deleteDirectChildEntries Mirror.deleteEntries
  dsimp only
  rw [recordTombstones_keys, or_comm]
  refine or_congr Iff.rfl ?_
  simp only [List.mem_map, List.mem_filter, decide_eq_true_eq, and_assoc, and_comm]

end DirectChildren

theorem foldlM_removesSubtrees {f : Mirror × DeleteGroupOutcome → Uuid →
      Except EngineError (Mirror × DeleteGroupOutcome)}
    (hf : ∀ st c st', f st c = .ok st' → RemovesSubtrees st.1 st'.1 [c])
    {cs : List Uuid} {st st' : Mirror × DeleteGroupOutcome} (h : cs.foldlM f st = .ok st') :
    RemovesSubtrees st.1 st'.1 cs := by
  induction cs generalizing st with
  | nil =>
    obtain rfl := Except.ok.inj h
    exact .refl st.1
  | cons c cs ih =>
    rw [List.foldlM_cons] at h
    obtain ⟨mid, hmid, hrest⟩ := except_bind_ok.1 h
    exact (hf st c mid hmid).append (ih hrest)

/-- **On success the cascade has removed what is below the group, and tombstoned it.** -/
theorem deleteGroupRecursive_subtrees {now : EpochMs} {fuel : Nat} {u : Uuid} {parent : Option Uuid}
    {st st' : Mirror × DeleteGroupOutcome}
    (h : Mirror.deleteGroupRecursive now fuel u parent st = .ok st') :
    RemovesSubtrees st.1 st'.1 [u] := by
  have hgroups := deleteGroupRecursive_rows h
  induction fuel generalizing u parent st st' with
  | zero => cases h
  | succ fuel ih =>
    unfold Mirror.deleteGroupRecursive at h
    obtain ⟨mid, hmid, h⟩ := except_bind_ok.1 h
    obtain ⟨m, hm, h⟩ := except_bind_ok.1 h
    obtain rfl := Except.ok.inj h
    have hkids := foldlM_removesSubtrees
      (fun st c st' hc => ih hc (deleteGroupRecursive_rows hc)) hmid
    have hrow : m.entries = (Mirror.deleteDirectChildEntries now u u mid).1.entries ∧
        m.tombstones = (Mirror.deleteDirectChildEntries now u u mid).1.tombstones := by
      unfold Mirror.deleteGroupRow at hm
      split at hm
      · obtain rfl := Except.ok.inj hm
        exact ⟨rfl, rfl⟩
      · cases hm
    refine ⟨hgroups, fun e => ?_, fun v => ?_⟩
    · show e ∈ m.entries.rows ↔ _
      rw [hrow.1, deleteDirectChildEntries_entries, hkids.entries, below_iff_child]
      tauto
    · rw [recordTombstone_keys, hrow.2, deleteDirectChildEntries_tombstones, hkids.tombstones]
      rw [← hkids.entry_below, below_iff_child]
      simp only [or_assoc, or_left_comm, or_comm]

end KeysCore.Verify
