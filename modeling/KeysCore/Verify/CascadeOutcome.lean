import KeysCore.Verify.Cascade
import KeysCore.Verify.StructuralRuns

/-!
# A group deletion succeeds and reports what it took

In a tree the cascade meets no foreign key and does not run out of steps: when the row of a group goes,
its children and its entries have gone before. `Cascaded` says all a deletion does: the groups of a set
and the entries in them are gone, each has a tombstone of the moment and no other tombstone changes, and
the outcome lists each once with where it was, a group after those below it. `Cascaded.append` is the
step: what is deleted later is listed later, and is read in the tables the earlier deletions left.
-/

namespace KeysCore.Verify

open Lib Lib.Forest

/-- The lists of two deletions. -/
def outcomeAppend (a b : DeleteGroupOutcome) : DeleteGroupOutcome :=
  ⟨a.deletedGroups ++ b.deletedGroups, a.deletedEntries ++ b.deletedEntries⟩

/-- A deletion of the groups `P` and of the entries in the groups `E` takes the object `u`. -/
def Takes (m : Mirror) (P E : Uuid → Prop) (u : Uuid) : Prop :=
  P u ∨ ∃ e ∈ m.entries.rows, e.uuid = u ∧ E e.groupUuid

/-- `m'` is `m` after the groups `P` and the entries in the groups `E` are deleted, and `out` says so. -/
structure Cascaded (now : EpochMs) (m m' : Mirror) (out : DeleteGroupOutcome) (P E : Uuid → Prop) :
    Prop where
  groups : ∀ g, g ∈ m'.groups.rows ↔ g ∈ m.groups.rows ∧ ¬ P g.uuid
  entries : ∀ e, e ∈ m'.entries.rows ↔ e ∈ m.entries.rows ∧ ¬ E e.groupUuid
  stamped : ∀ u, Takes m P E u → m'.tombstones.find? u = some ⟨u, some now⟩
  kept : ∀ u, ¬ Takes m P E u → m'.tombstones.find? u = m.tombstones.find? u
  listed : ∀ u p, (u, p) ∈ out.deletedGroups ↔ P u ∧ p = m.parentOf u
  once : (out.deletedGroups.map (·.1)).Nodup
  childrenFirst : out.deletedGroups.Pairwise fun a b => ¬ Reach m.parentOf b.1 a.1
  listedEntries : ∀ u g, (u, g) ∈ out.deletedEntries ↔
    ∃ e ∈ m.entries.rows, e.uuid = u ∧ e.groupUuid = g ∧ E g
  onceEntries : (out.deletedEntries.map (·.1)).Nodup
  conflicts : m'.conflicts = m.conflicts
  settings : m'.settings = m.settings

namespace Cascaded

variable {now : EpochMs} {m m' m'' : Mirror} {out out' : DeleteGroupOutcome} {P E Q F : Uuid → Prop}

theorem refl (now : EpochMs) (m : Mirror) : Cascaded now m m {} (fun _ => False) fun _ => False where
  groups := by simp
  entries := by simp
  stamped := by simp [Takes]
  kept := by simp
  listed := by simp
  once := List.nodup_nil
  childrenFirst := List.Pairwise.nil
  listedEntries := by simp
  onceEntries := List.nodup_nil
  conflicts := rfl
  settings := rfl

theorem congr (h : Cascaded now m m' out P E) (hP : ∀ u, P u ↔ Q u) (hE : ∀ u, E u ↔ F u) :
    Cascaded now m m' out Q F := by
  obtain rfl : P = Q := funext fun u => propext (hP u)
  obtain rfl : E = F := funext fun u => propext (hE u)
  exact h

theorem mem_keys (h : Cascaded now m m' out P E) {u : Uuid} :
    u ∈ m'.groups.keys ↔ u ∈ m.groups.keys ∧ ¬ P u := by
  constructor
  · intro hu
    obtain ⟨g, hg, rfl⟩ := Table.mem_keys.1 hu
    exact ⟨Table.key_mem ((h.groups g).1 hg).1, ((h.groups g).1 hg).2⟩
  · rintro ⟨hu, hP⟩
    obtain ⟨g, hg, rfl⟩ := Table.mem_keys.1 hu
    exact Table.key_mem ((h.groups g).2 ⟨hg, hP⟩)

theorem parentOf_eq (h : Cascaded now m m' out P E) {u : Uuid} (hu : u ∈ m'.groups.keys) :
    m'.parentOf u = m.parentOf u := by
  obtain ⟨g, hg, rfl⟩ := Table.mem_keys.1 hu
  rw [parentOf_of_mem hg, parentOf_of_mem ((h.groups g).1 hg).1]

/-- What stays hangs as it did. -/
theorem up_eq (h : Cascaded now m m' out P E) {u : Uuid} (hu : u ∈ m'.groups.keys) (k : Nat) :
    up m'.parentOf k u = up m.parentOf k u := by
  refine up_eq_of_closed (Q := (· ∈ m'.groups.keys)) (fun x p hx hp => ?_)
    (fun x hx => h.parentOf_eq hx) k hu
  rw [← h.parentOf_eq hx] at hp
  exact (mem_keys_of_parentOf hp).2

theorem reach_iff (h : Cascaded now m m' out P E) {u v : Uuid} (hu : u ∈ m'.groups.keys) :
    Reach m'.parentOf u v ↔ Reach m.parentOf u v := by
  simp only [Reach, h.up_eq hu]

theorem rooted (h : Cascaded now m m' out P E) {r : Uuid} (hr : RootedAt m r) (hP : ¬ P r) :
    RootedAt m' r := by
  refine hr.restrict (fun u hu => (h.mem_keys.1 hu).1) (h.mem_keys.2 ⟨hr.root_mem, hP⟩) ?_
    fun u hu => h.parentOf_eq hu
  intro u p hu hp
  rw [← h.parentOf_eq hu] at hp
  exact (mem_keys_of_parentOf hp).2

/-- One deletion after another. The groups of the later one are there by then, and those of the earlier
one went with all that was below them. -/
theorem append (h : Cascaded now m m' out P E) (h' : Cascaded now m' m'' out' Q F)
    (hQ : ∀ u, Q u → u ∈ m'.groups.keys) (hP : ∀ u v, Reach m.parentOf u v → P v → P u)
    (hF : ∀ u, F u → ¬ E u) :
    Cascaded now m m'' (outcomeAppend out out') (fun u => P u ∨ Q u) fun u => E u ∨ F u := by
  have hdisj : ∀ u, Q u → ¬ P u := fun u hu => (h.mem_keys.1 (hQ u hu)).2
  have hentry : ∀ e, (e ∈ m'.entries.rows ∧ F e.groupUuid) ↔ e ∈ m.entries.rows ∧ F e.groupUuid := by
    intro e
    rw [h.entries]
    exact ⟨fun ⟨⟨he, _⟩, hf⟩ => ⟨he, hf⟩, fun ⟨he, hf⟩ => ⟨⟨he, hF _ hf⟩, hf⟩⟩
  have htakes : ∀ u, Takes m (fun u => P u ∨ Q u) (fun u => E u ∨ F u) u ↔
      Takes m P E u ∨ Takes m' Q F u := by
    intro u
    unfold Takes
    constructor
    · rintro ((hp | hq) | ⟨e, he, hu, hin | hf⟩)
      · exact .inl (.inl hp)
      · exact .inr (.inl hq)
      · exact .inl (.inr ⟨e, he, hu, hin⟩)
      · obtain ⟨he', -⟩ := (hentry e).2 ⟨he, hf⟩
        exact .inr (.inr ⟨e, he', hu, hf⟩)
    · rintro ((hp | ⟨e, he, hu, hin⟩) | (hq | ⟨e, he, hu, hf⟩))
      · exact .inl (.inl hp)
      · exact .inr ⟨e, he, hu, .inl hin⟩
      · exact .inl (.inr hq)
      · exact .inr ⟨e, ((hentry e).1 ⟨he, hf⟩).1, hu, .inr hf⟩
  refine ⟨fun g => ?_, fun e => ?_, fun u hu => ?_, fun u hu => ?_, fun u p => ?_, ?_, ?_, fun u g => ?_,
    ?_, h'.conflicts.trans h.conflicts, h'.settings.trans h.settings⟩
  · rw [h'.groups, h.groups, and_assoc, not_or]
  · rw [h'.entries, h.entries, and_assoc, not_or]
  · by_cases hlate : Takes m' Q F u
    · exact h'.stamped u hlate
    · rw [h'.kept u hlate]
      exact h.stamped u (((htakes u).1 hu).resolve_right hlate)
  · rw [htakes, not_or] at hu
    rw [h'.kept u hu.2, h.kept u hu.1]
  · rw [outcomeAppend, List.mem_append, h.listed, h'.listed]
    constructor
    · rintro (⟨hp, rfl⟩ | ⟨hq, rfl⟩)
      · exact ⟨.inl hp, rfl⟩
      · exact ⟨.inr hq, h.parentOf_eq (hQ u hq)⟩
    · rintro ⟨hp | hq, rfl⟩
      · exact .inl ⟨hp, rfl⟩
      · exact .inr ⟨hq, (h.parentOf_eq (hQ u hq)).symm⟩
  · rw [outcomeAppend, List.map_append, List.nodup_append]
    refine ⟨h.once, h'.once, fun u hu v hv huv => ?_⟩
    obtain ⟨⟨u, p⟩, hup, rfl⟩ := List.mem_map.1 hu
    obtain ⟨⟨v, q⟩, hvq, rfl⟩ := List.mem_map.1 hv
    obtain rfl : u = v := huv
    exact hdisj u ((h'.listed u q).1 hvq).1 ((h.listed u p).1 hup).1
  · rw [outcomeAppend, List.pairwise_append]
    refine ⟨h.childrenFirst, h'.childrenFirst.imp_of_mem fun {a b} ha hb hab => ?_, fun a ha b hb => ?_⟩
    · have hbQ := ((h'.listed b.1 b.2).1 hb).1
      rwa [h.reach_iff (hQ _ hbQ)] at hab
    · intro hreach
      exact hdisj _ ((h'.listed b.1 b.2).1 hb).1 (hP _ _ hreach ((h.listed a.1 a.2).1 ha).1)
  · rw [outcomeAppend, List.mem_append, h.listedEntries, h'.listedEntries]
    constructor
    · rintro (⟨e, he, hu, hg, hin⟩ | ⟨e, he, hu, rfl, hf⟩)
      · exact ⟨e, he, hu, hg, .inl hin⟩
      · exact ⟨e, ((hentry e).1 ⟨he, hf⟩).1, hu, rfl, .inr hf⟩
    · rintro ⟨e, he, hu, rfl, hin | hf⟩
      · exact .inl ⟨e, he, hu, rfl, hin⟩
      · exact .inr ⟨e, ((hentry e).2 ⟨he, hf⟩).1, hu, rfl, hf⟩
  · rw [outcomeAppend, List.map_append, List.nodup_append]
    refine ⟨h.onceEntries, h'.onceEntries, fun u hu v hv huv => ?_⟩
    obtain ⟨⟨u, g⟩, hug, rfl⟩ := List.mem_map.1 hu
    obtain ⟨⟨v, k⟩, hvk, rfl⟩ := List.mem_map.1 hv
    obtain rfl : u = v := huv
    obtain ⟨e, he, heu, rfl, hin⟩ := (h.listedEntries u g).1 hug
    obtain ⟨e', he', heu', rfl, hf⟩ := (h'.listedEntries u k).1 hvk
    have hsame : e = e' := Table.eq_of_key he ((h.entries e').1 he').1 (heu.trans heu'.symm)
    exact hF _ hf (hsame ▸ hin)

end Cascaded

/-! ## The statements -/

theorem recordTombstones_find? (now : EpochMs) (es : List Uuid) (m : Mirror) (u : Uuid) :
    (es.foldl (fun m e => m.recordTombstone e now) m).tombstones.find? u =
      if u ∈ es then some ⟨u, some now⟩ else m.tombstones.find? u := by
  induction es generalizing m with
  | nil => simp
  | cons e es ih =>
    rw [List.foldl_cons, ih]
    have hput : (m.recordTombstone e now).tombstones.find? u =
        if e = u then some ⟨e, some now⟩ else m.tombstones.find? u := Table.find?_put _ _ _
    by_cases hu : u ∈ es
    · rw [if_pos hu, if_pos (List.mem_cons_of_mem _ hu)]
    · rw [if_neg hu, hput]
      by_cases heu : e = u
      · rw [if_pos heu, if_pos (by simp [heu]), heu]
      · rw [if_neg heu, if_neg (by simp [hu, Ne.symm heu])]

theorem recordTombstones_frame (now : EpochMs) (es : List Uuid) (m : Mirror) :
    (es.foldl (fun m e => m.recordTombstone e now) m).conflicts = m.conflicts ∧
      (es.foldl (fun m e => m.recordTombstone e now) m).settings = m.settings := by
  induction es generalizing m with
  | nil => exact ⟨rfl, rfl⟩
  | cons e es ih => exact ih (m.recordTombstone e now)

/-- `delete_direct_child_entries` deletes the entries in the group and no group. -/
theorem deleteDirectChildEntries_cascaded (now : EpochMs) (u : Uuid)
    (st : Mirror × DeleteGroupOutcome) : ∃ out,
      (Mirror.deleteDirectChildEntries now u u st).2 = outcomeAppend st.2 out ∧
      Cascaded now st.1 (Mirror.deleteDirectChildEntries now u u st).1 out (fun _ => False) (· = u) := by
  have hchild : ∀ v, v ∈ (st.1.entries.rows.filter (·.groupUuid = u)).map (·.uuid) ↔
      Takes st.1 (fun _ => False) (· = u) v := by
    intro v
    simp only [List.mem_map, List.mem_filter, decide_eq_true_eq, Takes, false_or]
    exact ⟨fun ⟨e, ⟨he, hg⟩, hv⟩ => ⟨e, he, hv, hg⟩, fun ⟨e, he, hv, hg⟩ => ⟨e, ⟨he, hg⟩, hv⟩⟩
  refine ⟨⟨[], ((st.1.entries.rows.filter (·.groupUuid = u)).map (·.uuid)).map fun e => (e, u)⟩, ?_, ?_⟩
  · rw [Mirror.deleteDirectChildEntries, outcomeAppend, List.append_nil]
  · refine ⟨fun g => ?_, fun e => deleteDirectChildEntries_entries now u u st e, fun v hv => ?_,
      fun v hv => ?_, by simp, List.nodup_nil, List.Pairwise.nil, fun v g => ?_, ?_, ?_, ?_⟩
    · rw [deleteDirectChildEntries_groups]
      simp
    · exact (recordTombstones_find? now _ st.1 v).trans (if_pos ((hchild v).2 hv))
    · exact (recordTombstones_find? now _ st.1 v).trans (if_neg fun h => hv ((hchild v).1 h))
    · simp only [List.map_map, List.mem_map, List.mem_filter, decide_eq_true_eq, Function.comp,
        Prod.mk.injEq]
      constructor
      · rintro ⟨e, ⟨he, hg⟩, hv, rfl⟩
        exact ⟨e, he, hv, hg, rfl⟩
      · rintro ⟨e, he, hv, hg, rfl⟩
        exact ⟨e, ⟨he, hg⟩, hv, rfl⟩
    · have hkeys : (st.1.entries.rows.filter (·.groupUuid = u)).map (·.uuid) |>.Nodup :=
        st.1.entries.nodup.sublist (List.filter_sublist.map _)
      simpa [Function.comp_def] using hkeys
    · exact (recordTombstones_frame now _ st.1).1
    · exact (recordTombstones_frame now _ st.1).2

/-- The row of a group without children and entries goes, and leaves a tombstone. -/
theorem deleteGroupRow_cascaded (now : EpochMs) {m : Mirror} {u : Uuid} (hu : u ∈ m.groups.keys)
    (hkids : ∀ v, m.parentOf v ≠ some u) (hentries : ∀ e ∈ m.entries.rows, e.groupUuid ≠ u) :
    ∃ m', m.deleteGroupRow u = .ok m' ∧
      Cascaded now m (m'.recordTombstone u now) ⟨[(u, m.parentOf u)], []⟩ (· = u) fun _ => False := by
  have hrow : u ∈ m.groups.keys → (∀ g ∈ m.groups.rows, g.parentUuid = some u → g.uuid = u) ∧
      ∀ e ∈ m.entries.rows, e.groupUuid ≠ u := by
    refine fun _ => ⟨fun g hg hp => ?_, hentries⟩
    exact absurd (by rw [parentOf_of_mem hg, hp]) (hkids g.uuid)
  have hput : ∀ v, ((m.tombstones.put ⟨u, some now⟩).find? v) =
      if u = v then some ⟨u, some now⟩ else m.tombstones.find? v := fun v => Table.find?_put _ _ _
  rw [Mirror.deleteGroupRow, dif_pos hrow]
  refine ⟨_, rfl, ⟨fun g => ?_, by simp [Mirror.recordTombstone, Mirror.putTombstone], fun v hv => ?_,
    fun v hv => ?_, fun v p => ?_, by simp, by simp, by simp, List.nodup_nil, rfl, rfl⟩⟩
  · exact Table.mem_delete
  · obtain rfl : v = u := by simpa [Takes] using hv
    exact (hput v).trans (if_pos rfl)
  · have hne : v ≠ u := by simpa [Takes] using hv
    exact (hput v).trans (if_neg hne.symm)
  · simp only [List.mem_singleton, Prod.mk.injEq]
    exact and_congr_right fun h => by rw [h]

/-! ## The cascade -/

theorem outcomeAppend_assoc (a b c : DeleteGroupOutcome) :
    outcomeAppend (outcomeAppend a b) c = outcomeAppend a (outcomeAppend b c) := by
  simp [outcomeAppend]

theorem outcomeAppend_empty (a : DeleteGroupOutcome) : outcomeAppend a {} = a := by
  simp [outcomeAppend]

/-- What is below a group that is deleted is deleted. -/
theorem below_of_reach {m : Mirror} {cs : List Uuid} {u v : Uuid} (h : Reach m.parentOf u v) :
    Below m.groups cs v → Below m.groups cs u :=
  fun ⟨c, hc, hv⟩ => ⟨c, hc, h.trans hv⟩

/-- The root stays when it is not one of the children that go. -/
theorem Cascaded.rooted_of_notMem {now : EpochMs} {m m' : Mirror} {out : DeleteGroupOutcome}
    {cs : List Uuid} {r : Uuid} (h : Cascaded now m m' out (Below m.groups cs) (Below m.groups cs))
    (hr : RootedAt m r) (hcs : r ∉ cs) : RootedAt m' r := by
  apply h.rooted hr
  rintro ⟨d, hd, hreach⟩
  obtain rfl | ⟨p, hp, -⟩ := reach_iff_parent.1 hreach
  · exact hcs hd
  · have hroot : parentIn m.groups r = none := hr.root_par
    rw [hroot] at hp
    cases hp

/-- The children of a group, deleted one after the other. The induction is on the children left, `cs`
those already gone. -/
theorem foldlM_cascaded {now : EpochMs} {m : Mirror} {r u : Uuid} (hr : RootedAt m r)
    (hu : u ∈ m.groups.keys) {f : Mirror × DeleteGroupOutcome → Uuid →
      Except EngineError (Mirror × DeleteGroupOutcome)}
    (hf : ∀ st cs out, Cascaded now m st.1 out (Below m.groups cs) (Below m.groups cs) → r ∉ cs →
      ∀ c ∈ st.1.groups.keys, m.parentOf c = some u → ∃ m' out',
        f st c = .ok (m', outcomeAppend st.2 out') ∧
        Cascaded now st.1 m' out' (Reach st.1.parentOf · c) (Reach st.1.parentOf · c))
    (cs : List Uuid) {ds : List Uuid} (st : Mirror × DeleteGroupOutcome) {out : DeleteGroupOutcome}
    (hkids : ∀ c ∈ cs ++ ds, m.parentOf c = some u) (hnd : (cs ++ ds).Nodup)
    (h : Cascaded now m st.1 out (Below m.groups cs) (Below m.groups cs)) :
    ∃ m' out', ds.foldlM f st = .ok (m', outcomeAppend st.2 out') ∧
      Cascaded now m m' (outcomeAppend out out') (Below m.groups (cs ++ ds))
        (Below m.groups (cs ++ ds)) := by
  have hsibling : ∀ c d v, m.parentOf c = some u → m.parentOf d = some u → Reach m.parentOf v c →
      Reach m.parentOf v d → c = d := fun c d v hc hd hvc hvd => hr.sibling_unique hu hc hd hvc hvd
  induction ds generalizing cs st out with
  | nil =>
    refine ⟨st.1, {}, ?_, ?_⟩
    · rw [outcomeAppend_empty]
      rfl
    · rwa [outcomeAppend_empty, List.append_nil]
  | cons c ds ih =>
    have hc : m.parentOf c = some u := hkids c (by simp)
    have hcs : c ∉ cs := fun hmem => (List.nodup_append.1 hnd).2.2 c hmem c (by simp) rfl
    have hroot : ∀ d ∈ cs, d ≠ r := by
      rintro d hd rfl
      have hnone := hkids d (List.mem_append_left _ hd)
      rw [hr.root_par] at hnone
      cases hnone
    have hcmem : c ∈ st.1.groups.keys := by
      refine h.mem_keys.2 ⟨(mem_keys_of_parentOf hc).1, ?_⟩
      rintro ⟨d, hd, hreach⟩
      obtain rfl := hsibling c d c hc (hkids d (List.mem_append_left _ hd)) (.refl c) hreach
      exact hcs hd
    obtain ⟨m₁, out₁, hstep, hcasc⟩ := hf st cs out h (fun hmem => hroot r hmem rfl) c hcmem hc
    -- of the tree at the start, the same is below `c` now
    have hbelow : ∀ v, Reach st.1.parentOf v c ↔ Reach m.parentOf v c := by
      intro v
      by_cases hv : v ∈ st.1.groups.keys
      · exact h.reach_iff hv
      · constructor
        · intro hreach
          obtain rfl | ⟨p, hp, -⟩ := reach_iff_parent.1 hreach
          · exact .refl v
          · exact absurd (mem_keys_of_parentOf hp).1 hv
        · intro hreach
          have hvm : v ∈ m.groups.keys := by
            obtain rfl | ⟨p, hp, -⟩ := reach_iff_parent.1 hreach
            · exact (mem_keys_of_parentOf hc).1
            · exact (mem_keys_of_parentOf hp).1
          refine absurd (h.mem_keys.2 ⟨hvm, ?_⟩) hv
          rintro ⟨d, hd, hvd⟩
          obtain rfl := hsibling c d v hc (hkids d (List.mem_append_left _ hd)) hreach hvd
          exact hcs hd
    have hdisj : ∀ v, Reach st.1.parentOf v c → ¬ Below m.groups cs v := by
      rintro v hv ⟨d, hd, hvd⟩
      obtain rfl := hsibling c d v hc (hkids d (List.mem_append_left _ hd)) ((hbelow v).1 hv) hvd
      exact hcs hd
    have hmem : ∀ v, Reach st.1.parentOf v c → v ∈ st.1.groups.keys := by
      intro v hv
      obtain rfl | ⟨p, hp, -⟩ := reach_iff_parent.1 hv
      · exact hcmem
      · exact (mem_keys_of_parentOf hp).1
    have hboth := (h.append hcasc hmem (fun _ _ => below_of_reach) hdisj).congr
      (Q := Below m.groups (cs ++ [c])) (F := Below m.groups (cs ++ [c]))
      (fun v => by rw [below_append, below_singleton, hbelow]; rfl)
      (fun v => by rw [below_append, below_singleton, hbelow]; rfl)
    obtain ⟨m₂, out₂, hrest, hall⟩ := ih (cs ++ [c]) (m₁, outcomeAppend st.2 out₁)
      (by simpa using hkids) (by simpa using hnd) hboth
    refine ⟨m₂, outcomeAppend out₁ out₂, ?_, ?_⟩
    · rw [List.foldlM_cons, hstep]
      exact hrest.trans (by rw [outcomeAppend_assoc])
    · rwa [outcomeAppend_assoc, List.append_assoc, List.singleton_append] at hall

/-- **The cascade of a group below the root succeeds**, and takes what is below the group. The walk from
the group to the root and the steps left are together no fewer than the groups. -/
theorem deleteGroupRecursive_cascaded (now : EpochMs) {l : List Uuid} {fuel k : Nat} {u r : Uuid}
    (st : Mirror × DeleteGroupOutcome) (hr : RootedAt st.1 r) (hu : u ∈ st.1.groups.keys) (hne : u ≠ r)
    (hk : up st.1.parentOf k u = some r) (hl : ∀ x ∈ st.1.groups.keys, x ∈ l)
    (hfuel : l.length ≤ k + fuel) : ∃ m' out,
      Mirror.deleteGroupRecursive now fuel u (st.1.parentOf u) st = .ok (m', outcomeAppend st.2 out) ∧
      Cascaded now st.1 m' out (Reach st.1.parentOf · u) (Reach st.1.parentOf · u) := by
  induction fuel generalizing k u st with
  | zero =>
    have hlt := hr.up_lt_length hl hu hk
    omega
  | succ fuel ih =>
    have hkids : ∀ c ∈ [] ++ st.1.childGroups u, st.1.parentOf c = some u := fun c hc =>
      childGroups_parent hc
    have hnd : ([] ++ st.1.childGroups u).Nodup := st.1.groups.nodup.sublist (List.filter_sublist.map _)
    have hstart : Cascaded now st.1 st.1 {} (Below st.1.groups []) (Below st.1.groups []) :=
      (Cascaded.refl now st.1).congr (by simp [Below]) (by simp [Below])
    obtain ⟨m₁, out₁, hfold, hcasc₁⟩ := foldlM_cascaded
      (f := fun s c => Mirror.deleteGroupRecursive now fuel c (some u) s) hr hu
      (by
        intro s cs out hs hrcs c hc hcu
        have hcs : s.1.parentOf c = some u := (hs.parentOf_eq hc).trans hcu
        have hrs := hs.rooted_of_notMem hr hrcs
        have hwalk : up s.1.parentOf (k + 1) c = some r := by
          rw [hs.up_eq hc, up_succ_of_par hcu, hk]
        have hcr : c ≠ r := by
          rintro rfl
          rw [hr.root_par] at hcu
          cases hcu
        have hstep := ih s hrs hc hcr hwalk (fun x hx => hl x (hs.mem_keys.1 hx).1) (by omega)
        rwa [hcs] at hstep)
      [] st hkids hnd hstart
    rw [List.nil_append] at hcasc₁
    have hself : ¬ Below st.1.groups (st.1.childGroups u) u := by
      rintro ⟨c, hc, hreach⟩
      have hcu := childGroups_parent hc
      exact hr.not_reach_of_par (mem_keys_of_parentOf hcu).1 hcu hreach
    obtain ⟨out₂, hout₂, hcasc₂⟩ := deleteDirectChildEntries_cascaded now u (m₁, outcomeAppend st.2 out₁)
    have hu₁ : u ∈ m₁.groups.keys := hcasc₁.mem_keys.2 ⟨hu, hself⟩
    have hu₂ := hcasc₂.mem_keys.2 ⟨hu₁, not_false⟩
    obtain ⟨m₃, hm₃, hcasc₃⟩ := deleteGroupRow_cascaded now hu₂
      (by
        intro v hv
        have hv₂ := (mem_keys_of_parentOf hv).1
        have hv₁ := (hcasc₂.mem_keys.1 hv₂).1
        rw [hcasc₂.parentOf_eq hv₂, hcasc₁.parentOf_eq hv₁] at hv
        exact (hcasc₁.mem_keys.1 hv₁).2 ⟨v, mem_childGroups.2 hv, .refl v⟩)
      (fun e he => ((hcasc₂.entries e).1 he).2)
    have hparent : (Mirror.deleteDirectChildEntries now u u (m₁, outcomeAppend st.2 out₁)).1.parentOf u =
        st.1.parentOf u := by
      rw [hcasc₂.parentOf_eq hu₂, hcasc₁.parentOf_eq hu₁]
    rw [hparent] at hcasc₃
    have hentries := hcasc₁.append hcasc₂ (fun _ hv => hv.elim) (fun _ _ => below_of_reach)
      (fun v hv => hv ▸ hself)
    have hwhole := hentries.append hcasc₃ (fun v hv => hv ▸ hu₂)
      (fun v w hreach hw => .inl (below_of_reach hreach (hw.resolve_right not_false)))
      (fun _ hv => hv.elim)
    have hbelow : ∀ v, Reach st.1.parentOf v u ↔ v = u ∨ Below st.1.groups (st.1.childGroups u) v :=
      fun v => below_singleton.symm.trans below_iff_child
    refine ⟨m₃.recordTombstone u now, outcomeAppend (outcomeAppend out₁ out₂)
      ⟨[(u, st.1.parentOf u)], []⟩, ?_, ?_⟩
    · have hrun : Mirror.deleteGroupRecursive now (fuel + 1) u (st.1.parentOf u) st =
          ((st.1.childGroups u).foldlM (fun s c => Mirror.deleteGroupRecursive now fuel c (some u) s)
            st >>= fun s => (Mirror.deleteDirectChildEntries now u u s).1.deleteGroupRow u >>= fun m =>
              pure (m.recordTombstone u now, outcomeAppend (Mirror.deleteDirectChildEntries now u u s).2
                ⟨[(u, st.1.parentOf u)], []⟩)) := by
        rw [Mirror.deleteGroupRecursive]
        simp only [outcomeAppend, List.append_nil]
      rw [hrun, hfold]
      simp only [bind, Except.bind, hm₃, hout₂, pure, Except.pure, outcomeAppend_assoc]
    · refine (hwhole.congr (fun v => ?_) fun v => ?_)
      · rw [hbelow]
        tauto
      · rw [hbelow]
        tauto

/-! ## The operations -/

/-- The walk of a group to the root. -/
theorem RootedAt.walk {m : Mirror} {r u : Uuid} (hr : RootedAt m r) (hu : u ∈ m.groups.keys) :
    ∃ k, up m.parentOf k u = some r := hr.reach_root hu

theorem deleteGroup_cascaded {m : Mirror} {r u : Uuid} (hr : RootedAt m r) (hu : u ∈ m.groups.keys)
    (hne : m.parentOf u ≠ none) (now : EpochMs) : ∃ m' out, m.deleteGroup u now = .ok (m', out) ∧
      Cascaded now m m' out (Reach m.parentOf · u) (Reach m.parentOf · u) := by
  obtain ⟨row, hrow, rfl⟩ := Table.mem_keys.1 hu
  obtain ⟨k, hk⟩ := hr.walk hu
  have hroot : row.uuid ≠ r := fun h => hne (h ▸ hr.root_par)
  have hlen : m.groups.keys.length ≤ k + m.groups.rows.length := by
    rw [Table.keys, List.length_map]
    omega
  obtain ⟨m', out, hrun, hcasc⟩ := deleteGroupRecursive_cascaded now (m, {}) hr hu hroot hk
    (fun _ hx => hx) hlen
  refine ⟨m', out, ?_, hcasc⟩
  rw [Mirror.deleteGroup, Table.find?_of_mem hrow]
  rw [parentOf_of_mem hrow] at hrun
  exact hrun

theorem emptyRecycleBin_cascaded {m : Mirror} {r bin : Uuid} (hr : RootedAt m r)
    (hbin : m.recycleBinUuid = some bin) (now : EpochMs) :
    ∃ m' out, m.emptyRecycleBin now = .ok (m', out) ∧ bin ∈ m'.groups.keys ∧
      Cascaded now m m' out (fun v => v ≠ bin ∧ Reach m.parentOf v bin) (Reach m.parentOf · bin) := by
  have hmem : bin ∈ m.groups.keys := recycleBinUuid_mem hbin
  have hkids : ∀ c ∈ [] ++ m.childGroups bin, m.parentOf c = some bin := fun c hc =>
    childGroups_parent hc
  have hnd : ([] ++ m.childGroups bin).Nodup := m.groups.nodup.sublist (List.filter_sublist.map _)
  have hstart : Cascaded now m m {} (Below m.groups []) (Below m.groups []) :=
    (Cascaded.refl now m).congr (by simp [Below]) (by simp [Below])
  obtain ⟨m₁, out₁, hfold, hcasc₁⟩ := foldlM_cascaded
    (f := fun s c => Mirror.deleteGroupRecursive now m.groups.rows.length c (some bin) s) hr hmem
    (by
      intro s cs out hs hrcs c hc hcu
      have hcs : s.1.parentOf c = some bin := (hs.parentOf_eq hc).trans hcu
      have hrs := hs.rooted_of_notMem hr hrcs
      obtain ⟨k, hk⟩ := hrs.walk hc
      have hcr : c ≠ r := by
        rintro rfl
        rw [hr.root_par] at hcu
        cases hcu
      have hlen : m.groups.keys.length ≤ k + m.groups.rows.length := by
        rw [Table.keys, List.length_map]
        omega
      have hstep := deleteGroupRecursive_cascaded now s hrs hc hcr hk
        (fun x hx => (hs.mem_keys.1 hx).1) hlen
      rwa [hcs] at hstep)
    [] (m, {}) hkids hnd hstart
  rw [List.nil_append] at hcasc₁
  have hself : ¬ Below m.groups (m.childGroups bin) bin := by
    rintro ⟨c, hc, hreach⟩
    have hcu := childGroups_parent hc
    exact hr.not_reach_of_par (mem_keys_of_parentOf hcu).1 hcu hreach
  obtain ⟨out₂, hout₂, hcasc₂⟩ := deleteDirectChildEntries_cascaded now bin (m₁, outcomeAppend {} out₁)
  have hbin₁ : bin ∈ m₁.groups.keys := hcasc₁.mem_keys.2 ⟨hmem, hself⟩
  have hboth := hcasc₁.append hcasc₂ (fun _ hv => hv.elim) (fun _ _ => below_of_reach)
    (fun v hv => hv ▸ hself)
  have hbelow : ∀ v, Reach m.parentOf v bin ↔ v = bin ∨ Below m.groups (m.childGroups bin) v :=
    fun v => below_singleton.symm.trans below_iff_child
  refine ⟨_, outcomeAppend {} (outcomeAppend out₁ out₂), ?_, hcasc₂.mem_keys.2 ⟨hbin₁, not_false⟩, ?_⟩
  · rw [Mirror.emptyRecycleBin, hbin]
    simp only [hfold, bind, Except.bind, pure, Except.pure]
    rw [← outcomeAppend_assoc, ← hout₂]
  · refine hboth.congr (fun v => ?_) fun v => ?_
    · rw [hbelow]
      constructor
      · rintro (hv | hv)
        · exact ⟨fun h => hself (h ▸ hv), .inr hv⟩
        · exact hv.elim
      · rintro ⟨hne, hv | hv⟩
        · exact absurd hv hne
        · exact .inl hv
    · rw [hbelow]
      exact or_comm

/-- **A group deletion is complete and exact.** In a tree the deletion of a group below the root takes
the groups of its subtree and the entries in them, stamps a tombstone for each and touches no other, and
reports each once with where it was, children before parents. Emptying the bin does the same to what is
in the bin, and keeps the bin. Both return: no foreign key is violated on the way. -/
theorem deletions_exact {m : Mirror} (ht : GroupTree m) (now : EpochMs) :
    (∀ u ∈ m.groups.keys, m.parentOf u ≠ none → ∃ m' out, m.deleteGroup u now = .ok (m', out) ∧
      Cascaded now m m' out (Reach m.parentOf · u) (Reach m.parentOf · u)) ∧
    match m.recycleBinUuid with
    | none => m.emptyRecycleBin now = .ok (m, {})
    | some bin => ∃ m' out, m.emptyRecycleBin now = .ok (m', out) ∧ bin ∈ m'.groups.keys ∧
        Cascaded now m m' out (fun v => v ≠ bin ∧ Reach m.parentOf v bin)
          (Reach m.parentOf · bin) := by
  obtain ⟨r, hr⟩ := groupTree_iff.1 ht
  refine ⟨fun u hu hne => deleteGroup_cascaded hr hu hne now, ?_⟩
  cases hbin : m.recycleBinUuid with
  | none => simp only [Mirror.emptyRecycleBin, hbin]
  | some bin => exact emptyRecycleBin_cascaded hr hbin now

/-- The group above the bin goes with the bin and its entry, and the bin is listed first. -/
theorem deletions_exact_nested :
    (∃ m' out, (nestedMirror true).deleteGroup 2 default = .ok (m', out) ∧
      Cascaded default (nestedMirror true) m' out (Reach (nestedMirror true).parentOf · 2)
        (Reach (nestedMirror true).parentOf · 2)) ∧
      ((nestedMirror true).deleteGroup 2 default).map (·.2) =
        .ok ⟨[(3, some 2), (2, some 1)], [(9, 2)]⟩ :=
  ⟨(deletions_exact (nestedMirror_groupTree true) default).1 2 (by decide) (by decide), by decide⟩

end KeysCore.Verify
